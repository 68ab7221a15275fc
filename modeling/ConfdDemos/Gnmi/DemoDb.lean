import ConfdDemos.AnnStmt.Extraction
import ConfdDemos.Foundation.Dict
import ConfdDemos.Gnmi.RoundTrip
import ConfdDemos.Gnmi.Transaction

/-!
# The databases of the demo adapter

The demo adapter keeps its configuration and its state in two dictionaries from path strings to
value strings. A path is stored as it was spelled when it was written first, and `_nsless_xpath`
removes the module name `ietf-interfaces:` where paths are compared. To answer a request, the
entries of a database are grouped by the interface they belong to, which two regular expressions
find in the path.

Python dictionaries keep the order of insertion, and so does the model. A value of an update is what
is handed to `json.dumps`.

## Data of all types

`get_all_eq_iff` is about requests for all data. The updates from the state database replace
those from the configuration database, so nothing is missing exactly when the request selects no
entry of the configuration.
-/

namespace ConfdDemos.Gnmi

/-! ## Paths -/

/-- `_nsless_xpath`. -/
def nslessXpath (xpath : List Char) : List Char := AnnStmt.replace xpath "ietf-interfaces:" ""

/-- The group of `(.+)\]` at the beginning of a string: the line up to its last bracket. -/
def keyGroup (rest : List Char) : Option (List Char) :=
  let line := rest.takeWhile (· != '\n')
  let group := (line.reverse.dropWhile (· != ']')).tail.reverse
  if group = [] then none else some group

/-- `_get_key_from_xpath`, a search for `\[name=(.+)\]`. -/
def getKeyFromXpath : List Char → Option (List Char)
  | [] => none
  | c :: rest =>
    let found := if "[name=".toList.isPrefixOf (c :: rest) then keyGroup (rest.drop 5) else none
    found.or (getKeyFromXpath rest)

/-- `_get_elem_from_xpath`, a search for `]/(.+)`. -/
def getElemFromXpath : List Char → Option (List Char)
  | [] => none
  | c :: rest =>
    let group := rest.tail.takeWhile (· != '\n')
    if c = ']' ∧ rest.head? = some '/' ∧ group ≠ [] then some group else getElemFromXpath rest

/-! ## Databases -/

/-- A database, by path strings. -/
abbrev Db := List (List Char × List Char)

/-- The values of one interface by element name. A path without one has the element `None`. -/
abbrev ElemMap := List (Option (List Char) × List Char)

/-- `NS_IANA`. -/
def nsIana : List Char := "iana-if-type:".toList

/-- The body of the loop of `_demo_db_to_key_elem_map`. -/
def addEntry (mapDb : List (Option (List Char) × ElemMap)) (entry : List Char × List Char) :
    List (Option (List Char) × ElemMap) :=
  let key := getKeyFromXpath entry.1
  let elem := getElemFromXpath entry.1
  let elemMap := (Dict.get? key mapDb).getD []
  let v := if elem = some "type".toList then nsIana ++ entry.2 else entry.2
  Dict.set key (Dict.set elem v elemMap) mapDb

/-- `_demo_db_to_key_elem_map`. -/
def demoDbToKeyElemMap (db : Db) : List (Option (List Char) × ElemMap) := db.foldl addEntry []

/-! ## Requests -/

/-- What is passed to `json.dumps`: the value of a leaf, the values of an interface, or the object
with all interfaces. -/
inductive DemoVal
  | leaf (v : List Char)
  | entry (m : ElemMap)
  | interfaces (l : List ElemMap)
  deriving DecidableEq

inductive DemoError
  /-- The first key of an empty database is asked for. -/
  | index
  /-- An interface does not have the element asked for. -/
  | key
  /-- `make_gnmi_path` raises. -/
  | path
  deriving DecidableEq

/-- The string a request is compared by. -/
def pathWithPrefix (path gnmiPrefix : Path) : List Char :=
  makeXpathPath (some path) (some gnmiPrefix) false

def isTop (ifaces : List Char) : Bool :=
  ifaces == "/interfaces".toList || ifaces == "/interfaces-state".toList

/-- The entries that start with the path of a request. -/
def startingWith (db : Db) (request : List Char) : List (List Char) :=
  (db.map Prod.fst).filter fun p ↦ (nslessXpath request).isPrefixOf (nslessXpath p)

/-- `p.replace("/type", "").replace("/name", "")`. -/
def dropLeaf (p : List Char) : List Char :=
  AnnStmt.replace (AnnStmt.replace p "/type" "") "/name" ""

/-- What is reported of an interface that `p` belongs to: the element asked for, or all of them. -/
def pathVal (pathElem : Option (List Char)) (p : List Char) (elemVal : ElemMap) :
    Except DemoError (List Char × DemoVal) :=
  match pathElem with
  | some e =>
    match Dict.get? (some e) elemVal with
    | some v => .ok (p, .leaf v)
    | none => .error .key
  | none => .ok (dropLeaf p, .entry elemVal)

/-- The loop over the paths found, with the interfaces that have been reported. -/
def pathVals (mapDb : List (Option (List Char) × ElemMap)) (pathElem : Option (List Char)) :
    List (Option (List Char)) → List (List Char) → Except DemoError (List (List Char × DemoVal))
  | _, [] => .ok []
  | keysDone, p :: paths =>
    let key := getKeyFromXpath p
    if keysDone.contains key then pathVals mapDb pathElem keysDone paths
    else
      match Dict.get? key mapDb with
      | none => .error .key
      | some elemVal => do
        let pv ← pathVal pathElem p elemVal
        let rest ← pathVals mapDb pathElem (key :: keysDone) paths
        .ok (pv :: rest)

/-- The updates for some paths and values, with the prefix cut off. -/
def makeUpdates (prefixLength : ℕ) : List (List Char × DemoVal) →
    Except DemoError (List (Path × DemoVal))
  | [] => .ok []
  | pv :: pathValList =>
    match makeGnmiPath (pv.1.drop prefixLength) with
    | none => .error .path
    | some path => do
      let updates ← makeUpdates prefixLength pathValList
      .ok ((path, pv.2) :: updates)

/-- `path_val_list` of `get_db_updates_for_path`. -/
def pathValList (request : List Char) (db : Db) : Except DemoError (List (List Char × DemoVal)) :=
  let mapDb := demoDbToKeyElemMap db
  let ifaces := nslessXpath request
  if isTop ifaces then
    match db with
    | [] => .error .index
    | first :: _ =>
      if ifaces.isPrefixOf first.1 then
        .ok [(request, DemoVal.interfaces (mapDb.map Prod.snd))]
      else .ok []
  else pathVals mapDb (getElemFromXpath request) [] (startingWith db request)

/-- `get_db_updates_for_path`. -/
def getDbUpdatesForPath (path gnmiPrefix : Path) (db : Db) :
    Except DemoError (List (Path × DemoVal)) := do
  let prefixStr := makeXpathPath none (some gnmiPrefix) false
  let pvs ← pathValList (pathWithPrefix path gnmiPrefix) db
  makeUpdates (nslessXpath prefixStr).length pvs

/-- `GetRequest.DataType`. -/
inductive DataType
  | all
  | config
  | state
  | operational
  deriving DecidableEq, Repr

/-- What a request sees of the adapter. -/
structure DemoAdapter where
  demoDb : Db
  demoStateDb : Db

/-- `get_updates`. -/
def DemoAdapter.getUpdates (a : DemoAdapter) (path gnmiPrefix : Path) (dataType : DataType) :
    Except DemoError (List (Path × DemoVal)) :=
  match dataType with
  | .config => getDbUpdatesForPath path gnmiPrefix a.demoDb
  -- the second assignment to `updates` replaces the first
  | .all => do
    let _ ← getDbUpdatesForPath path gnmiPrefix a.demoDb
    getDbUpdatesForPath path gnmiPrefix a.demoStateDb
  | .state => getDbUpdatesForPath path gnmiPrefix a.demoStateDb
  | .operational => getDbUpdatesForPath path gnmiPrefix a.demoStateDb

/-- `get`, as the updates of the one notification it returns. -/
def DemoAdapter.get (a : DemoAdapter) (gnmiPrefix : Path) (dataType : DataType) :
    List Path → Except DemoError (List (Path × DemoVal))
  | [] => .ok []
  | path :: paths => do
    let updates ← a.getUpdates path gnmiPrefix dataType
    let rest ← a.get gnmiPrefix dataType paths
    .ok (updates ++ rest)

/-! ## Data of all types -/

/-- The request finds an entry: for one of the two containers at the top the first entry of the
database is looked at, and every entry for any other path. -/
def selects (db : Db) (request : List Char) : Bool :=
  if isTop (nslessXpath request) then
    match db with
    | [] => false
    | first :: _ => (nslessXpath request).isPrefixOf first.1
  else db.any fun entry ↦ (nslessXpath request).isPrefixOf (nslessXpath entry.1)

section Selects

variable {db : Db} {request : List Char} {path gnmiPrefix : Path}

theorem startingWith_eq_nil_iff : startingWith db request = [] ↔
    (db.any fun entry ↦ (nslessXpath request).isPrefixOf (nslessXpath entry.1)) = false := by
  rw [startingWith, List.filter_eq_nil_iff, List.any_eq_false, List.forall_mem_map]

/-- The first path of an interface is always reported. -/
theorem pathVals_eq_nil_iff {mapDb : List (Option (List Char) × ElemMap)}
    {pathElem : Option (List Char)} {paths : List (List Char)} {pvs : List (List Char × DemoVal)}
    (h : pathVals mapDb pathElem [] paths = .ok pvs) : pvs = [] ↔ paths = [] := by
  cases paths with
  | nil =>
    rw [pathVals, Except.ok.injEq] at h
    exact iff_of_true h.symm rfl
  | cons p paths =>
    refine iff_of_false ?_ (List.cons_ne_nil _ _)
    rintro rfl
    simp only [pathVals, List.contains_nil, Bool.false_eq_true, if_false] at h
    split at h
    next => exact absurd h (by simp)
    next elemVal _ =>
      obtain ⟨pv, -, h⟩ := bind_eq_ok.mp h
      obtain ⟨rest, -, h⟩ := bind_eq_ok.mp h
      exact absurd h (by simp)

theorem length_makeUpdates {n : ℕ} {pvs : List (List Char × DemoVal)}
    {updates : List (Path × DemoVal)} (h : makeUpdates n pvs = .ok updates) :
    updates.length = pvs.length := by
  induction pvs generalizing updates with
  | nil =>
    rw [makeUpdates, Except.ok.injEq] at h
    rw [← h]
    rfl
  | cons pv pvs ih =>
    rw [makeUpdates] at h
    split at h
    next => exact absurd h (by simp)
    next path _ =>
      obtain ⟨rest, hrest, h⟩ := bind_eq_ok.mp h
      rw [Except.ok.injEq] at h
      rw [← h, List.length_cons, List.length_cons, ih hrest]

theorem pathValList_eq_nil_iff {pvs : List (List Char × DemoVal)}
    (h : pathValList request db = .ok pvs) : pvs = [] ↔ selects db request = false := by
  unfold pathValList at h
  unfold selects
  simp only at h
  split_ifs at h ⊢ with htop
  · cases db with
    | nil => exact absurd h (by simp)
    | cons first db =>
      simp only at h ⊢
      split_ifs at h with hfirst
      · rw [Except.ok.injEq] at h
        simp [← h, hfirst]
      · rw [Except.ok.injEq] at h
        simp [← h, hfirst]
  · exact (pathVals_eq_nil_iff h).trans startingWith_eq_nil_iff

/-- A request that returns has no updates exactly when it selects nothing. -/
theorem getDbUpdatesForPath_eq_nil_iff {updates : List (Path × DemoVal)}
    (h : getDbUpdatesForPath path gnmiPrefix db = .ok updates) :
    updates = [] ↔ selects db (pathWithPrefix path gnmiPrefix) = false := by
  obtain ⟨pvs, hpvs, h⟩ := bind_eq_ok.mp h
  rw [← pathValList_eq_nil_iff hpvs, ← List.length_eq_zero_iff, length_makeUpdates h,
    List.length_eq_zero_iff]

end Selects

section All

variable {a : DemoAdapter} {gnmiPrefix : Path} {paths : List Path}
  {cs ss : List (List (Path × DemoVal))}

/-- `Returns a gnmiPrefix dataType paths us`: for each of the paths, `us` has the updates that the
request returns. -/
def DemoAdapter.Returns (a : DemoAdapter) (gnmiPrefix : Path) (dataType : DataType) :
    List Path → List (List (Path × DemoVal)) → Prop :=
  List.Forall₂ fun path updates ↦ a.getUpdates path gnmiPrefix dataType = .ok updates

theorem get_eq_flatten {dataType : DataType} {us : List (List (Path × DemoVal))}
    (h : a.Returns gnmiPrefix dataType paths us) :
    a.get gnmiPrefix dataType paths = .ok us.flatten := by
  induction h with
  | nil => rfl
  | cons hpath _ ih =>
    rw [DemoAdapter.get, hpath, ih]
    rfl

/-- All data is the state. -/
theorem returns_all (hc : a.Returns gnmiPrefix .config paths cs)
    (hs : a.Returns gnmiPrefix .state paths ss) : a.Returns gnmiPrefix .all paths ss := by
  induction hc generalizing ss with
  | nil =>
    cases hs
    exact .nil
  | cons hpath _ ih =>
    cases hs with
    | cons hpath' hs =>
      refine .cons ?_ (ih hs)
      exact bind_eq_ok.mpr ⟨_, hpath, hpath'⟩

theorem length_flatten_zipWith (hlen : cs.length = ss.length) :
    (List.zipWith (· ++ ·) cs ss).flatten.length = cs.flatten.length + ss.flatten.length := by
  induction cs generalizing ss with
  | nil =>
    obtain rfl : ss = [] := List.length_eq_zero_iff.mp hlen.symm
    rfl
  | cons c cs ih =>
    cases ss with
    | nil => exact absurd hlen (by simp)
    | cons t ss =>
      have ih' := ih (Nat.succ.inj hlen)
      simp only [List.zipWith_cons_cons, List.flatten_cons, List.length_append] at ih' ⊢
      omega

theorem zipWith_append_of_nil (hlen : cs.length = ss.length) (hnil : ∀ c ∈ cs, c = []) :
    List.zipWith (· ++ ·) cs ss = ss := by
  induction cs generalizing ss with
  | nil => exact (List.length_eq_zero_iff.mp hlen.symm).symm
  | cons c cs ih =>
    cases ss with
    | nil => exact absurd hlen (by simp)
    | cons t ss =>
      rw [List.zipWith_cons_cons, hnil c List.mem_cons_self, List.nil_append,
        ih (Nat.succ.inj hlen) fun d hd ↦ hnil d (List.mem_cons_of_mem _ hd)]

theorem forall_nil_iff (hc : a.Returns gnmiPrefix .config paths cs) :
    (∀ c ∈ cs, c = []) ↔
      ∀ path ∈ paths, selects a.demoDb (pathWithPrefix path gnmiPrefix) = false := by
  induction hc with
  | nil => simp
  | cons hpath _ ih =>
    rw [List.forall_mem_cons, List.forall_mem_cons, ih, getDbUpdatesForPath_eq_nil_iff hpath]

/-- **Get of all data.** The updates of the configuration are followed by those of the state, path
by path, exactly when no path selects an entry of the configuration. -/
theorem get_all_eq_iff (hc : a.Returns gnmiPrefix .config paths cs)
    (hs : a.Returns gnmiPrefix .state paths ss) :
    a.get gnmiPrefix .all paths = .ok (List.zipWith (· ++ ·) cs ss).flatten ↔
      ∀ path ∈ paths, selects a.demoDb (pathWithPrefix path gnmiPrefix) = false := by
  have hlen : cs.length = ss.length := hc.length_eq.symm.trans hs.length_eq
  rw [get_eq_flatten (returns_all hc hs), Except.ok.injEq, ← forall_nil_iff hc]
  constructor
  · intro heq
    have hlength := congrArg List.length heq
    rw [length_flatten_zipWith hlen] at hlength
    have hzero : cs.flatten = [] := List.length_eq_zero_iff.mp (by omega)
    exact List.flatten_eq_nil_iff.mp hzero
  · intro hnil
    rw [zipWith_append_of_nil hlen hnil]

/-- The databases of the demo with one interface. -/
def oneInterface : DemoAdapter where
  demoDb := [("/interfaces/interface[name=if_1]/name".toList, "if_1".toList),
    ("/interfaces/interface[name=if_1]/type".toList, "gigabitEthernet".toList)]
  demoStateDb := [("/interfaces-state/interface[name=state_if_1]/name".toList, "state_if_1".toList),
    ("/interfaces-state/interface[name=state_if_1]/type".toList, "gigabitEthernet".toList)]

def interfacesState : Path := ⟨[⟨"interfaces-state".toList, []⟩]⟩

def stateUpdates : List (Path × DemoVal) :=
  [(interfacesState, .interfaces [[(some "name".toList, "state_if_1".toList),
    (some "type".toList, "iana-if-type:gigabitEthernet".toList)]])]

theorem get_all_interfacesState :
    oneInterface.get ⟨[]⟩ .all [interfacesState] = .ok ([[] ++ stateUpdates].flatten) := by
  have hc : oneInterface.Returns ⟨[]⟩ .config [interfacesState] [[]] :=
    .cons (by decide +kernel) .nil
  have hs : oneInterface.Returns ⟨[]⟩ .state [interfacesState] [stateUpdates] :=
    .cons (by decide +kernel) .nil
  exact (get_all_eq_iff hc hs).mpr (by decide +kernel)

/-- What a request for the root finds in the database of the container `top`. -/
def rootUpdates (top name : List Char) : List (Path × DemoVal) :=
  [(⟨[⟨top, []⟩, ⟨"interface".toList, [("name".toList, name)]⟩]⟩,
    .entry [(some "name".toList, name),
      (some "type".toList, "iana-if-type:gigabitEthernet".toList)])]

/-- A request for the root selects entries of both databases, and the configuration is missing in
the answer. -/
theorem not_get_all_root : ∃ cs ss, oneInterface.Returns ⟨[]⟩ .config [⟨[]⟩] cs ∧
    oneInterface.Returns ⟨[]⟩ .state [⟨[]⟩] ss ∧
    oneInterface.get ⟨[]⟩ .all [⟨[]⟩] ≠ .ok (List.zipWith (· ++ ·) cs ss).flatten := by
  refine ⟨[rootUpdates "interfaces".toList "if_1".toList],
    [rootUpdates "interfaces-state".toList "state_if_1".toList], ?_, ?_, by decide +kernel⟩
  · exact .cons (by decide +kernel) .nil
  · exact .cons (by decide +kernel) .nil

end All

end ConfdDemos.Gnmi
