import Mathlib.Data.List.Sort
import Mathlib.Data.List.TakeWhile
import ConfdDemos.Foundation.Machine
import ConfdDemos.Gnmi.DemoSelection

/-!
# Writes to the demo adapter

Two writers share the configuration of the demo adapter: `set_update`, which a client calls, and the
change thread. `set_update` asks for the path without the module name but stores the value under the
path as the client spelled it, so that a leaf gets a second entry when it is written with the module
name. The reader groups the entries by what two regular expressions find in their paths, and where
two entries meet, the later one wins.

## Reading what was written

`DemoRun.written` is what the adapter is for: one value for each leaf, the last one written. The
adapter agrees with it as long as each write goes to the last entry of its leaf or makes a new one.
A write to an earlier entry is stored and never read.
-/

namespace ConfdDemos.Gnmi

/-! ## Leaves of the configuration -/

/-- A leaf of an interface, by the name of the interface and its own. -/
structure IfLeaf where
  iface : List Char
  name : List Char
  deriving DecidableEq

namespace IfLeaf

def front : List Char := "/interfaces/interface[name=".toList

/-- The path of the leaf, without the module name. -/
def text (l : IfLeaf) : List Char := front ++ (l.iface ++ ']' :: '/' :: l.name)

/-- A leaf as `_fill_demo_db` makes them. -/
structure IsDemo (l : IfLeaf) : Prop where
  ne_nil : l.iface ≠ []
  iface : ∀ c ∈ l.iface, (c.isAlphanum || c == '_') = true
  name : l.name = "name".toList ∨ l.name = "type".toList

end IfLeaf

section Leaves

variable {l l' : IfLeaf} {c : Char} {xs ys w : List Char}

theorem IfLeaf.IsDemo.notMem_iface (h : l.IsDemo) (hc : (c.isAlphanum || c == '_') = false) :
    c ∉ l.iface := by
  intro hmem
  rw [h.iface c hmem] at hc
  exact absurd hc (by decide)

theorem IfLeaf.IsDemo.notMem_name (h : l.IsDemo) (hc : (c.isAlphanum || c == '_') = false) :
    c ∉ l.name := by
  have hall : (l.name.all fun c ↦ c.isAlphanum || c == '_') = true := by
    rcases h.name with hname | hname
    · rw [hname]
      decide
    · rw [hname]
      decide
  intro hmem
  rw [List.all_eq_true.mp hall c hmem] at hc
  exact absurd hc (by decide)

/-- The search for a key passes over text without a bracket. -/
theorem getKeyFromXpath_append (h : '[' ∉ xs) :
    getKeyFromXpath (xs ++ ys) = getKeyFromXpath ys := by
  induction xs with
  | nil => rfl
  | cons c xs ih =>
    have hc : ¬ "[name=".toList.isPrefixOf (c :: (xs ++ ys)) = true := by
      rw [List.isPrefixOf_iff_prefix]
      exact fun hpre ↦ h ((List.cons_prefix_cons.mp hpre).1 ▸ List.mem_cons_self)
    rw [List.cons_append, getKeyFromXpath, if_neg hc, Option.none_or,
      ih fun hmem ↦ h (List.mem_cons_of_mem _ hmem)]

/-- The search for an element passes over text without a closing bracket. -/
theorem getElemFromXpath_append (h : ']' ∉ xs) :
    getElemFromXpath (xs ++ ys) = getElemFromXpath ys := by
  induction xs with
  | nil => rfl
  | cons c xs ih =>
    have hc : c ≠ ']' := fun heq ↦ h (heq ▸ List.mem_cons_self)
    rw [List.cons_append, getElemFromXpath, if_neg fun hmatch ↦ hc hmatch.1,
      ih fun hmem ↦ h (List.mem_cons_of_mem _ hmem)]

theorem takeWhile_line (h : '\n' ∉ xs) : xs.takeWhile (· != '\n') = xs := by
  rw [List.takeWhile_eq_self_iff]
  intro c hc
  simpa using fun heq : c = '\n' ↦ h (heq ▸ hc)

/-- The group ends before the last bracket. -/
theorem keyGroup_append (hne : xs ≠ []) (hline : '\n' ∉ xs ++ ']' :: w) (hw : ']' ∉ w) :
    keyGroup (xs ++ ']' :: w) = some xs := by
  have hdrop : (xs ++ ']' :: w).reverse.dropWhile (· != ']') = ']' :: xs.reverse := by
    rw [List.reverse_append, List.reverse_cons, List.append_assoc,
      List.dropWhile_append_of_pos fun c hc ↦ ?_]
    · rfl
    · simpa using fun heq : c = ']' ↦ hw (heq ▸ List.mem_reverse.mp hc)
  unfold keyGroup
  rw [takeWhile_line hline]
  simp only [hdrop, List.tail_cons, List.reverse_reverse]
  rw [if_neg hne]

namespace IfLeaf

theorem IsDemo.getKey_text (h : l.IsDemo) : getKeyFromXpath l.text = some l.iface := by
  have hline : '\n' ∉ l.iface ++ ']' :: '/' :: l.name := by
    simp [h.notMem_iface (by decide : ('\n'.isAlphanum || '\n' == '_') = false),
      h.notMem_name (by decide : ('\n'.isAlphanum || '\n' == '_') = false)]
  have hclose : ']' ∉ '/' :: l.name := by
    simp [h.notMem_name (by decide : (']'.isAlphanum || ']' == '_') = false)]
  have hfront : front = "/interfaces/interface".toList ++ '[' :: "name=".toList := by decide
  have htext : l.text = "/interfaces/interface".toList ++
      '[' :: ("name=".toList ++ (l.iface ++ ']' :: '/' :: l.name)) := by
    rw [text, hfront, List.append_assoc, List.cons_append]
  have hname : "[name=".toList.isPrefixOf
      ('[' :: ("name=".toList ++ (l.iface ++ ']' :: '/' :: l.name))) = true := by
    rw [List.isPrefixOf_iff_prefix]
    exact List.prefix_append _ _
  rw [htext, getKeyFromXpath_append (by decide), getKeyFromXpath, if_pos hname]
  have hdrop : ("name=".toList ++ (l.iface ++ ']' :: '/' :: l.name)).drop 5 =
      l.iface ++ ']' :: '/' :: l.name := rfl
  rw [hdrop, keyGroup_append h.ne_nil hline hclose, Option.some_or]

theorem IsDemo.getElem_text (h : l.IsDemo) : getElemFromXpath l.text = some l.name := by
  have hpass : ']' ∉ front ++ l.iface := by
    rw [List.mem_append, not_or]
    exact ⟨by decide, h.notMem_iface (by decide)⟩
  have hne : l.name ≠ [] := by
    rcases h.name with hname | hname
    · simp [hname]
    · simp [hname]
  rw [text, ← List.append_assoc, getElemFromXpath_append hpass, getElemFromXpath, List.head?_cons,
    List.tail_cons, takeWhile_line (h.notMem_name (by decide)), if_pos ⟨rfl, rfl, hne⟩]

theorem IsDemo.nsless_text (h : l.IsDemo) : nslessXpath l.text = l.text := by
  have hcolon : ':' ∉ l.text := by
    simp [text, (by decide : ':' ∉ front),
      h.notMem_iface (by decide : (':'.isAlphanum || ':' == '_') = false),
      h.notMem_name (by decide : (':'.isAlphanum || ':' == '_') = false)]
  exact AnnStmt.replaceFrom_eq_self (by decide : ':' ∈ "ietf-interfaces:".toList) hcolon

/-- The paths of two leaves do not begin one with the other. -/
theorem IsDemo.eq_of_isPrefix (h : l.IsDemo) (h' : l'.IsDemo) (hpre : l.text <+: l'.text) :
    l = l' := by
  obtain ⟨rest, hrest⟩ := hpre
  rw [text, text, List.append_assoc, List.append_assoc] at hrest
  have stop : ∀ {x : IfLeaf}, x.IsDemo → ∀ c ∈ x.iface, ¬ c = ']' :=
    fun hx c hc heq ↦ hx.notMem_iface (by decide) (heq ▸ hc)
  obtain ⟨hiface, hname⟩ := append_inj_of_stop (stop h) (stop h') (by simp) (by simp)
    (List.append_cancel_left hrest)
  have hname' : l.name ++ rest = l'.name := by simpa using hname
  have heq : l.name = l'.name := by
    rcases h.name with hn | hn
    · rcases h'.name with hn' | hn'
      · rw [hn, hn']
      · rw [hn, hn'] at hname'
        exact absurd hname' (by simp)
    · rcases h'.name with hn' | hn'
      · rw [hn, hn'] at hname'
        exact absurd hname' (by simp)
      · rw [hn, hn']
  cases l
  cases l'
  exact congrArg₂ IfLeaf.mk hiface heq

end IfLeaf

end Leaves

/-! ## The adapter -/

/-- The order of strings. -/
def strLe : List Char → List Char → Bool
  | [], _ => true
  | _ :: _, [] => false
  | c :: s, d :: t => if c = d then strLe s t else Nat.blt c.toNat d.toNat

/-- `sorted(str(i+1) for i in range(num_of_ifs))`. -/
def ifIds (numOfIfs : ℕ) : List (List Char) :=
  ((List.range numOfIfs).map fun i ↦ Nat.toDigits 10 (i + 1)).insertionSort
    fun s t ↦ strLe s t = true

/-- The body of the loop of `_fill_demo_db`. -/
def DemoAdapter.fillInterface (a : DemoAdapter) (ifId : List Char) : DemoAdapter :=
  let ifName := "if_".toList ++ ifId
  let stateIfName := "state_if_".toList ++ ifId
  let path := "/interfaces/interface[name=".toList ++ (ifName ++ "]".toList)
  let statePath := "/interfaces-state/interface[name=".toList ++ (stateIfName ++ "]".toList)
  { demoDb := Dict.set (path ++ "/type".toList) "gigabitEthernet".toList
      (Dict.set (path ++ "/name".toList) ifName a.demoDb)
    demoStateDb := Dict.set (statePath ++ "/type".toList) "gigabitEthernet".toList
      (Dict.set (statePath ++ "/name".toList) stateIfName a.demoStateDb) }

/-- `_fill_demo_db`. -/
def fillDemoDb (numOfIfs : ℕ) : DemoAdapter :=
  (ifIds numOfIfs).foldl DemoAdapter.fillInterface ⟨[], []⟩

/-- The results of `set_update`. -/
inductive DemoOp
  | invalid
  | update
  deriving DecidableEq, Repr

section Adapter

variable (loads : List UInt8 → Option Json) (format : TypedValue → List Char)

/-- `json.loads(b).replace`, which only a string has. -/
def loadsStr (bytes : List UInt8) : Option (List Char) :=
  match loads bytes with
  | some (.leaf (.str text)) => some text
  | _ => none

/-- `str_val`, with no result for an exception. A field of the `oneof` that is not set reads as
empty, and so does an empty one. -/
def strVal (val : TypedValue) : Option (List Char) :=
  match val with
  | .stringVal text => some (if text = [] then format val else text)
  | .jsonIetfVal bytes => if bytes = [] then some (format val) else loadsStr loads bytes
  | .jsonVal bytes => if bytes = [] then some (format val) else loadsStr loads bytes
  | _ => some (format val)

/-- `set_update`. -/
def DemoAdapter.setUpdate (a : DemoAdapter) (gnmiPrefix path : Path) (val : TypedValue) :
    Option (DemoOp × DemoAdapter) :=
  let pathStr := pathWithPrefix path gnmiPrefix
  if (a.demoDb.map Prod.fst).contains (nslessXpath pathStr) then
    (strVal loads format val).map fun str ↦
      (.update,
        { a with demoDb := Dict.set pathStr (AnnStmt.replace str "iana-if-type:" "") a.demoDb })
  else some (.invalid, a)

/-- What the change thread does to the databases with a change that it reports, and no result when
its assertion fails. -/
def DemoAdapter.applyChange (a : DemoAdapter) (path val : List Char) : Option DemoAdapter :=
  let path := slashed path
  if (a.demoDb.map Prod.fst).contains path then some { a with demoDb := Dict.set path val a.demoDb }
  else if (a.demoStateDb.map Prod.fst).contains path then
    some { a with demoStateDb := Dict.set path val a.demoStateDb }
  else none

/-! ## Runs -/

/-- The string that a client wrote. -/
def writtenStr (val : TypedValue) : Option (List Char) :=
  match val with
  | .stringVal text => some text
  | .jsonIetfVal bytes => loadsStr loads bytes
  | .jsonVal bytes => loadsStr loads bytes
  | _ => none

/-- The adapter, and what was last written to each leaf of the configuration, by the path without
the module name. -/
structure DemoRun where
  adapter : DemoAdapter
  written : List (List Char × Option (List Char))

inductive WriteEvent
  | setUpdate (gnmiPrefix path : Path) (val : TypedValue)
  | change (path val : List Char)
  deriving DecidableEq

/-- A write by a client or by the change thread. An exception leaves everything as it was. -/
def writeStep (s : DemoRun) : WriteEvent → Option DemoRun
  | .setUpdate gnmiPrefix path val =>
    match s.adapter.setUpdate loads format gnmiPrefix path val with
    | some (.update, a) =>
      some ⟨a,
        Dict.set (nslessXpath (pathWithPrefix path gnmiPrefix)) (writtenStr loads val) s.written⟩
    | some (.invalid, a) => some ⟨a, s.written⟩
    | none => some s
  | .change path val =>
    (s.adapter.applyChange path val).map fun a ↦
      ⟨a, if (s.adapter.demoDb.map Prod.fst).contains (slashed path) then
        Dict.set (nslessXpath (slashed path)) (some val) s.written else s.written⟩

def writeMachine : Machine DemoRun WriteEvent := ⟨writeStep loads format⟩

/-- The adapter as it starts, with what it is filled with. -/
def DemoRun.start (numOfIfs : ℕ) : DemoRun :=
  ⟨fillDemoDb numOfIfs, (fillDemoDb numOfIfs).demoDb.map fun q ↦ (q.1, some q.2)⟩

/-! ## Writes that are read -/

/-- Without the module name that values of the `type` leaf can be written with. -/
def bare (leaf : Option (List Char)) (v : List Char) : List Char :=
  if leaf = some "type".toList ∧ nsIana.isPrefixOf v then v.drop nsIana.length else v

/-- The module name is removed once, and the regular expressions find the same with it as without
it. -/
def SpelledPlainly (pathStr : List Char) : Prop :=
  nslessXpath (nslessXpath pathStr) = nslessXpath pathStr ∧
    getKeyFromXpath pathStr = getKeyFromXpath (nslessXpath pathStr) ∧
    getElemFromXpath pathStr = getElemFromXpath (nslessXpath pathStr)

/-- The value is a string that is not empty as a field, and no part of it gets lost. -/
def ValueKept (leaf : Option (List Char)) (val : TypedValue) : Prop :=
  val ≠ .stringVal [] ∧ val ≠ .jsonVal [] ∧ val ≠ .jsonIetfVal [] ∧
    (writtenStr loads val).any
      (fun v ↦ AnnStmt.replace v "iana-if-type:" "" == bare leaf v) = true

/-- No entry behind that of `pathStr` is one of the same leaf. -/
def LastSpelling (db : Db) (pathStr : List Char) : Prop :=
  Dict.later (fun t ↦ nslessXpath t == nslessXpath pathStr) pathStr db = false

/-- The condition on a write, in the state in which it is made. -/
def WriteRead (s : DemoRun) : WriteEvent → Prop
  | .setUpdate gnmiPrefix path val =>
    let pathStr := pathWithPrefix path gnmiPrefix
    (s.adapter.demoDb.map Prod.fst).contains (nslessXpath pathStr) = true →
      SpelledPlainly pathStr ∧ LastSpelling s.adapter.demoDb pathStr ∧
        ValueKept loads (getElemFromXpath pathStr) val
  | .change path val =>
    (s.adapter.demoDb.map Prod.fst).contains (slashed path) = true →
      LastSpelling s.adapter.demoDb (slashed path) ∧
        bare (getElemFromXpath (slashed path)) val = val

instance (pathStr : List Char) : Decidable (SpelledPlainly pathStr) :=
  inferInstanceAs (Decidable (_ ∧ _))

instance (leaf : Option (List Char)) (val : TypedValue) : Decidable (ValueKept loads leaf val) :=
  inferInstanceAs (Decidable (_ ∧ _))

instance (db : Db) (pathStr : List Char) : Decidable (LastSpelling db pathStr) :=
  inferInstanceAs (Decidable (_ = _))

instance (s : DemoRun) : (e : WriteEvent) → Decidable (WriteRead loads s e)
  | .setUpdate _ _ _ => inferInstanceAs (Decidable (_ → _))
  | .change _ _ => inferInstanceAs (Decidable (_ → _))

end Adapter

/-! ## The invariant -/

/-- A path string for the leaf, with or without the module name, in which the leaf is found. -/
structure Spells (t : List Char) (l : IfLeaf) : Prop where
  nsless : nslessXpath t = l.text
  key : getKeyFromXpath t = some l.iface
  elem : getElemFromXpath t = some l.name

/-- The entries of the leaves come first, then further spellings of them; and the last entry of a
leaf has what was last written to it. -/
structure WriteInv (leaves : List IfLeaf) (s : DemoRun) : Prop where
  keys : ∃ extra, s.adapter.demoDb.map Prod.fst = leaves.map IfLeaf.text ++ extra ∧
    ∀ k ∈ extra, ∃ l ∈ leaves, Spells k l
  value : ∀ l ∈ leaves, ∃ v, Dict.get? l.text s.written = some (some v) ∧
    Dict.findLast? (fun t ↦ nslessXpath t == l.text) s.adapter.demoDb = some (bare (some l.name) v)

section Invariant

variable {loads : List UInt8 → Option Json} {format : TypedValue → List Char}
  {leaves : List IfLeaf} {s s' : DemoRun} {l : IfLeaf} {k v : List Char}

theorem IfLeaf.IsDemo.spells (h : l.IsDemo) : Spells l.text l :=
  ⟨h.nsless_text, h.getKey_text, h.getElem_text⟩

theorem WriteInv.spells (h : WriteInv leaves s) (hdemo : ∀ l ∈ leaves, l.IsDemo)
    (hk : k ∈ s.adapter.demoDb.map Prod.fst) : ∃ l ∈ leaves, Spells k l := by
  obtain ⟨extra, hkeys, hextra⟩ := h.keys
  rw [hkeys] at hk
  rcases List.mem_append.mp hk with hk | hk
  · obtain ⟨l, hl, rfl⟩ := List.mem_map.mp hk
    exact ⟨l, hl, (hdemo l hl).spells⟩
  · exact hextra k hk

/-- A value set under a spelling of a leaf that has no later one. -/
theorem WriteInv.write (h : WriteInv leaves s) (hdemo : ∀ l ∈ leaves, l.IsDemo) (hl : l ∈ leaves)
    (hk : Spells k l) (hlast : LastSpelling s.adapter.demoDb k) :
    WriteInv leaves
      ⟨{ s.adapter with demoDb := Dict.set k (bare (some l.name) v) s.adapter.demoDb },
        Dict.set (nslessXpath k) (some v) s.written⟩ := by
  constructor
  · obtain ⟨extra, hkeys, hextra⟩ := h.keys
    simp only [Dict.keys_set]
    split_ifs
    · exact ⟨extra, hkeys, hextra⟩
    · refine ⟨extra ++ [k], by rw [hkeys, List.append_assoc], fun x hx ↦ ?_⟩
      rcases List.mem_append.mp hx with hx | hx
      · exact hextra x hx
      · rw [List.mem_singleton.mp hx]
        exact ⟨l, hl, hk⟩
  · intro x hx
    simp only [Dict.get?_set, hk.nsless]
    by_cases hxl : l = x
    · subst hxl
      refine ⟨v, if_pos rfl, Dict.findLast?_set (by simp [hk.nsless]) ?_⟩
      rw [LastSpelling, hk.nsless] at hlast
      exact hlast
    · have hne : l.text ≠ x.text := fun htext ↦
        hxl ((hdemo l hl).eq_of_isPrefix (hdemo x hx) (htext ▸ List.prefix_refl _))
      rw [if_neg hne, Dict.findLast?_set_of_not (by simp [hk.nsless, hne])]
      exact h.value x hx

/-- A write to a leaf that the condition admits goes to a spelling of the leaf. -/
theorem WriteInv.spells_setUpdate (h : WriteInv leaves s) (hdemo : ∀ l ∈ leaves, l.IsDemo)
    (hmem : nslessXpath k ∈ s.adapter.demoDb.map Prod.fst) (hk : SpelledPlainly k) :
    ∃ l ∈ leaves, Spells k l := by
  obtain ⟨l, hl, hspells⟩ := h.spells hdemo hmem
  obtain ⟨hnsless, hkey, helem⟩ := hk
  exact ⟨l, hl, hnsless ▸ hspells.nsless, hkey ▸ hspells.key, helem ▸ hspells.elem⟩

/-- A value that is kept is stored without its module name. -/
theorem ValueKept.strVal_eq {leaf : Option (List Char)} {val : TypedValue}
    (h : ValueKept loads leaf val) (format : TypedValue → List Char) :
    ∃ v, writtenStr loads val = some v ∧
      strVal loads format val = some v ∧ AnnStmt.replace v "iana-if-type:" "" = bare leaf v := by
  obtain ⟨hstring, hjson, hietf, hany⟩ := h
  obtain ⟨v, hv, hreplace⟩ := (Option.any_eq_true _ _).mp hany
  refine ⟨v, hv, ?_, eq_of_beq hreplace⟩
  rw [← hv]
  unfold writtenStr at hv ⊢
  unfold strVal
  split at hv
  next text =>
    rw [if_neg fun htext ↦ hstring (by rw [htext])]
  next bytes =>
    rw [if_neg fun hbytes ↦ hietf (by rw [hbytes])]
  next bytes =>
    rw [if_neg fun hbytes ↦ hjson (by rw [hbytes])]
  next => exact absurd hv (by simp)

/-- Every write that the condition admits keeps the invariant. -/
theorem writeInv_step (h : WriteInv leaves s) (hdemo : ∀ l ∈ leaves, l.IsDemo) {e : WriteEvent}
    (hread : WriteRead loads s e) (hs : (writeMachine loads format).step s e = some s') :
    WriteInv leaves s' := by
  rcases e with ⟨gnmiPrefix, path, val⟩ | ⟨path, val⟩
  · simp only [writeMachine, writeStep, DemoAdapter.setUpdate] at hs
    by_cases hmem : (s.adapter.demoDb.map Prod.fst).contains
        (nslessXpath (pathWithPrefix path gnmiPrefix)) = true
    · obtain ⟨hplain, hlast, hkept⟩ := hread hmem
      obtain ⟨l, hl, hspells⟩ := h.spells_setUpdate hdemo (List.contains_iff_mem.mp hmem) hplain
      rw [hspells.elem] at hkept
      obtain ⟨v, hwritten, hstr, hreplace⟩ := hkept.strVal_eq format
      simp only [hmem, if_true, hstr, hwritten, hreplace, Option.map_some, Option.some.injEq] at hs
      rw [← hs]
      exact h.write hdemo hl hspells hlast
    · simp only [hmem, Bool.false_eq_true, if_false, Option.some.injEq] at hs
      rw [← hs]
      exact h
  · simp only [writeMachine, writeStep, DemoAdapter.applyChange] at hs
    by_cases hmem : (s.adapter.demoDb.map Prod.fst).contains (slashed path) = true
    · obtain ⟨hlast, hval⟩ := hread hmem
      obtain ⟨l, hl, hspells⟩ := h.spells hdemo (List.contains_iff_mem.mp hmem)
      rw [hspells.elem] at hval
      simp only [hmem, if_true, Option.map_some, Option.some.injEq] at hs
      rw [← hs]
      have hwrite := h.write (v := val) hdemo hl hspells hlast
      rw [hval] at hwrite
      exact hwrite
    · -- the change is one of the state, or the assertion fails
      simp only [hmem, Bool.false_eq_true, if_false] at hs
      split_ifs at hs
      · obtain rfl := Option.some_inj.mp hs
        exact ⟨h.keys, h.value⟩
      · exact absurd hs (by simp)

end Invariant

/-! ## The reader -/

/-- The value of an element as it is reported. -/
def typed (elem : Option (List Char)) (v : List Char) : List Char :=
  if elem = some "type".toList then nsIana ++ v else v

/-- The interfaces in the order in which they are found in the paths. -/
def interfaceKeys (found : List (Option (List Char))) : List (List Char) → List (Option (List Char))
  | [] => found
  | p :: paths =>
    interfaceKeys (if getKeyFromXpath p ∈ found then found else found ++ [getKeyFromXpath p]) paths

section Reader

variable {mapDb : List (Option (List Char) × ElemMap)} {entry : List Char × List Char} {db : Db}
  {key elem : Option (List Char)}

theorem get?_addEntry : (Dict.get? key (addEntry mapDb entry)).bind (Dict.get? elem) =
    if getKeyFromXpath entry.1 = key ∧ getElemFromXpath entry.1 = elem then
      some (typed elem entry.2)
    else (Dict.get? key mapDb).bind (Dict.get? elem) := by
  unfold addEntry
  rw [Dict.get?_set]
  by_cases hkey : getKeyFromXpath entry.1 = key
  · rw [if_pos hkey, Option.bind_some, Dict.get?_set, hkey]
    by_cases helem : getElemFromXpath entry.1 = elem
    · simp only [helem, and_self, if_true]
      rfl
    · rw [if_neg helem, if_neg fun h ↦ helem h.2]
      rcases Dict.get? key mapDb with - | elemMap
      · rfl
      · rfl
  · rw [if_neg hkey, if_neg fun h ↦ hkey h.1]

/-- The last entry with the key and the element is the one that is read. -/
theorem get?_demoDbToKeyElemMap (db : Db) (key elem : Option (List Char)) :
    (Dict.get? key (demoDbToKeyElemMap db)).bind (Dict.get? elem) =
      (Dict.findLast? (fun t ↦ decide (getKeyFromXpath t = key ∧ getElemFromXpath t = elem)) db).map
        (typed elem) := by
  have hfold : ∀ m, (Dict.get? key (db.foldl addEntry m)).bind (Dict.get? elem) =
      ((Dict.findLast? (fun t ↦ decide (getKeyFromXpath t = key ∧ getElemFromXpath t = elem))
        db).map (typed elem)).or ((Dict.get? key m).bind (Dict.get? elem)) := by
    induction db with
    | nil => exact fun _ ↦ rfl
    | cons entry db ih =>
      intro m
      rw [List.foldl_cons, ih, get?_addEntry, Dict.findLast?]
      rcases Dict.findLast? _ db with - | v
      · by_cases hmatch : getKeyFromXpath entry.1 = key ∧ getElemFromXpath entry.1 = elem
        · simp [hmatch]
        · simp [hmatch]
      · simp
  rw [demoDbToKeyElemMap, hfold, Dict.get?, Option.bind_none, Option.or_none]

theorem keys_demoDbToKeyElemMap :
    (demoDbToKeyElemMap db).map Prod.fst = interfaceKeys [] (db.map Prod.fst) := by
  have hfold : ∀ m : List (Option (List Char) × ElemMap), (db.foldl addEntry m).map Prod.fst =
      interfaceKeys (m.map Prod.fst) (db.map Prod.fst) := by
    induction db with
    | nil => exact fun _ ↦ rfl
    | cons entry db ih =>
      intro m
      rw [List.foldl_cons, ih, addEntry, Dict.keys_set, List.map_cons, interfaceKeys]
      by_cases hmem : getKeyFromXpath entry.1 ∈ m.map Prod.fst
      · rw [if_pos hmem, if_pos hmem]
      · rw [if_neg hmem, if_neg hmem]
  exact hfold []

theorem mem_interfaceKeys {found : List (Option (List Char))} {paths : List (List Char)} :
    key ∈ interfaceKeys found paths ↔ key ∈ found ∨ ∃ p ∈ paths, getKeyFromXpath p = key := by
  induction paths generalizing found with
  | nil => simp [interfaceKeys]
  | cons p paths ih =>
    rw [interfaceKeys, ih, List.exists_mem_cons_iff, ← or_assoc]
    refine or_congr_left ?_
    split_ifs with hmem
    · refine ⟨.inl, fun h ↦ h.elim id fun heq ↦ heq ▸ hmem⟩
    · rw [List.mem_append, List.mem_singleton, eq_comm]

/-- Further paths of interfaces that have been found add none. -/
theorem interfaceKeys_append {paths extra : List (List Char)}
    (h : ∀ k ∈ extra, ∃ p ∈ paths, getKeyFromXpath p = getKeyFromXpath k) :
    interfaceKeys [] (paths ++ extra) = interfaceKeys [] paths := by
  have happend : ∀ found, interfaceKeys found (paths ++ extra) =
      interfaceKeys (interfaceKeys found paths) extra := by
    clear h
    induction paths with
    | nil => exact fun _ ↦ rfl
    | cons p paths ih => exact fun found ↦ ih _
  rw [happend]
  clear happend
  induction extra with
  | nil => rfl
  | cons k extra ih =>
    have hfound : getKeyFromXpath k ∈ interfaceKeys [] paths :=
      mem_interfaceKeys.mpr (.inr (h k List.mem_cons_self))
    rw [interfaceKeys, if_pos hfound, ih fun x hx ↦ h x (List.mem_cons_of_mem _ hx)]

/-- Nothing more is reported of an interface. -/
theorem pathVals_of_done {done : List (Option (List Char))} {paths : List (List Char)}
    (h : ∀ p ∈ paths, getKeyFromXpath p = key) :
    pathVals mapDb elem (key :: done) paths = .ok [] := by
  induction paths with
  | nil => rfl
  | cons p paths ih =>
    rw [pathVals, h p List.mem_cons_self, if_pos (by simp),
      ih fun q hq ↦ h q (List.mem_cons_of_mem _ hq)]

theorem makeElems_isSome {pieces : List (List Char)}
    (h : ∀ e ∈ pieces, e = [] ∨ (makeNameKeys e).isSome) : (makeElems pieces).isSome := by
  induction pieces with
  | nil => rfl
  | cons e pieces ih =>
    have hrest := ih fun x hx ↦ h x (List.mem_cons_of_mem _ hx)
    rw [makeElems]
    by_cases he : e = []
    · rw [if_pos he]
      exact hrest
    · obtain ⟨elem, helem⟩ := Option.isSome_iff_exists.mp
        ((h e List.mem_cons_self).resolve_left he)
      rw [if_neg he, helem, Option.bind_some, Option.isSome_map]
      exact hrest

end Reader

/-! ## Reading what was written -/

/-- The numbers of interfaces in the updates. -/
def interfaceCounts (updates : List (Path × DemoVal)) : List ℕ :=
  updates.filterMap fun u ↦
    match u.2 with
    | .interfaces l => some l.length
    | _ => none

section Reading

variable {loads : List UInt8 → Option Json} {format : TypedValue → List Char}
  {leaves : List IfLeaf} {s s' : DemoRun} {l : IfLeaf} {path gnmiPrefix : Path}

/-- The elements of the path of a leaf. -/
def IfLeaf.elems (l : IfLeaf) : List PathElem :=
  [⟨"interfaces".toList, []⟩, ⟨"interface".toList, [("name".toList, l.iface)]⟩, ⟨l.name, []⟩]

theorem IfLeaf.IsDemo.delimited (h : l.IsDemo) : ∀ e ∈ l.elems, e.Delimited := by
  have hclean : Clean l.iface := ⟨h.notMem_iface (by decide), h.notMem_iface (by decide),
    h.notMem_iface (by decide), h.notMem_iface (by decide)⟩
  have hname : Clean "name".toList := by
    unfold Clean
    decide
  intro e he
  simp only [IfLeaf.elems, List.mem_cons, List.not_mem_nil, or_false] at he
  rcases he with rfl | rfl | rfl
  · exact ⟨by decide, by simp⟩
  · refine ⟨(by decide : '/' ∉ "interface".toList ∧ '[' ∉ "interface".toList), fun q hq ↦ ?_⟩
    rw [List.mem_singleton.mp hq]
    exact ⟨hname, hclean⟩
  · exact ⟨⟨h.notMem_name (by decide), h.notMem_name (by decide)⟩, by simp⟩

theorem IfLeaf.text_eq_flatMap (l : IfLeaf) :
    l.text = [] ++ (l.elems.map PathElem.body).flatMap ('/' :: ·) := by
  have hfront : front = '/' :: ("interfaces".toList ++ '/' :: ("interface".toList ++
      '[' :: ("name".toList ++ ['=']))) := rfl
  rw [IfLeaf.text, hfront, IfLeaf.elems]
  simp only [List.map_cons, List.map_nil, List.flatMap_cons, List.flatMap_nil, PathElem.body,
    keyBody, List.append_assoc, List.cons_append, List.nil_append, List.append_nil]

/-- What is left of the path behind a slash is read as a path. -/
theorem IfLeaf.IsDemo.makeGnmiPath_isSome (h : l.IsDemo) {before after : List Char}
    (htext : l.text = before ++ '/' :: after) : (makeGnmiPath ('/' :: after)).isSome := by
  have hpieces : ∀ piece ∈ l.text.splitOn '/', piece = [] ∨ (makeNameKeys piece).isSome := by
    have hslash : ∀ piece ∈ l.elems.map PathElem.body, '/' ∉ piece := by
      intro piece hmem
      obtain ⟨e, he, rfl⟩ := List.mem_map.mp hmem
      exact body_notMem_slash (h.delimited e he)
    rw [l.text_eq_flatMap, splitOn_append_flatMap List.not_mem_nil hslash]
    intro piece hmem
    rcases List.mem_cons.mp hmem with rfl | hmem
    · exact .inl rfl
    · obtain ⟨e, he, rfl⟩ := List.mem_map.mp hmem
      have hkeyed : (e.key.map Prod.fst).Nodup := by
        simp only [IfLeaf.elems, List.mem_cons, List.not_mem_nil, or_false] at he
        rcases he with rfl | rfl | rfl
        · simp
        · simp
        · simp
      rw [makeNameKeys_body (h.delimited e he) hkeyed]
      exact .inr rfl
  have hsplit : ('/' :: after).splitOn '/' = [] :: after.splitOn '/' := by
    simpa using List.splitOn_append_cons_self (a := '/') [] after
  rw [htext, List.splitOn_append_cons_self] at hpieces
  rw [makeGnmiPath, Option.isSome_map, hsplit]
  refine makeElems_isSome fun e he ↦ ?_
  rcases List.mem_cons.mp he with rfl | he
  · exact .inl rfl
  · exact hpieces e (List.mem_append_right _ he)

/-- The entries that a request for a leaf finds: that of the leaf first, and then other
spellings. -/
theorem WriteInv.startingWith_eq (h : WriteInv leaves s) (hdemo : ∀ l ∈ leaves, l.IsDemo)
    (hl : l ∈ leaves) {request : List Char} (hreq : nslessXpath request = l.text) :
    ∃ rest, startingWith s.adapter.demoDb request = l.text :: rest ∧
      ∀ p ∈ rest, getKeyFromXpath p = some l.iface := by
  have hsame : ∀ p ∈ startingWith s.adapter.demoDb request, Spells p l := by
    intro p hp
    rw [startingWith, List.mem_filter, List.isPrefixOf_iff_prefix, hreq] at hp
    obtain ⟨l', hl', hspells⟩ := h.spells hdemo hp.1
    rw [hspells.nsless] at hp
    obtain rfl := (hdemo l hl).eq_of_isPrefix (hdemo l' hl') hp.2
    exact hspells
  have hmem : l.text ∈ (leaves.map IfLeaf.text).filter fun p ↦
      (nslessXpath request).isPrefixOf (nslessXpath p) := by
    rw [List.mem_filter, hreq, (hdemo l hl).nsless_text, List.isPrefixOf_iff_prefix]
    exact ⟨List.mem_map_of_mem hl, List.prefix_refl _⟩
  obtain ⟨extra, hkeys, -⟩ := h.keys
  obtain ⟨p, rest, hfilter⟩ := List.exists_cons_of_ne_nil (List.ne_nil_of_mem hmem)
  have hstart : startingWith s.adapter.demoDb request = p :: (rest ++ extra.filter fun p ↦
      (nslessXpath request).isPrefixOf (nslessXpath p)) := by
    rw [startingWith, hkeys, List.filter_append, hfilter, List.cons_append]
  -- the first entry found is one of those that were there from the beginning
  obtain rfl : p = l.text := by
    have hp : p ∈ leaves.map IfLeaf.text :=
      (List.mem_filter.mp (hfilter ▸ List.mem_cons_self : p ∈ List.filter _ _)).1
    obtain ⟨l', hl', rfl⟩ := List.mem_map.mp hp
    have hspells := hsame l'.text (by rw [hstart]; exact List.mem_cons_self)
    rw [← (hdemo l' hl').nsless_text, hspells.nsless]
  refine ⟨_, hstart, fun p hp ↦ (hsame p ?_).key⟩
  rw [hstart]
  exact List.mem_cons_of_mem _ hp

/-- The reader has what was last written to a leaf. -/
theorem WriteInv.get?_leaf (h : WriteInv leaves s) (hdemo : ∀ l ∈ leaves, l.IsDemo)
    (hl : l ∈ leaves) :
    ∃ v elemVal, Dict.get? l.text s.written = some (some v) ∧
      Dict.get? (some l.iface) (demoDbToKeyElemMap s.adapter.demoDb) = some elemVal ∧
      Dict.get? (some l.name) elemVal = some (typed (some l.name) (bare (some l.name) v)) := by
  obtain ⟨v, hv, hlast⟩ := h.value l hl
  have hsame : ∀ q ∈ s.adapter.demoDb, (nslessXpath q.1 == l.text) =
      decide (getKeyFromXpath q.1 = some l.iface ∧ getElemFromXpath q.1 = some l.name) := by
    intro q hq
    obtain ⟨l', hl', hspells⟩ := h.spells hdemo (List.mem_map_of_mem hq)
    rw [hspells.nsless, hspells.key, hspells.elem, Bool.eq_iff_iff, beq_iff_eq, decide_eq_true_iff,
      Option.some_inj, Option.some_inj]
    constructor
    · intro htext
      rw [(hdemo l' hl').eq_of_isPrefix (hdemo l hl) (htext ▸ List.prefix_refl _)]
      exact ⟨rfl, rfl⟩
    · rintro ⟨hiface, hname⟩
      rw [IfLeaf.text, IfLeaf.text, hiface, hname]
  have hfound : Dict.findLast? (fun t ↦
      decide (getKeyFromXpath t = some l.iface ∧ getElemFromXpath t = some l.name))
      s.adapter.demoDb = some (bare (some l.name) v) := by
    rw [← hlast]
    exact Dict.findLast?_congr fun q hq ↦ (hsame q hq).symm
  have hread := get?_demoDbToKeyElemMap s.adapter.demoDb (some l.iface) (some l.name)
  rw [hfound, Option.map_some, Option.bind_eq_some_iff] at hread
  obtain ⟨elemVal, hmap, helem⟩ := hread
  exact ⟨v, elemVal, hv, hmap, helem⟩

theorem IfLeaf.isTop_text (l : IfLeaf) : isTop l.text = false := by
  have hmem : '[' ∈ l.text := List.mem_append_left _ (by decide)
  have hne : ∀ top : List Char, '[' ∉ top → l.text ≠ top := fun top htop heq ↦ htop (heq ▸ hmem)
  rw [isTop, Bool.or_eq_false_iff, beq_eq_false_iff_ne, beq_eq_false_iff_ne]
  exact ⟨hne _ (by decide), hne _ (by decide)⟩

/-- A request for a leaf, however it is split and spelled, has one update with the value last
written. -/
theorem WriteInv.get_leaf (h : WriteInv leaves s) (hdemo : ∀ l ∈ leaves, l.IsDemo) (hl : l ∈ leaves)
    (hreq : Spells (pathWithPrefix path gnmiPrefix) l) :
    ∃ v p, Dict.get? l.text s.written = some (some v) ∧
      s.adapter.getUpdates path gnmiPrefix .config =
        .ok [(p, .leaf (typed (some l.name) (bare (some l.name) v)))] := by
  obtain ⟨v, elemVal, hv, hmap, helem⟩ := h.get?_leaf hdemo hl
  obtain ⟨rest, hstart, hrest⟩ := h.startingWith_eq hdemo hl hreq.nsless
  have hlist : pathValList (pathWithPrefix path gnmiPrefix) s.adapter.demoDb =
      .ok [(l.text, .leaf (typed (some l.name) (bare (some l.name) v)))] := by
    unfold pathValList
    simp only [hreq.nsless, l.isTop_text, Bool.false_eq_true, if_false, hreq.elem, hstart]
    rw [pathVals, (hdemo l hl).getKey_text, if_neg (by simp)]
    simp only [hmap, pathVal, helem, pathVals_of_done hrest]
    rfl
  obtain ⟨t, ht⟩ := exists_makePath path
  have hcut : nslessXpath (makeXpathPath none (some gnmiPrefix) false) ++ '/' :: nslessXpath t =
      l.text := by
    rw [← hreq.nsless, pathWithPrefix_eq, ht, nslessXpath_append (by simp),
      nslessXpath_cons (by decide), makeXpathPath_none]
  obtain ⟨p, hp⟩ := Option.isSome_iff_exists.mp ((hdemo l hl).makeGnmiPath_isSome hcut.symm)
  refine ⟨v, p, hv, ?_⟩
  have hdrop : l.text.drop (nslessXpath (makeXpathPath none (some gnmiPrefix) false)).length =
      '/' :: nslessXpath t := by
    rw [← hcut, List.drop_left]
  rw [DemoAdapter.getUpdates, getDbUpdatesForPath, hlist]
  simp only [bind, Except.bind, makeUpdates, hdrop, hp]

theorem WriteInv.length_map (h : WriteInv leaves s) (hdemo : ∀ l ∈ leaves, l.IsDemo) :
    (demoDbToKeyElemMap s.adapter.demoDb).length =
      (interfaceKeys [] (leaves.map IfLeaf.text)).length := by
  obtain ⟨extra, hkeys, hextra⟩ := h.keys
  rw [← List.length_map (f := Prod.fst), keys_demoDbToKeyElemMap, hkeys, interfaceKeys_append]
  intro k hk
  obtain ⟨l, hl, hspells⟩ := hextra k hk
  exact ⟨l.text, List.mem_map_of_mem hl, by rw [(hdemo l hl).getKey_text, hspells.key]⟩

/-- The number of interfaces reported depends only on the leaves. -/
theorem WriteInv.counts_eq (h : WriteInv leaves s) (h' : WriteInv leaves s')
    (hdemo : ∀ l ∈ leaves, l.IsDemo)
    (htop : isTop (nslessXpath (pathWithPrefix path gnmiPrefix)) = true) :
    (s.adapter.getUpdates path gnmiPrefix .config).map interfaceCounts =
      (s'.adapter.getUpdates path gnmiPrefix .config).map interfaceCounts := by
  have hlength : (demoDbToKeyElemMap s.adapter.demoDb).length =
      (demoDbToKeyElemMap s'.adapter.demoDb).length := by
    rw [h.length_map hdemo, h'.length_map hdemo]
  -- the first entry decides whether anything is reported, and it is never moved
  have hhead : (s.adapter.demoDb.map Prod.fst).head? = (s'.adapter.demoDb.map Prod.fst).head? := by
    obtain ⟨extra, hkeys, hextra⟩ := h.keys
    obtain ⟨extra', hkeys', hextra'⟩ := h'.keys
    rw [hkeys, hkeys']
    rcases leaves with - | ⟨l, leaves⟩
    · have hnil : ∀ ks : List (List Char), (∀ k ∈ ks, ∃ l ∈ ([] : List IfLeaf), Spells k l) →
          ks = [] := by
        intro ks hks
        refine List.eq_nil_iff_forall_not_mem.mpr fun k hk ↦ ?_
        obtain ⟨l, hl, -⟩ := hks k hk
        exact absurd hl List.not_mem_nil
      rw [hnil extra hextra, hnil extra' hextra']
    · rfl
  simp only [DemoAdapter.getUpdates, getDbUpdatesForPath, pathValList, htop, if_true]
  generalize s.adapter.demoDb = db at hlength hhead ⊢
  generalize s'.adapter.demoDb = db' at hlength hhead ⊢
  rcases db with - | ⟨first, db⟩
  · rcases db' with - | ⟨first', db'⟩
    · rfl
    · exact absurd hhead (by simp)
  · rcases db' with - | ⟨first', db'⟩
    · exact absurd hhead (by simp)
    · have hfirst : first.1 = first'.1 := by simpa using hhead
      simp only [hfirst]
      split_ifs
      · simp only [bind, Except.bind, makeUpdates]
        rcases makeGnmiPath _ with - | p
        · rfl
        · simp [Except.map, interfaceCounts, hlength]
      · rfl

/-! ## The start -/

/-- A database as it is filled: one entry for each leaf, under its own path. -/
structure Filled (leaves : List IfLeaf) (db : Db) : Prop where
  demo : ∀ l ∈ leaves, l.IsDemo
  keys : db.map Prod.fst = leaves.map IfLeaf.text
  nodup : (db.map Prod.fst).Nodup
  bare : ∀ q ∈ db, bare (getElemFromXpath q.1) q.2 = q.2

theorem Filled.set {db : Db} {v : List Char} (h : Filled leaves db) (hl : l.IsDemo)
    (hv : Gnmi.bare (some l.name) v = v) : ∃ leaves', Filled leaves' (Dict.set l.text v db) := by
  have hbare : ∀ q ∈ Dict.set l.text v db, Gnmi.bare (getElemFromXpath q.1) q.2 = q.2 := by
    intro q hq
    rcases Dict.mem_of_mem_set hq with rfl | hq
    · rw [hl.getElem_text, hv]
    · exact h.bare q hq
  by_cases hmem : l.text ∈ db.map Prod.fst
  · have hkeys : (Dict.set l.text v db).map Prod.fst = db.map Prod.fst := by
      rw [Dict.keys_set, if_pos hmem]
    exact ⟨leaves, h.demo, hkeys.trans h.keys, hkeys ▸ h.nodup, hbare⟩
  · have hkeys : (Dict.set l.text v db).map Prod.fst = db.map Prod.fst ++ [l.text] := by
      rw [Dict.keys_set, if_neg hmem]
    refine ⟨leaves ++ [l], ?_, ?_, ?_, hbare⟩
    · intro x hx
      rcases List.mem_append.mp hx with hx | hx
      · exact h.demo x hx
      · rw [List.mem_singleton.mp hx]
        exact hl
    · rw [hkeys, h.keys, List.map_append, List.map_singleton]
    · rw [hkeys]
      exact List.nodup_append.mpr ⟨h.nodup, List.nodup_singleton _, by
        rintro a ha b hb rfl
        exact hmem (List.mem_singleton.mp hb ▸ ha)⟩

theorem isDemo_ifName {ifId name : List Char} (hid : ∀ c ∈ ifId, c.isDigit = true)
    (hname : name = "name".toList ∨ name = "type".toList) :
    IfLeaf.IsDemo ⟨"if_".toList ++ ifId, name⟩ := by
  refine ⟨by simp, fun c hc ↦ ?_, hname⟩
  rcases List.mem_append.mp hc with hc | hc
  · have hall : ("if_".toList.all fun c ↦ c.isAlphanum || c == '_') = true := by decide
    exact List.all_eq_true.mp hall c hc
  · simp [Char.isAlphanum, hid c hc]

theorem Filled.fillInterface {a : DemoAdapter} {ifId : List Char} (h : Filled leaves a.demoDb)
    (hid : ∀ c ∈ ifId, c.isDigit = true) :
    ∃ leaves', Filled leaves' (a.fillInterface ifId).demoDb := by
  have hname : Gnmi.bare (some "name".toList) ("if_".toList ++ ifId) = "if_".toList ++ ifId := by
    rw [Gnmi.bare, if_neg fun hand ↦ absurd hand.1 (by decide)]
  have htype : Gnmi.bare (some "type".toList) "gigabitEthernet".toList =
      "gigabitEthernet".toList := by decide
  obtain ⟨leaves₁, h₁⟩ := h.set (isDemo_ifName hid (.inl rfl)) hname
  obtain ⟨leaves₂, h₂⟩ := h₁.set (isDemo_ifName hid (.inr rfl)) htype
  have htext : ∀ leaf : List Char, IfLeaf.text ⟨"if_".toList ++ ifId, leaf⟩ =
      "/interfaces/interface[name=".toList ++ ("if_".toList ++ ifId ++ "]".toList) ++
        '/' :: leaf := by
    intro leaf
    rw [List.append_assoc, List.append_assoc ("if_".toList ++ ifId)]
    rfl
  rw [htext, htext] at h₂
  exact ⟨leaves₂, h₂⟩

theorem isDigit_of_mem_ifIds {n : ℕ} {ifId : List Char} (h : ifId ∈ ifIds n) :
    ∀ c ∈ ifId, c.isDigit = true := by
  rw [ifIds, List.mem_insertionSort] at h
  obtain ⟨i, -, rfl⟩ := List.mem_map.mp h
  intro c hc
  exact Nat.isDigit_of_mem_toDigits (by decide) (by decide) hc

theorem filled_fillDemoDb (n : ℕ) : ∃ leaves, Filled leaves (fillDemoDb n).demoDb := by
  have hfold : ∀ (ids : List (List Char)) (a : DemoAdapter) (leaves : List IfLeaf),
      (∀ ifId ∈ ids, ∀ c ∈ ifId, c.isDigit = true) → Filled leaves a.demoDb →
      ∃ leaves', Filled leaves' (ids.foldl DemoAdapter.fillInterface a).demoDb := by
    intro ids
    induction ids with
    | nil => exact fun a leaves _ h ↦ ⟨leaves, h⟩
    | cons ifId ids ih =>
      intro a leaves hids h
      obtain ⟨leaves', h'⟩ := h.fillInterface (hids ifId List.mem_cons_self)
      exact ih _ leaves' (fun x hx ↦ hids x (List.mem_cons_of_mem _ hx)) h'
  exact hfold (ifIds n) ⟨[], []⟩ [] (fun ifId hmem ↦ isDigit_of_mem_ifIds hmem)
    ⟨by simp, rfl, List.nodup_nil, by simp⟩

theorem get?_map_some {k : List Char} (db : Db) :
    Dict.get? k (db.map fun q ↦ (q.1, some q.2)) = (Dict.get? k db).map some := by
  induction db with
  | nil => rfl
  | cons q db ih =>
    rw [List.map_cons, Dict.get?, Dict.get?, ih]
    by_cases hq : q.1 = k
    · rw [if_pos hq, if_pos hq, Option.map_some]
    · rw [if_neg hq, if_neg hq]

theorem writeInv_start {n : ℕ} (h : Filled leaves (fillDemoDb n).demoDb) :
    WriteInv leaves (DemoRun.start n) := by
  refine ⟨⟨[], by rw [List.append_nil]; exact h.keys, by simp⟩, fun l hl ↦ ?_⟩
  have hdemo := h.demo l hl
  obtain ⟨q, hq, hkey⟩ := List.mem_map.mp (h.keys ▸ List.mem_map_of_mem hl :
    l.text ∈ (fillDemoDb n).demoDb.map Prod.fst)
  have hentry : (l.text, q.2) ∈ (fillDemoDb n).demoDb := by
    rw [← hkey]
    exact hq
  have honly : ∀ r ∈ (fillDemoDb n).demoDb, r.1 = l.text → r = (l.text, q.2) := fun r hr hrl ↦
    List.inj_on_of_nodup_map h.nodup hr hentry hrl
  have hbare : Gnmi.bare (some l.name) q.2 = q.2 := by
    have := h.bare (l.text, q.2) hentry
    rwa [hdemo.getElem_text] at this
  refine ⟨q.2, ?_, ?_⟩
  · rw [DemoRun.start, get?_map_some, Dict.get?_eq_some_of_mem hentry honly, Option.map_some]
  · rw [hbare]
    refine Dict.findLast?_eq_some_of_mem hentry (by simp [hdemo.nsless_text]) fun r hr hrl ↦ ?_
    obtain ⟨x, hx, hxr⟩ := List.mem_map.mp (h.keys ▸ List.mem_map_of_mem hr :
      r.1 ∈ leaves.map IfLeaf.text)
    refine honly r hr ?_
    rw [← hxr, ← (h.demo x hx).nsless_text, hxr]
    exact eq_of_beq hrl

theorem get_singleton (a : DemoAdapter) (dataType : DataType) :
    a.get gnmiPrefix dataType [path] = a.getUpdates path gnmiPrefix dataType := by
  rw [DemoAdapter.get]
  rcases a.getUpdates path gnmiPrefix dataType with e | updates
  · rfl
  · simp [DemoAdapter.get, bind, Except.bind]

/-- **Read your writes.** After any writes that meet the condition, the value last written to a leaf
is read, and the number of interfaces is the one at the start. -/
theorem read_your_writes {n : ℕ}
    (h : (writeMachine loads format).Reach (WriteRead loads) (.start n) s) :
    (∀ path gnmiPrefix, nslessXpath (pathWithPrefix path gnmiPrefix) ∈
        (fillDemoDb n).demoDb.map Prod.fst → SpelledPlainly (pathWithPrefix path gnmiPrefix) →
      let elem := getElemFromXpath (pathWithPrefix path gnmiPrefix)
      ∃ v p, Dict.get? (nslessXpath (pathWithPrefix path gnmiPrefix)) s.written = some (some v) ∧
        s.adapter.get gnmiPrefix .config [path] = .ok [(p, .leaf (typed elem (bare elem v)))]) ∧
    ∀ path gnmiPrefix, isTop (nslessXpath (pathWithPrefix path gnmiPrefix)) = true →
      (s.adapter.get gnmiPrefix .config [path]).map interfaceCounts =
        ((fillDemoDb n).get gnmiPrefix .config [path]).map interfaceCounts := by
  obtain ⟨leaves, hfilled⟩ := filled_fillDemoDb n
  have hstart := writeInv_start hfilled
  have hinv : WriteInv leaves s :=
    h.invariant hstart fun s e s' hs hP hstep ↦ writeInv_step hs hfilled.demo hP hstep
  constructor
  · intro path gnmiPrefix hmem hplain
    have hmem' : nslessXpath (pathWithPrefix path gnmiPrefix) ∈
        (DemoRun.start n).adapter.demoDb.map Prod.fst := hmem
    obtain ⟨l, hl, hspells⟩ := hstart.spells_setUpdate hfilled.demo hmem' hplain
    obtain ⟨v, p, hv, hget⟩ := hinv.get_leaf hfilled.demo hl hspells
    refine ⟨v, p, ?_, ?_⟩
    · rw [hspells.nsless, hv]
    · rw [get_singleton, hget, hspells.elem]
  · intro path gnmiPrefix htop
    rw [get_singleton, get_singleton]
    exact hinv.counts_eq hstart hfilled.demo htop

end Reading

/-- The path of the `type` leaf of `if_1` below a container. -/
def ifOneTypePath (container : List PathElem) : Path :=
  ⟨container ++ [⟨"interface".toList, [("name".toList, "if_1".toList)]⟩, ⟨"type".toList, []⟩]⟩

def noJson : List UInt8 → Option Json := fun _ ↦ none

/-- The change thread writes first, and then a client that spells the path with the module name. -/
def readWrites : List WriteEvent :=
  [.change "/interfaces/interface[name=if_1]/type".toList "fastEther".toList,
    .setUpdate interfacesPrefix (ifOneTypePath []) (.stringVal "iana-if-type:slowEther".toList)]

theorem read_slowEther : ∃ s p,
    (writeMachine noJson fun _ ↦ []).Reach (WriteRead noJson) (.start 1) s ∧
    s.adapter.get interfacesPrefix .config [ifOneTypePath []] =
      .ok [(p, .leaf "iana-if-type:slowEther".toList)] := by
  have hrun : (((writeMachine noJson fun _ ↦ []).restrict (WriteRead noJson)).runFrom (.start 1)
      readWrites).any (fun s ↦ Dict.get? "/interfaces/interface[name=if_1]/type".toList s.written ==
        some (some "iana-if-type:slowEther".toList)) = true := by decide +kernel
  obtain ⟨s, hreach, htest⟩ := Machine.exists_reach_of_any hrun
  obtain ⟨v, p, hv, hget⟩ := (read_your_writes hreach).1 (ifOneTypePath []) interfacesPrefix
    (by decide +kernel) (by decide +kernel)
  refine ⟨s, p, hreach, hget.trans ?_⟩
  have htext : nslessXpath (pathWithPrefix (ifOneTypePath []) interfacesPrefix) =
      "/interfaces/interface[name=if_1]/type".toList := by decide +kernel
  rw [htext, eq_of_beq htest, Option.some_inj, Option.some_inj] at hv
  have hvalue : typed (getElemFromXpath (pathWithPrefix (ifOneTypePath []) interfacesPrefix))
      (bare (getElemFromXpath (pathWithPrefix (ifOneTypePath []) interfacesPrefix))
        "iana-if-type:slowEther".toList) = "iana-if-type:slowEther".toList := by decide +kernel
  rw [← hv, hvalue]

/-- With the module name first and without it then, the second value is stored and the first one is
read. -/
def lostWrites : List WriteEvent :=
  [.setUpdate interfacesPrefix (ifOneTypePath []) (.stringVal "slowEther".toList),
    .setUpdate ⟨[]⟩ (ifOneTypePath [⟨"interfaces".toList, []⟩]) (.stringVal "fastEther".toList)]

theorem not_read_fastEther : ∃ s, (writeMachine noJson fun _ ↦ []).Reachable (.start 1) s ∧
    Dict.get? "/interfaces/interface[name=if_1]/type".toList s.written =
      some (some "fastEther".toList) ∧
    s.adapter.get ⟨[]⟩ .config [ifOneTypePath [⟨"interfaces".toList, []⟩]] =
      .ok [(ifOneTypePath [⟨"interfaces".toList, []⟩], .leaf "iana-if-type:slowEther".toList)] := by
  have hrun : (((writeMachine noJson fun _ ↦ []).restrict fun _ _ ↦ True).runFrom (.start 1)
      lostWrites).any (fun s ↦ decide (Dict.get? "/interfaces/interface[name=if_1]/type".toList
        s.written = some (some "fastEther".toList) ∧
        s.adapter.get ⟨[]⟩ .config [ifOneTypePath [⟨"interfaces".toList, []⟩]] =
          .ok [(ifOneTypePath [⟨"interfaces".toList, []⟩],
            .leaf "iana-if-type:slowEther".toList)])) = true := by decide +kernel
  obtain ⟨s, hreach, htest⟩ := Machine.exists_reach_of_any hrun
  exact ⟨s, hreach, of_decide_eq_true htest⟩

end ConfdDemos.Gnmi
