import ConfdDemos.Gnmi.Path

/-!
# Write transactions of the API adapter

`set` and `delete` each run in a write transaction of their own: they hand edits to MAAPI, which may
refuse any of them, and then call `apply`. What ConfD accepts, its schema and what an edit does to
the datastore are those of a `Maapi`.

## The current position

A transaction has a stack of directories. `pushd` puts one on it and a relative path is resolved
against the top; the adapter never calls `popd`. `update_paths` calls `pushd` for every JSON object
it enters, so the position at a leaf depends on every object visited before it. `Members.placed`
says where the leaves of an object end up, given the position at its start.
-/

namespace ConfdDemos.Gnmi

/-! ## JSON values -/

/-- A decoded JSON value that is not an object. -/
inductive Leaf
  | null
  | bool (b : Bool)
  /-- A number, kept as its text. -/
  | num (text : List Char)
  | str (text : List Char)
  /-- A list, kept as its text. -/
  | list (text : List Char)
  deriving DecidableEq, Repr

def Leaf.isStr : Leaf → Bool
  | .str _ => true
  | _ => false

/-- `fix_path_prefixes` on a value. -/
def Leaf.fixPathPrefixes (P : Prefixes) : Leaf → Leaf
  | .str text => .str (P.fixPathPrefixes text)
  | v => v

/-- The members of a JSON object in document order. -/
inductive Members
  | nil
  | leaf (name : List Char) (value : Leaf) (rest : Members)
  | obj (name : List Char) (members : Members) (rest : Members)
  deriving DecidableEq, Repr

inductive Json
  | leaf (value : Leaf)
  | obj (members : Members)
  deriving DecidableEq, Repr

/-- One more member in front. -/
def Members.cons (name : List Char) (value : Json) (rest : Members) : Members :=
  match value with
  | .leaf v => .leaf name v rest
  | .obj members => .obj name members rest

/-! ## MAAPI -/

/-- A place in the data tree: an absolute path, and the names followed from there. -/
structure Location where
  base : List Char
  names : List (List Char)
  deriving DecidableEq, Repr

def Location.child (l : Location) (name : List Char) : Location := ⟨l.base, l.names ++ [name]⟩

/-- The place a path stands for at a position. -/
def Location.resolve (pos : Location) (path : List Char) : Location :=
  if IsAbsolute path then ⟨path, []⟩ else pos.child path

inductive Edit
  | set (place : Location) (value : Leaf)
  | delete (place : Location)
  deriving DecidableEq, Repr

/-- ConfD as the adapter sees it. Each answer may depend on the datastore and on the edits made in
the transaction so far. -/
structure Maapi (N D : Type) where
  prefixes : Prefixes
  /-- `cs_node_cd`. -/
  csNodeCd : Option N → List Char → Option N
  /-- The shallow type of the node is `C_IDENTITYREF`. -/
  identityref : N → Bool
  pushdOk : D → List Edit → Location → Bool
  editOk : D → List Edit → Edit → Bool
  applyOk : D → List Edit → Bool
  /-- What an edit does to the datastore. -/
  perform : D → Edit → D

/-- A write transaction. -/
structure Trans where
  dirs : List Location
  edits : List Edit
  deriving DecidableEq, Repr

def Trans.init : Trans := ⟨[], []⟩

def Trans.position (t : Trans) : Location := t.dirs.headD ⟨['/'], []⟩

inductive SetError
  /-- The status `UNIMPLEMENTED` with its details. -/
  | unimplemented (details : String)
  /-- `json.loads` raises. -/
  | decode
  /-- `csnode` is `None`. -/
  | noNode
  /-- A value that is not text is given to `re.sub`. -/
  | notText
  /-- MAAPI refuses a path or a value. -/
  | refused
  | applyFailed
  deriving DecidableEq, Repr

/-- `UpdateResult.Operation`. -/
inductive UpdateOp
  | update
  | delete
  deriving DecidableEq, Repr

/-- The datastore, with the edits that have been applied to it. -/
structure Datastore (D : Type) where
  data : D
  committed : List Edit

section Calls

variable {N D : Type} (m : Maapi N D) (d : D)

def Maapi.pushd (t : Trans) (path : List Char) : Except SetError Trans :=
  if m.pushdOk d t.edits (t.position.resolve path) then
    .ok { t with dirs := t.position.resolve path :: t.dirs }
  else .error .refused

def Maapi.edit (t : Trans) (e : Edit) : Except SetError Trans :=
  if m.editOk d t.edits e then .ok { t with edits := t.edits ++ [e] } else .error .refused

def Maapi.setElem (t : Trans) (value : Leaf) (path : List Char) : Except SetError Trans :=
  m.edit d t (.set (t.position.resolve path) value)

def Maapi.delete (t : Trans) (path : List Char) : Except SetError Trans :=
  m.edit d t (.delete (t.position.resolve path))

/-- `apply`: all edits of the transaction, or none. -/
def Maapi.apply (s : Datastore D) (t : Trans) : Except SetError (Datastore D) :=
  if m.applyOk s.data t.edits then
    .ok ⟨t.edits.foldl m.perform s.data, s.committed ++ t.edits⟩
  else .error .applyFailed

/-! ## The adapter -/

/-- The value written to a node: in JSON, identityrefs are prefixed by module name. -/
def Maapi.value (node : Option N) (v : Leaf) : Leaf :=
  match node with
  | some n => if m.identityref n then v.fixPathPrefixes m.prefixes else v
  | none => v

/-- `update_paths` on a value that is not an object. -/
def Maapi.setLeaf (t : Trans) (path : List Char) (node : Option N) (v : Leaf) :
    Except SetError Trans :=
  match node with
  | none => .error .noNode
  | some n =>
    if m.identityref n && !v.isStr then .error .notText
    else m.setElem d t (m.value (some n) v) path

/-- The loop of `update_paths` over the members of an object. -/
def Maapi.updateMembers (t : Trans) (node : Option N) : Members → Except SetError Trans
  | .nil => .ok t
  | .leaf name v rest => do
    let path := m.prefixes.fixPathPrefixes name
    let t ← m.setLeaf d t path (m.csNodeCd node path) v
    updateMembers t node rest
  | .obj name members rest => do
    let path := m.prefixes.fixPathPrefixes name
    let t ← m.pushd d t path
    let t ← updateMembers t (m.csNodeCd node path) members
    updateMembers t node rest

def Maapi.updatePaths (t : Trans) (path : List Char) (parent : Option N) :
    Json → Except SetError Trans
  | .leaf v => m.setLeaf d t path (m.csNodeCd parent path) v
  | .obj members => do
    let t ← m.pushd d t path
    m.updateMembers d t (m.csNodeCd parent path) members

/-- The loop calls `update_paths` for one member after the other. -/
theorem Maapi.updateMembers_cons (t : Trans) (node : Option N) (name : List Char) (value : Json)
    (rest : Members) :
    m.updateMembers d t node (.cons name value rest) =
      m.updatePaths d t (m.prefixes.fixPathPrefixes name) node value >>= fun t ↦
        m.updateMembers d t node rest := by
  cases value with
  | leaf v => rfl
  | obj members =>
    rw [Members.cons, Maapi.updateMembers, Maapi.updatePaths, bind_assoc]

end Calls

/-- `TypedValue`. -/
inductive TypedValue
  | unset
  | stringVal (text : List Char)
  | intVal
  | uintVal
  | boolVal
  | bytesVal
  | floatVal
  | doubleVal
  | decimalVal
  | leaflistVal
  | anyVal
  | jsonVal (bytes : List UInt8)
  | jsonIetfVal (bytes : List UInt8)
  | asciiVal
  | protoBytes
  deriving DecidableEq, Repr

structure Update where
  path : Path
  val : TypedValue
  deriving DecidableEq, Repr

section Adapter

variable {N D : Type} (loads : List UInt8 → Option Json) (m : Maapi N D)

/-- The path handed to MAAPI. -/
def Maapi.pathStr (pfx path : Path) : List Char :=
  m.prefixes.fixPathPrefixes (makeFormattedPath path (some pfx) false)

/-- The branches of `set_update`. A field of the `oneof` that is not set reads as empty. -/
def Maapi.setValue (d : D) (t : Trans) (pathStr : List Char) : TypedValue → Except SetError Trans
  | .stringVal text => if text = [] then .ok t else m.setElem d t (.str text) pathStr
  | .jsonIetfVal bytes =>
    if bytes = [] then .ok t
    else match loads bytes with
      | none => .error .decode
      | some jval => m.updatePaths d t pathStr none jval
  | _ => .ok t

/-- `set_update`. -/
def Maapi.setUpdate (d : D) (t : Trans) (pfx path : Path) (val : TypedValue) :
    Except SetError (Trans × UpdateOp) := do
  let t ← m.setValue loads d t (m.pathStr pfx path) val
  return (t, .update)

/-- The updates of a request in one transaction. -/
def Maapi.setUpdates (d : D) (pfx : Path) (t : Trans) :
    List Update → Except SetError (Trans × List (Path × UpdateOp))
  | [] => .ok (t, [])
  | up :: updates => do
    let (t, op) ← m.setUpdate loads d t pfx up.path up.val
    let (t, ops) ← setUpdates d pfx t updates
    return (t, (up.path, op) :: ops)

/-- `set` of the API adapter. -/
def Maapi.set (s : Datastore D) (pfx : Path) (updates : List Update) :
    Except SetError (Datastore D × List (Path × UpdateOp)) := do
  let (t, ops) ← m.setUpdates loads s.data pfx .init updates
  let s ← m.apply s t
  return (s, ops)

def Maapi.deletePaths (d : D) (pfx : Path) (t : Trans) :
    List Path → Except SetError (Trans × List (Path × UpdateOp))
  | [] => .ok (t, [])
  | path :: paths => do
    let t ← m.delete d t (m.pathStr pfx path)
    let (t, ops) ← deletePaths d pfx t paths
    return (t, (path, .delete) :: ops)

/-- `delete` of the API adapter. -/
def Maapi.deleteAll (s : Datastore D) (pfx : Path) (paths : List Path) :
    Except SetError (Datastore D × List (Path × UpdateOp)) := do
  let (t, ops) ← m.deletePaths s.data pfx .init paths
  let s ← m.apply s t
  return (s, ops)

end Adapter

/-! ## What the calls do -/

theorem bind_eq_ok {ε α β : Type} {x : Except ε α} {f : α → Except ε β} {b : β} :
    x >>= f = .ok b ↔ ∃ a, x = .ok a ∧ f a = .ok b := by
  cases x with
  | error e => exact ⟨fun h ↦ absurd h (by simp [bind, Except.bind]), fun ⟨a, ha, _⟩ ↦ by cases ha⟩
  | ok a => exact ⟨fun h ↦ ⟨a, rfl, h⟩, fun ⟨a', ha, hf⟩ ↦ by cases ha; exact hf⟩

theorem ite_eq_ok {ε α : Type} {p : Prop} [Decidable p] {e : ε} {a b : α} :
    (if p then .ok a else .error e : Except ε α) = .ok b ↔ p ∧ a = b := by
  split_ifs with hp <;> simp [hp]

section Spec

variable {N D : Type} {m : Maapi N D} {d : D} {t t' : Trans}

theorem Maapi.pushd_eq_ok {path : List Char} :
    m.pushd d t path = .ok t' ↔
      m.pushdOk d t.edits (t.position.resolve path) = true ∧
        { t with dirs := t.position.resolve path :: t.dirs } = t' := by
  rw [Maapi.pushd, ite_eq_ok]

theorem Maapi.edit_eq_ok {e : Edit} :
    m.edit d t e = .ok t' ↔
      m.editOk d t.edits e = true ∧ { t with edits := t.edits ++ [e] } = t' := by
  rw [Maapi.edit, ite_eq_ok]

theorem Maapi.setLeaf_eq_ok {path : List Char} {node : Option N} {v : Leaf} :
    m.setLeaf d t path node v = .ok t' ↔
      (∃ n, node = some n ∧ (m.identityref n = true → v.isStr = true)) ∧
        m.edit d t (.set (t.position.resolve path) (m.value node v)) = .ok t' := by
  cases node with
  | none => simp [Maapi.setLeaf]
  | some n =>
    simp only [Maapi.setLeaf, Maapi.setElem, Option.some_inj, exists_eq_left']
    cases m.identityref n <;> cases v.isStr <;> simp

/-- The position after the members of an object, when the position at its start is `pos`. -/
def Members.lastDir (P : Prefixes) (pos : Location) : Members → Location
  | .nil => pos
  | .leaf _ _ rest => rest.lastDir P pos
  | .obj name members rest =>
    rest.lastDir P (members.lastDir P (pos.resolve (P.fixPathPrefixes name)))

/-- Where the leaves of an object are written when the position at its start is `pos`. -/
def Members.placed (m : Maapi N D) (pos : Location) (node : Option N) : Members → List Edit
  | .nil => []
  | .leaf name v rest =>
    .set (pos.resolve (m.prefixes.fixPathPrefixes name))
      (m.value (m.csNodeCd node (m.prefixes.fixPathPrefixes name)) v) :: rest.placed m pos node
  | .obj name members rest =>
    members.placed m (pos.resolve (m.prefixes.fixPathPrefixes name))
        (m.csNodeCd node (m.prefixes.fixPathPrefixes name)) ++
      rest.placed m
        (members.lastDir m.prefixes (pos.resolve (m.prefixes.fixPathPrefixes name))) node
def Json.placed (m : Maapi N D) (pos : Location) (node : Option N) : Json → List Edit
  | .leaf v => [.set pos (m.value node v)]
  | .obj members => members.placed m pos node

theorem Maapi.updateMembers_eq_ok {node : Option N} {members : Members}
    (h : m.updateMembers d t node members = .ok t') :
    t'.edits = t.edits ++ members.placed m t.position node ∧
      t'.position = members.lastDir m.prefixes t.position := by
  induction members generalizing t t' node with
  | nil =>
    cases h
    exact ⟨(List.append_nil _).symm, rfl⟩
  | leaf name v rest ih =>
    rw [Maapi.updateMembers, bind_eq_ok] at h
    obtain ⟨t₁, hleaf, hrest⟩ := h
    rw [Maapi.setLeaf_eq_ok, Maapi.edit_eq_ok] at hleaf
    obtain ⟨-, -, rfl⟩ := hleaf
    obtain ⟨hedits, hpos⟩ := ih hrest
    refine ⟨?_, hpos⟩
    rw [hedits, List.append_assoc, List.singleton_append]
    rfl
  | obj name members rest ihm ihr =>
    rw [Maapi.updateMembers, bind_eq_ok] at h
    obtain ⟨t₁, hpushd, h⟩ := h
    rw [bind_eq_ok] at h
    obtain ⟨t₂, hmembers, hrest⟩ := h
    obtain ⟨-, rfl⟩ := Maapi.pushd_eq_ok.mp hpushd
    obtain ⟨hedits₂, hpos₂⟩ := ihm hmembers
    obtain ⟨hedits, hpos⟩ := ihr hrest
    rw [hpos₂] at hedits hpos
    refine ⟨?_, hpos⟩
    rw [hedits, hedits₂, List.append_assoc]
    rfl

theorem Maapi.updatePaths_eq_ok {path : List Char} {parent : Option N} {jval : Json}
    (h : m.updatePaths d t path parent jval = .ok t') :
    t'.edits = t.edits ++ jval.placed m (t.position.resolve path) (m.csNodeCd parent path) := by
  cases jval with
  | leaf v =>
    rw [Maapi.updatePaths, Maapi.setLeaf_eq_ok, Maapi.edit_eq_ok] at h
    obtain ⟨-, -, rfl⟩ := h
    rfl
  | obj members =>
    rw [Maapi.updatePaths, bind_eq_ok] at h
    obtain ⟨t₁, hpushd, hmembers⟩ := h
    obtain ⟨-, rfl⟩ := Maapi.pushd_eq_ok.mp hpushd
    exact (Maapi.updateMembers_eq_ok hmembers).1

/-- The place an absolute path stands for does not depend on the position. -/
theorem Location.resolve_of_isAbsolute {path : List Char} (h : IsAbsolute path) (pos : Location) :
    pos.resolve path = ⟨path, []⟩ := if_pos h

theorem Maapi.isAbsolute_pathStr (pfx path : Path) : IsAbsolute (m.pathStr pfx path) :=
  Prefixes.isAbsolute_fixPathPrefixes.mpr (isAbsolute_makeFormattedPath path (some pfx) false)

/-- The place an update is for. -/
def Maapi.place (m : Maapi N D) (pfx path : Path) : Location := ⟨m.pathStr pfx path, []⟩

/-- The schema node of the place an update is for. -/
def Maapi.node (m : Maapi N D) (pfx path : Path) : Option N := m.csNodeCd none (m.pathStr pfx path)

/-- What `set_update` writes. -/
def Maapi.written (loads : List UInt8 → Option Json) (m : Maapi N D) (pfx : Path) (up : Update) :
    List Edit :=
  match up.val with
  | .stringVal text => if text = [] then [] else [.set (m.place pfx up.path) (.str text)]
  | .jsonIetfVal bytes =>
    if bytes = [] then []
    else ((loads bytes).map fun jval ↦
      jval.placed m (m.place pfx up.path) (m.node pfx up.path)).getD []
  | _ => []

variable {loads : List UInt8 → Option Json}

/-- **What an update does**: it writes from its own path, wherever the updates before it have left
the position. -/
theorem Maapi.setUpdate_eq_ok {pfx : Path} (up : Update) {op : UpdateOp}
    (h : m.setUpdate loads d t pfx up.path up.val = .ok (t', op)) :
    t'.edits = t.edits ++ m.written loads pfx up ∧ op = .update := by
  rw [Maapi.setUpdate, bind_eq_ok] at h
  obtain ⟨t₁, hval, hret⟩ := h
  cases hret
  refine ⟨?_, rfl⟩
  -- the path of an update is absolute, so the position does not matter
  have hplace := Location.resolve_of_isAbsolute (m.isAbsolute_pathStr pfx up.path) t.position
  obtain ⟨path, val⟩ := up
  cases val with
  | stringVal text =>
    simp only [Maapi.setValue] at hval
    simp only [Maapi.written]
    split_ifs at hval ⊢ with hnil
    · cases hval
      exact (List.append_nil _).symm
    · rw [Maapi.setElem, hplace, Maapi.edit_eq_ok] at hval
      obtain ⟨-, rfl⟩ := hval
      rfl
  | jsonIetfVal bytes =>
    simp only [Maapi.setValue] at hval
    simp only [Maapi.written]
    split_ifs at hval ⊢ with hnil
    · cases hval
      exact (List.append_nil _).symm
    · split at hval
      next => cases hval
      next jval hloads =>
        have hedits := Maapi.updatePaths_eq_ok hval
        rw [hplace] at hedits
        rw [hedits, hloads]
        rfl
  | _ =>
    cases hval
    exact (List.append_nil _).symm

theorem Maapi.setUpdates_eq_ok {pfx : Path} {updates : List Update} {ops : List (Path × UpdateOp)}
    (h : m.setUpdates loads d pfx t updates = .ok (t', ops)) :
    t'.edits = t.edits ++ updates.flatMap (m.written loads pfx) ∧
      ops = updates.map fun up ↦ (up.path, .update) := by
  induction updates generalizing t ops with
  | nil =>
    cases h
    exact ⟨(List.append_nil _).symm, rfl⟩
  | cons up updates ih =>
    rw [Maapi.setUpdates, bind_eq_ok] at h
    obtain ⟨⟨t₁, op⟩, hup, h⟩ := h
    rw [bind_eq_ok] at h
    obtain ⟨⟨t₂, ops₂⟩, hrest, hret⟩ := h
    cases hret
    obtain ⟨hedits₁, rfl⟩ := Maapi.setUpdate_eq_ok up hup
    obtain ⟨hedits, rfl⟩ := ih hrest
    exact ⟨by rw [hedits, hedits₁, List.append_assoc, List.flatMap_cons], rfl⟩

end Spec

end ConfdDemos.Gnmi
