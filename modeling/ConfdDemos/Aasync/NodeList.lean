import Mathlib.Data.List.Basic
import Mathlib.Data.Int.Basic

/-!
# The cluster member list of the active-active synchronizer

The daemon keeps its view of the cluster in a linked list `aasync_nodes` of `struct aanode`, and
edits it in place while it walks a tag-value array of CDB modifications. Cells have an identity of
their own, because the walk remembers a *pointer* to a cell from one array entry to the next.

## What is carried from entry to entry

`mod`, `node`, `nodeid` and `addr` are locals of the whole walk, not of one list entry: they are set
by the tags of an entry and never cleared. `ModState` is that set of locals, and `modStep` is the
body of the loop over the array. A dereference of a null or removed cell has no result.

Ports are kept in host byte order; `htons` is a bijection that fixes zero, and the code only copies
ports and compares them with zero.
-/

namespace ConfdDemos.Aasync

/-! ## Tag values -/

/-- The element tags the daemon tells apart: those of the `node` list entries, and any other. -/
inductive Tag
  | nodeid
  | ip
  | port
  | other (hash : ℕ)
  deriving DecidableEq, Repr

/-- A `confd_value_t`, as far as the daemon looks into it. -/
inductive Value
  | xmlBegin
  | xmlBeginDel
  | xmlEnd
  | xmlTag
  | noExists
  | int32 (i : ℤ)
  | ipv4 (addr : ℕ)
  | uint16 (port : ℕ)
  | buf (s : List Char)
  deriving DecidableEq, Repr

/-- A `confd_tag_value_t`. -/
structure TagValue where
  /-- The element the value belongs to. -/
  tag : Tag
  /-- The value, or the kind of bracket it opens or closes. -/
  v : Value
  deriving DecidableEq, Repr

namespace Value

/-- `CONFD_GET_INT32`; the code applies it to `int32` values only. -/
def getInt32 : Value → ℤ
  | int32 i => i
  | _ => 0

/-- `CONFD_GET_IPV4`. -/
def getIpv4 : Value → ℕ
  | ipv4 a => a
  | _ => 0

/-- `CONFD_GET_UINT16`. -/
def getUint16 : Value → ℕ
  | uint16 p => p
  | _ => 0

end Value

/-! ## Cells and the list -/

/-- The address of a cell. -/
abbrev Ref := ℕ

/-- A `struct aanode` without its `next` link, which the list order carries. -/
structure Aanode where
  nodeid : ℤ
  sAddr : ℕ
  sinPort : ℕ
  maapiSocket : ℤ
  th : ℤ
  deriving DecidableEq, Repr

/-- The linked list `aasync_nodes`, from the head on, and the next address `malloc` returns. -/
structure NodeList where
  /-- The cells in list order. -/
  cells : List (Ref × Aanode)
  /-- The next unused address. -/
  fresh : Ref
  deriving DecidableEq, Repr

namespace NodeList

/-- The member ids in list order. -/
def nodeids (l : NodeList) : List ℤ := l.cells.map fun c ↦ c.2.nodeid

/-- The first cell with a given id, as the `for` loop over the list finds it. -/
def find (l : NodeList) (nodeid : ℤ) : Option Ref :=
  (l.cells.find? fun c ↦ c.2.nodeid == nodeid).map Prod.fst

/-- `malloc`, `memset` and `AANODE_JOIN`: a new cell at the head. -/
def join (l : NodeList) (n : Aanode) : NodeList := ⟨(l.fresh, n) :: l.cells, l.fresh + 1⟩

/-- A write through a cell pointer; there is no result unless the cell is in the list. -/
def update (l : NodeList) (r : Ref) (f : Aanode → Aanode) : Option NodeList :=
  if r ∈ l.cells.map Prod.fst then
    some { l with cells := l.cells.map fun c ↦ if c.1 = r then (c.1, f c.2) else c }
  else none

/-- `AANODE_LEAVE` followed by `free`; there is no result unless the cell is in the list. -/
def leave (l : NodeList) (r : Ref) : Option NodeList :=
  if r ∈ l.cells.map Prod.fst then some { l with cells := l.cells.filter fun c ↦ c.1 ≠ r }
  else none

end NodeList

/-! ## The walk over a modification array -/

/-- `modification_type`. -/
inductive Modification
  | create
  | modify
  | delete
  deriving DecidableEq, Repr

/-- The locals the walk carries from one array entry to the next. -/
structure ModState where
  /-- `mod`, uninitialized before the first begin tag. -/
  mod : Option Modification
  /-- `node`, null when the last lookup failed. -/
  node : Option Ref
  nodeid : ℤ
  sAddr : ℕ
  sinPort : ℕ
  deriving DecidableEq, Repr

/-- The locals at the start of the walk. -/
def ModState.init : ModState := ⟨none, none, -1, 0, 0⟩

/-- The effect of a `C_XMLEND` tag: perform the modification the entry described. -/
def performModification (l : NodeList) (m : ModState) : Option (NodeList × ModState) :=
  match m.mod with
  | some .create =>
    some (l.join ⟨m.nodeid, m.sAddr, m.sinPort, 0, 0⟩, { m with node := some l.fresh })
  | some .modify => do
    let r ← m.node
    let l' ← l.update r fun n ↦
      { n with
        nodeid := if m.nodeid ≥ 0 then m.nodeid else n.nodeid
        sAddr := if m.sAddr > 0 then m.sAddr else n.sAddr
        sinPort := if m.sinPort > 0 then m.sinPort else n.sinPort }
    return (l', m)
  | some .delete => do
    let r ← m.node
    let l' ← l.leave r
    return (l', m)
  | none => some (l, m)

/-- The effect of a leaf value. The id key decides whether a begun entry creates or modifies. -/
def readLeaf (l : NodeList) (m : ModState) (tv : TagValue) : ModState :=
  match tv.tag with
  | .nodeid =>
    let found := l.find tv.v.getInt32
    { m with
      nodeid := tv.v.getInt32
      node := found
      mod := if found.isSome && m.mod == some .create then some .modify else m.mod }
  | .ip => { m with sAddr := tv.v.getIpv4 }
  | .port => { m with sinPort := tv.v.getUint16 }
  | .other _ => m

/-- The body of the loop over the array. -/
def modStep (l : NodeList) (m : ModState) (tv : TagValue) : Option (NodeList × ModState) :=
  match tv.v with
  | .xmlBegin => some (l, { m with mod := some .create })
  | .xmlBeginDel => some (l, { m with mod := some .delete })
  | .xmlEnd => performModification l m
  | .xmlTag => some (l, m)
  | .noExists => some (l, m)
  | _ => some (l, readLeaf l m tv)

/-- The loop, from any state of the locals. -/
def modLoop (l : NodeList) (m : ModState) : List TagValue → Option (NodeList × ModState)
  | [] => some (l, m)
  | tv :: tvs => (modStep l m tv).bind fun p ↦ modLoop p.1 p.2 tvs

/-- `handle_aacluster_modifications`. -/
def handleAaclusterModifications (l : NodeList) (val : List TagValue) : Option NodeList :=
  (modLoop l ModState.init val).map Prod.fst

end ConfdDemos.Aasync
