import Mathlib.Data.Int.Basic
import Mathlib.Data.List.TakeDrop
import Mathlib.Tactic.IntervalCases
import ConfdDemos.Foundation.Cursor

/-!
# Iterating a list of the operational data store

The provider answers ConfD out of CDB. Its two list callbacks find a position from the key of the
last entry ConfD has seen: `find_next` returns the key at this position, and `find_next_object` up
to `max_nobjs` whole entries from there on. Each computes the position, the keys and the end on its
own.

## Keys

An entry of a keyed list is found by its key leaves. A keyless list has none, and ConfD is given a
pseudo key, the index of the entry. `find_next` uses the position for it, but `find_next_object`
counts from the beginning of its reply: the two agree on a keyless list only if one reply holds all
of it. On an empty one `find_next` does not look whether there is an entry at position zero.

## What CDB is asked

`cdb_index` and `cdb_next_index` are calls into ConfD's library. `CdbIndex` is what they are
documented to return.
-/

namespace ConfdDemos.CdbOper

variable {V α : Type*}

/-- A `confd_value_t` in a list of keys: a key leaf, or a pseudo key. -/
inductive KeyValue (V : Type*)
  | leaf (v : V)
  | int64 (i : ℤ)
  deriving DecidableEq, Repr

/-- A cell of the array that `cdb_get_values` fills in. -/
inductive Cell (α : Type*)
  /-- `C_NOEXISTS`: the leaf has no value. -/
  | noExists
  /-- The value of a leaf, or the begin of a container. -/
  | value (a : α)
  /-- `C_CDBBEGIN`, with the index of a list entry. -/
  | cdbBegin (i : ℕ)
  | xmlEnd
  deriving DecidableEq, Repr

/-- A list in CDB, with its schema. -/
structure CdbList (V α : Type*) where
  /-- The number of key leaves; zero for a keyless list. -/
  realNkeys : ℕ
  /-- `cs_node->parent == NULL`. -/
  atRoot : Bool
  /-- What `traverse_cs_nodes` counts: the cells of an entry. -/
  width : ℕ
  /-- The entries in index order, with a cell for every node below an entry. -/
  rows : List (List (Cell α))
  /-- The key leaves of an entry, by their tags. -/
  keyOf : List (Cell α) → List V
  length_eq : ∀ row ∈ rows, row.length = width
  length_keyOf : ∀ row, (keyOf row).length = realNkeys

/-- `enum confd_find_next_type`. -/
inductive FindNextType
  | next
  | sameOrNext
  deriving DecidableEq, Repr

/-- `format_object`: what has no value is left out. -/
def formatObject (cells : List (Cell α)) : List (Cell α) :=
  cells.filter fun
    | .noExists => false
    | _ => true

namespace CdbList

variable (L : CdbList V α)

/-- The key of the entry at an index, as ConfD has to give it. -/
def key (i : ℕ) (row : List (Cell α)) : List (KeyValue V) :=
  if L.realNkeys = 0 then [.int64 i] else (L.keyOf (formatObject row)).map .leaf

end CdbList

/-- `cdb_index` and `cdb_next_index` for a list: the index of an entry and of the one after it. The
second takes the wildcards for the key leaves that were not given. -/
structure CdbIndex (L : CdbList V α) where
  cdbIndex : List (KeyValue V) → ℤ
  cdbNextIndex : List (KeyValue V) → ℕ → ℤ
  index_key : ∀ i row, L.rows[i]? = some row → cdbIndex (L.key i row) = i
  next_key : ∀ i row, L.rows[i]? = some row → i + 1 < L.rows.length →
    cdbNextIndex (L.key i row) 0 = i + 1
  next_last : ∀ i row, L.rows[i]? = some row → i + 1 = L.rows.length →
    cdbNextIndex (L.key i row) 0 < 0
  /-- A pseudo key that is no index has no successor. -/
  next_pseudo : L.realNkeys = 0 → ∀ i : ℕ, L.rows.length ≤ i → cdbNextIndex [.int64 i] 0 < 0

section Callbacks

variable (L : CdbList V α) (C : CdbIndex L)

/-- Both callbacks: the position a request is about. -/
def findPos (type : FindNextType) (keys : List (KeyValue V)) : ℤ :=
  let stars := L.realNkeys - keys.length
  if keys.length = 0 then 0
  else
    match type with
    | .sameOrNext =>
      if L.realNkeys = keys.length then
        if C.cdbIndex keys < 0 then C.cdbNextIndex keys 0 else C.cdbIndex keys
      else C.cdbNextIndex keys stars
    | .next => C.cdbNextIndex keys stars

/-- `find_next`: the next key, or the end of the list. -/
def findNext (type : FindNextType) (keys : List (KeyValue V)) : Option (List (KeyValue V)) :=
  let pos := findPos L C type keys
  if pos < 0 then none
  else if L.realNkeys = 0 then some [.int64 pos]
  else (L.rows[pos.toNat]?).map fun row ↦ (L.keyOf (formatObject row)).map .leaf

/-- A `struct confd_tag_next_object`: the pseudo key of a keyless list, and the formatted cells. -/
structure NextObject (α : Type*) where
  pseudoKey : Option ℤ
  tv : List (Cell α)
  deriving DecidableEq, Repr

/-- The array for the entries from a position on: at the root one `cdb_get_values` for each entry,
elsewhere a single one with the entries in brackets. -/
def getValues (pos nobj : ℕ) : List (Cell α) :=
  let rows := (L.rows.drop pos).take nobj
  if L.atRoot then rows.flatten
  else (rows.mapIdx fun i row ↦ .cdbBegin (pos + i) :: row ++ [.xmlEnd]).flatten

/-- `find_next_object`: some objects, and whether the list ends with them. -/
def findNextObject (maxNobjs : ℕ) (type : FindNextType) (keys : List (KeyValue V)) :
    List (NextObject α) × Bool :=
  let pos := findPos L C type keys
  let nListEntries := L.rows.length
  if pos < 0 ∨ (nListEntries : ℤ) ≤ pos then ([], true)
  else
    let pos := pos.toNat
    let nobj := if nListEntries - pos > maxNobjs then maxNobjs else nListEntries - pos
    let itv := getValues L pos nobj
    let skip := if L.atRoot then 0 else 1
    let nItv := itv.length / nobj
    let object (i : ℕ) : NextObject α :=
      ⟨if L.realNkeys > 0 then none else some i,
        formatObject ((itv.drop (nItv * i + skip)).take (nItv - skip * 2))⟩
    ((List.range nobj).map object, decide (nListEntries ≤ pos + nobj))

/-- The key ConfD reads from an object. -/
def NextObject.key (o : NextObject α) : List (KeyValue V) :=
  match o.pseudoKey with
  | some i => [.int64 i]
  | none => (L.keyOf o.tv).map .leaf

/-! ## Iteration -/

/-- ConfD asks for the next key until there is none. -/
def keyCursor (keys : List (KeyValue V)) : List (List (KeyValue V)) × Option (List (KeyValue V)) :=
  match findNext L C .next keys with
  | none => ([], none)
  | some k => ([k], some k)

/-- ConfD asks for the objects behind the last one of the reply until the end. -/
def objectCursor (maxNobjs : ℕ) (keys : List (KeyValue V)) :
    List (NextObject α) × Option (List (KeyValue V)) :=
  let reply := findNextObject L C maxNobjs .next keys
  (reply.1, if reply.2 then none else reply.1.getLast?.map (NextObject.key L))

/-- Both iterations come to their end, the objects are the entries of the list in index order, and
their keys are those of the other iteration. -/
def Agree (maxNobjs : ℕ) : Prop :=
  ∃ objects keys, Collects (objectCursor L C maxNobjs) [] objects ∧
    Collects (keyCursor L C) [] keys ∧ objects.map NextObject.tv = L.rows.map formatObject ∧
    objects.map (NextObject.key L) = keys

end Callbacks

/-! ## Positions -/

section Positions

variable {L : CdbList V α} {C : CdbIndex L} {maxNobjs p i : ℕ}

/-- The key with which ConfD asks for the entries from a position on. -/
def CdbList.cursorAt (L : CdbList V α) : ℕ → List (KeyValue V)
  | 0 => []
  | p + 1 => L.key p (L.rows.getD p [])

@[simp]
theorem CdbList.cursorAt_zero : L.cursorAt 0 = [] := rfl

theorem length_key (row : List (Cell α)) :
    (L.key i row).length ≠ 0 ∧ L.realNkeys - (L.key i row).length = 0 := by
  by_cases hkeys : L.realNkeys = 0
  · simp [CdbList.key, hkeys]
  · simp [CdbList.key, hkeys, L.length_keyOf]

theorem findPos_key (row : List (Cell α)) :
    findPos L C .next (L.key i row) = C.cdbNextIndex (L.key i row) 0 := by
  obtain ⟨hne, hstars⟩ := length_key (L := L) (i := i) row
  rw [findPos, if_neg hne, hstars]

/-- The position behind the entries ConfD has seen. -/
theorem findPos_cursorAt (hp : p < L.rows.length ∨ p = 0) :
    findPos L C .next (L.cursorAt p) = p := by
  cases p with
  | zero => rfl
  | succ p =>
    have hlt : p + 1 < L.rows.length := hp.resolve_right (Nat.succ_ne_zero p)
    have hrow : L.rows[p]? = some (L.rows.getD p []) := by
      rw [List.getD_eq_getElem?_getD, List.getElem?_eq_getElem (by omega), Option.getD_some]
    rw [CdbList.cursorAt, findPos_key, C.next_key p _ hrow hlt]
    omega

theorem findPos_end (h : L.rows.length ≠ 0) :
    findPos L C .next (L.cursorAt L.rows.length) < 0 := by
  obtain ⟨n, hn⟩ := Nat.exists_eq_succ_of_ne_zero h
  have hrow : L.rows[n]? = some (L.rows.getD n []) := by
    rw [List.getD_eq_getElem?_getD, List.getElem?_eq_getElem (by omega), Option.getD_some]
  rw [hn, CdbList.cursorAt, findPos_key]
  exact C.next_last n _ hrow hn.symm

/-! ## One key at a time -/

/-- The keys of the list in index order. -/
def CdbList.keys (L : CdbList V α) : List (List (KeyValue V)) := L.rows.mapIdx L.key

theorem findNext_cursorAt (hp : p < L.rows.length) :
    findNext L C .next (L.cursorAt p) = some (L.cursorAt (p + 1)) := by
  have hpos : ¬((p : ℤ) < 0) := by omega
  rw [findNext, findPos_cursorAt (.inl hp), if_neg hpos]
  by_cases hkeys : L.realNkeys = 0
  · simp [hkeys, CdbList.cursorAt, CdbList.key]
  · simp [hkeys, CdbList.cursorAt, CdbList.key, List.getElem?_eq_getElem hp]

theorem findNext_end (h : L.realNkeys ≠ 0 ∨ 0 < L.rows.length) :
    findNext L C .next (L.cursorAt L.rows.length) = none := by
  by_cases hn : L.rows.length = 0
  · have hkeys : L.realNkeys ≠ 0 := h.resolve_right (by omega)
    simp [findNext, hn, findPos, hkeys]
  · rw [findNext, if_pos (findPos_end hn)]

theorem collects_keys (h : L.realNkeys ≠ 0 ∨ 0 < L.rows.length) :
    Collects (keyCursor L C) [] L.keys := by
  have hlength : L.keys.length = L.rows.length := List.length_mapIdx
  refine Collects.of_each L.keys L.cursorAt (fun p hp ↦ ?_) ?_
  · rw [hlength] at hp
    rw [keyCursor, findNext_cursorAt hp]
    simp [CdbList.keys, CdbList.cursorAt, hp]
  · rw [hlength, keyCursor, findNext_end h]

/-! ## Objects -/

/-- The array is made of records of one width, with the entries between what is skipped. -/
theorem getValues_eq (L : CdbList V α) (p k : ℕ) (hk : p + k ≤ L.rows.length) :
    ∃ (w : ℕ) (records : List (List (Cell α))), getValues L p k = records.flatten ∧
      records.length = k ∧ (∀ r ∈ records, r.length = w) ∧ ∀ i (hi : i < records.length),
        (records[i].drop (if L.atRoot then 0 else 1)).take (w - (if L.atRoot then 0 else 1) * 2) =
          L.rows.getD (p + i) [] := by
  have hlength : ((L.rows.drop p).take k).length = k := by
    rw [List.length_take, List.length_drop]
    omega
  have hwidth : ∀ row ∈ (L.rows.drop p).take k, row.length = L.width := fun row hrow ↦
    L.length_eq row (List.mem_of_mem_drop (List.mem_of_mem_take hrow))
  have hrow : ∀ i (hi : i < ((L.rows.drop p).take k).length),
      ((L.rows.drop p).take k)[i] = L.rows.getD (p + i) [] := by
    intro i hi
    rw [List.getElem_take, List.getElem_drop, List.getD_eq_getElem?_getD,
      List.getElem?_eq_getElem, Option.getD_some]
  by_cases hroot : L.atRoot = true
  · refine ⟨L.width, _, by rw [getValues, if_pos hroot], hlength, hwidth, fun i hi ↦ ?_⟩
    have hi' := hwidth _ (List.getElem_mem hi)
    rw [if_pos hroot, List.drop_zero, Nat.zero_mul, Nat.sub_zero, ← hi', List.take_length, hrow]
  · refine ⟨L.width + 2, _, by rw [getValues, if_neg hroot], by rwa [List.length_mapIdx], ?_, ?_⟩
    · intro r hr
      obtain ⟨i, hi, rfl⟩ := List.mem_mapIdx.mp hr
      rw [List.length_append, List.length_cons, hwidth _ (List.getElem_mem hi)]
      rfl
    · intro i hi
      rw [List.length_mapIdx] at hi
      have hi' := hwidth _ (List.getElem_mem hi)
      rw [if_neg hroot, List.getElem_mapIdx, ← hrow i hi]
      simp [← hi']

/-- The objects in a reply: `nobj` entries from a position on. -/
def CdbList.objectsFrom (L : CdbList V α) (p nobj : ℕ) : List (NextObject α) :=
  (List.range nobj).map fun i ↦
    ⟨if L.realNkeys > 0 then none else some (i : ℕ), formatObject (L.rows.getD (p + i) [])⟩

theorem findNextObject_cursorAt (hmax : 0 < maxNobjs) (hp : p < L.rows.length) :
    findNextObject L C maxNobjs .next (L.cursorAt p) =
      (L.objectsFrom p (min maxNobjs (L.rows.length - p)),
        decide (L.rows.length ≤ p + min maxNobjs (L.rows.length - p))) := by
  have hpos : ¬((p : ℤ) < 0 ∨ (L.rows.length : ℤ) ≤ p) := by omega
  have hnobj : (if L.rows.length - p > maxNobjs then maxNobjs else L.rows.length - p) =
      min maxNobjs (L.rows.length - p) := by
    split <;> omega
  obtain ⟨w, records, hvalues, hlength, hwidth, hrecord⟩ :=
    getValues_eq L p (min maxNobjs (L.rows.length - p)) (by omega)
  have hw : records.flatten.length / min maxNobjs (L.rows.length - p) = w := by
    rw [length_flatten_of_width hwidth, hlength]
    exact Nat.mul_div_cancel w (by omega)
  simp only [findNextObject, findPos_cursorAt (.inl hp), if_neg hpos, Int.toNat_natCast, hnobj,
    hvalues, hw]
  refine Prod.ext (List.map_congr_left fun i hi ↦ ?_) rfl
  have hi' : i < records.length := hlength ▸ List.mem_range.mp hi
  rw [take_drop_flatten_skip hwidth hi', hrecord i hi']

theorem objectCursor_cursorAt (hmax : 0 < maxNobjs) (hp : p < L.rows.length) {k : ℕ}
    (hk : min maxNobjs (L.rows.length - p) = k) :
    objectCursor L C maxNobjs (L.cursorAt p) = (L.objectsFrom p k,
      if L.rows.length ≤ p + k then none
      else (L.objectsFrom p k).getLast?.map (NextObject.key L)) := by
  rw [objectCursor, findNextObject_cursorAt hmax hp, hk]
  simp only [decide_eq_true_eq]

theorem findNextObject_end :
    findNextObject L C maxNobjs .next (L.cursorAt L.rows.length) = ([], true) := by
  have hpos : findPos L C .next (L.cursorAt L.rows.length) < 0 ∨
      (L.rows.length : ℤ) ≤ findPos L C .next (L.cursorAt L.rows.length) := by
    by_cases hn : L.rows.length = 0
    · rw [findPos_cursorAt (.inr hn)]
      exact .inr (Int.le_refl _)
    · exact .inl (findPos_end hn)
  rw [findNextObject, if_pos hpos]

theorem objectCursor_end : objectCursor L C maxNobjs (L.cursorAt L.rows.length) = ([], none) := by
  rw [objectCursor, findNextObject_end]
  rfl

theorem map_tv_objectsFrom :
    (L.objectsFrom 0 L.rows.length).map NextObject.tv = L.rows.map formatObject := by
  refine List.ext_getElem (by simp [CdbList.objectsFrom]) fun i hi hi' ↦ ?_
  rw [List.length_map] at hi'
  simp [CdbList.objectsFrom, hi']

/-- The objects of the whole list have the right keys, with pseudo keys or without. -/
theorem map_key_objectsFrom :
    (L.objectsFrom 0 L.rows.length).map (NextObject.key L) = L.keys := by
  refine List.ext_getElem (by simp [CdbList.objectsFrom, CdbList.keys]) fun i hi hi' ↦ ?_
  rw [CdbList.keys, List.length_mapIdx] at hi'
  by_cases hkeys : L.realNkeys = 0
  · simp [CdbList.objectsFrom, CdbList.keys, CdbList.key, NextObject.key, hkeys]
  · have hpos : L.realNkeys > 0 := Nat.pos_of_ne_zero hkeys
    simp [CdbList.objectsFrom, CdbList.keys, CdbList.key, NextObject.key, hkeys, hpos, hi']

/-- With keys, the objects of a reply are a piece of the objects of the list. -/
theorem objectsFrom_eq_take_drop (hkeys : L.realNkeys ≠ 0) {k : ℕ} (hk : p + k ≤ L.rows.length) :
    L.objectsFrom p k = ((L.objectsFrom 0 L.rows.length).drop p).take k := by
  have hpos : L.realNkeys > 0 := Nat.pos_of_ne_zero hkeys
  refine List.ext_getElem (by simp [CdbList.objectsFrom]; omega) fun i hi hi' ↦ ?_
  simp [CdbList.objectsFrom, hpos]

theorem getLast?_objectsFrom (k : ℕ) (hkeys : L.realNkeys ≠ 0) :
    (L.objectsFrom p (k + 1)).getLast?.map (NextObject.key L) =
      some (L.cursorAt (p + (k + 1))) := by
  have hpos : L.realNkeys > 0 := Nat.pos_of_ne_zero hkeys
  simp [CdbList.objectsFrom, List.range_succ, NextObject.key, hpos,
    CdbList.cursorAt, CdbList.key, hkeys]

theorem collects_objects (hmax : 0 < maxNobjs) (hkeys : L.realNkeys ≠ 0) :
    Collects (objectCursor L C maxNobjs) [] (L.objectsFrom 0 L.rows.length) := by
  have hlength : (L.objectsFrom 0 L.rows.length).length = L.rows.length := by
    rw [CdbList.objectsFrom, List.length_map, List.length_range]
  refine Collects.of_positions _ L.cursorAt fun p hp ↦ ?_
  rw [hlength] at hp ⊢
  rcases Nat.lt_or_eq_of_le hp with hlt | rfl
  · obtain ⟨k, hk⟩ : ∃ k, min maxNobjs (L.rows.length - p) = k + 1 :=
      Nat.exists_eq_succ_of_ne_zero (by omega)
    have hle : p + (k + 1) ≤ L.rows.length := by omega
    rw [objectCursor_cursorAt hmax hlt hk]
    refine ⟨k + 1, objectsFrom_eq_take_drop hkeys hle, ?_⟩
    by_cases hend : L.rows.length ≤ p + (k + 1)
    · exact .inl ⟨if_pos hend, hend⟩
    · exact .inr ⟨by rw [if_neg hend, getLast?_objectsFrom k hkeys], k.succ_pos, hle⟩
  · rw [objectCursor_end]
    exact ⟨0, List.take_zero.symm, .inl ⟨rfl, Nat.le_refl _⟩⟩

/-- A keyless list that fits into one reply. -/
theorem collects_objects_keyless (hpos : 0 < L.rows.length) (hle : L.rows.length ≤ maxNobjs) :
    Collects (objectCursor L C maxNobjs) [] (L.objectsFrom 0 L.rows.length) := by
  have hreply := objectCursor_cursorAt (C := C) (p := 0) (Nat.lt_of_lt_of_le hpos hle) hpos
    (Nat.min_eq_right hle)
  rw [Nat.sub_zero, if_pos (by omega), CdbList.cursorAt_zero] at hreply
  have hcollects := Collects.of_end (congrArg Prod.snd hreply)
  rwa [hreply] at hcollects

/-! ## Keyless lists -/

/-- On an empty keyless list there is a first key. -/
theorem keyCursor_nil (hkeys : L.realNkeys = 0) :
    keyCursor L C [] = ([[.int64 0]], some [.int64 0]) := by
  simp [keyCursor, findNext, findPos, hkeys]

theorem not_agree_empty (hkeys : L.realNkeys = 0) (hn : L.rows.length = 0) :
    ¬Agree L C maxNobjs := by
  rintro ⟨objects, keys, hobjects, hk, -, hsame⟩
  have hend : objectCursor L C maxNobjs (L.cursorAt L.rows.length) = ([], none) := objectCursor_end
  rw [hn, CdbList.cursorAt_zero] at hend
  have hnil : objects = [] := by
    rw [hobjects.eq_of_end (congrArg Prod.snd hend), hend]
  obtain ⟨ys, hys⟩ := hk.exists_eq_append
  rw [keyCursor_nil hkeys] at hys
  rw [hnil, hys] at hsame
  exact absurd hsame (by simp)

/-- The first object of every reply has the pseudo key zero. -/
theorem key_objectsFrom_head (hkeys : L.realNkeys = 0) (k : ℕ) :
    (L.objectsFrom p (k + 1)).map (NextObject.key L) =
      [.int64 0] :: (List.range k).map fun i ↦ [.int64 (i + 1 : ℕ)] := by
  rw [CdbList.objectsFrom, List.range_succ_eq_map]
  simp [NextObject.key, hkeys]

theorem getLast?_objectsFrom_keyless (hkeys : L.realNkeys = 0) (k : ℕ) :
    (L.objectsFrom 0 (k + 1)).getLast?.map (NextObject.key L) = some (L.cursorAt (k + 1)) := by
  simp [CdbList.objectsFrom, List.range_succ, NextObject.key, CdbList.cursorAt, CdbList.key, hkeys]

theorem not_agree_long (hkeys : L.realNkeys = 0) (hmax : 0 < maxNobjs)
    (hn : maxNobjs < L.rows.length) : ¬Agree L C maxNobjs := by
  rintro ⟨objects, keys, hobjects, hk, -, hsame⟩
  obtain ⟨m, rfl⟩ : ∃ m, maxNobjs = m + 1 := Nat.exists_eq_succ_of_ne_zero (by omega)
  -- the first reply is full, and the list goes on
  have hfirst := objectCursor_cursorAt (L := L) (C := C) (p := 0) (k := m + 1) hmax (by omega)
    (by omega)
  rw [if_neg (by omega), getLast?_objectsFrom_keyless hkeys, CdbList.cursorAt_zero] at hfirst
  obtain ⟨os, rfl, hrest⟩ := hobjects.exists_of_next (congrArg Prod.snd hfirst)
  -- the second one begins with the pseudo key zero
  obtain ⟨k, hk'⟩ : ∃ k, min (m + 1) (L.rows.length - (m + 1)) = k + 1 :=
    Nat.exists_eq_succ_of_ne_zero (by omega)
  obtain ⟨os', rfl⟩ := hrest.exists_eq_append
  rw [hfirst, objectCursor_cursorAt hmax hn hk', List.map_append, List.map_append,
    key_objectsFrom_head hkeys m, key_objectsFrom_head hkeys k] at hsame
  have hzero : keys[m + 1]? = some [.int64 0] := by
    rw [← hsame, List.getElem?_append_right (by simp)]
    simp
  rw [hk.unique (collects_keys (.inr (by omega))), CdbList.keys] at hzero
  have hcast : ((m : ℤ) + 1) = 0 := by
    simpa [CdbList.key, hkeys, hn] using hzero
  omega

/-- **Lists in pieces.** Whole entries, `max_nobjs` at a time, are the entries that the keys one at
a time go through, if the list has keys or one reply holds all of it. -/
theorem agree_iff (L : CdbList V α) (C : CdbIndex L) (maxNobjs : ℕ) (hmax : 0 < maxNobjs) :
    Agree L C maxNobjs ↔
      L.realNkeys ≠ 0 ∨ 0 < L.rows.length ∧ L.rows.length ≤ maxNobjs := by
  constructor
  · intro h
    by_contra hnot
    rw [not_or, not_not] at hnot
    obtain ⟨hkeys, hn⟩ := hnot
    rcases Nat.eq_zero_or_pos L.rows.length with hzero | hpos
    · exact not_agree_empty hkeys hzero h
    · exact not_agree_long hkeys hmax (by omega) h
  · intro h
    have hkeys : L.realNkeys ≠ 0 ∨ 0 < L.rows.length := h.imp_right And.left
    refine ⟨_, _, ?_, collects_keys hkeys, map_tv_objectsFrom, map_key_objectsFrom⟩
    rcases h with hne | ⟨hpos, hle⟩
    · exact collects_objects hmax hne
    · exact collects_objects_keyless hpos hle

end Positions

/-! ## Two lists -/

/-- Three entries with one leaf each, at the root or below it, with this leaf as the key or without
a key. -/
def threeRows (keyed atRoot : Bool) : CdbList ℕ ℕ where
  realNkeys := if keyed then 1 else 0
  atRoot := atRoot
  width := 1
  rows := [[.value 0], [.value 1], [.value 2]]
  keyOf row := if keyed then [match row with | [.value a] => a | _ => 0] else []
  length_eq := by simp
  length_keyOf row := by cases keyed <;> rfl

theorem threeRows_key {keyed atRoot : Bool} {i : ℕ} {row : List (Cell ℕ)}
    (hrow : (threeRows keyed atRoot).rows[i]? = some row) :
    i < 3 ∧ (threeRows keyed atRoot).key i row = [if keyed then .leaf i else .int64 i] := by
  have hi : i < 3 := (List.getElem?_eq_some_iff.mp hrow).1
  refine ⟨hi, ?_⟩
  cases keyed with
  | false => rfl
  | true =>
    interval_cases i
    all_goals
      cases hrow
      rfl

/-- CDB for `threeRows`, where an entry holds its index. -/
def threeIndex (keyed atRoot : Bool) : CdbIndex (threeRows keyed atRoot) where
  cdbIndex
    | [.leaf a] => if a < 3 then a else -1
    | [.int64 i] => if 0 ≤ i ∧ i < 3 then i else -1
    | _ => -1
  cdbNextIndex
    | [.leaf a], _ => if a < 2 then a + 1 else -1
    | [.int64 i], _ => if 0 ≤ i ∧ i < 2 then i + 1 else -1
    | _, _ => -1
  index_key i row hrow := by
    obtain ⟨hi, hkey⟩ := threeRows_key hrow
    rw [hkey]
    cases keyed with
    | false => exact if_pos (by omega)
    | true => exact if_pos hi
  next_key i row hrow hi := by
    have hi' : i < 2 := Nat.lt_of_succ_lt_succ hi
    rw [(threeRows_key hrow).2]
    cases keyed with
    | false => exact if_pos (by omega)
    | true => exact if_pos hi'
  next_last i row hrow hi := by
    have hi' : i = 2 := Nat.succ_injective hi
    subst hi'
    rw [(threeRows_key hrow).2]
    cases keyed with
    | false => decide
    | true => decide
  next_pseudo _ i hi := by
    have hi' : 3 ≤ i := hi
    have hnot : ¬(0 ≤ (i : ℤ) ∧ (i : ℤ) < 2) := by omega
    simp only [if_neg hnot]
    decide

/-- Two replies go through a list with a key below the root. -/
theorem agree_two :
    0 < 2 ∧ Agree (threeRows true false) (threeIndex true false) 2 :=
  ⟨by decide, (agree_iff _ _ 2 (by decide)).mpr (.inl (by decide))⟩

/-- The third entry of a keyless list comes with the pseudo key of the first one. -/
theorem not_agree_keyless :
    ¬Agree (threeRows false true) (threeIndex false true) 2 := by
  rintro ⟨objects, keys, hobjects, hkeys, -, hsame⟩
  have hcollect : collect (objectCursor (threeRows false true) (threeIndex false true) 2) 2 [] =
      some [⟨some 0, [.value 0]⟩, ⟨some 1, [.value 1]⟩, ⟨some 0, [.value 2]⟩] := by
    decide
  have hcollect' : collect (keyCursor (threeRows false true) (threeIndex false true)) 4 [] =
      some [[.int64 0], [.int64 1], [.int64 2]] := by
    decide
  rw [hobjects.unique ⟨2, hcollect⟩, hkeys.unique ⟨4, hcollect'⟩] at hsame
  exact absurd hsame (by decide)

end ConfdDemos.CdbOper
