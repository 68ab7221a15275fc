import Mathlib.Data.List.Nodup
import Mathlib.Logic.Function.Basic
import ConfdDemos.Aasync.NodeList

/-!
# The member list and the node list of the CDB

After every commit the daemon walks over the modifications of the node list and edits its own list
in place. The node list of the CDB is a map from ids to addresses, and each entry of the
modification array is an edit of that map: `Entry` is such an edit and `Entry.tags` is the stretch
of the array that describes it.

## What one entry does to the map

`modLoop_entry` reduces the walk over the tags of one entry to a map update that depends on the
entry and on the address the walk has carried so far. Only a modify entry looks at what was carried.

## One leaf at a time

The address and the port are carried and written independently of each other, so the comparison with
the CDB is made for one leaf (`Edit`). A leaf goes wrong when a modify entry leaves it out while a
nonzero value of another entry is carried, or sets it to zero, which the walk takes for "not given";
it is put right again by the next entry for the same node that writes it. `walkAll_eq_iff` says that
nothing else happens.
-/

namespace ConfdDemos.Aasync

/-! ## The CDB side -/

/-- An edit of the node list, as the modification array lists it. -/
inductive Entry
  /-- A new entry with all its leaves. -/
  | create (nodeid : ℤ) (ip port : ℕ)
  /-- An existing entry with the leaves that have changed. -/
  | modify (nodeid : ℤ) (ip port : Option ℕ)
  | delete (nodeid : ℤ)
  deriving DecidableEq, Repr

namespace Entry

def nodeid : Entry → ℤ
  | create nodeid _ _ => nodeid
  | modify nodeid _ _ => nodeid
  | delete nodeid => nodeid

/-- The list tag, which the walk does not look at. -/
def nodeTag : Tag := .other 0

/-- The begin tag, the key and the leaves of the edit. -/
def opening : Entry → List TagValue
  | create nodeid ip port =>
    [⟨nodeTag, .xmlBegin⟩, ⟨.nodeid, .int32 nodeid⟩, ⟨.ip, .ipv4 ip⟩, ⟨.port, .uint16 port⟩]
  | modify nodeid ip port =>
    [⟨nodeTag, .xmlBegin⟩, ⟨.nodeid, .int32 nodeid⟩] ++
      (ip.toList.map fun a ↦ ⟨.ip, .ipv4 a⟩) ++ (port.toList.map fun p ↦ ⟨.port, .uint16 p⟩)
  | delete nodeid => [⟨nodeTag, .xmlBeginDel⟩, ⟨.nodeid, .int32 nodeid⟩]

/-- The part of the modification array that describes the edit. -/
def tags (e : Entry) : List TagValue := e.opening ++ [⟨nodeTag, .xmlEnd⟩]

/-- The edit of the map from ids to addresses and ports. -/
def apply (c : ℤ → Option (ℕ × ℕ)) : Entry → ℤ → Option (ℕ × ℕ)
  | create nodeid ip port => Function.update c nodeid (some (ip, port))
  | modify nodeid ip port =>
    Function.update c nodeid ((c nodeid).map fun a ↦ (ip.getD a.1, port.getD a.2))
  | delete nodeid => Function.update c nodeid none

/-- The edit creates what is not there, or changes or deletes what is. -/
def Fits (c : ℤ → Option (ℕ × ℕ)) : Entry → Prop
  | create nodeid _ _ => c nodeid = none
  | modify nodeid _ _ => (c nodeid).isSome = true
  | delete nodeid => (c nodeid).isSome = true

instance (c : ℤ → Option (ℕ × ℕ)) (e : Entry) : Decidable (e.Fits c) :=
  match e with
  | create nodeid _ _ => inferInstanceAs (Decidable (c nodeid = none))
  | modify nodeid _ _ => inferInstanceAs (Decidable ((c nodeid).isSome = true))
  | delete nodeid => inferInstanceAs (Decidable ((c nodeid).isSome = true))

/-- The node list after a sequence of edits. -/
def applyAll (c : ℤ → Option (ℕ × ℕ)) (es : List Entry) : ℤ → Option (ℕ × ℕ) := es.foldl apply c

/-- Every edit fits the node list it meets. -/
def WellFormed (c : ℤ → Option (ℕ × ℕ)) : List Entry → Prop
  | [] => True
  | e :: es => e.Fits c ∧ WellFormed (e.apply c) es

instance decidableWellFormed (c : ℤ → Option (ℕ × ℕ)) : ∀ es, Decidable (WellFormed c es)
  | [] => inferInstanceAs (Decidable True)
  | e :: es =>
    have := decidableWellFormed (e.apply c) es
    inferInstanceAs (Decidable (e.Fits c ∧ WellFormed (e.apply c) es))

/-- The modification array of a sequence of edits. -/
def array (es : List Entry) : List TagValue := es.flatMap tags

end Entry

/-! ## The list side -/

namespace NodeList

/-- The addresses of the cells. -/
def refs (l : NodeList) : List Ref := l.cells.map Prod.fst

/-- No two cells share an address, and `malloc` returns a new one. -/
structure Sound (l : NodeList) : Prop where
  nodup : l.refs.Nodup
  lt_fresh : ∀ r ∈ l.refs, r < l.fresh

/-- The list read as a map from ids to addresses and ports. -/
def member (l : NodeList) (nodeid : ℤ) : Option (ℕ × ℕ) :=
  (l.cells.find? fun c ↦ c.2.nodeid == nodeid).map fun c ↦ (c.2.sAddr, c.2.sinPort)

/-- The list has one cell for each entry of the node list `c`, with its address and port. -/
structure Represents (l : NodeList) (c : ℤ → Option (ℕ × ℕ)) : Prop where
  sound : l.Sound
  nodup : l.nodeids.Nodup
  member_eq : ∀ nodeid, l.member nodeid = c nodeid

variable {l : NodeList} {r : Ref} {n : Aanode} {x : ℤ} {as bs : List (Ref × Aanode)}

/-- Where the lookup finds a cell. -/
theorem exists_of_find (h : l.find x = some r) :
    ∃ as n bs, l.cells = as ++ (r, n) :: bs ∧ n.nodeid = x ∧ ∀ c ∈ as, c.2.nodeid ≠ x := by
  rw [find, Option.map_eq_some_iff] at h
  obtain ⟨⟨r', n⟩, hfind, rfl⟩ := h
  obtain ⟨hid, as, bs, hcells, has⟩ := List.find?_eq_some_iff_append.mp hfind
  exact ⟨as, n, bs, hcells, by simpa using hid, fun c hc ↦ by simpa using has c hc⟩

theorem find_eq_none_iff : l.find x = none ↔ x ∉ l.nodeids := by
  rw [find, Option.map_eq_none_iff, List.find?_eq_none, nodeids, List.mem_map]
  simp

theorem member_eq_none_iff : l.member x = none ↔ x ∉ l.nodeids := by
  rw [member, Option.map_eq_none_iff, List.find?_eq_none, nodeids, List.mem_map]
  simp

theorem exists_find_of_member (h : (l.member x).isSome = true) : ∃ r, l.find x = some r := by
  rw [member, Option.isSome_map] at h
  obtain ⟨c, hc⟩ := Option.isSome_iff_exists.mp h
  exact ⟨c.1, by rw [find, hc, Option.map_some]⟩

/-- The cells before and behind a given one have other addresses. -/
theorem Sound.ne_of_split (hl : l.Sound) (hcells : l.cells = as ++ (r, n) :: bs) :
    (∀ c ∈ as, c.1 ≠ r) ∧ ∀ c ∈ bs, c.1 ≠ r := by
  have hnodup := hl.nodup
  rw [refs, hcells, List.map_append, List.map_cons, List.nodup_append, List.nodup_cons] at hnodup
  refine ⟨fun c hc heq ↦ ?_, fun c hc heq ↦ ?_⟩
  · exact hnodup.2.2 c.1 (List.mem_map_of_mem hc) r List.mem_cons_self heq
  · exact hnodup.2.1.1 (List.mem_map.mpr ⟨c, hc, heq⟩)

theorem update_eq (hl : l.Sound) (hcells : l.cells = as ++ (r, n) :: bs) (f : Aanode → Aanode) :
    l.update r f = some { l with cells := as ++ (r, f n) :: bs } := by
  obtain ⟨has, hbs⟩ := hl.ne_of_split hcells
  have hkeep : ∀ cs : List (Ref × Aanode), (∀ c ∈ cs, c.1 ≠ r) →
      (cs.map fun c ↦ if c.1 = r then (c.1, f c.2) else c) = cs := by
    intro cs hcs
    rw [List.map_congr_left fun c hc ↦ if_neg (hcs c hc), List.map_id']
  rw [update, if_pos (by simp [hcells]), hcells, List.map_append, List.map_cons, hkeep as has,
    hkeep bs hbs, if_pos rfl]

theorem leave_eq (hl : l.Sound) (hcells : l.cells = as ++ (r, n) :: bs) :
    l.leave r = some { l with cells := as ++ bs } := by
  obtain ⟨has, hbs⟩ := hl.ne_of_split hcells
  have hkeep : ∀ cs : List (Ref × Aanode), (∀ c ∈ cs, c.1 ≠ r) →
      cs.filter (fun c ↦ c.1 ≠ r) = cs := by
    intro cs hcs
    exact List.filter_eq_self.mpr fun c hc ↦ decide_eq_true (hcs c hc)
  rw [leave, if_pos (by simp [hcells]), hcells, List.filter_append,
    List.filter_cons_of_neg (by simp), hkeep as has, hkeep bs hbs]

theorem Sound.join (hl : l.Sound) (n : Aanode) : (l.join n).Sound := by
  refine ⟨?_, ?_⟩
  · exact List.nodup_cons.mpr ⟨fun hmem ↦ lt_irrefl _ (hl.lt_fresh _ hmem), hl.nodup⟩
  · intro r hr
    rcases List.mem_cons.mp hr with rfl | hr'
    · exact Nat.lt_succ_self _
    · exact lt_trans (hl.lt_fresh r hr') (Nat.lt_succ_self _)

theorem Sound.of_sublist {l' : NodeList} (hl : l.Sound) (hrefs : l'.refs.Sublist l.refs)
    (hfresh : l'.fresh = l.fresh) : l'.Sound :=
  ⟨hl.nodup.sublist hrefs, fun r hr ↦ hfresh ▸ hl.lt_fresh r (hrefs.subset hr)⟩

/-- Overwriting a cell keeps the addresses. -/
theorem Sound.set (hl : l.Sound) (hcells : l.cells = as ++ (r, n) :: bs) (n' : Aanode) :
    ({ l with cells := as ++ (r, n') :: bs } : NodeList).Sound := by
  have hrefs : ({ l with cells := as ++ (r, n') :: bs } : NodeList).refs = l.refs := by
    simp [refs, hcells]
  exact hl.of_sublist (hrefs ▸ List.Sublist.refl _) rfl

theorem Sound.remove (hl : l.Sound) (hcells : l.cells = as ++ (r, n) :: bs) :
    ({ l with cells := as ++ bs } : NodeList).Sound := by
  refine hl.of_sublist ?_ rfl
  rw [refs, refs, hcells]
  exact List.Sublist.map _ ((List.sublist_cons_self _ bs).append_left as)

/-- A write through a pointer keeps the addresses. -/
theorem Sound.of_update {l' : NodeList} {f : Aanode → Aanode} (hl : l.Sound)
    (h : l.update r f = some l') : l'.Sound := by
  rw [update, Option.ite_none_right_eq_some] at h
  obtain rfl := Option.some_inj.mp h.2
  have hrefs : ∀ c : Ref × Aanode, (if c.1 = r then (c.1, f c.2) else c).1 = c.1 := by
    intro c
    rw [apply_ite Prod.fst, ite_self]
  refine hl.of_sublist ?_ rfl
  rw [refs, List.map_map]
  exact List.map_congr_left (fun c _ ↦ hrefs c) ▸ List.Sublist.refl _

theorem Sound.of_leave {l' : NodeList} (hl : l.Sound) (h : l.leave r = some l') : l'.Sound := by
  rw [leave, Option.ite_none_right_eq_some] at h
  obtain rfl := Option.some_inj.mp h.2
  exact hl.of_sublist (List.filter_sublist.map _) rfl

theorem member_join (n : Aanode) :
    (l.join n).member = Function.update l.member n.nodeid (some (n.sAddr, n.sinPort)) := by
  funext y
  by_cases hy : y = n.nodeid
  · subst hy
    simp [member, join]
  · rw [Function.update_of_ne hy]
    simp [member, join, Ne.symm hy]

/-- Overwriting the first cell with an id changes what the list says about this id. -/
theorem member_set (hcells : l.cells = as ++ (r, n) :: bs) (has : ∀ c ∈ as, c.2.nodeid ≠ n.nodeid)
    {n' : Aanode} (hid : n'.nodeid = n.nodeid) :
    ({ l with cells := as ++ (r, n') :: bs } : NodeList).member
      = Function.update l.member n.nodeid (some (n'.sAddr, n'.sinPort)) := by
  funext y
  by_cases hy : y = n.nodeid
  · subst hy
    have hnone : as.find? (fun c ↦ c.2.nodeid == n.nodeid) = none := by
      simpa [List.find?_eq_none] using has
    simp [member, List.find?_append, hnone, hid]
  · rw [Function.update_of_ne hy]
    simp [member, hcells, List.find?_append, hid, Ne.symm hy]

theorem member_remove (hcells : l.cells = as ++ (r, n) :: bs) (hnodup : l.nodeids.Nodup) :
    ({ l with cells := as ++ bs } : NodeList).member = Function.update l.member n.nodeid none := by
  funext y
  by_cases hy : y = n.nodeid
  · subst hy
    rw [nodeids, hcells, List.map_append, List.map_cons, List.nodup_middle,
      List.nodup_cons] at hnodup
    rw [Function.update_self, member_eq_none_iff, nodeids, List.map_append]
    exact hnodup.1
  · rw [Function.update_of_ne hy]
    simp [member, hcells, List.find?_append, Ne.symm hy]

theorem nodeids_set (hcells : l.cells = as ++ (r, n) :: bs) {n' : Aanode}
    (hid : n'.nodeid = n.nodeid) :
    ({ l with cells := as ++ (r, n') :: bs } : NodeList).nodeids = l.nodeids := by
  simp [nodeids, hcells, hid]

end NodeList

/-! ## The walk over one entry -/

theorem modLoop_append (l : NodeList) (m : ModState) (xs ys : List TagValue) :
    modLoop l m (xs ++ ys) = (modLoop l m xs).bind fun p ↦ modLoop p.1 p.2 ys := by
  induction xs generalizing l m with
  | nil => rfl
  | cons x xs ih =>
    rw [List.cons_append, modLoop, modLoop, Option.bind_assoc]
    exact congrArg _ (funext fun p ↦ ih p.1 p.2)

theorem performModification_sound {l l' : NodeList} {m m' : ModState} (hl : l.Sound)
    (h : performModification l m = some (l', m')) : l'.Sound := by
  rw [performModification] at h
  split at h
  · obtain ⟨rfl, -⟩ := Prod.mk.inj (Option.some_inj.mp h)
    exact hl.join _
  · simp only [Option.bind_eq_bind, Option.bind_eq_some_iff, Option.pure_def, Option.some_inj,
      Prod.mk.injEq] at h
    obtain ⟨r, -, l₁, hupdate, rfl, -⟩ := h
    exact hl.of_update hupdate
  · simp only [Option.bind_eq_bind, Option.bind_eq_some_iff, Option.pure_def, Option.some_inj,
      Prod.mk.injEq] at h
    obtain ⟨r, -, l₁, hleave, rfl, -⟩ := h
    exact hl.of_leave hleave
  · obtain ⟨rfl, -⟩ := Prod.mk.inj (Option.some_inj.mp h)
    exact hl

theorem modStep_sound {l l' : NodeList} {m m' : ModState} {tv : TagValue} (hl : l.Sound)
    (h : modStep l m tv = some (l', m')) : l'.Sound := by
  rw [modStep] at h
  split at h
  case h_3 => exact performModification_sound hl h
  all_goals
    obtain ⟨rfl, -⟩ := Prod.mk.inj (Option.some_inj.mp h)
    exact hl

/-- No array makes two cells share an address. -/
theorem modLoop_sound {l l' : NodeList} {m m' : ModState} {tvs : List TagValue} (hl : l.Sound)
    (h : modLoop l m tvs = some (l', m')) : l'.Sound := by
  induction tvs generalizing l m with
  | nil =>
    obtain ⟨rfl, -⟩ := Prod.mk.inj (Option.some_inj.mp h)
    exact hl
  | cons tv tvs ih =>
    rw [modLoop, Option.bind_eq_some_iff] at h
    obtain ⟨p, hp, h⟩ := h
    exact ih (modStep_sound hl hp) h

theorem handleAaclusterModifications_sound {l l' : NodeList} {val : List TagValue} (hl : l.Sound)
    (h : handleAaclusterModifications l val = some l') : l'.Sound := by
  rw [handleAaclusterModifications, Option.map_eq_some_iff] at h
  obtain ⟨p, hp, rfl⟩ := h
  exact modLoop_sound hl hp

/-- The address and the port the walk carries after it has read the leaves of an entry. -/
def Entry.carried (a : ℕ × ℕ) : Entry → ℕ × ℕ
  | create _ ip port => (ip, port)
  | modify _ ip port => (ip.getD a.1, port.getD a.2)
  | delete _ => a

/-- What the walk makes of an entry, given what it carries then: zero stands for "not given". -/
def Entry.walk (a : ℕ × ℕ) (M : ℤ → Option (ℕ × ℕ)) : Entry → ℤ → Option (ℕ × ℕ)
  | create nodeid ip port => Function.update M nodeid (some (ip, port))
  | modify nodeid _ _ =>
    Function.update M nodeid ((M nodeid).map fun b ↦
      (if a.1 > 0 then a.1 else b.1, if a.2 > 0 then a.2 else b.2))
  | delete nodeid => Function.update M nodeid none

section Walk

variable {l : NodeList} {m : ModState} {x : ℤ} {r : Ref} {n : Aanode}
  {as bs : List (Ref × Aanode)}

theorem modLoop_opening_create (ip port : ℕ) (hfind : l.find x = none) :
    modLoop l m (Entry.create x ip port).opening
      = some (l, ⟨some .create, none, x, ip, port⟩) := by
  simp [Entry.opening, modLoop, modStep, readLeaf, hfind, Value.getInt32, Value.getIpv4,
    Value.getUint16]

/-- A begun entry whose key is found becomes a modification. -/
theorem modLoop_opening_modify (ip port : Option ℕ) (hfind : l.find x = some r) :
    modLoop l m (Entry.modify x ip port).opening
      = some (l, ⟨some .modify, some r, x, ip.getD m.sAddr, port.getD m.sinPort⟩) := by
  cases ip <;> cases port <;>
    simp [Entry.opening, modLoop, modStep, readLeaf, hfind, Value.getInt32, Value.getIpv4,
      Value.getUint16]

theorem modLoop_opening_delete (hfind : l.find x = some r) :
    modLoop l m (Entry.delete x).opening
      = some (l, ⟨some .delete, some r, x, m.sAddr, m.sinPort⟩) := by
  simp [Entry.opening, modLoop, modStep, readLeaf, hfind, Value.getInt32]

/-- The end tag performs what the tags before it have described. -/
theorem modLoop_tags {e : Entry} {m' : ModState} (h : modLoop l m e.opening = some (l, m')) :
    modLoop l m e.tags = performModification l m' := by
  rw [Entry.tags, modLoop_append, h, Option.bind_some, modLoop, modStep]
  exact Option.bind_fun_some _

/-- The id that a modification writes is the one the walk has looked for. -/
theorem performModification_modify (hl : l.Sound) (hcells : l.cells = as ++ (r, n) :: bs)
    (hid : n.nodeid = x) (a b : ℕ) :
    ∃ n', n'.nodeid = n.nodeid ∧ n'.sAddr = (if a > 0 then a else n.sAddr) ∧
      n'.sinPort = (if b > 0 then b else n.sinPort) ∧
      performModification l ⟨some .modify, some r, x, a, b⟩ =
        some ({ l with cells := as ++ (r, n') :: bs }, ⟨some .modify, some r, x, a, b⟩) := by
  have hsame : (if x ≥ 0 then x else n.nodeid) = n.nodeid := by
    rw [hid, ite_self]
  simp only [performModification, Option.bind_eq_bind, Option.bind_some,
    NodeList.update_eq hl hcells]
  exact ⟨_, hsame, rfl, rfl, rfl⟩

theorem performModification_delete (hl : l.Sound) (hcells : l.cells = as ++ (r, n) :: bs)
    (a b : ℕ) : performModification l ⟨some .delete, some r, x, a, b⟩ =
      some ({ l with cells := as ++ bs }, ⟨some .delete, some r, x, a, b⟩) := by
  simp only [performModification, Option.bind_eq_bind, Option.bind_some,
    NodeList.leave_eq hl hcells, Option.pure_def]

/-- **One entry.** The walk over the tags of an entry that fits keeps the list the image of a map,
and edits the map as `Entry.walk` says. -/
theorem modLoop_entry {M : ℤ → Option (ℕ × ℕ)} {e : Entry} (hl : l.Represents M)
    (he : e.Fits M) : ∃ l' m', modLoop l m e.tags = some (l', m') ∧
      (m'.sAddr, m'.sinPort) = e.carried (m.sAddr, m.sinPort) ∧
      l'.Represents (e.walk (e.carried (m.sAddr, m.sinPort)) M) := by
  obtain ⟨hsound, hnodup, hmember⟩ := hl
  obtain rfl : l.member = M := funext hmember
  cases e with
  | create x ip port =>
    have hnone : x ∉ l.nodeids := NodeList.member_eq_none_iff.mp he
    have hopen := modLoop_opening_create (m := m) ip port (NodeList.find_eq_none_iff.mpr hnone)
    refine ⟨_, _, modLoop_tags hopen, rfl, hsound.join _, List.nodup_cons.mpr ⟨hnone, hnodup⟩,
      fun y ↦ ?_⟩
    rw [NodeList.member_join]
    rfl
  | modify x ip port =>
    obtain ⟨r, hfind⟩ := NodeList.exists_find_of_member he
    obtain ⟨as, n, bs, hcells, hid, has⟩ := NodeList.exists_of_find hfind
    -- the entry is changed at the first cell with the node id, which is the one that is read
    have hmem : l.member x = some (n.sAddr, n.sinPort) := by
      have hnone : as.find? (fun c ↦ c.2.nodeid == x) = none := by
        simpa [List.find?_eq_none] using has
      simp [NodeList.member, hcells, List.find?_append, hnone, hid]
    have hopen := modLoop_opening_modify (m := m) ip port hfind
    obtain ⟨n', hsame, haddr, hport, hwalk⟩ := performModification_modify hsound hcells hid
      (ip.getD m.sAddr) (port.getD m.sinPort)
    refine ⟨_, _, (modLoop_tags hopen).trans hwalk, rfl, hsound.set hcells n', ?_, fun y ↦ ?_⟩
    · rw [NodeList.nodeids_set hcells hsame]
      exact hnodup
    · rw [NodeList.member_set hcells (hid ▸ has) hsame, hid, haddr, hport]
      simp only [Entry.walk, Entry.carried, hmem, Option.map_some]
      rfl
  | delete x =>
    obtain ⟨r, hfind⟩ := NodeList.exists_find_of_member he
    obtain ⟨as, n, bs, hcells, rfl, has⟩ := NodeList.exists_of_find hfind
    have hwalk := modLoop_tags (modLoop_opening_delete (m := m) hfind)
    rw [performModification_delete hsound hcells] at hwalk
    refine ⟨_, _, hwalk, rfl, hsound.remove hcells, ?_, fun y ↦ ?_⟩
    · -- taking a cell out leaves the node ids different
      have hsub : (as ++ bs).Sublist l.cells :=
        hcells ▸ (List.sublist_cons_self _ bs).append_left as
      exact hnodup.sublist (hsub.map _)
    · rw [NodeList.member_remove hcells hnodup]
      rfl

end Walk

/-! ## One leaf -/

/-- What an entry says about one of its leaves. -/
inductive Edit
  | create (nodeid : ℤ) (v : ℕ)
  | modify (nodeid : ℤ) (v : Option ℕ)
  | delete (nodeid : ℤ)
  deriving DecidableEq, Repr

/-- The leaves of a node that the walk writes. -/
inductive Leaf
  | ip
  | port
  deriving DecidableEq, Repr

/-- The part of an address that a leaf is. -/
def Leaf.pick {α : Type*} : Leaf → α × α → α
  | ip, p => p.1
  | port, p => p.2

/-- A node list with one of its leaves only. -/
def Leaf.column (f : Leaf) (c : ℤ → Option (ℕ × ℕ)) : ℤ → Option ℕ := Option.map f.pick ∘ c

/-- What an entry says about a leaf. -/
def Entry.edit (f : Leaf) : Entry → Edit
  | create nodeid ip port => .create nodeid (f.pick (ip, port))
  | modify nodeid ip port => .modify nodeid (f.pick (ip, port))
  | delete nodeid => .delete nodeid

namespace Edit

def nodeid : Edit → ℤ
  | create nodeid _ => nodeid
  | modify nodeid _ => nodeid
  | delete nodeid => nodeid

/-- The last value given for the leaf in the array so far, whichever node it was given for. -/
def given (a : ℕ) : Edit → ℕ
  | create _ v => v
  | modify _ v => v.getD a
  | delete _ => a

/-- The edit of the map from ids to values of the leaf. -/
def apply (c : ℤ → Option ℕ) : Edit → ℤ → Option ℕ
  | create nodeid v => Function.update c nodeid (some v)
  | modify nodeid v => Function.update c nodeid ((c nodeid).map v.getD)
  | delete nodeid => Function.update c nodeid none

/-- What the walk makes of it, where `a` is the last value given up to this entry. -/
def walk (a : ℕ) (M : ℤ → Option ℕ) : Edit → ℤ → Option ℕ
  | create nodeid v => Function.update M nodeid (some v)
  | modify nodeid _ =>
    Function.update M nodeid ((M nodeid).map fun b ↦ if a > 0 then a else b)
  | delete nodeid => Function.update M nodeid none

def Fits (c : ℤ → Option ℕ) : Edit → Prop
  | create nodeid _ => c nodeid = none
  | modify nodeid _ => (c nodeid).isSome = true
  | delete nodeid => (c nodeid).isSome = true

/-- Every edit fits the map it meets. -/
def WellFormed (c : ℤ → Option ℕ) : List Edit → Prop
  | [] => True
  | e :: es => e.Fits c ∧ WellFormed (e.apply c) es

def applyAll (c : ℤ → Option ℕ) (es : List Edit) : ℤ → Option ℕ := es.foldl apply c

def walkAll (a : ℕ) (M : ℤ → Option ℕ) : List Edit → ℤ → Option ℕ
  | [] => M
  | e :: es => walkAll (e.given a) (e.walk (e.given a) M) es

/-- The walk sets the leaf of node `x` at this entry, where `a` is the last value given up to it. -/
def Writes (a : ℕ) (x : ℤ) : Edit → Prop
  | create nodeid _ => nodeid = x
  | modify nodeid _ => nodeid = x ∧ 0 < a
  | delete nodeid => nodeid = x

/-- The walk sets the leaf of node `x` at some entry of the list. -/
def Overwritten (x : ℤ) (a : ℕ) : List Edit → Prop
  | [] => False
  | e :: es => e.Writes (e.given a) x ∨ Overwritten x (e.given a) es

/-- The walk sets a leaf that has not changed to a value that belongs to another entry, or does not
set one that has become zero. -/
def Slips (a : ℕ) (c : ℤ → Option ℕ) : Edit → Prop
  | create _ _ => False
  | modify nodeid none => 0 < a ∧ c nodeid ≠ some a
  | modify nodeid (some v) => v = 0 ∧ c nodeid ≠ some 0
  | delete _ => False

/-- Every slip is made good by a later entry for the same node. -/
def Settled (a : ℕ) (c : ℤ → Option ℕ) : List Edit → Prop
  | [] => True
  | e :: es =>
    (e.Slips a c → Overwritten e.nodeid (e.given a) es) ∧ Settled (e.given a) (e.apply c) es

/-- Where the walk is wrong about a leaf, it has a nonzero value for a node that exists. -/
def Astray (M c : ℤ → Option ℕ) : Prop :=
  ∀ x, M x ≠ c x → (∃ m, M x = some m ∧ m ≠ 0) ∧ (c x).isSome = true

variable {a : ℕ} {M c : ℤ → Option ℕ} {e : Edit} {x : ℤ}

theorem Astray.isSome_eq (h : Astray M c) (x : ℤ) : (M x).isSome = (c x).isSome := by
  by_cases hx : M x = c x
  · rw [hx]
  · obtain ⟨⟨m, hm, -⟩, hc⟩ := h x hx
    rw [hm, hc, Option.isSome_some]

/-- Away from its node an entry changes nothing. -/
theorem walk_of_ne (hx : x ≠ e.nodeid) : e.walk a M x = M x := by
  cases e <;> exact Function.update_of_ne hx _ _

theorem apply_of_ne (hx : x ≠ e.nodeid) : e.apply c x = c x := by
  cases e <;> exact Function.update_of_ne hx _ _

theorem nodeid_of_writes (h : e.Writes a x) : x = e.nodeid := by
  cases e with
  | create nodeid v => exact h.symm
  | modify nodeid v => exact h.1.symm
  | delete nodeid => exact h.symm

/-- The values of a modified leaf: `m` and `b` are the walk's and the CDB's value before it. -/
theorem modified_ne_iff {m b : ℕ} {v : Option ℕ} (hm : m ≠ b → m ≠ 0) (hc : c x = some b) :
    (if v.getD a > 0 then v.getD a else m) ≠ v.getD b ↔
      (modify x v).Slips a c ∨ m ≠ b ∧ ¬0 < v.getD a := by
  cases v with
  | none =>
    simp only [Option.getD_none, Slips, hc, ne_eq, Option.some_inj]
    grind
  | some v =>
    simp only [Option.getD_some, Slips, hc, ne_eq, Option.some_inj]
    grind

theorem modified_ne_zero {m b : ℕ} {v : Option ℕ} (hm : m ≠ b → m ≠ 0)
    (hne : (if v.getD a > 0 then v.getD a else m) ≠ v.getD b) :
    (if v.getD a > 0 then v.getD a else m) ≠ 0 := by
  cases v with
  | none =>
    simp only [Option.getD_none] at hne ⊢
    grind
  | some v =>
    simp only [Option.getD_some] at hne ⊢
    grind

/-- The two values of the leaf of a node that both sides know. -/
theorem Astray.exists_values (hM : Astray M c) (hc : (c x).isSome = true) :
    ∃ m b, M x = some m ∧ c x = some b ∧ (m ≠ b → m ≠ 0) := by
  obtain ⟨b, hb⟩ := Option.isSome_iff_exists.mp hc
  obtain ⟨m, hm⟩ := Option.isSome_iff_exists.mp ((hM.isSome_eq x).trans hc)
  refine ⟨m, b, hm, hb, fun hne ↦ ?_⟩
  obtain ⟨⟨m', hm', hpos⟩, -⟩ := hM x (by rw [hm, hb, Ne, Option.some_inj]; exact hne)
  rw [hm, Option.some_inj] at hm'
  exact hm' ▸ hpos

/-- **One entry.** A leaf is wrong after an entry when the entry slips on it, or when it was wrong
before and the entry does not write it. -/
theorem walk_ne_iff (hM : Astray M c) (he : e.Fits c) :
    e.walk (e.given a) M x ≠ e.apply c x ↔
      x = e.nodeid ∧ e.Slips a c ∨ M x ≠ c x ∧ ¬e.Writes (e.given a) x := by
  by_cases hx : x = e.nodeid
  · subst hx
    cases e with
    | create y v => simp [walk, apply, Slips, Writes, nodeid]
    | modify y v =>
      obtain ⟨m, b, hm, hb, hne⟩ := hM.exists_values he
      have hvalues := modified_ne_iff (a := a) (v := v) hne hb
      simpa [walk, apply, Writes, nodeid, given, hm, hb] using hvalues
    | delete y => simp [walk, apply, Slips, Writes, nodeid]
  · rw [walk_of_ne hx, apply_of_ne hx]
    have hw : ¬e.Writes (e.given a) x := fun h ↦ hx (nodeid_of_writes h)
    simp [hx, hw]

/-- The walk stays wrong in this way only. -/
theorem Astray.walk (hM : Astray M c) (he : e.Fits c) :
    Astray (e.walk (e.given a) M) (e.apply c) := by
  intro x hx
  by_cases hxe : x = e.nodeid
  · subst hxe
    cases e with
    | create y v => simp [Edit.walk, apply, nodeid] at hx
    | modify y v =>
      obtain ⟨m, b, hm, hb, hne⟩ := hM.exists_values he
      have hx' : (if v.getD a > 0 then v.getD a else m) ≠ v.getD b := by
        simpa [Edit.walk, apply, nodeid, given, hm, hb] using hx
      refine ⟨⟨_, ?_, modified_ne_zero hne hx'⟩, ?_⟩
      · simp [Edit.walk, nodeid, given, hm]
      · simp [apply, nodeid, hb]
    | delete y => simp [Edit.walk, apply, nodeid] at hx
  · rw [walk_of_ne hxe, apply_of_ne hxe] at hx
    rw [walk_of_ne hxe, apply_of_ne hxe]
    exact hM x hx

/-- **The array.** From lists that differ where the walk is astray, the walk ends with the edited
map just when every slip, and all that was wrong before, is written over. -/
theorem walkAll_eq_iff {es : List Edit} (hM : Astray M c) (hes : WellFormed c es) :
    walkAll a M es = applyAll c es ↔
      Settled a c es ∧ ∀ x, M x ≠ c x → Overwritten x a es := by
  induction es generalizing a M c with
  | nil =>
    simp only [walkAll, applyAll, List.foldl_nil, Settled, Overwritten, true_and, imp_false, ne_eq,
      not_not]
    exact funext_iff
  | cons e es ih =>
    have hcons : applyAll c (e :: es) = applyAll (e.apply c) es := rfl
    rw [walkAll, hcons, ih (hM.walk hes.1) hes.2, Settled]
    simp only [walk_ne_iff hM hes.1, Overwritten]
    grind

end Edit

/-! ## The whole walk -/

/-- What the walk over a sequence of entries makes of the map. -/
def Entry.walkAll (a : ℕ × ℕ) (M : ℤ → Option (ℕ × ℕ)) : List Entry → ℤ → Option (ℕ × ℕ)
  | [] => M
  | e :: es => walkAll (e.carried a) (e.walk (e.carried a) M) es

section Columns

variable {f : Leaf} {a : ℕ × ℕ} {M c : ℤ → Option (ℕ × ℕ)} {e : Entry} {es : List Entry}

/-- A node list is determined by its columns. -/
theorem column_inj : (∀ f : Leaf, f.column M = f.column c) ↔ M = c := by
  refine ⟨fun h ↦ funext fun x ↦ ?_, fun h f ↦ by rw [h]⟩
  have hip : (M x).map Prod.fst = (c x).map Prod.fst := congrFun (h .ip) x
  have hport : (M x).map Prod.snd = (c x).map Prod.snd := congrFun (h .port) x
  cases hM : M x <;> cases hc : c x <;> simp_all [Prod.ext_iff]

theorem given_edit : (e.edit f).given (f.pick a) = f.pick (e.carried a) := by
  cases e <;> cases f <;> rfl

theorem column_walk : f.column (e.walk a M) = (e.edit f).walk (f.pick a) (f.column M) := by
  cases e with
  | create x ip port => exact Function.comp_update _ _ _ _
  | modify x ip port =>
    rw [Entry.walk, Leaf.column, Function.comp_update]
    cases hx : M x <;> cases f <;> simp [Entry.edit, Edit.walk, Leaf.column, Leaf.pick, hx]
  | delete x => exact Function.comp_update _ _ _ _

theorem column_apply : f.column (e.apply c) = (e.edit f).apply (f.column c) := by
  cases e with
  | create x ip port => exact Function.comp_update _ _ _ _
  | modify x ip port =>
    rw [Entry.apply, Leaf.column, Function.comp_update]
    cases hx : c x <;> cases f <;> simp [Entry.edit, Edit.apply, Leaf.column, Leaf.pick, hx]
  | delete x => exact Function.comp_update _ _ _ _

theorem column_walkAll :
    f.column (Entry.walkAll a M es)
      = Edit.walkAll (f.pick a) (f.column M) (es.map (Entry.edit f)) := by
  induction es generalizing a M with
  | nil => rfl
  | cons e es ih => rw [Entry.walkAll, ih, List.map_cons, Edit.walkAll, given_edit, column_walk]

theorem column_applyAll :
    f.column (Entry.applyAll c es) = Edit.applyAll (f.column c) (es.map (Entry.edit f)) := by
  induction es generalizing c with
  | nil => rfl
  | cons e es ih =>
    rw [Entry.applyAll, List.foldl_cons, ← Entry.applyAll, ih, column_apply]
    rfl

theorem fits_edit (h : e.Fits c) : (e.edit f).Fits (f.column c) := by
  cases e with
  | create x ip port => exact Option.map_eq_none_iff.mpr h
  | modify x ip port => exact Option.isSome_map.trans h
  | delete x => exact Option.isSome_map.trans h

theorem wellFormed_edit (h : Entry.WellFormed c es) :
    Edit.WellFormed (f.column c) (es.map (Entry.edit f)) := by
  induction es generalizing c with
  | nil => exact trivial
  | cons e es ih =>
    refine ⟨fits_edit h.1, ?_⟩
    rw [← column_apply]
    exact ih h.2

/-- Whether an entry fits depends on the ids only. -/
theorem fits_of_isSome_eq (hdom : ∀ x, (M x).isSome = (c x).isSome) (h : e.Fits c) :
    e.Fits M := by
  cases e with
  | create x ip port =>
    have hx : (M x).isSome = false := by rw [hdom x, h, Option.isSome_none]
    exact Option.isNone_iff_eq_none.mp (Option.isSome_eq_false_iff.mp hx)
  | modify x ip port => exact (hdom x).trans h
  | delete x => exact (hdom x).trans h

theorem isSome_walk (hdom : ∀ x, (M x).isSome = (c x).isSome) (x : ℤ) :
    (e.walk a M x).isSome = (e.apply c x).isSome := by
  cases e with
  | create y ip port =>
    simp only [Entry.walk, Entry.apply, Function.update_apply]
    split_ifs
    · rfl
    · exact hdom x
  | modify y ip port =>
    simp only [Entry.walk, Entry.apply, Function.update_apply]
    by_cases hxy : x = y
    · rw [if_pos hxy, if_pos hxy, Option.isSome_map, Option.isSome_map, hdom y]
    · rw [if_neg hxy, if_neg hxy, hdom x]
  | delete y =>
    simp only [Entry.walk, Entry.apply, Function.update_apply]
    split_ifs
    · rfl
    · exact hdom x

end Columns

/-- **The walk.** It comes to its end, with a list that is still the image of a map. -/
theorem modLoop_array {l : NodeList} {m : ModState} {M c : ℤ → Option (ℕ × ℕ)} {es : List Entry}
    (hl : l.Represents M) (hdom : ∀ x, (M x).isSome = (c x).isSome)
    (hes : Entry.WellFormed c es) : ∃ l' m', modLoop l m (Entry.array es) = some (l', m') ∧
      l'.Represents (Entry.walkAll (m.sAddr, m.sinPort) M es) := by
  induction es generalizing l m M c with
  | nil => exact ⟨l, m, rfl, hl⟩
  | cons e es ih =>
    obtain ⟨l₁, m₁, hwalk, hcarried, hl₁⟩ :=
      modLoop_entry (m := m) hl (fits_of_isSome_eq hdom hes.1)
    obtain ⟨l', m', hwalk', hl'⟩ := ih (m := m₁) hl₁ (isSome_walk hdom) hes.2
    refine ⟨l', m', ?_, ?_⟩
    · have harray : Entry.array (e :: es) = e.tags ++ Entry.array es := List.flatMap_cons
      rw [harray, modLoop_append, hwalk, Option.bind_some]
      exact hwalk'
    · rw [hcarried] at hl'
      exact hl'

theorem handleAaclusterModifications_array {l : NodeList} {c : ℤ → Option (ℕ × ℕ)}
    {es : List Entry} (hl : l.Represents c) (hes : Entry.WellFormed c es) :
    ∃ l', handleAaclusterModifications l (Entry.array es) = some l' ∧
      l'.Represents (Entry.walkAll (0, 0) c es) := by
  obtain ⟨l', m', hwalk, hl'⟩ := modLoop_array (m := ModState.init) hl (fun _ ↦ rfl) hes
  exact ⟨l', by rw [handleAaclusterModifications, hwalk, Option.map_some], hl'⟩

/-- The list and the CDB agree on a leaf just when every slip on it is made good. -/
theorem column_walkAll_eq_iff {f : Leaf} {c : ℤ → Option (ℕ × ℕ)} {es : List Entry}
    (hes : Entry.WellFormed c es) :
    f.column (Entry.walkAll (0, 0) c es) = f.column (Entry.applyAll c es) ↔
      Edit.Settled 0 (f.column c) (es.map (Entry.edit f)) := by
  have hzero : f.pick ((0, 0) : ℕ × ℕ) = 0 := by cases f <;> rfl
  have hself : Edit.Astray (f.column c) (f.column c) := fun x hx ↦ absurd rfl hx
  rw [column_walkAll, column_applyAll, hzero, Edit.walkAll_eq_iff hself (wellFormed_edit hes)]
  exact and_iff_left fun x hx ↦ absurd rfl hx

/-- **Membership.** After a committed modification array the member list is the node list of the CDB
just when, for each leaf, every modify entry that leaves it out behind a nonzero value given for
another node, or sets it to zero, is followed by an entry that writes it again. -/
theorem represents_applyAll_iff {l : NodeList} {c : ℤ → Option (ℕ × ℕ)} {es : List Entry}
    (hl : l.Represents c) (hes : Entry.WellFormed c es) :
    (∃ l', handleAaclusterModifications l (Entry.array es) = some l' ∧
      l'.Represents (Entry.applyAll c es)) ↔
    ∀ f : Leaf, Edit.Settled 0 (f.column c) (es.map (Entry.edit f)) := by
  obtain ⟨l', hwalk, hl'⟩ := handleAaclusterModifications_array hl hes
  rw [← forall_congr' fun f ↦ column_walkAll_eq_iff (f := f) hes, column_inj]
  constructor
  · rintro ⟨l₂, hwalk₂, hl₂⟩
    obtain rfl : l' = l₂ := Option.some_inj.mp (hwalk.symm.trans hwalk₂)
    exact funext fun x ↦ (hl'.member_eq x).symm.trans (hl₂.member_eq x)
  · intro heq
    exact ⟨l', hwalk, heq ▸ hl'⟩

/-- A cluster of two nodes. -/
def twoMembers : NodeList := ⟨[(1, ⟨2, 20, 4575, 0, 0⟩), (0, ⟨1, 10, 4565, 0, 0⟩)], 2⟩

/-- Two nodes change in one commit, the first of them only in its port. -/
theorem represents_applyAll_twoMembers :
    ∃ l', handleAaclusterModifications twoMembers
        (Entry.array [.modify 1 none (some 4600), .modify 2 (some 21) (some 4700)]) = some l' ∧
      l'.Represents (Entry.applyAll twoMembers.member
        [.modify 1 none (some 4600), .modify 2 (some 21) (some 4700)]) := by
  refine (represents_applyAll_iff ⟨⟨by decide, by decide⟩, by decide, fun _ ↦ rfl⟩
    (by decide)).mpr fun f ↦ ?_
  cases f <;> simp [Edit.Settled, Edit.Slips, Entry.edit, Leaf.pick, Edit.given]

/-- A third node joins and the port of the second changes: the second node gets the address of the
third. -/
theorem not_represents_applyAll_twoMembers :
    twoMembers.Represents twoMembers.member ∧
      Entry.WellFormed twoMembers.member [.create 3 30 4585, .modify 2 none (some 4600)] ∧
      ¬∃ l', handleAaclusterModifications twoMembers
          (Entry.array [.create 3 30 4585, .modify 2 none (some 4600)]) = some l' ∧
        l'.Represents (Entry.applyAll twoMembers.member
          [.create 3 30 4585, .modify 2 none (some 4600)]) := by
  refine ⟨⟨⟨by decide, by decide⟩, by decide, fun _ ↦ rfl⟩, by decide, ?_⟩
  rintro ⟨l', hwalk, hl'⟩
  have hmember := hl'.member_eq 2
  have hl : handleAaclusterModifications twoMembers
      (Entry.array [.create 3 30 4585, .modify 2 none (some 4600)])
      = some ⟨[(2, ⟨3, 30, 4585, 0, 0⟩), (1, ⟨2, 30, 4600, 0, 0⟩), (0, ⟨1, 10, 4565, 0, 0⟩)],
        3⟩ := by
    decide
  obtain rfl := Option.some_inj.mp (hl.symm.trans hwalk)
  exact absurd hmember (by decide)

end ConfdDemos.Aasync
