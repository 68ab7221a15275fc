import Mathlib.Data.List.Perm.Basic
import Mathlib.Data.List.Range
import ConfdDemos.Foundation.Chain
import ConfdDemos.Foundation.Machine

/-!
# Traversals of the symlink transform

The transform answers requests for the list at a symlink out of the list that the link stands for,
with a MAAPI cursor for each traversal. The cursors are in a linked list of the transaction, and
ConfD is given a pointer to the cursor, which it passes back in the next request. At the end of a
traversal its element is unlinked and freed, and the end of the transaction frees the rest.

## Memory

`malloc` may return any address that is not in use, also one that was freed before. So it does not
say much that there is something at the address of a pointer, and the elements are numbered:
`serial` is the number of the allocation, which the program does not have. An access at an address
where there is nothing has no result.

## The invariant

`Tracks` says that the list of the transaction has all elements that were allocated and not yet
destroyed, and that the cursor of a traversal belongs to the first element with the id of the
traversal. Elements with the same id behind it are left over from traversals that were started anew.
-/

namespace ConfdDemos.Symlink

/-- `struct traversal_data`, but for the cursor. -/
structure TraversalData where
  traversalId : ℤ
  serial : ℕ

/-- What a transaction keeps between the callbacks; `tOpaque` is the list. -/
structure Trans where
  memory : Memory TraversalData
  tOpaque : Option ℕ
  allocated : ℕ
  destroyed : List ℕ

/-- The reply to a request for the next key. -/
inductive Reply
  | error
  | finished
  | nextKey (next : ℕ)

namespace Trans

/-- `maapi_destroy_cursor` and `free`. -/
def destroy (s : Trans) (td : ℕ) : Option Trans :=
  (s.memory td).map fun c ↦ { s with
    memory := Function.update s.memory td none
    destroyed := s.destroyed ++ [c.data.serial] }

/-- The loop of `free_traversal_data`, with the two pointers where it ends. -/
def findData (memory : Memory TraversalData) (traversalId : ℤ) :
    ℕ → Option ℕ → Option ℕ → Option (Option ℕ × Option ℕ)
  | _, p, none => some (p, none)
  | 0, _, some _ => none
  | fuel + 1, p, some td => (memory td).bind fun c ↦
      if c.data.traversalId = traversalId then some (p, some td)
      else findData memory traversalId fuel (some td) c.next

def freeTraversalData (s : Trans) (start : Option ℕ) (traversalId : ℤ) :
    Option (Trans × Option ℕ) := do
  let (p, td) ← findData s.memory traversalId s.allocated start start
  match td with
  | none => return (s, start)
  | some td =>
    let start ← if some td = start then (s.memory td).map Cell.next else some start
    let p ← p
    let c ← s.memory td
    let before ← s.memory p
    let s := { s with memory := Function.update s.memory p (some { before with next := c.next }) }
    let s ← s.destroy td
    return (s, start)

/-- The second half of `cb_get_next`: the cursor is moved, and at its end the element is freed. -/
def moveCursor (s : Trans) (traversalId : ℤ) (mc : ℕ) (more : Bool) : Option (Trans × Reply) := do
  let _ ← s.memory mc
  if more then return (s, .nextKey mc)
  else
    let (s, start) ← s.freeTraversalData s.tOpaque traversalId
    return ({ s with tOpaque := start }, .finished)

/-- A new element in front of the list, at the address that `malloc` returns. -/
def allocate (s : Trans) (traversalId : ℤ) (td : ℕ) : Trans where
  memory := Function.update s.memory td (some ⟨⟨traversalId, s.allocated⟩, s.tOpaque⟩)
  tOpaque := some td
  allocated := s.allocated + 1
  destroyed := s.destroyed

/-- `cb_get_next`, where no cursor stands for `-1`. Without a translation of the path there is an
error before anything else happens. -/
def cbGetNext (s : Trans) (traversalId : ℤ) (next : Option ℕ) (td : ℕ) (translates more : Bool) :
    Option (Trans × Reply) :=
  match next with
  | some mc => s.moveCursor traversalId mc more
  | none =>
    if translates then (s.allocate traversalId td).moveCursor traversalId td more
    else some (s, .error)

/-- The loop of `finish_transformation`. -/
def finishLoop : ℕ → Option ℕ → Trans → Option Trans
  | _, none, s => some s
  | 0, some _, _ => none
  | fuel + 1, some td, s => (s.memory td).bind fun c ↦
      (s.destroy td).bind fun s ↦ finishLoop fuel c.next s

def finishTransformation (s : Trans) : Option Trans := finishLoop s.allocated s.tOpaque s

end Trans

/-! ## ConfD -/

/-- A transaction with the cursor that ConfD was last given for each traversal, and the number of
the element it was given for. -/
structure Session where
  trans : Trans
  cursors : ℤ → Option (ℕ × ℕ)
  finished : Bool

/-- The requests of ConfD. A traversal is started, also anew, or continued, and `more` says whether
there is another key. -/
inductive Request
  | start (traversalId : ℤ) (td : ℕ) (translates more : Bool)
  | resume (traversalId : ℤ) (more : Bool)
  | finish

namespace Session

/-- What ConfD may ask for: a traversal goes on with a cursor. And what `malloc` may return. -/
def Allowed (s : Session) : Request → Prop
  | .start _ td _ _ => s.finished = false ∧ s.trans.memory td = none
  | .resume traversalId _ => s.finished = false ∧ s.cursors traversalId ≠ none
  | .finish => s.finished = false

/-- ConfD keeps the cursor of a reply. -/
def reply (s : Session) (traversalId : ℤ) (r : Trans × Reply) : Session :=
  match r.2 with
  | .error => { s with trans := r.1 }
  | .finished => { s with
      trans := r.1
      cursors := Function.update s.cursors traversalId none }
  | .nextKey next => { s with
      trans := r.1
      cursors := Function.update s.cursors traversalId
        ((r.1.memory next).map fun c ↦ (next, c.data.serial)) }

def initial : Session := ⟨⟨fun _ ↦ none, none, 0, []⟩, fun _ ↦ none, false⟩

end Session

/-- A transaction, one request at a time. There is no step when memory is used that is not there. -/
def traversals : Machine Session Request where
  step s
    | .start traversalId td translates more =>
      (s.trans.cbGetNext traversalId none td translates more).map (s.reply traversalId)
    | .resume traversalId more => (s.cursors traversalId).bind fun c ↦
      (s.trans.cbGetNext traversalId (some c.1) 0 true more).map (s.reply traversalId)
    | .finish => s.trans.finishTransformation.map fun trans ↦ { s with trans, finished := true }

/-! ## The invariant -/

/-- The elements of the list with their addresses. -/
abbrev Elements := List (ℕ × TraversalData)

/-- The list has all elements that are there, each under its own address, and the rest is
destroyed. -/
structure Trans.Holds (s : Trans) (l : Elements) : Prop where
  chain : Chain s.memory s.tOpaque l
  nodup : (l.map Prod.fst).Nodup
  live : ∀ a, s.memory a ≠ none → a ∈ l.map Prod.fst
  perm : (s.destroyed ++ l.map fun x ↦ x.2.serial).Perm (List.range s.allocated)

/-- The first element of a traversal, and what is before and after it. -/
structure FirstOf (traversalId : ℤ) (a k : ℕ) (l l₁ l₂ : Elements) : Prop where
  eq_append : l = l₁ ++ (a, ⟨traversalId, k⟩) :: l₂
  others : ∀ x ∈ l₁, x.2.traversalId ≠ traversalId

/-- The first element of a traversal, if there is one. -/
def current (traversalId : ℤ) (l : Elements) : Option (ℕ × TraversalData) :=
  l.find? fun x ↦ x.2.traversalId = traversalId

structure Session.Tracks (s : Session) (l : Elements) : Prop where
  holds : s.trans.Holds l
  cursor : ∀ t a k, s.cursors t = some (a, k) → current t l = some (a, ⟨t, k⟩)

/-! ## The end of a traversal -/

namespace Trans

variable {s s' : Trans} {l l₁ l₂ : Elements} {t : ℤ} {a k : ℕ}

/-- There are at most as many elements as were allocated. -/
theorem Holds.length_le (h : s.Holds l) : l.length ≤ s.allocated := by
  have hlength := h.perm.length_eq
  rw [List.length_append, List.length_map, List.length_range] at hlength
  omega

/-- The loop ends at the first element of the traversal, with the address before it. -/
theorem findData_eq_some {memory : Memory TraversalData} {td : Option ℕ}
    (hchain : Chain memory td l) (hfirst : FirstOf t a k l l₁ l₂) (p : Option ℕ) {fuel : ℕ}
    (hfuel : l.length ≤ fuel) :
    findData memory t fuel p td = some ((l₁.getLast?.map Prod.fst).or p, some a) := by
  obtain ⟨rfl, hothers⟩ := hfirst
  induction l₁ generalizing td p fuel with
  | nil =>
    rcases hchain with - | ⟨ha, -⟩
    rcases fuel with - | fuel
    · exact absurd hfuel (by simp)
    · rw [findData, ha, Option.bind_some, if_pos rfl]
      rfl
  | cons x l₁ ih =>
    rcases hchain with - | @⟨c, d, next, -, hc, hl⟩
    rcases fuel with - | fuel
    · exact absurd hfuel (by simp)
    · have hlength : (l₁ ++ (a, ⟨t, k⟩) :: l₂).length ≤ fuel := by
        rw [List.cons_append, List.length_cons] at hfuel
        omega
      rw [findData, hc, Option.bind_some, if_neg (hothers (c, d) List.mem_cons_self),
        ih (some c) (fun x hx ↦ hothers x (List.mem_cons_of_mem _ hx)) hl hlength,
        List.getLast?_cons]
      rcases l₁.getLast? with - | y
      · rfl
      · rfl

/-- The rest of the invariant when an element is destroyed. -/
theorem Holds.remove (h : s.Holds l) (hfirst : FirstOf t a k l l₁ l₂)
    {memory : Memory TraversalData} {start : Option ℕ} (hchain : Chain memory start (l₁ ++ l₂))
    (ha : memory a = none) (hmemory : ∀ x, memory x ≠ none → s.memory x ≠ none) :
    Holds ⟨memory, start, s.allocated, s.destroyed ++ [k]⟩ (l₁ ++ l₂) := by
  obtain ⟨rfl, -⟩ := hfirst
  refine ⟨hchain, ?_, fun x hx ↦ ?_, ?_⟩
  · refine h.nodup.sublist (List.Sublist.map _ ?_)
    exact List.Sublist.append_left (List.sublist_cons_self _ _) l₁
  · have hmem := h.live x (hmemory x hx)
    have hne : x ≠ a := by
      rintro rfl
      exact hx ha
    rw [List.map_append, List.map_cons, List.mem_append, List.mem_cons] at hmem
    rw [List.map_append, List.mem_append]
    exact hmem.imp_right fun hmem ↦ hmem.resolve_left hne
  · refine List.Perm.trans ?_ h.perm
    rw [List.append_assoc, List.map_append, List.map_append, List.map_cons, List.singleton_append]
    exact (List.perm_middle.symm).append_left s.destroyed

/-- **The end of a traversal**: its first element is unlinked and destroyed, and no other. -/
theorem Holds.freeTraversalData (h : s.Holds l) (hfirst : FirstOf t a k l l₁ l₂) :
    ∃ s' start, s.freeTraversalData s.tOpaque t = some (s', start) ∧
      s'.allocated = s.allocated ∧ s'.destroyed = s.destroyed ++ [k] ∧
      Holds { s' with tOpaque := start } (l₁ ++ l₂) := by
  have hfind := findData_eq_some h.chain hfirst s.tOpaque h.length_le
  have hl := hfirst.eq_append
  have hchain := h.chain
  have hnodup := h.nodup
  rw [hl] at hchain hnodup
  obtain ⟨next, ha, htail⟩ := hchain.tail
  have hrest : a ∉ l₁.map Prod.fst ∧ a ∉ l₂.map Prod.fst := by
    rw [List.map_append, List.map_cons, List.nodup_middle, List.nodup_cons, List.mem_append,
      not_or] at hnodup
    exact hnodup.1
  rcases List.eq_nil_or_concat' l₁ with rfl | ⟨l₀, ⟨b, e⟩, rfl⟩
  · -- the element is the first one of the list, and both pointers are at it
    have hstart : s.tOpaque = some a := by
      rcases hs : s.tOpaque with - | a'
      · rw [hs] at hchain
        rcases hchain
      · rw [hs] at hchain
        rcases hchain
        rfl
    have hsame : Function.update s.memory a (some ⟨⟨t, k⟩, next⟩) = s.memory := by
      rw [← ha, Function.update_eq_self]
    refine ⟨⟨Function.update s.memory a none, s.tOpaque, s.allocated, s.destroyed ++ [k]⟩, next, ?_,
      rfl, rfl, ?_⟩
    · rw [hstart] at hfind ⊢
      simp only [Trans.freeTraversalData, hfind, List.getLast?_nil, Option.map_none, Option.none_or,
        bind, Option.bind_some, if_true, ha, Option.map_some, hsame, destroy, pure, hstart]
    · refine h.remove hfirst (htail.update_of_notMem hrest.2 none) (Function.update_self ..)
        fun x hx ↦ ne_none_of_update ?_ hx
      rw [ha]
      exact Option.some_ne_none _
  · -- the element before it takes over its pointer
    have hassoc : l₀ ++ [(b, e)] ++ (a, ⟨t, k⟩) :: l₂ = l₀ ++ (b, e) :: (a, ⟨t, k⟩) :: l₂ := by
      rw [List.append_assoc, List.singleton_append]
    have hab : a ≠ b := by
      rintro rfl
      exact hrest.1 (by simp)
    have hstart : s.tOpaque ≠ some a := hchain.start_ne (by simp) hrest.1
    rw [hassoc] at hchain hnodup
    obtain ⟨nextb, hb⟩ := hchain.exists_of_mem (a := b) (d := e) (by simp)
    refine ⟨⟨Function.update (Function.update s.memory b (some ⟨e, next⟩)) a none, s.tOpaque,
      s.allocated, s.destroyed ++ [k]⟩, s.tOpaque, ?_, rfl, rfl, ?_⟩
    · have ha' : Function.update s.memory b (some ⟨e, next⟩) a = some ⟨⟨t, k⟩, next⟩ := by
        rw [Function.update_of_ne hab, ha]
      simp only [Trans.freeTraversalData, hfind, List.getLast?_concat, Option.map_some,
        Option.some_or, bind, Option.bind_some, if_neg (Ne.symm hstart), ha, hb, destroy, ha', pure]
    · refine h.remove hfirst ?_ (Function.update_self ..) fun x hx ↦
        ne_none_of_update ?_ (ne_none_of_update ?_ hx)
      · rw [List.append_assoc, List.singleton_append]
        refine (hchain.unlink hnodup ha).update_of_notMem ?_ none
        simp only [List.map_append, List.map_cons, List.mem_append, List.mem_cons, List.map_nil,
          List.not_mem_nil, or_false] at hrest ⊢
        tauto
      · rw [hb]
        exact Option.some_ne_none _
      · rw [Function.update_of_ne hab, ha]
        exact Option.some_ne_none _

/-! ## The callbacks -/

theorem Holds.allocate (h : s.Holds l) {td : ℕ} (htd : s.memory td = none) (t : ℤ) :
    (s.allocate t td).Holds ((td, ⟨t, s.allocated⟩) :: l) := by
  have hnot : td ∉ l.map Prod.fst := by
    intro hmem
    obtain ⟨⟨a, d⟩, hx, rfl⟩ := List.mem_map.mp hmem
    obtain ⟨next, hnext⟩ := h.chain.exists_of_mem hx
    exact Option.some_ne_none _ (hnext.symm.trans htd)
  refine ⟨h.chain.push hnot, List.nodup_cons.mpr ⟨hnot, h.nodup⟩, fun x hx ↦ ?_, ?_⟩
  · rw [List.map_cons, List.mem_cons]
    by_cases hxtd : x = td
    · exact .inl hxtd
    · refine .inr (h.live x ?_)
      have hx' : Function.update s.memory td _ x ≠ none := hx
      rwa [Function.update_of_ne hxtd] at hx'
  · rw [List.map_cons]
    refine List.perm_middle.trans ?_
    change (s.allocated :: (s.destroyed ++ _)).Perm (List.range (s.allocated + 1))
    rw [List.range_succ]
    exact (h.perm.cons _).trans (List.perm_append_singleton _ _).symm

theorem Holds.moveCursor_more (h : s.Holds l) (hfirst : FirstOf t a k l l₁ l₂) :
    (∃ next, s.memory a = some ⟨⟨t, k⟩, next⟩) ∧ s.moveCursor t a true = some (s, .nextKey a) := by
  obtain ⟨next, ha⟩ : ∃ next, s.memory a = some ⟨⟨t, k⟩, next⟩ :=
    h.chain.exists_of_mem (by rw [hfirst.eq_append]; simp)
  refine ⟨⟨next, ha⟩, ?_⟩
  simp only [moveCursor, ha, bind, Option.bind_some, if_true, pure]

theorem Holds.moveCursor_end (h : s.Holds l) (hfirst : FirstOf t a k l l₁ l₂) :
    ∃ s', s.moveCursor t a false = some (s', .finished) ∧ s'.Holds (l₁ ++ l₂) ∧
      s'.destroyed = s.destroyed ++ [k] := by
  obtain ⟨⟨next, ha⟩, -⟩ := h.moveCursor_more hfirst
  obtain ⟨s', start, hfree, -, hdestroyed, hholds⟩ := h.freeTraversalData hfirst
  refine ⟨{ s' with tOpaque := start }, ?_, hholds, hdestroyed⟩
  simp only [moveCursor, ha, bind, Option.bind_some, Bool.false_eq_true, if_false, hfree, pure]

/-- The end of the transaction destroys the elements one after the other. -/
theorem finishLoop_eq_some {td : Option ℕ} {fuel : ℕ} (hchain : Chain s.memory td l)
    (hnodup : (l.map Prod.fst).Nodup) (hfuel : l.length ≤ fuel) :
    ∃ s', finishLoop fuel td s = some s' ∧ s'.allocated = s.allocated ∧
      s'.destroyed = s.destroyed ++ l.map fun x ↦ x.2.serial := by
  induction l generalizing s td fuel with
  | nil =>
    rcases hchain
    refine ⟨s, ?_, rfl, by simp⟩
    rcases fuel with - | fuel
    · rfl
    · rfl
  | cons x l ih =>
    rcases hchain with - | @⟨a, d, next, _, ha, hl⟩
    rcases fuel with - | fuel
    · exact absurd hfuel (by simp)
    · rw [List.map_cons, List.nodup_cons] at hnodup
      have hdestroy : s.destroy a = some ⟨Function.update s.memory a none, s.tOpaque, s.allocated,
          s.destroyed ++ [d.serial]⟩ := by
        rw [destroy, ha, Option.map_some]
      obtain ⟨s', hrest, hallocated, hdestroyed⟩ :=
        ih (s := ⟨Function.update s.memory a none, s.tOpaque, s.allocated,
          s.destroyed ++ [d.serial]⟩) (hl.update_of_notMem hnodup.1 none) hnodup.2
          (Nat.le_of_succ_le_succ hfuel)
      refine ⟨s', ?_, hallocated, ?_⟩
      · rw [finishLoop, ha, Option.bind_some, hdestroy, Option.bind_some, hrest]
      · rw [hdestroyed, List.append_assoc, List.singleton_append, List.map_cons]

theorem Holds.finishTransformation (h : s.Holds l) :
    ∃ s', s.finishTransformation = some s' ∧
      s'.destroyed.Perm (List.range s'.allocated) := by
  obtain ⟨s', hfinish, hallocated, hdestroyed⟩ :=
    finishLoop_eq_some h.chain h.nodup h.length_le
  refine ⟨s', hfinish, ?_⟩
  rw [hallocated, hdestroyed]
  exact h.perm

end Trans

/-! ## Requests -/

section Current

variable {l l₁ l₂ : Elements} {t t' : ℤ} {x : ℕ × TraversalData}

theorem exists_firstOf {a k : ℕ} (h : current t l = some (a, ⟨t, k⟩)) :
    ∃ l₁ l₂, FirstOf t a k l l₁ l₂ := by
  obtain ⟨-, l₁, l₂, hl, hothers⟩ := List.find?_eq_some_iff_append.mp h
  exact ⟨l₁, l₂, hl, fun x hx ↦ by simpa using hothers x hx⟩

/-- Elements of other traversals do not count. -/
theorem current_append_cons (hx : x.2.traversalId ≠ t) :
    current t (l₁ ++ x :: l₂) = current t (l₁ ++ l₂) := by
  rw [current, current, List.find?_append, List.find?_append, List.find?_cons]
  simp [hx]

theorem current_cons_self (a k : ℕ) : current t ((a, ⟨t, k⟩) :: l) = some (a, ⟨t, k⟩) :=
  List.find?_cons_of_pos (decide_eq_true rfl)

end Current

namespace Session

variable {s s' : Session} {l l₁ l₂ : Elements} {t : ℤ} {a k : ℕ}

/-- The cursors of other traversals stay good when a traversal gets another cursor, or none. -/
theorem Tracks.update (h : s.Tracks l) {trans : Trans} {l' : Elements} (hholds : trans.Holds l')
    {c : Option (ℕ × ℕ)} (hc : ∀ a k, c = some (a, k) → current t l' = some (a, ⟨t, k⟩))
    (hothers : ∀ t', t' ≠ t → current t' l' = current t' l) :
    Tracks { s with trans, cursors := Function.update s.cursors t c } l' := by
  refine ⟨hholds, fun t' a k hcursor ↦ ?_⟩
  have hcursor' : Function.update s.cursors t c t' = some (a, k) := hcursor
  by_cases ht : t' = t
  · subst ht
    rw [Function.update_self] at hcursor'
    exact hc a k hcursor'
  · rw [Function.update_of_ne ht] at hcursor'
    rw [hothers t' ht]
    exact h.cursor t' a k hcursor'

theorem Tracks.start_more (h : s.Tracks l) {td : ℕ} (htd : s.trans.memory td = none) (t : ℤ) :
    ∃ s', traversals.step s (.start t td true true) = some s' ∧
      s'.Tracks ((td, ⟨t, s.trans.allocated⟩) :: l) := by
  have hholds := h.holds.allocate htd t
  obtain ⟨⟨next, htd'⟩, hmove⟩ :=
    hholds.moveCursor_more ⟨rfl, fun x hx ↦ absurd hx List.not_mem_nil⟩
  refine ⟨_, ?_, h.update (t := t) (c := some (td, s.trans.allocated)) hholds ?_ ?_⟩
  · simp only [traversals, Trans.cbGetNext, if_true, hmove, Option.map_some, reply, htd']
  · rintro a k heq
    obtain ⟨rfl, rfl⟩ := Prod.mk.inj (Option.some.inj heq)
    exact current_cons_self td _
  · intro t' ht
    rw [← List.nil_append (_ :: l), current_append_cons]
    · rfl
    · exact Ne.symm ht

theorem Tracks.start_end (h : s.Tracks l) {td : ℕ} (htd : s.trans.memory td = none) (t : ℤ) :
    ∃ s', traversals.step s (.start t td true false) = some s' ∧ s'.Tracks l ∧
      s'.trans.destroyed = s.trans.destroyed ++ [s.trans.allocated] := by
  have hholds := h.holds.allocate htd t
  obtain ⟨trans, hmove, hholds', hdestroyed⟩ :=
    hholds.moveCursor_end ⟨rfl, fun x hx ↦ absurd hx List.not_mem_nil⟩
  refine ⟨_, ?_, h.update (t := t) (c := none) hholds' (fun a k hc ↦ ?_) fun t' _ ↦ rfl, hdestroyed⟩
  · simp only [traversals, Trans.cbGetNext, if_true, hmove, Option.map_some, reply]
  · exact absurd hc.symm (Option.some_ne_none _)

theorem start_error (s : Session) (t : ℤ) (td : ℕ) (more : Bool) :
    traversals.step s (.start t td false more) = some s := rfl

theorem Tracks.resume_more (h : s.Tracks l) (hcursor : s.cursors t = some (a, k)) :
    ∃ s', traversals.step s (.resume t true) = some s' ∧ s'.Tracks l := by
  obtain ⟨l₁, l₂, hfirst⟩ := exists_firstOf (h.cursor t a k hcursor)
  obtain ⟨⟨next, ha⟩, hmove⟩ := h.holds.moveCursor_more hfirst
  refine ⟨_, ?_, h.update (t := t) (c := some (a, k)) h.holds ?_ fun t' _ ↦ rfl⟩
  · simp only [traversals, Trans.cbGetNext, hcursor, Option.bind_some, hmove, Option.map_some,
      reply, ha]
  · rintro a' k' heq
    obtain ⟨rfl, rfl⟩ := Prod.mk.inj (Option.some.inj heq)
    exact h.cursor t a k hcursor

theorem Tracks.resume_end (h : s.Tracks l) (hcursor : s.cursors t = some (a, k)) :
    ∃ s' l₁ l₂, traversals.step s (.resume t false) = some s' ∧ l = l₁ ++ (a, ⟨t, k⟩) :: l₂ ∧
      s'.Tracks (l₁ ++ l₂) ∧ s'.trans.destroyed = s.trans.destroyed ++ [k] := by
  obtain ⟨l₁, l₂, hfirst⟩ := exists_firstOf (h.cursor t a k hcursor)
  obtain ⟨trans, hmove, hholds, hdestroyed⟩ := h.holds.moveCursor_end hfirst
  refine ⟨_, l₁, l₂, ?_, hfirst.eq_append,
    h.update (t := t) (c := none) hholds (fun a k hc ↦ ?_) fun t' ht ↦ ?_, hdestroyed⟩
  · simp only [traversals, Trans.cbGetNext, hcursor, Option.bind_some, hmove, Option.map_some,
      reply]
  · exact absurd hc.symm (Option.some_ne_none _)
  · rw [hfirst.eq_append, current_append_cons]
    exact Ne.symm ht

theorem Tracks.finish (h : s.Tracks l) :
    ∃ s', traversals.step s .finish = some s' ∧ s'.finished = true ∧
      s'.trans.destroyed.Perm (List.range s'.trans.allocated) := by
  obtain ⟨trans, hfinish, hperm⟩ := h.holds.finishTransformation
  refine ⟨{ s with trans, finished := true }, ?_, rfl, hperm⟩
  simp only [traversals, hfinish, Option.map_some]

/-! ## Runs -/

/-- The invariant of a transaction, also when it is over. -/
structure Sound (s : Session) : Prop where
  tracks : s.finished = false → ∃ l, s.Tracks l
  perm : s.finished = true → s.trans.destroyed.Perm (List.range s.trans.allocated)

theorem step_finished {r : Request} (h : traversals.step s r = some s') (hr : r ≠ .finish) :
    s'.finished = s.finished := by
  have hreply : ∀ t r, (s.reply t r).finished = s.finished := by
    rintro t ⟨trans, - | - | next⟩
    · rfl
    · rfl
    · rfl
  rcases r with ⟨t, td, translates, more⟩ | ⟨t, more⟩ | -
  · obtain ⟨r, -, rfl⟩ := Option.map_eq_some_iff.mp h
    exact hreply t r
  · obtain ⟨c, -, hstep⟩ := Option.bind_eq_some_iff.mp h
    obtain ⟨r, -, rfl⟩ := Option.map_eq_some_iff.mp hstep
    exact hreply t r
  · exact absurd rfl hr

theorem sound_of_step {r : Request} (hopen : s.finished = false)
    (hstep : traversals.step s r = some s') (hr : r ≠ .finish) (htracks : s'.Tracks l) :
    s'.Sound := by
  refine ⟨fun _ ↦ ⟨l, htracks⟩, fun hfinished ↦ ?_⟩
  rw [step_finished hstep hr, hopen] at hfinished
  exact Bool.noConfusion hfinished

theorem Allowed.not_finished {r : Request} (h : s.Allowed r) : s.finished = false := by
  rcases r with ⟨t, td, translates, more⟩ | ⟨t, more⟩ | -
  · exact h.1
  · exact h.1
  · exact h

/-- A request that ConfD may make touches no memory that is not there, and keeps the invariant. -/
theorem Tracks.exists_step (h : s.Tracks l) {r : Request} (hr : s.Allowed r) :
    ∃ s', traversals.step s r = some s' ∧ s'.Sound := by
  have hopen := hr.not_finished
  rcases r with ⟨t, td, - | -, - | -⟩ | ⟨t, - | -⟩ | -
  · exact ⟨s, rfl, sound_of_step hopen (start_error s t td false) (by simp) h⟩
  · exact ⟨s, rfl, sound_of_step hopen (start_error s t td true) (by simp) h⟩
  · obtain ⟨s', hstep, htracks, -⟩ := h.start_end hr.2 t
    exact ⟨s', hstep, sound_of_step hopen hstep (by simp) htracks⟩
  · obtain ⟨s', hstep, htracks⟩ := h.start_more hr.2 t
    exact ⟨s', hstep, sound_of_step hopen hstep (by simp) htracks⟩
  · obtain ⟨⟨a, k⟩, hcursor⟩ := Option.ne_none_iff_exists'.mp hr.2
    obtain ⟨s', l₁, l₂, hstep, -, htracks, -⟩ := h.resume_end hcursor
    exact ⟨s', hstep, sound_of_step hopen hstep (by simp) htracks⟩
  · obtain ⟨⟨a, k⟩, hcursor⟩ := Option.ne_none_iff_exists'.mp hr.2
    obtain ⟨s', hstep, htracks⟩ := h.resume_more hcursor
    exact ⟨s', hstep, sound_of_step hopen hstep (by simp) htracks⟩
  · obtain ⟨s', hstep, hfinished, hperm⟩ := h.finish
    refine ⟨s', hstep, fun hopen' ↦ ?_, fun _ ↦ hperm⟩
    rw [hfinished] at hopen'
    exact Bool.noConfusion hopen'

theorem tracks_initial : initial.Tracks [] :=
  ⟨⟨.nil, List.nodup_nil, fun _ ha ↦ absurd rfl ha, List.Perm.refl _⟩,
    fun _ _ _ hcursor ↦ absurd hcursor.symm (Option.some_ne_none _)⟩

theorem sound_of_reach (h : traversals.Reach Allowed initial s) : s.Sound := by
  have hinitial : initial.Sound :=
    ⟨fun _ ↦ ⟨[], tracks_initial⟩, fun hfinished ↦ Bool.noConfusion hfinished⟩
  refine h.invariant hinitial fun s r s' hs hr hstep ↦ ?_
  obtain ⟨l, htracks⟩ := hs.tracks hr.not_finished
  obtain ⟨s₁, hstep₁, hsound⟩ := htracks.exists_step hr
  rwa [← Option.some.inj (hstep₁.symm.trans hstep)]

theorem Tracks.notMem_destroyed (h : s.Tracks l) (hmem : (a, ⟨t, k⟩) ∈ l) :
    k ∉ s.trans.destroyed := by
  intro hk
  have hnodup := h.holds.perm.nodup_iff.mpr List.nodup_range
  exact (List.nodup_append.mp hnodup).2.2 k hk k (List.mem_map.mpr ⟨_, hmem, rfl⟩) rfl

/-- In every run of a transaction, the cursors that ConfD may pass back belong to elements that are
in the list and not destroyed, no request touches memory that is not there, the end of a traversal
takes its current element out of the list and destroys it, and the end of the transaction leaves
every element destroyed once. -/
theorem traversals_safe (h : traversals.Reach Allowed initial s) :
    (s.finished = false → ∃ l, s.trans.Holds l ∧
      (∀ t a k, s.cursors t = some (a, k) → (a, ⟨t, k⟩) ∈ l ∧ k ∉ s.trans.destroyed) ∧
      (∀ r, s.Allowed r → ∃ s', traversals.step s r = some s') ∧
      (∀ t a k s', s.cursors t = some (a, k) →
        traversals.step s (.resume t false) = some s' →
        ∃ l₁ l₂, l = l₁ ++ (a, ⟨t, k⟩) :: l₂ ∧ s'.trans.Holds (l₁ ++ l₂) ∧
          s'.trans.destroyed = s.trans.destroyed ++ [k]) ∧
      ∀ t td s', s.trans.memory td = none →
        traversals.step s (.start t td true false) = some s' →
        s'.trans.Holds l ∧ s'.trans.destroyed = s.trans.destroyed ++ [s.trans.allocated]) ∧
    (s.finished = true → s.trans.destroyed.Perm (List.range s.trans.allocated)) := by
  have hsound := sound_of_reach h
  refine ⟨fun hopen ↦ ?_, hsound.perm⟩
  obtain ⟨l, htracks⟩ := hsound.tracks hopen
  refine ⟨l, htracks.holds, fun t a k hcursor ↦ ?_, fun r hr ↦ ?_, ?_, ?_⟩
  · have hmem := List.mem_of_find?_eq_some (htracks.cursor t a k hcursor)
    exact ⟨hmem, htracks.notMem_destroyed hmem⟩
  · obtain ⟨s', hstep, -⟩ := htracks.exists_step hr
    exact ⟨s', hstep⟩
  · intro t a k s' hcursor hstep
    obtain ⟨s₁, l₁, l₂, hstep₁, hl, htracks', hdestroyed⟩ := htracks.resume_end hcursor
    obtain rfl : s₁ = s' := Option.some.inj (hstep₁.symm.trans hstep)
    exact ⟨l₁, l₂, hl, htracks'.holds, hdestroyed⟩
  · intro t td s' htd hstep
    obtain ⟨s₁, hstep₁, htracks', hdestroyed⟩ := htracks.start_end htd t
    obtain rfl : s₁ = s' := Option.some.inj (hstep₁.symm.trans hstep)
    exact ⟨htracks'.holds, hdestroyed⟩

/-- Two traversals of which the first one was started anew. -/
def restarted : Session where
  trans := ((initial.trans.allocate 1 5).allocate 2 6).allocate 1 7
  cursors := Function.update (Function.update (Function.update initial.cursors 1 (some (5, 0))) 2
    (some (6, 1))) 1 (some (7, 2))
  finished := false

theorem reach_restarted : traversals.Reach Allowed initial restarted :=
  ((Machine.Reach.refl.step (e := .start 1 5 true true) ⟨rfl, rfl⟩ rfl).step
    (e := .start 2 6 true true) ⟨rfl, rfl⟩ rfl).step (e := .start 1 7 true true) ⟨rfl, rfl⟩ rfl

/-- The first traversal comes to its end. Its first element is left over. -/
theorem traversals_safe_restarted : ∃ s' l, traversals.step restarted (.resume 1 false) = some s' ∧
    s'.trans.Holds l ∧ s'.trans.destroyed = [2] := by
  obtain ⟨l, -, -, hsteps, hend, -⟩ := (traversals_safe reach_restarted).1 rfl
  obtain ⟨s', hstep⟩ := hsteps (.resume 1 false) ⟨rfl, Option.some_ne_none (7, 2)⟩
  obtain ⟨l₁, l₂, -, hholds, hdestroyed⟩ := hend 1 7 2 s' rfl hstep
  exact ⟨s', l₁ ++ l₂, hstep, hholds, hdestroyed⟩

end Session

end ConfdDemos.Symlink
