import Mathlib.Data.List.Nodup
import Mathlib.Logic.Function.Basic

/-!
# Linked lists in memory

A cell has some data and a pointer to the next cell, or none at the end. Memory gives the cell at an
address, if there is one. `Chain mem p l` holds when the list that starts at `p` has the addresses
and data `l`.

A list does not notice what happens at other addresses (`Chain.update_of_notMem`), and a cell is
taken out by writing to the one before it (`Chain.unlink`).
-/

namespace ConfdDemos

structure Cell (α : Type*) where
  data : α
  next : Option ℕ

abbrev Memory (α : Type*) := ℕ → Option (Cell α)

variable {α : Type*}

/-- Writing to a cell that is there makes no new cells. -/
theorem ne_none_of_update {mem : Memory α} {a x : ℕ} {c : Option (Cell α)} (ha : mem a ≠ none)
    (h : Function.update mem a c x ≠ none) : mem x ≠ none := by
  by_cases hx : x = a
  · rwa [hx]
  · rwa [Function.update_of_ne hx] at h

inductive Chain (mem : Memory α) : Option ℕ → List (ℕ × α) → Prop
  | nil : Chain mem none []
  | cons {a : ℕ} {d : α} {next : Option ℕ} {l : List (ℕ × α)} (ha : mem a = some ⟨d, next⟩)
      (hl : Chain mem next l) : Chain mem (some a) ((a, d) :: l)

namespace Chain

variable {mem : Memory α} {p : Option ℕ} {l l₁ l₂ : List (ℕ × α)} {a b : ℕ} {d e : α}

/-- The cell of an entry. -/
theorem exists_of_mem (h : Chain mem p l) (hmem : (a, d) ∈ l) :
    ∃ next, mem a = some ⟨d, next⟩ := by
  induction h with
  | nil => exact absurd hmem List.not_mem_nil
  | @cons a' d' next l ha hl ih =>
    rcases List.mem_cons.mp hmem with heq | hmem
    · rw [Prod.mk.injEq] at heq
      obtain ⟨rfl, rfl⟩ := heq
      exact ⟨next, ha⟩
    · exact ih hmem

theorem update_of_notMem (h : Chain mem p l) (ha : a ∉ l.map Prod.fst) (c : Option (Cell α)) :
    Chain (Function.update mem a c) p l := by
  induction h with
  | nil => exact .nil
  | @cons a' d' next l ha' hl ih =>
    rw [List.map_cons, List.mem_cons, not_or] at ha
    refine .cons ?_ (ih ha.2)
    rw [Function.update_of_ne (Ne.symm ha.1), ha']

theorem start_ne (h : Chain mem p (l₁ ++ l₂)) (hl₁ : l₁ ≠ []) (ha : a ∉ l₁.map Prod.fst) :
    p ≠ some a := by
  rcases l₁ with - | ⟨x, l₁⟩
  · exact absurd rfl hl₁
  · rintro rfl
    rcases h
    exact ha List.mem_cons_self

/-- A new cell in front. -/
theorem push (h : Chain mem p l) (ha : a ∉ l.map Prod.fst) :
    Chain (Function.update mem a (some ⟨d, p⟩)) (some a) ((a, d) :: l) :=
  .cons (Function.update_self ..) (h.update_of_notMem ha _)

/-- The pointer of a cell leads to what follows it. -/
theorem tail (h : Chain mem p (l₁ ++ (a, d) :: l₂)) :
    ∃ next, mem a = some ⟨d, next⟩ ∧ Chain mem next l₂ := by
  induction l₁ generalizing p with
  | nil =>
    rcases h with - | ⟨ha, hl⟩
    exact ⟨_, ha, hl⟩
  | cons x l₁ ih =>
    rcases h with - | ⟨-, hl⟩
    exact ih hl

/-- The cell before takes over the pointer. -/
theorem unlink (h : Chain mem p (l₁ ++ (b, e) :: (a, d) :: l₂))
    (hnodup : ((l₁ ++ (b, e) :: (a, d) :: l₂).map Prod.fst).Nodup) {next : Option ℕ}
    (ha : mem a = some ⟨d, next⟩) :
    Chain (Function.update mem b (some ⟨e, next⟩)) p (l₁ ++ (b, e) :: l₂) := by
  induction l₁ generalizing p with
  | nil =>
    obtain ⟨next', ha', hl₂⟩ := (show Chain mem p ([(b, e)] ++ (a, d) :: l₂) from h).tail
    obtain rfl : next = next' := by
      rw [ha, Option.some.injEq, Cell.mk.injEq] at ha'
      exact ha'.2
    rcases h with - | ⟨hb, -⟩
    refine .cons (Function.update_self ..) (hl₂.update_of_notMem ?_ _)
    intro hmem
    exact (List.nodup_cons.mp hnodup).1 (List.mem_cons_of_mem _ hmem)
  | cons x l₁ ih =>
    rcases h with - | @⟨c, f, next', -, hc, hl⟩
    rw [List.cons_append, List.map_cons, List.nodup_cons] at hnodup
    have hne : c ≠ b := by
      rintro rfl
      exact hnodup.1 (by simp)
    refine .cons ?_ (ih hl hnodup.2)
    rw [Function.update_of_ne hne, hc]

end Chain

end ConfdDemos
