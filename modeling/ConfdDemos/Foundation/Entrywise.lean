import Mathlib.Algebra.BigOperators.Group.List.Basic
import Mathlib.Algebra.GroupWithZero.Nat
import Mathlib.Data.List.Forall2

/-!
# Lists compared entry by entry

Two lists that are meant to be the same, where each entry of the first is right or has gone wrong in
a way that a weight shows. A rearrangement keeps the sum of the weights, so the first list cannot be
a rearrangement of the second unless it is the second.

The lists of a run are put together from pieces. When no piece is longer than it should be, the
whole is right only if every piece is.
-/

namespace ConfdDemos

/-! ## Rearrangements -/

section Rearrange

variable {α : Type*} {weight : α → ℕ} {xs ys : List α}

theorem sum_le_of_forall₂ (h : List.Forall₂ (fun x y ↦ x = y ∨ weight y < weight x) xs ys) :
    (ys.map weight).sum ≤ (xs.map weight).sum ∧
      ((xs.map weight).sum = (ys.map weight).sum → xs = ys) := by
  induction h with
  | nil => exact ⟨Nat.le_refl _, fun _ ↦ rfl⟩
  | @cons x y xs ys hxy _ ih =>
    obtain ⟨hle, heq⟩ := ih
    simp only [List.map_cons, List.sum_cons]
    rcases hxy with rfl | hlt
    · refine ⟨by omega, fun hsum ↦ ?_⟩
      rw [heq (by omega)]
    · -- one heavier entry cannot be made up for by the others
      exact ⟨by omega, fun hsum ↦ by omega⟩

/-- Entries that only ever get heavier cannot be rearranged into the lighter ones. -/
theorem eq_of_forall₂_of_perm
    (h : List.Forall₂ (fun x y ↦ x = y ∨ weight y < weight x) xs ys) (hp : xs.Perm ys) :
    xs = ys :=
  (sum_le_of_forall₂ h).2 (hp.map weight).sum_eq

end Rearrange

/-! ## Pieces -/

section Pieces

variable {α β : Type*} {f g : α → List β} {xs : List α}

theorem length_flatMap_le (h : ∀ x ∈ xs, (f x).length ≤ (g x).length) :
    (xs.flatMap f).length ≤ (xs.flatMap g).length := by
  induction xs with
  | nil => exact Nat.le_refl _
  | cons x xs ih =>
    rw [List.forall_mem_cons] at h
    rw [List.flatMap_cons, List.flatMap_cons, List.length_append, List.length_append]
    exact Nat.add_le_add h.1 (ih h.2)

/-- Lists built from pieces that are never longer are equal only when all pieces are. -/
theorem eq_of_flatMap_eq (hlen : ∀ x ∈ xs, (f x).length ≤ (g x).length)
    (h : xs.flatMap f = xs.flatMap g) : ∀ x ∈ xs, f x = g x := by
  induction xs with
  | nil => exact fun x hx ↦ absurd hx (by simp)
  | cons x xs ih =>
    rw [List.forall_mem_cons] at hlen ⊢
    rw [List.flatMap_cons, List.flatMap_cons] at h
    -- the total lengths agree, so the first pieces have the same length and can be split off
    have hxlen : (f x).length = (g x).length := by
      have htotal := congrArg List.length h
      have hrest := length_flatMap_le hlen.2
      rw [List.length_append, List.length_append] at htotal
      omega
    obtain ⟨hx, hxs⟩ := List.append_inj h hxlen
    exact ⟨hx, ih hlen.2 hxs⟩

theorem forall₂_flatMap {R : β → β → Prop} (h : ∀ x ∈ xs, List.Forall₂ R (f x) (g x)) :
    List.Forall₂ R (xs.flatMap f) (xs.flatMap g) := by
  induction xs with
  | nil => exact List.Forall₂.nil
  | cons x xs ih =>
    rw [List.forall_mem_cons] at h
    exact List.rel_append h.1 (ih h.2)

end Pieces

end ConfdDemos
