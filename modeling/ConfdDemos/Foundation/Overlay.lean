import Mathlib.Data.List.Basic

/-!
# Overlaying a list of assignments

A list of key-value pairs, read from left to right with the last assignment of a key winning. This
is what a client of a change stream holds after a snapshot and a sequence of updates.
-/

namespace ConfdDemos

variable {κ ν : Type*} [DecidableEq κ]

/-- The value a key has after all assignments, if it has been assigned. -/
def overlay : List (κ × ν) → κ → Option ν
  | [], _ => none
  | q :: d, k => (overlay d k).or (if q.1 = k then some q.2 else none)

/-- Later assignments win. -/
theorem overlay_append (xs ys : List (κ × ν)) (k : κ) :
    overlay (xs ++ ys) k = (overlay ys k).or (overlay xs k) := by
  induction xs with
  | nil => rw [List.nil_append, overlay, Option.or_none]
  | cons q xs ih => rw [List.cons_append, overlay, overlay, ih, Option.or_assoc]

theorem overlay_of_notMem {d : List (κ × ν)} {k : κ} (h : k ∉ d.map Prod.fst) :
    overlay d k = none := by
  induction d with
  | nil => rfl
  | cons q d ih =>
    rw [List.map_cons, List.mem_cons, not_or] at h
    rw [overlay, ih h.2, if_neg (Ne.symm h.1)]
    rfl

/-- Assignments that all come from one function. -/
theorem overlay_of_forall_eq {d : List (κ × ν)} {f : κ → ν} (hf : ∀ q ∈ d, q.2 = f q.1) {k : κ}
    (hk : k ∈ d.map Prod.fst) : overlay d k = some (f k) := by
  induction d with
  | nil => exact absurd hk (by simp)
  | cons q d ih =>
    rw [overlay]
    by_cases hd : k ∈ d.map Prod.fst
    · rw [ih (fun q' hq' ↦ hf q' (List.mem_cons_of_mem q hq')) hd, Option.some_or]
    · rw [overlay_of_notMem hd, Option.none_or]
      rw [List.map_cons, List.mem_cons] at hk
      obtain rfl : k = q.1 := hk.resolve_right hd
      rw [if_pos rfl, hf q List.mem_cons_self]

/-- Assigning a key its final value once more, at any point, changes nothing in the end. -/
theorem overlay_insert {f : κ → ν} {xs ys : List (κ × ν)} {k l : κ}
    (h : overlay (xs ++ ys) k = some (f k)) :
    overlay (xs ++ [(l, f l)] ++ ys) k = some (f k) := by
  rw [overlay_append] at h
  rw [overlay_append, overlay_append]
  by_cases hkl : l = k
  · subst hkl
    rw [overlay, overlay, Option.none_or, if_pos rfl, Option.some_or]
    -- what comes after the inserted assignment is either nothing or assigns the final value
    cases hys : overlay ys l with
    | none => rfl
    | some v =>
      rw [hys, Option.some_or] at h
      rwa [Option.some_or]
  · rwa [overlay, overlay, Option.none_or, if_neg hkl, Option.none_or]

end ConfdDemos
