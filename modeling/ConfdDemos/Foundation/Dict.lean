import Mathlib.Data.List.Basic

/-!
# Dictionaries in insertion order

A dictionary is the list of its items. Setting the value of a key it has keeps the place of the key;
a new key goes to the end.

## The last of several keys

Where several keys stand for one thing, `findLast?` is the value of the last of them. A value that
is set is the last one when nothing behind its key stands for the same thing.
-/

namespace ConfdDemos.Dict

variable {κ ν : Type*}

section Set

variable [DecidableEq κ]

def set (k : κ) (v : ν) : List (κ × ν) → List (κ × ν)
  | [] => [(k, v)]
  | q :: d => if q.1 = k then (k, v) :: d else q :: set k v d

def get? (k : κ) : List (κ × ν) → Option ν
  | [] => none
  | q :: d => if q.1 = k then some q.2 else get? k d

variable {k k' : κ} {v : ν} {d : List (κ × ν)}

theorem get?_set : get? k' (set k v d) = if k = k' then some v else get? k' d := by
  induction d with
  | nil => rfl
  | cons q d ih =>
    rw [set]
    by_cases hq : q.1 = k
    · by_cases hk : k = k'
      · simp [hq, hk, get?]
      · simp [hq, hk, get?]
    · rw [if_neg hq, get?, get?, ih]
      by_cases hk : k = k'
      · have hq' : q.1 ≠ k' := fun h ↦ hq (h.trans hk.symm)
        simp [hk, hq']
      · simp [hk]

theorem keys_set : (set k v d).map Prod.fst =
    if k ∈ d.map Prod.fst then d.map Prod.fst else d.map Prod.fst ++ [k] := by
  induction d with
  | nil => rfl
  | cons q d ih =>
    rw [set]
    by_cases hq : q.1 = k
    · rw [if_pos hq, List.map_cons, List.map_cons, hq, if_pos List.mem_cons_self]
    · rw [if_neg hq, List.map_cons, List.map_cons, ih]
      by_cases hk : k ∈ d.map Prod.fst
      · rw [if_pos hk, if_pos (List.mem_cons_of_mem _ hk)]
      · have hcons : k ∉ q.1 :: d.map Prod.fst := by
          rw [List.mem_cons, not_or]
          exact ⟨fun h ↦ hq h.symm, hk⟩
        rw [if_neg hk, if_neg hcons, List.cons_append]

theorem set_of_notMem (h : k ∉ d.map Prod.fst) : set k v d = d ++ [(k, v)] := by
  induction d with
  | nil => rfl
  | cons q d ih =>
    rw [List.map_cons, List.mem_cons, not_or] at h
    rw [set, if_neg (Ne.symm h.1), ih h.2, List.cons_append]

/-- Items with new keys go to the end one after the other. -/
theorem foldl_set {α : Type*} (f : α → κ) (g : α → ν) {l : List α}
    (h : (d.map Prod.fst ++ l.map f).Nodup) :
    l.foldl (fun d x ↦ set (f x) (g x) d) d = d ++ l.map fun x ↦ (f x, g x) := by
  induction l generalizing d with
  | nil => rw [List.foldl_nil, List.map_nil, List.append_nil]
  | cons x l ih =>
    rw [List.map_cons] at h
    have hx : f x ∉ d.map Prod.fst := fun hmem ↦
      (List.nodup_append.mp h).2.2 _ hmem _ List.mem_cons_self rfl
    have h' : ((d ++ [(f x, g x)]).map Prod.fst ++ l.map f).Nodup := by
      rwa [List.map_append, List.append_assoc, List.map_singleton, List.singleton_append]
    rw [List.foldl_cons, set_of_notMem hx, ih h', List.append_assoc, List.singleton_append,
      List.map_cons]

theorem get?_isSome : (get? k d).isSome ↔ k ∈ d.map Prod.fst := by
  induction d with
  | nil => simp [get?]
  | cons q d ih =>
    rw [get?, List.map_cons, List.mem_cons]
    by_cases hq : q.1 = k
    · simp [hq]
    · rw [if_neg hq, ih, or_iff_right fun h ↦ hq h.symm]

theorem mem_of_get? (h : get? k d = some v) : (k, v) ∈ d := by
  induction d with
  | nil => exact absurd h.symm (Option.some_ne_none v)
  | cons q d ih =>
    rw [get?] at h
    split_ifs at h with hq
    · rw [← hq, ← Option.some.inj h]
      exact List.mem_cons_self
    · exact List.mem_cons_of_mem _ (ih h)

theorem mem_of_mem_set {q : κ × ν} (h : q ∈ set k v d) : q = (k, v) ∨ q ∈ d := by
  induction d with
  | nil => exact .inl (List.mem_singleton.mp h)
  | cons r d ih =>
    rw [set] at h
    split_ifs at h
    · rcases List.mem_cons.mp h with h | h
      · exact .inl h
      · exact .inr (List.mem_cons_of_mem _ h)
    · rcases List.mem_cons.mp h with rfl | h
      · exact .inr List.mem_cons_self
      · exact (ih h).imp_right (List.mem_cons_of_mem _)

theorem get?_eq_some_of_mem (h : (k, v) ∈ d) (honly : ∀ q ∈ d, q.1 = k → q = (k, v)) :
    get? k d = some v := by
  induction d with
  | nil => exact absurd h List.not_mem_nil
  | cons q d ih =>
    rw [get?]
    by_cases hq : q.1 = k
    · rw [if_pos hq, honly q List.mem_cons_self hq]
    · have hmem : (k, v) ∈ d := (List.mem_cons.mp h).resolve_left fun heq ↦ hq (heq ▸ rfl)
      rw [if_neg hq, ih hmem fun r hr ↦ honly r (List.mem_cons_of_mem _ hr)]

end Set

/-! ## The last of several keys -/

def findLast? (p : κ → Bool) : List (κ × ν) → Option ν
  | [] => none
  | q :: d => (findLast? p d).or (if p q.1 then some q.2 else none)

/-- Behind the place of `k` there is a key that satisfies `p`. -/
def later [DecidableEq κ] (p : κ → Bool) (k : κ) : List (κ × ν) → Bool
  | [] => false
  | q :: d => if q.1 = k then d.any fun r ↦ p r.1 else later p k d

section Last

variable {p p' : κ → Bool} {k : κ} {v : ν} {d : List (κ × ν)}

theorem findLast?_eq_none (h : (d.any fun r ↦ p r.1) = false) : findLast? p d = none := by
  induction d with
  | nil => rfl
  | cons q d ih =>
    rw [List.any_cons, Bool.or_eq_false_iff] at h
    rw [findLast?, ih h.2, if_neg (by simp [h.1])]
    rfl

theorem findLast?_congr (h : ∀ q ∈ d, p q.1 = p' q.1) : findLast? p d = findLast? p' d := by
  induction d with
  | nil => rfl
  | cons q d ih =>
    rw [findLast?, findLast?, ih fun r hr ↦ h r (List.mem_cons_of_mem _ hr),
      h q List.mem_cons_self]

theorem findLast?_eq_some_of_mem (h : (k, v) ∈ d) (hk : p k = true)
    (honly : ∀ q ∈ d, p q.1 = true → q = (k, v)) : findLast? p d = some v := by
  induction d with
  | nil => exact absurd h List.not_mem_nil
  | cons q d ih =>
    have honly' : ∀ r ∈ d, p r.1 = true → r = (k, v) :=
      fun r hr ↦ honly r (List.mem_cons_of_mem _ hr)
    rw [findLast?]
    by_cases hmem : (k, v) ∈ d
    · rw [ih hmem honly', Option.some_or]
    · have hnone : (d.any fun r ↦ p r.1) = false := by
        rw [List.any_eq_false]
        exact fun r hr hp ↦ hmem (honly' r hr hp ▸ hr)
      obtain rfl : (k, v) = q := (List.mem_cons.mp h).resolve_right hmem
      rw [findLast?_eq_none hnone, if_pos hk]
      rfl

variable [DecidableEq κ]

theorem findLast?_set_of_not (hk : p k = false) : findLast? p (set k v d) = findLast? p d := by
  induction d with
  | nil => simp [set, findLast?, hk]
  | cons q d ih =>
    rw [set]
    by_cases hq : q.1 = k
    · simp [hq, findLast?, hk]
    · rw [if_neg hq, findLast?, findLast?, ih]

theorem findLast?_set (hk : p k = true) (hlater : later p k d = false) :
    findLast? p (set k v d) = some v := by
  induction d with
  | nil => simp [set, findLast?, hk]
  | cons q d ih =>
    rw [later] at hlater
    rw [set]
    by_cases hq : q.1 = k
    · rw [if_pos hq] at hlater ⊢
      rw [findLast?, findLast?_eq_none hlater, if_pos hk]
      rfl
    · rw [if_neg hq] at hlater ⊢
      rw [findLast?, ih hlater, Option.some_or]

end Last

end ConfdDemos.Dict
