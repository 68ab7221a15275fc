import Mathlib.Data.Int.Basic
import Mathlib.Data.List.TakeDrop

/-!
# Cursors

A provider hands out a list in pieces: each request carries a cursor, and the reply has some items
and a cursor for the next request, or says that there are no more. `Collects next s xs` holds when
the requests that start with `s` come to an end and their items are `xs`; a provider that leads its
client in a circle collects nothing.

`Collects.of_positions` is the rule for a provider whose cursors stand for positions of one list,
however long its pieces are, and `Collects.of_each` the one for pieces of length one. Two providers
that both follow it agree with each other. `indexCursor` is the usual choice of cursors.

## Records

A reply is often cut out of one buffer in which every item has the same number of cells;
`take_drop_flatten` is that cut, and `take_drop_flatten_skip` leaves some cells out at both ends of
a record.
-/

namespace ConfdDemos

variable {σ β : Type*}

/-- The items of all requests from a cursor on, with a bound on their number. -/
def collect (next : σ → List β × Option σ) : ℕ → σ → Option (List β)
  | 0, _ => none
  | fuel + 1, s =>
    match (next s).2 with
    | none => some (next s).1
    | some s' => (collect next fuel s').map ((next s).1 ++ ·)

/-- The requests come to an end, and these are their items. -/
def Collects (next : σ → List β × Option σ) (s : σ) (xs : List β) : Prop :=
  ∃ fuel, collect next fuel s = some xs

namespace Collects

variable {next : σ → List β × Option σ} {s s' : σ} {xs ys : List β}

theorem of_end (h : (next s).2 = none) : Collects next s (next s).1 :=
  ⟨1, by rw [collect, h]⟩

theorem of_next (h : (next s).2 = some s') (hs' : Collects next s' ys) :
    Collects next s ((next s).1 ++ ys) := by
  obtain ⟨fuel, hfuel⟩ := hs'
  exact ⟨fuel + 1, by simp only [collect, h, hfuel, Option.map_some]⟩

/-- The first reply, and what follows it. -/
theorem exists_of_next (h : Collects next s xs) (hnext : (next s).2 = some s') :
    ∃ ys, xs = (next s).1 ++ ys ∧ Collects next s' ys := by
  obtain ⟨fuel, hfuel⟩ := h
  cases fuel with
  | zero => exact absurd hfuel (by simp [collect])
  | succ fuel =>
    rw [collect, hnext, Option.map_eq_some_iff] at hfuel
    obtain ⟨ys, hys, rfl⟩ := hfuel
    exact ⟨ys, rfl, fuel, hys⟩

theorem eq_of_end (h : Collects next s xs) (hnext : (next s).2 = none) : xs = (next s).1 := by
  obtain ⟨fuel, hfuel⟩ := h
  cases fuel with
  | zero => exact absurd hfuel (by simp [collect])
  | succ fuel =>
    rw [collect, hnext, Option.some_inj] at hfuel
    exact hfuel.symm

/-- The first reply is where the items begin. -/
theorem exists_eq_append (h : Collects next s xs) : ∃ ys, xs = (next s).1 ++ ys := by
  cases hnext : (next s).2 with
  | none => exact ⟨[], by rw [h.eq_of_end hnext, List.append_nil]⟩
  | some s' =>
    obtain ⟨ys, hys, -⟩ := h.exists_of_next hnext
    exact ⟨ys, hys⟩

/-- The items are determined. -/
theorem unique (h : Collects next s xs) (h' : Collects next s ys) : xs = ys := by
  obtain ⟨fuel, hfuel⟩ := h
  induction fuel generalizing s xs ys with
  | zero => exact absurd hfuel (by simp [collect])
  | succ fuel ih =>
    cases hnext : (next s).2 with
    | none => rw [eq_of_end ⟨_, hfuel⟩ hnext, eq_of_end h' hnext]
    | some s' =>
      rw [collect, hnext, Option.map_eq_some_iff] at hfuel
      obtain ⟨zs, hzs, rfl⟩ := hfuel
      obtain ⟨ys', rfl, hys'⟩ := h'.exists_of_next hnext
      rw [ih hys' hzs]

/-- **The position rule.** Cursors stand for positions of a list, and each reply has the items from
its position on up to the position of the next cursor, or up to the end. -/
theorem of_positions (xs : List β) (c : ℕ → σ) (h : ∀ p ≤ xs.length, ∃ k,
      (next (c p)).1 = (xs.drop p).take k ∧
      ((next (c p)).2 = none ∧ xs.length ≤ p + k ∨
        (next (c p)).2 = some (c (p + k)) ∧ 0 < k ∧ p + k ≤ xs.length)) :
    Collects next (c 0) xs := by
  have hfrom : ∀ p ≤ xs.length, Collects next (c p) (xs.drop p) := by
    intro p hp
    -- the positions grow towards the end of the list
    induction hrest : xs.length - p using Nat.strongRecOn generalizing p with
    | ind rest ih =>
      obtain ⟨k, hitems, ⟨hend, hk⟩ | ⟨hnext, hpos, hk⟩⟩ := h p hp
      · have hall : (next (c p)).1 = xs.drop p := by
          rw [hitems, List.take_of_length_le]
          rw [List.length_drop]
          omega
        exact hall ▸ of_end hend
      · have htail := of_next hnext (ih (xs.length - (p + k)) (by omega) (p + k) hk rfl)
        rwa [hitems, ← List.drop_drop, List.take_append_drop] at htail
  exact hfrom 0 (Nat.zero_le _)

/-- The same for one item at a time. -/
theorem of_each (xs : List β) (c : ℕ → σ)
    (hnext : ∀ p (hp : p < xs.length), next (c p) = ([xs[p]], some (c (p + 1))))
    (hend : next (c xs.length) = ([], none)) : Collects next (c 0) xs := by
  refine of_positions xs c fun p hp ↦ ?_
  rcases Nat.lt_or_eq_of_le hp with hlt | rfl
  · rw [hnext p hlt]
    exact ⟨1, (List.take_one_drop_eq_of_lt_length hlt).symm, .inr ⟨rfl, Nat.one_pos, hlt⟩⟩
  · rw [hend]
    exact ⟨0, List.take_zero.symm, .inl ⟨rfl, Nat.le_refl _⟩⟩

end Collects

/-- The cursor of a position, where the first request has `-1` and the others an index. -/
def indexCursor (p : ℕ) : ℤ := if p = 0 then -1 else p

theorem indexCursor_succ (p : ℕ) : indexCursor (p + 1) = p + 1 := by
  rw [indexCursor, if_neg (Nat.succ_ne_zero p), Int.natCast_succ]

theorem index_indexCursor (p : ℕ) : (if indexCursor p = -1 then 0 else indexCursor p) = p := by
  rcases p with - | p
  · rfl
  · have hne : indexCursor (p + 1) ≠ -1 := by
      rw [indexCursor_succ]
      omega
    rw [if_neg hne, indexCursor_succ, Int.natCast_succ]

/-! ## Records of one width -/

theorem length_flatten_of_width {w : ℕ} {ls : List (List β)} (h : ∀ l ∈ ls, l.length = w) :
    ls.flatten.length = w * ls.length := by
  induction ls with
  | nil => rfl
  | cons l ls ih =>
    rw [List.flatten_cons, List.length_append, h l List.mem_cons_self,
      ih fun l hl ↦ h l (List.mem_cons_of_mem _ hl), List.length_cons, Nat.mul_succ, Nat.add_comm]

/-- The records of a buffer of records of one width. -/
theorem take_drop_flatten {w : ℕ} {ls : List (List β)} (h : ∀ l ∈ ls, l.length = w) {i : ℕ}
    (hi : i < ls.length) : (ls.flatten.drop (w * i)).take w = ls[i] := by
  induction ls generalizing i with
  | nil => exact absurd hi (by simp)
  | cons l ls ih =>
    have hl : l.length = w := h l List.mem_cons_self
    cases i with
    | zero => simp [← hl]
    | succ i =>
      have hdrop : (l :: ls).flatten.drop (w * (i + 1)) = ls.flatten.drop (w * i) := by
        rw [List.flatten_cons, Nat.mul_succ, Nat.add_comm, ← List.drop_drop, ← hl, List.drop_left]
      rw [hdrop, List.getElem_cons_succ]
      exact ih (fun l hl ↦ h l (List.mem_cons_of_mem _ hl)) (by simpa using hi)

theorem take_drop_flatten_skip {w : ℕ} {ls : List (List β)} (h : ∀ l ∈ ls, l.length = w) {i : ℕ}
    (hi : i < ls.length) (skip : ℕ) :
    (ls.flatten.drop (w * i + skip)).take (w - skip * 2) =
      (ls[i].drop skip).take (w - skip * 2) := by
  have hmin : min (w - skip * 2) (w - skip) = w - skip * 2 := by omega
  rw [← take_drop_flatten h hi, List.drop_take, List.take_take, hmin, List.drop_drop]

end ConfdDemos
