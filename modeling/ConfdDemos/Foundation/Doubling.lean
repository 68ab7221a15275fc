import Mathlib.Algebra.Order.Floor.Div
import Mathlib.Data.Nat.Log

/-!
# Buffers that are doubled at checkpoints

A buffer begins with `base` cells. At a checkpoint it is doubled if more than half of it is in use.
Nothing is looked at between two checkpoints, so how large the buffer is depends on the furthest
checkpoint only: `capacity base e` is the size after a checkpoint at `e`, if all that was written
until then had room.
-/

namespace ConfdDemos.Doubling

/-- The least size that is at least twice `e`. -/
def capacity (base e : ℕ) : ℕ := base * 2 ^ Nat.clog 2 (2 * e ⌈/⌉ base)

variable {base e j d : ℕ}

theorem capacity_le_iff (hbase : 0 < base) :
    capacity base e ≤ base * 2 ^ d ↔ 2 * e ≤ base * 2 ^ d := by
  rw [capacity, Nat.mul_le_mul_left_iff hbase, Nat.pow_le_pow_iff_right Nat.one_lt_two,
    Nat.clog_le_iff_le_pow Nat.one_lt_two, ceilDiv_le_iff_le_mul hbase]

theorem exists_capacity_eq (base e : ℕ) : ∃ d, capacity base e = base * 2 ^ d := ⟨_, rfl⟩

theorem two_mul_le_capacity (hbase : 0 < base) (e : ℕ) : 2 * e ≤ capacity base e := by
  obtain ⟨d, hd⟩ := exists_capacity_eq base e
  rw [hd]
  exact (capacity_le_iff hbase).mp hd.le

theorem capacity_mono (hbase : 0 < base) (h : e ≤ j) : capacity base e ≤ capacity base j := by
  obtain ⟨d, hd⟩ := exists_capacity_eq base j
  rw [hd, capacity_le_iff hbase, ← hd]
  exact (Nat.mul_le_mul_left 2 h).trans (two_mul_le_capacity hbase j)

theorem capacity_zero (base : ℕ) : capacity base 0 = base := by
  rw [capacity, Nat.mul_zero, zero_ceilDiv, Nat.clog_zero_right, Nat.pow_zero, Nat.mul_one]

/-- Half of the buffer is free behind the checkpoint. -/
theorem capacity_max_of_le (hbase : 0 < base) (h : 2 * j ≤ capacity base e) :
    capacity base (max e j) = capacity base e := by
  refine le_antisymm ?_ (capacity_mono hbase (le_max_left e j))
  obtain ⟨d, hd⟩ := exists_capacity_eq base e
  have hmax : 2 * max e j ≤ capacity base e := by
    have := two_mul_le_capacity hbase e
    omega
  rw [hd] at hmax ⊢
  exact (capacity_le_iff hbase).mpr hmax

/-- More than half of the buffer is in use at the checkpoint. -/
theorem capacity_max_of_lt (hbase : 0 < base) (h : capacity base e < 2 * j)
    (hj : j ≤ capacity base e) : capacity base (max e j) = 2 * capacity base e := by
  have htwo := two_mul_le_capacity hbase e
  rw [max_eq_right (by omega)]
  obtain ⟨d, hd⟩ := exists_capacity_eq base e
  obtain ⟨d', hd'⟩ := exists_capacity_eq base j
  have hdouble : 2 * (base * 2 ^ d) = base * 2 ^ (d + 1) := by
    rw [Nat.pow_succ, Nat.mul_left_comm, Nat.mul_comm 2]
  rw [hd] at h hj ⊢
  have hle : base * 2 ^ d' ≤ base * 2 ^ (d + 1) := by
    rw [← hd', capacity_le_iff hbase, ← hdouble]
    omega
  have hlt : ¬base * 2 ^ d' ≤ base * 2 ^ d := by
    rw [← hd', capacity_le_iff hbase]
    omega
  rw [Nat.mul_le_mul_left_iff hbase, Nat.pow_le_pow_iff_right Nat.one_lt_two] at hle hlt
  obtain rfl : d' = d + 1 := by omega
  rw [hd', hdouble]

end ConfdDemos.Doubling
