import Mathlib.Algebra.Group.Nat.Even
import Mathlib.Data.Char
import Mathlib.Data.List.Lex
import Mathlib.Order.Lattice

/-!
# Numbers as texts

Texts are compared letter by letter, so numbers that are written in decimal are in another order
than as numbers: `10` comes before `9`. From one number to the next the texts go up, except at a
power of ten, where they get longer (`toDigits_lt_succ_iff`).

## Texts with a separator

Where a letter ends the first part of two texts, the first parts decide, and only if they are the
same the rest does (`append_cons_lt_iff`).
-/

namespace ConfdDemos.Decimal

section Lex

variable {α : Type*} [LinearOrder α] {a b x y : List α} {sep : α}

/-- Texts of the same length are compared before what follows them. -/
theorem append_lt_append_of_lt (hlength : a.length = b.length) (h : a < b) (x y : List α) :
    a ++ x < b ++ y := by
  induction a generalizing b with
  | nil =>
    rw [List.length_eq_zero_iff.mp hlength.symm] at h
    exact absurd h (lt_irrefl _)
  | cons c a ih =>
    rcases b with - | ⟨d, b⟩
    · exact absurd hlength (Nat.succ_ne_zero _)
    · rw [List.cons_append, List.cons_append, List.cons_lt_cons_iff]
      exact (List.cons_lt_cons_iff.mp h).imp_right fun h ↦ ⟨h.1, ih (Nat.succ.inj hlength) h.2⟩

theorem append_cons_lt_iff (ha : sep ∉ a) (hb : sep ∉ b) :
    a ++ sep :: x < b ++ sep :: y ↔ a ++ [sep] < b ++ [sep] ∨ a = b ∧ x < y := by
  induction a generalizing b with
  | nil =>
    rcases b with - | ⟨d, b⟩
    · simp
    · have hd : sep ≠ d := fun h ↦ hb (h ▸ List.mem_cons_self)
      simp [List.cons_lt_cons_iff, hd]
  | cons c a ih =>
    rw [List.mem_cons, not_or] at ha
    rcases b with - | ⟨d, b⟩
    · simp [List.cons_lt_cons_iff, Ne.symm ha.1]
    · rw [List.mem_cons, not_or] at hb
      simp only [List.cons_append, List.cons_lt_cons_iff, List.cons.injEq, ih ha.2 hb.2]
      tauto

end Lex

/-! ## Decimals -/

variable {m n : ℕ}

theorem toDigits_injective : Function.Injective (Nat.toDigits 10) :=
  Function.LeftInverse.injective (g := fun l ↦ Nat.ofDigitChars 10 l 0)
    fun _ ↦ Nat.ofDigitChars_ten_toDigits

theorem notMem_toDigits {c : Char} (hc : c.isDigit = false) (n : ℕ) : c ∉ Nat.toDigits 10 n := by
  intro h
  rw [Nat.isDigit_of_mem_toDigits (by decide) (by decide) h] at hc
  exact Bool.noConfusion hc

/-- The number at the end of a text, behind a letter that is nowhere else. -/
theorem eq_of_append_toDigits {c : Char} (hc : c.isDigit = false) {a b t : List Char} (ha : c ∉ a)
    (ht : c ∉ t) (h : a ++ c :: (t ++ Nat.toDigits 10 m) = b ++ c :: (t ++ Nat.toDigits 10 n)) :
    m = n := by
  have hrest : c ∉ t ++ Nat.toDigits 10 m := by
    rw [List.mem_append, not_or]
    exact ⟨ht, notMem_toDigits hc m⟩
  have hnumber := ((List.append_cons_inj_of_notMem ha hrest).mp h).2.2
  exact toDigits_injective (List.append_cancel_left hnumber)

theorem toDigits_step {q r : ℕ} (hq : 0 < q) (hr : r < 10) :
    Nat.toDigits 10 (10 * q + r) = Nat.toDigits 10 q ++ [r.digitChar] := by
  rw [← Nat.toDigits_append_toDigits (by decide) hq hr, Nat.toDigits_of_lt_base hr]

theorem digitChar_lt_iff (hm : m < 10) (hn : n < 10) : m.digitChar < n.digitChar ↔ m < n := by
  have hlt : m.digitChar < n.digitChar ↔ m.digitChar.toNat < n.digitChar.toNat := by
    rw [Char.lt_def, UInt32.lt_iff_toNat_lt]
    rfl
  rw [hlt, Nat.toNat_digitChar_of_lt_ten hm, Nat.toNat_digitChar_of_lt_ten hn]
  omega

/-- Up to the next power of ten the texts keep their length and go up. -/
theorem toDigits_lt_succ (hn : 0 < n) (hpow : ∀ k, n + 1 ≠ 10 ^ k) :
    (Nat.toDigits 10 n).length = (Nat.toDigits 10 (n + 1)).length ∧
      Nat.toDigits 10 n < Nat.toDigits 10 (n + 1) := by
  induction n using Nat.strongRecOn with
  | ind n ih =>
    obtain ⟨q, r, hr, rfl⟩ : ∃ q r, r < 10 ∧ n = 10 * q + r :=
      ⟨n / 10, n % 10, Nat.mod_lt n (by decide), (Nat.div_add_mod n 10).symm⟩
    rcases Nat.lt_or_eq_of_le (Nat.le_of_lt_succ hr) with hr' | rfl
    · -- the last digit goes up
      have hdigit : r.digitChar < (r + 1).digitChar :=
        (digitChar_lt_iff hr (by omega)).mpr (Nat.lt_succ_self r)
      rcases Nat.eq_zero_or_pos q with rfl | hq
      · rw [Nat.mul_zero, Nat.zero_add, Nat.toDigits_of_lt_base hr,
          Nat.toDigits_of_lt_base (by omega)]
        exact ⟨rfl, List.cons_lt_cons_iff.mpr (.inl hdigit)⟩
      · rw [Nat.add_assoc, toDigits_step hq hr, toDigits_step hq (by omega)]
        refine ⟨by rw [List.length_append, List.length_append]; rfl, ?_⟩
        exact List.append_left_lt (List.cons_lt_cons_iff.mpr (.inl hdigit))
    · -- the other digits go up, by induction
      rcases Nat.eq_zero_or_pos q with rfl | hq
      · exact absurd rfl (hpow 1)
      · have hnext : 10 * q + 9 + 1 = 10 * (q + 1) + 0 := by omega
        have hpow' : ∀ k, q + 1 ≠ 10 ^ k := by
          intro k hk
          refine hpow (k + 1) ?_
          rw [hnext, hk, pow_succ]
          omega
        obtain ⟨hlength, hlt⟩ := ih q (by omega) hq hpow'
        rw [hnext, toDigits_step hq (by decide), toDigits_step (Nat.succ_pos q) (by decide)]
        refine ⟨by rw [List.length_append, List.length_append, hlength]; rfl, ?_⟩
        exact append_lt_append_of_lt hlength hlt _ _

theorem head?_toDigits_pow (k : ℕ) : (Nat.toDigits 10 (10 ^ k)).head? = some '1' := by
  induction k with
  | zero => rfl
  | succ k ih =>
    have hpow : 10 ^ (k + 1) = 10 * 10 ^ k + 0 := by
      rw [pow_succ]
      omega
    rw [hpow, toDigits_step (Nat.pow_pos (by decide)) (by decide), List.head?_append, ih]
    rfl

theorem head?_toDigits_pred_pow (k : ℕ) :
    (Nat.toDigits 10 (10 ^ (k + 1) - 1)).head? = some '9' := by
  induction k with
  | zero => rfl
  | succ k ih =>
    have hpos : 0 < 10 ^ k := Nat.pow_pos (by decide)
    have hpow : 10 ^ (k + 1) = 10 * 10 ^ k := by rw [pow_succ, Nat.mul_comm]
    have hpow' : 10 ^ (k + 1 + 1) - 1 = 10 * (10 ^ (k + 1) - 1) + 9 := by
      rw [pow_succ _ (k + 1)]
      omega
    rw [hpow', toDigits_step (by omega) (by decide), List.head?_append, ih]
    rfl

/-- From one number to the next the texts go up except at a power of ten. -/
theorem toDigits_lt_succ_iff (hn : 0 < n) :
    Nat.toDigits 10 n < Nat.toDigits 10 (n + 1) ↔ ∀ k, n + 1 ≠ 10 ^ k := by
  refine ⟨fun hlt k hk ↦ ?_, fun hpow ↦ (toDigits_lt_succ hn hpow).2⟩
  rcases k with - | k
  · rw [pow_zero] at hk
    omega
  · have hhead := head?_toDigits_pred_pow k
    have hhead' := head?_toDigits_pow (k + 1)
    rw [← hk, Nat.add_sub_cancel] at hhead
    rw [← hk] at hhead'
    obtain ⟨t, ht⟩ := List.head?_eq_some_iff.mp hhead
    obtain ⟨t', ht'⟩ := List.head?_eq_some_iff.mp hhead'
    rw [ht, ht', List.cons_lt_cons_iff] at hlt
    exact absurd hlt (by rintro (h | ⟨h, -⟩) <;> exact absurd h (by decide))

end ConfdDemos.Decimal
