import Mathlib.Data.List.Chain
import Mathlib.Data.List.Nodup
import ConfdDemos.Foundation.Cursor
import ConfdDemos.Foundation.Decimal
import ConfdDemos.Foundation.Dict

/-!
# The route provider

The adapter comes with a provider of routes to try it on. The routes are made once and kept in a
dictionary by their ids, which are numbered, with or without a random number in front. `cb_get_next`
gives them out in the order of the dictionary, in which they have been made.

## Key order

ConfD takes it that the keys of a list come in their order, which is that of texts, unless the model
says otherwise, and this one does not. Numbers as texts go up only to the next power of ten, and
random numbers do as they like. `place` is the order of the random numbers as texts with a letter
behind them: `100`, `10` to `19`, `1`, `20` to `29`, `2` and so on.
-/

namespace ConfdDemos.Gnmi.Routes

/-- What `randint(1, 100)` returns. -/
abbrev Draw := {d : ℕ // 1 ≤ d ∧ d ≤ 100}

structure Route where
  id : List Char
  leaf1 : ℕ
  leaf2 : ℕ
  leaf3 : ℕ
  leaf4 : ℕ

/-- The id of a route, with a random number or without. -/
def rtid (draws : Option (ℕ → Draw)) (i : ℕ) : List Char :=
  (draws.elim [] fun draws ↦ Nat.toDigits 10 (draws i)) ++ 'r' :: 't' :: Nat.toDigits 10 i

def route (draws : Option (ℕ → Draw)) (i : ℕ) : Route :=
  ⟨rtid draws i, i * 2, i * 3, i * 4, i * 5⟩

/-- The numbers of the routes, `range(1, num)`. -/
def numbers (num : ℕ) : List ℕ := List.range' 1 (num - 1)

def fillRoutes (num : ℕ) (draws : Option (ℕ → Draw)) : List (List Char × Route) :=
  (numbers num).foldl (fun routes i ↦ Dict.set (route draws i).id (route draws i) routes) []

/-- The keys in a reply, and the index for the next request. Without routes the assertion fails. -/
def cbGetNext (routes : List (List Char × Route)) (nextIdx : ℤ) :
    Option (List (List Char) × Option ℤ) :=
  if routes = [] then none
  else
    let nextIdx := if nextIdx = -1 then 0 else nextIdx
    if (routes.length : ℤ) ≤ nextIdx then some ([], none)
    else
      (routes.map Prod.fst)[nextIdx.toNat]?.bind fun key ↦
        (Dict.get? key routes).map fun route ↦ ([route.id], some (nextIdx + 1))

/-- The replies, as long as there is one. -/
def replies (routes : List (List Char × Route)) (nextIdx : ℤ) : List (List Char) × Option ℤ :=
  (cbGetNext routes nextIdx).getD ([], none)

/-- Each id is given out once and in the order of texts, and then the end. -/
structure InKeyOrder (routes : List (List Char × Route)) (ids keys : List (List Char)) : Prop where
  nonempty : routes ≠ []
  collects : Collects (replies routes) (-1) keys
  all : keys.Perm ids
  increasing : keys.Pairwise (· < ·)

/-- The order of the random numbers. -/
def place (d : ℕ) : ℕ := if d = 100 then 19 else if 10 ≤ d then 2 * d else 20 * d + 19

/-- When the ids go up: without random numbers up to the tenth, else from each number to the next
one greater in its place, or the same if the number of the route does not get longer. -/
def GoesUp (num : ℕ) : Option (ℕ → Draw) → Prop
  | none => num ≤ 10
  | some draws => ∀ i, 1 ≤ i → i + 1 < num → place (draws i) < place (draws (i + 1)) ∨
      draws i = draws (i + 1) ∧ ∀ k, i + 1 ≠ 10 ^ k

/-! ## The dictionary -/

variable {draws : Option (ℕ → Draw)} {num : ℕ}

theorem rtid_injective (draws : Option (ℕ → Draw)) : Function.Injective (rtid draws) := by
  intro i j h
  refine Decimal.eq_of_append_toDigits (c := 'r') (t := ['t']) (by decide) ?_ (by decide) h
  rcases draws with - | draws
  · exact List.not_mem_nil
  · exact Decimal.notMem_toDigits (by decide) _

theorem fillRoutes_eq (num : ℕ) (draws : Option (ℕ → Draw)) :
    fillRoutes num draws = (numbers num).map fun i ↦ (rtid draws i, route draws i) := by
  have hnodup : (([] : List (List Char × Route)).map Prod.fst ++
      (numbers num).map (rtid draws)).Nodup :=
    List.Nodup.map (rtid_injective draws) List.nodup_range'
  exact Dict.foldl_set (rtid draws) (route draws) hnodup

theorem getElem?_fillRoutes {p : ℕ} (hp : p < num - 1) :
    ((fillRoutes num draws).map Prod.fst)[p]? = some (rtid draws (1 + p)) := by
  rw [fillRoutes_eq, numbers, List.map_map, List.getElem?_map, List.getElem?_range' hp]
  simp

theorem get?_fillRoutes {p : ℕ} (hp : p < num - 1) :
    Dict.get? (rtid draws (1 + p)) (fillRoutes num draws) = some (route draws (1 + p)) := by
  rw [fillRoutes_eq]
  refine Dict.get?_eq_some_of_mem (List.mem_map.mpr ⟨1 + p, ?_, rfl⟩) fun q hq hkey ↦ ?_
  · rw [numbers, List.mem_range'_1]
    omega
  · obtain ⟨i, -, rfl⟩ := List.mem_map.mp hq
    rw [rtid_injective draws hkey]

/-- The ids are given out in the order of their numbers. -/
theorem collects_replies (hnum : 2 ≤ num) (draws : Option (ℕ → Draw)) :
    Collects (replies (fillRoutes num draws)) (-1) ((numbers num).map (rtid draws)) := by
  have hlength : (fillRoutes num draws).length = num - 1 := by
    rw [fillRoutes_eq, List.length_map, numbers, List.length_range']
  have hne : fillRoutes num draws ≠ [] := by
    rw [← List.length_pos_iff, hlength]
    omega
  have hlength' : ((numbers num).map (rtid draws)).length = num - 1 := by
    rw [List.length_map, numbers, List.length_range']
  refine Collects.of_each _ indexCursor (fun p hp ↦ ?_) ?_
  · have hp' : p < num - 1 := hlength' ▸ hp
    have hle : ¬ (num - 1 : ℕ) ≤ (p : ℤ) := by omega
    simp only [replies, cbGetNext, if_neg hne, index_indexCursor, hlength, if_neg hle,
      Int.toNat_natCast, getElem?_fillRoutes hp', Option.bind_some, get?_fillRoutes hp',
      Option.map_some, Option.getD_some, route, indexCursor_succ]
    simp [numbers]
  · simp only [hlength', replies, cbGetNext, if_neg hne, index_indexCursor, hlength, le_refl,
      if_true, Option.getD_some]

/-! ## The order of the ids -/

/-- A draw is written with one, two or three digits. -/
theorem toDigits_draw {d : ℕ} (hpos : 1 ≤ d) (hle : d ≤ 100) :
    (d < 10 ∧ Nat.toDigits 10 d = [d.digitChar]) ∨
      (10 ≤ d ∧ d < 100 ∧ Nat.toDigits 10 d = [(d / 10).digitChar, (d % 10).digitChar]) ∨
      d = 100 ∧ Nat.toDigits 10 d = [Nat.digitChar 1, Nat.digitChar 0, Nat.digitChar 0] := by
  by_cases hone : d < 10
  · exact .inl ⟨hone, Nat.toDigits_of_lt_base hone⟩
  · by_cases htwo : d < 100
    · refine .inr (.inl ⟨by omega, htwo, ?_⟩)
      have hd : 10 * (d / 10) + d % 10 = d := Nat.div_add_mod d 10
      have hlt : d / 10 < 10 := by omega
      have hstep := Decimal.toDigits_step (q := d / 10) (r := d % 10) (by omega) (by omega)
      rw [hd, Nat.toDigits_of_lt_base hlt] at hstep
      exact hstep
    · obtain rfl : d = 100 := by omega
      exact .inr (.inr ⟨rfl, rfl⟩)

theorem digitChar_lt_r {a : ℕ} (ha : a < 10) : a.digitChar < 'r' := by
  have hnat : a.digitChar.toNat < 'r'.toNat := by
    rw [Nat.toNat_digitChar_of_lt_ten ha]
    change 48 + a < 114
    omega
  exact Char.lt_def.mpr (UInt32.lt_iff_toNat_lt.mpr hnat)

/-- The texts of draws with a letter behind them are in the order of their places. -/
theorem toDigits_append_lt_iff {d d' : ℕ} (hpos : 1 ≤ d) (hle : d ≤ 100) (hpos' : 1 ≤ d')
    (hle' : d' ≤ 100) :
    Nat.toDigits 10 d ++ ['r'] < Nat.toDigits 10 d' ++ ['r'] ↔ place d < place d' := by
  rcases eq_or_ne d d' with rfl | hne
  · simp
  have hr : ∀ {a}, a < 10 → ¬ 'r' < a.digitChar := fun ha ↦ (digitChar_lt_r ha).not_gt
  have hr' : ∀ {a}, a < 10 → a.digitChar ≠ 'r' := fun ha ↦ (digitChar_lt_r ha).ne
  have hr'' : ∀ {a}, a < 10 → 'r' ≠ a.digitChar := fun ha ↦ (digitChar_lt_r ha).ne'
  have hinj : ∀ {a b}, a < 10 → b < 10 → (a.digitChar = b.digitChar ↔ a = b) := by
    intro a b ha hb
    refine ⟨fun h ↦ ?_, congrArg _⟩
    have hlt := Decimal.digitChar_lt_iff ha hb
    have hgt := Decimal.digitChar_lt_iff hb ha
    rw [h, lt_self_iff_false, false_iff] at hlt hgt
    omega
  have hten : ∀ {a}, a < 100 → a / 10 < 10 := fun ha ↦ by omega
  have hmod : ∀ a, a % 10 < 10 := fun a ↦ Nat.mod_lt a (by decide)
  rcases toDigits_draw hpos hle with ⟨hd, h⟩ | ⟨hd₁, hd, h⟩ | ⟨hd, h⟩ <;>
  rcases toDigits_draw hpos' hle' with ⟨hd', h'⟩ | ⟨hd₁', hd', h'⟩ | ⟨hd', h'⟩ <;>
  rw [h, h'] <;>
  simp (disch := first | assumption | omega) only [List.cons_append, List.nil_append,
    List.cons_lt_cons_iff, List.not_lt_nil, hr, hr', hr'', digitChar_lt_r, hinj,
    Decimal.digitChar_lt_iff, place, lt_self_iff_false, or_false, and_true, false_and,
    and_false] <;>
  split_ifs <;>
  omega

/-- From one route to the next. -/
theorem rtid_lt_rtid_iff {i : ℕ} (hi : 1 ≤ i) : rtid draws i < rtid draws (i + 1) ↔
    draws.elim False (fun draws ↦ place (draws i) < place (draws (i + 1))) ∨
      draws.elim True (fun draws ↦ draws i = draws (i + 1)) ∧ ∀ k, i + 1 ≠ 10 ^ k := by
  have hnumber : 't' :: Nat.toDigits 10 i < 't' :: Nat.toDigits 10 (i + 1) ↔
      ∀ k, i + 1 ≠ 10 ^ k := by
    rw [← Decimal.toDigits_lt_succ_iff hi, List.cons_lt_cons_iff]
    simp
  rcases draws with - | draws
  · rw [rtid, rtid, Option.elim_none, Option.elim_none, List.nil_append, List.nil_append]
    rw [List.cons_lt_cons_iff, hnumber]
    simp
  · have hsame : Nat.toDigits 10 (draws i) = Nat.toDigits 10 (draws (i + 1)) ↔
        draws i = draws (i + 1) :=
      Decimal.toDigits_injective.eq_iff.trans Subtype.val_inj
    rw [rtid, rtid, Option.elim_some, Option.elim_some,
      Decimal.append_cons_lt_iff (Decimal.notMem_toDigits (by decide) _)
        (Decimal.notMem_toDigits (by decide) _), hnumber, hsame,
      toDigits_append_lt_iff (draws i).2.1 (draws i).2.2 (draws (i + 1)).2.1 (draws (i + 1)).2.2,
      Option.elim_some, Option.elim_some]

/-- It is enough to compare each route with the next one. -/
theorem pairwise_rtid_iff : ((numbers num).map (rtid draws)).Pairwise (· < ·) ↔
    ∀ i, 1 ≤ i → i + 1 < num → rtid draws i < rtid draws (i + 1) := by
  rw [← List.isChain_iff_pairwise, List.isChain_map, numbers, List.isChain_iff_getElem]
  simp only [List.length_range', List.getElem_range', Nat.one_mul]
  constructor
  · intro h i hi hnum
    have hstep := h (i - 1) (by omega)
    rwa [show 1 + (i - 1) = i by omega, show 1 + (i - 1 + 1) = i + 1 by omega] at hstep
  · intro h i hi
    have hstep := h (1 + i) (by omega) (by omega)
    rwa [Nat.add_assoc] at hstep

theorem goesUp_iff : GoesUp num draws ↔
    ∀ i, 1 ≤ i → i + 1 < num → rtid draws i < rtid draws (i + 1) := by
  rcases draws with - | draws
  · rw [GoesUp]
    constructor
    · intro hnum i hi hlt
      rw [rtid_lt_rtid_iff hi]
      refine .inr ⟨trivial, fun k hk ↦ ?_⟩
      rcases k with - | k
      · rw [pow_zero] at hk
        omega
      · have hpos : 0 < 10 ^ k := Nat.pow_pos (by decide)
        rw [pow_succ] at hk
        omega
    · intro h
      by_contra hnum
      have hstep := (rtid_lt_rtid_iff (by decide)).mp (h 9 (by decide) (by omega))
      exact hstep.elim id fun hstep ↦ hstep.2 1 rfl
  · refine forall_congr' fun i ↦ forall_congr' fun hi ↦ forall_congr' fun _ ↦ ?_
    rw [rtid_lt_rtid_iff hi, Option.elim_some, Option.elim_some]

/-- All routes are given out, each once, in the order of their ids, if and only if the ids go up
from each route to the next. -/
theorem inKeyOrder_iff (hnum : 2 ≤ num) (draws : Option (ℕ → Draw)) :
    (∃ keys, InKeyOrder (fillRoutes num draws) ((numbers num).map (rtid draws)) keys) ↔
      GoesUp num draws := by
  have hcollects := collects_replies hnum draws
  rw [goesUp_iff, ← pairwise_rtid_iff]
  constructor
  · rintro ⟨keys, h⟩
    rw [hcollects.unique h.collects]
    exact h.increasing
  · intro h
    refine ⟨_, ?_, hcollects, List.Perm.refl _, h⟩
    rw [fillRoutes_eq, Ne, List.map_eq_nil_iff, numbers, List.range'_eq_nil_iff]
    omega

theorem inKeyOrder_three : 2 ≤ 3 ∧
    ((∃ keys, InKeyOrder (fillRoutes 3 none) ((numbers 3).map (rtid none)) keys) ↔
      GoesUp 3 none) :=
  ⟨by decide, inKeyOrder_iff (by decide) none⟩

/-- With ten routes the last one is out of order. -/
theorem inKeyOrder_fails :
    ¬ ∃ keys, InKeyOrder (fillRoutes 11 none) ((numbers 11).map (rtid none)) keys := by
  rintro ⟨keys, h⟩
  obtain rfl := h.collects.unique (collects_replies (by decide) none)
  exact absurd h.increasing (by decide)

end ConfdDemos.Gnmi.Routes
