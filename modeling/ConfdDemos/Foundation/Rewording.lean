import Mathlib.Data.List.Infix
import Mathlib.Data.Fintype.Basic

/-!
# Texts in several wordings

A text is laid out as letters and words, and a wording says how the words are written. Replacing
one word by another everywhere in the text then takes one wording to the next, as long as no
occurrence crosses the border of a word: `Replaces.render`. What crosses a border begins or ends
inside of a word, so it is enough to compare the tails of the words with the word that is replaced,
and these are finitely many.

What happens to a word can depend on what is behind it. `Rewords` is for a word that is followed by
a given text, or by anything, and `Replaces.append_of_not` for one that would be replaced only if a
given text followed.
-/

namespace ConfdDemos.Rewording

variable {α κ : Type*}

/-! ## Replacing -/

/-- `f` replaces `old` by `new`, from left to right. -/
structure Replaces (old new : List α) (f : List α → List α) : Prop where
  ne_nil : old ≠ []
  nil : f [] = []
  hit (t : List α) : f (old ++ t) = new ++ f t
  miss {c : α} {t : List α} : ¬old <+: c :: t → f (c :: t) = c :: f t

/-- One of the two begins with the other. -/
def Meets (u v : List α) : Prop := u <+: v ∨ v <+: u

/-- No occurrence of `old` begins in `v`, whatever follows. -/
def Quiet (old v : List α) : Prop := ∀ u ∈ v.tails, u ≠ [] → ¬Meets u old

/-- No occurrence of `old` begins in `v` and ends behind it. -/
def Settles (old v : List α) : Prop := ∀ u ∈ v.tails, u ≠ [] → Meets u old → old <+: u

/-- With `q` behind it, `v` becomes `v'`, and this does not depend on what follows. -/
def Rewords (old : List α) (f : List α → List α) (v v' q : List α) : Prop :=
  Settles old (v ++ q) ∧ f (v ++ q) = v' ++ q ∧ Quiet old q

section Decidable

variable [DecidableEq α] {old u v v' q : List α} {f : List α → List α}

instance : Decidable (Meets u v) := inferInstanceAs (Decidable (_ ∨ _))

instance : Decidable (Quiet old v) := inferInstanceAs (Decidable (∀ u ∈ v.tails, _))

instance : Decidable (Settles old v) := inferInstanceAs (Decidable (∀ u ∈ v.tails, _))

instance : Decidable (Rewords old f v v' q) := inferInstanceAs (Decidable (_ ∧ _))

end Decidable

section Replaces

variable {old new u v v' e q t : List α} {f : List α → List α}

theorem meets_of_prefix_append (h : old <+: u ++ t) : Meets u old :=
  List.prefix_or_prefix_of_prefix (List.prefix_append u t) h

theorem Settles.of_suffix (h : Settles old v) (hu : u <:+ v) : Settles old u :=
  fun w hw ↦ h w ((List.mem_tails _ _).mpr (((List.mem_tails _ _).mp hw).trans hu))

theorem Quiet.of_suffix (h : Quiet old v) (hu : u <:+ v) : Quiet old u :=
  fun w hw ↦ h w ((List.mem_tails _ _).mpr (((List.mem_tails _ _).mp hw).trans hu))

namespace Replaces

theorem append (hf : Replaces old new f)
    (h : ∀ u, u <:+ v → u ≠ [] → ¬old <+: u ++ t) : f (v ++ t) = v ++ f t := by
  induction v with
  | nil => rfl
  | cons c v ih =>
    have hmiss : ¬old <+: c :: (v ++ t) := h (c :: v) List.suffix_rfl (List.cons_ne_nil c v)
    have hv := ih fun u hu ↦ h u (hu.trans (List.suffix_cons c v))
    rw [List.cons_append, hf.miss hmiss, hv, List.cons_append]

theorem quiet (hf : Replaces old new f) (h : Quiet old v) : f (v ++ t) = v ++ f t :=
  hf.append fun u hu hne hold ↦
    h u ((List.mem_tails _ _).mpr hu) hne (meets_of_prefix_append hold)

/-- An occurrence that begins in `v` would have to end with `e`. -/
theorem append_of_not (hf : Replaces old new f)
    (h : ∀ u ∈ v.tails, u ≠ [] → Meets u old → old = u ++ e) (he : ¬e <+: t) :
    f (v ++ t) = v ++ f t := by
  refine hf.append fun u hu hne hold ↦ he ?_
  have heq := h u ((List.mem_tails _ _).mpr hu) hne (meets_of_prefix_append hold)
  rw [heq] at hold
  exact (List.prefix_append_right_inj u).mp hold

theorem settle (hf : Replaces old new f) (h : Settles old v) : f (v ++ t) = f v ++ f t := by
  -- a hit skips the whole of `old`, so the induction is on the length
  induction hn : v.length using Nat.strong_induction_on generalizing v with
  | _ n ih =>
    rcases v with - | ⟨c, v⟩
    · rw [List.nil_append, hf.nil, List.nil_append]
    by_cases hold : old <+: c :: v
    · obtain ⟨z, hz⟩ := hold
      have hlt : z.length < n := by
        have hpos := List.length_pos_iff.mpr hf.ne_nil
        rw [← hn, ← hz, List.length_append]
        omega
      have hsettle := ih z.length hlt (h.of_suffix ⟨old, hz⟩) rfl
      rw [← hz, List.append_assoc, hf.hit, hf.hit, hsettle, List.append_assoc]
    · have hmiss : ¬old <+: c :: (v ++ t) := fun hold' ↦
        hold (h _ List.mem_cons_self (List.cons_ne_nil c v) (meets_of_prefix_append hold'))
      have hlt : v.length < n := hn ▸ Nat.lt_succ_self v.length
      have hsettle := ih v.length hlt (h.of_suffix (List.suffix_cons c v)) rfl
      rw [List.cons_append, hf.miss hmiss, hf.miss hold, hsettle, List.cons_append]

theorem reword (hf : Replaces old new f) (h : Rewords old f v v' q) (hq : q <+: t) :
    f (v ++ t) = v' ++ f t := by
  obtain ⟨hsettles, hv, hquiet⟩ := h
  obtain ⟨t, rfl⟩ := hq
  rw [← List.append_assoc, hf.settle hsettles, hv, hf.quiet hquiet, List.append_assoc]

end Replaces

end Replaces

/-! ## Wordings -/

inductive Piece (α κ : Type*)
  | letter (c : α)
  | word (k : κ)

def render (r : κ → List α) : List (Piece α κ) → List α
  | [] => []
  | .letter c :: ps => c :: render r ps
  | .word k :: ps => r k ++ render r ps

/-- Every piece fits to the text behind it in the wording `r`. -/
def Laid (fits : Piece α κ → List α → Prop) (r : κ → List α) : List (Piece α κ) → Prop
  | [] => True
  | p :: ps => fits p (render r ps) ∧ Laid fits r ps

/-- Where `w` runs into a word of `r`, the word of `r'` goes on with all of it. -/
def Steady (r r' : κ → List α) (w : List α) : Prop :=
  ∀ u ∈ w.tails, u ≠ [] → ∀ k, Meets u (r k) → u <+: r' k

instance [DecidableEq α] [Fintype κ] {r r' : κ → List α} {w : List α} : Decidable (Steady r r' w) :=
  inferInstanceAs (Decidable (∀ u ∈ w.tails, _))

section Render

variable {r r' r₀ : κ → List α} {fits : Piece α κ → List α → Prop} {ps ps' : List (Piece α κ)}
  {old new u w y : List α} {f : List α → List α}

theorem Laid.of_suffix (h : Laid fits r ps) (hps : ps' <:+ ps) : Laid fits r ps' := by
  induction ps with
  | nil =>
    rw [List.suffix_nil.mp hps]
    trivial
  | cons p ps ih =>
    rcases List.suffix_cons_iff.mp hps with rfl | hps
    · exact h
    · exact ih h.2 hps

theorem render_letters (w : List α) (ps : List (Piece α κ)) :
    render r (w.map .letter ++ ps) = w ++ render r ps := by
  induction w with
  | nil => rfl
  | cons c w ih => rw [List.map_cons, List.cons_append, render, ih, List.cons_append]

theorem render_suffix_render (h : ps' <:+ ps) : render r ps' <:+ render r ps := by
  induction ps with
  | nil => rw [List.suffix_nil.mp h]
  | cons p ps ih =>
    rcases List.suffix_cons_iff.mp h with rfl | hps
    · exact List.suffix_rfl
    rcases p with c | k
    · exact (ih hps).trans (List.suffix_cons c _)
    · exact (ih hps).trans (List.suffix_append (r k) _)

theorem prefix_render (h : Steady r r' w) (hw : w <+: render r ps) : w <+: render r' ps := by
  induction ps generalizing w with
  | nil => exact hw
  | cons p ps ih =>
    rcases w with - | ⟨d, w⟩
    · exact List.nil_prefix
    rcases p with c | k
    · rw [render, List.cons_prefix_cons] at hw ⊢
      exact ⟨hw.1, ih (fun u hu ↦ h u (List.mem_cons_of_mem _ hu)) hw.2⟩
    · have hmeets := (meets_of_prefix_append hw).symm
      exact (h _ List.mem_cons_self (List.cons_ne_nil d w) k hmeets).trans (List.prefix_append _ _)

/-- What runs into no word is written in letters. -/
theorem eq_letters_append (h : ∀ k, Quiet (r k) w) (hw : w <+: render r ps) :
    ∃ ps', ps = w.map .letter ++ ps' := by
  induction w generalizing ps with
  | nil => exact ⟨ps, rfl⟩
  | cons d w ih =>
    rcases ps with - | ⟨c | k, ps⟩
    · exact absurd (List.prefix_nil.mp hw) (List.cons_ne_nil d w)
    · rw [render, List.cons_prefix_cons] at hw
      obtain ⟨ps', rfl⟩ := ih (fun k ↦ (h k).of_suffix (List.suffix_cons d w)) hw.2
      exact ⟨ps', by rw [hw.1, List.map_cons, List.cons_append]⟩
    · have hmeets := (meets_of_prefix_append hw).symm
      exact absurd hmeets (h k _ List.mem_cons_self (List.cons_ne_nil d w))

/-- A place in the text is a place between pieces, or it is inside of a word. -/
theorem suffix_render (hy : y <:+ render r ps) :
    (∃ ps', ps' <:+ ps ∧ y = render r ps') ∨
      ∃ k ps' u, .word k :: ps' <:+ ps ∧ u <:+ r k ∧ u ≠ [] ∧ u ≠ r k ∧ y = u ++ render r ps' := by
  induction ps with
  | nil => exact .inl ⟨[], List.suffix_rfl, List.suffix_nil.mp hy⟩
  | cons p ps ih =>
    have hlater (h : y <:+ render r ps) : (∃ ps', ps' <:+ p :: ps ∧ y = render r ps') ∨
        ∃ k ps' u, .word k :: ps' <:+ p :: ps ∧ u <:+ r k ∧ u ≠ [] ∧ u ≠ r k ∧
          y = u ++ render r ps' :=
      (ih h).imp (fun ⟨ps', hps, heq⟩ ↦ ⟨ps', hps.trans (List.suffix_cons p ps), heq⟩)
        fun ⟨k, ps', u, hps, hu⟩ ↦ ⟨k, ps', u, hps.trans (List.suffix_cons p ps), hu⟩
    rcases p with c | k
    · rcases List.suffix_cons_iff.mp hy with rfl | hy
      · exact .inl ⟨_, List.suffix_rfl, rfl⟩
      · exact hlater hy
    · obtain ⟨a, ha⟩ := hy
      rcases List.append_eq_append_iff.mp ha with ⟨u, hu, rfl⟩ | ⟨b, rfl, hb⟩
      · by_cases hnil : u = []
        · rw [hnil]
          exact .inl ⟨ps, List.suffix_cons _ ps, rfl⟩
        by_cases hall : u = r k
        · rw [hall]
          exact .inl ⟨_, List.suffix_rfl, rfl⟩
        exact .inr ⟨k, ps, u, List.suffix_rfl, ⟨a, hu.symm⟩, hnil, hall, rfl⟩
      · exact hlater ⟨b, hb.symm⟩

/-- Two wordings of one text agree where the words do. -/
theorem render_eq_render_iff (h : ∀ k, r k = r' k ∨ ¬Meets (r k) (r' k)) :
    render r ps = render r' ps ↔ ∀ k, .word k ∈ ps → r k = r' k := by
  induction ps with
  | nil => simp [render]
  | cons p ps ih =>
    rcases p with c | k
    · rw [render, render, List.cons_inj_right, ih]
      simp
    · constructor
      · intro heq
        rw [render, render] at heq
        have hmeets : Meets (r k) (r' k) :=
          meets_of_prefix_append (heq ▸ List.prefix_append (r' k) (render r' ps))
        have hk := (h k).resolve_right (not_not_intro hmeets)
        rw [hk, List.append_cancel_left_eq, ih] at heq
        intro k' hk'
        rcases List.mem_cons.mp hk' with hk' | hk'
        · cases hk'
          exact hk
        · exact heq k' hk'
      · intro hall
        rw [render, render, hall k List.mem_cons_self,
          ih.mpr fun k' hk' ↦ hall k' (List.mem_cons_of_mem _ hk')]

/-- Replacing a word in the whole text, piece by piece. -/
theorem Replaces.render (hf : Replaces old new f) (hps : Laid fits r₀ ps)
    (hletter : ∀ c ps, Laid fits r₀ (.letter c :: ps) → ¬old <+: c :: render r ps)
    (hword : ∀ k ps, Laid fits r₀ (.word k :: ps) →
      f (r k ++ Rewording.render r ps) = r' k ++ f (Rewording.render r ps)) :
    f (Rewording.render r ps) = Rewording.render r' ps := by
  induction ps with
  | nil => exact hf.nil
  | cons p ps ih =>
    rcases p with c | k
    · rw [Rewording.render, hf.miss (hletter c ps hps), ih hps.2, Rewording.render]
    · rw [Rewording.render, hword k ps hps, ih hps.2, Rewording.render]

end Render

end ConfdDemos.Rewording
