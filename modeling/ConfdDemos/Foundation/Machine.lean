import Mathlib.Data.List.Basic

/-!
# Event-driven machines

A machine has a partial step function: an event that is not enabled in a state has no successor.
Interleavings of several threads, daemons or sessions are runs of one machine whose events say who
moves, so a statement about every interleaving is a statement about every reachable state.

## Runs under a side condition

`Reach M P s₀ s` holds when `s` is reached from `s₀` by steps that all satisfy `P` in the state in
which they are taken. The unrestricted notion is the case `P = fun _ _ ↦ True`; a condition on the
scheduler or on the environment is another `P`, stated on the state *before* the step.

## Streams of replies

A handler that runs to completion against an environment is the same kind of machine, driven by an
infinite stream of replies instead of a scheduler. `Machine.drive` runs it for a number of steps and
stays put once no step is enabled; `drive_halts` is the rule that combines an invariant with a
decreasing measure.
-/

namespace ConfdDemos

/-- A machine over states `σ` and events `ε`. -/
structure Machine (σ ε : Type*) where
  /-- The successor of a state under an event, if the event is enabled. -/
  step : σ → ε → Option σ

namespace Machine

variable {σ ε : Type*} (M : Machine σ ε)

/-! ## Finite runs -/

/-- The state after a list of events, if each is enabled in its turn. -/
def runFrom (s : σ) : List ε → Option σ
  | [] => some s
  | e :: es => (M.step s e).bind fun s' ↦ runFrom s' es

/-- The states reached from `s₀` by steps that satisfy `P` where they are taken. -/
inductive Reach (P : σ → ε → Prop) (s₀ : σ) : σ → Prop
  | refl : Reach P s₀ s₀
  | step {s s' : σ} {e : ε} : Reach P s₀ s → P s e → M.step s e = some s' → Reach P s₀ s'

/-- Every interleaving: the side condition is trivial. -/
abbrev Reachable (s₀ : σ) : σ → Prop := M.Reach (fun _ _ ↦ True) s₀

variable {M}

/-- **The invariant rule.** What holds initially and is kept by every admitted step holds in every
state reached. -/
theorem Reach.invariant {P : σ → ε → Prop} {s₀ s : σ} {I : σ → Prop} (h : M.Reach P s₀ s)
    (hinit : I s₀) (hstep : ∀ s e s', I s → P s e → M.step s e = some s' → I s') : I s := by
  induction h with
  | refl => exact hinit
  | step _ hP hs ih => exact hstep _ _ _ ih hP hs

theorem Reach.trans {P : σ → ε → Prop} {s₀ s₁ s₂ : σ} (h₁ : M.Reach P s₀ s₁)
    (h₂ : M.Reach P s₁ s₂) : M.Reach P s₀ s₂ := by
  induction h₂ with
  | refl => exact h₁
  | step _ hP hs ih => exact ih.step hP hs

/-- **Projection.** A part of the state that every step leaves alone or moves as a machine of its
own would is reached by that machine. -/
theorem Reach.project {τ δ : Type*} {N : Machine τ δ} {P : σ → ε → Prop} {Q : τ → δ → Prop}
    {s₀ s : σ} (f : σ → τ) (h : M.Reach P s₀ s)
    (hstep : ∀ s e s', P s e → M.step s e = some s' →
      f s' = f s ∨ ∃ e', Q (f s) e' ∧ N.step (f s) e' = some (f s')) :
    N.Reach Q (f s₀) (f s) := by
  induction h with
  | refl => exact Reach.refl
  | step _ hP hs ih =>
    rcases hstep _ _ _ hP hs with heq | ⟨e', hQ, hs'⟩
    · rw [heq]
      exact ih
    · exact ih.step hQ hs'

variable (M) in
/-- The machine that only takes the steps a decidable side condition admits, to execute runs under
it. -/
def restrict (P : σ → ε → Prop) [∀ s e, Decidable (P s e)] : Machine σ ε :=
  ⟨fun s e ↦ if P s e then M.step s e else none⟩

/-- An executed list of events is a run, so a concrete interleaving can be evaluated. -/
theorem reach_of_runFrom {P : σ → ε → Prop} [∀ s e, Decidable (P s e)] :
    ∀ {es : List ε} {s s' : σ}, (M.restrict P).runFrom s es = some s' → M.Reach P s s' := by
  intro es
  induction es with
  | nil =>
    intro s s' h
    rw [runFrom, Option.some_inj] at h
    exact h ▸ Reach.refl
  | cons e es ih =>
    intro s s' h
    rw [runFrom, Option.bind_eq_some_iff] at h
    obtain ⟨t, ht, hrest⟩ := h
    rw [restrict, Option.ite_none_right_eq_some] at ht
    exact (Reach.refl.step ht.1 ht.2).trans (ih hrest)

/-- A run whose final state passes a decidable test yields a state reached that passes it. -/
theorem exists_reach_of_any {P : σ → ε → Prop} [∀ s e, Decidable (P s e)] {s : σ} {es : List ε}
    {test : σ → Bool} (h : ((M.restrict P).runFrom s es).any test = true) :
    ∃ s', M.Reach P s s' ∧ test s' = true := by
  cases hrun : (M.restrict P).runFrom s es with
  | none => rw [hrun] at h; exact absurd h (by simp)
  | some s' =>
    rw [hrun, Option.any_some] at h
    exact ⟨s', reach_of_runFrom hrun, h⟩

/-- **The bound rule.** A machine whose every step keeps an invariant and lowers a measure takes no
more steps than the measure says, whatever the events are. -/
theorem length_add_le_of_runFrom {I : σ → Prop} {μ : σ → ℕ}
    (hstep : ∀ s e s', I s → M.step s e = some s' → I s' ∧ μ s' < μ s) {es : List ε} {s s' : σ}
    (hs : I s) (h : M.runFrom s es = some s') : I s' ∧ es.length + μ s' ≤ μ s := by
  induction es generalizing s with
  | nil =>
    obtain rfl := Option.some_inj.mp h
    exact ⟨hs, by simp⟩
  | cons e es ih =>
    rw [runFrom, Option.bind_eq_some_iff] at h
    obtain ⟨s₁, hs₁, h⟩ := h
    obtain ⟨hI, hlt⟩ := hstep s e s₁ hs hs₁
    obtain ⟨hI', hle⟩ := ih hI h
    refine ⟨hI', ?_⟩
    rw [List.length_cons]
    omega

section Count

variable (M) (P : σ → ε → Prop) [∀ s e, Decidable (P s e)]

/-- How many of the events satisfy `P` in the states in which they are taken. -/
def countFrom (s : σ) : List ε → ℕ
  | [] => 0
  | e :: es => (if P s e then 1 else 0) + (M.step s e).elim 0 fun s' ↦ countFrom s' es

variable {M P}

/-- **The bound rule for steps that count.** Where the steps that satisfy `P` lower a measure and
the others do not raise it, the measure bounds how many of them a run takes. The others may go on
for ever. -/
theorem countFrom_add_le_of_runFrom {I : σ → Prop} {μ : σ → ℕ}
    (hstep : ∀ s e s', I s → M.step s e = some s' →
      I s' ∧ (if P s e then 1 else 0) + μ s' ≤ μ s) {es : List ε} {s s' : σ} (hs : I s)
    (h : M.runFrom s es = some s') : I s' ∧ M.countFrom P s es + μ s' ≤ μ s := by
  induction es generalizing s with
  | nil =>
    obtain rfl := Option.some_inj.mp h
    exact ⟨hs, by simp [countFrom]⟩
  | cons e es ih =>
    rw [runFrom, Option.bind_eq_some_iff] at h
    obtain ⟨s₁, hs₁, h⟩ := h
    obtain ⟨hI, hle⟩ := hstep s e s₁ hs hs₁
    obtain ⟨hI', hle'⟩ := ih hI h
    refine ⟨hI', ?_⟩
    rw [countFrom, hs₁, Option.elim_some]
    omega

end Count

/-! ## Machines driven by a stream -/

variable (M)

/-- The state after `k` events of the stream `r`; a state with no enabled step is kept. -/
def drive (r : ℕ → ε) : ℕ → σ → σ
  | 0, s => s
  | k + 1, s => drive (fun i ↦ r (i + 1)) k ((M.step s (r 0)).getD s)

/-- No event is enabled. -/
def Halted (s : σ) : Prop := ∀ e, M.step s e = none

variable {M}

theorem drive_succ (r : ℕ → ε) (k : ℕ) (s : σ) :
    M.drive r (k + 1) s = M.drive (fun i ↦ r (i + 1)) k ((M.step s (r 0)).getD s) := rfl

/-- **The termination rule.** A machine whose every step keeps an invariant and lowers a measure,
and in which a state either halts or accepts every event, halts on every stream, in a state that
satisfies the invariant. -/
theorem drive_halts {I : σ → Prop} {μ : σ → ℕ}
    (hstep : ∀ s e s', I s → M.step s e = some s' → I s' ∧ μ s' < μ s)
    (htotal : ∀ s, I s → M.Halted s ∨ ∀ e, (M.step s e).isSome) :
    ∀ (n : ℕ) (r : ℕ → ε) {s : σ}, I s → μ s ≤ n →
      ∃ k, M.Halted (M.drive r k s) ∧ I (M.drive r k s) := by
  intro n
  induction n with
  | zero =>
    intro r s h hn
    rcases htotal s h with hhalt | hall
    · exact ⟨0, hhalt, h⟩
    · obtain ⟨s', hs⟩ := Option.isSome_iff_exists.mp (hall (r 0))
      have := (hstep s (r 0) s' h hs).2
      omega
  | succ n ih =>
    intro r s h hn
    rcases htotal s h with hhalt | hall
    · exact ⟨0, hhalt, h⟩
    · obtain ⟨s', hs⟩ := Option.isSome_iff_exists.mp (hall (r 0))
      obtain ⟨hI, hlt⟩ := hstep s (r 0) s' h hs
      obtain ⟨k, hk⟩ := ih (fun i ↦ r (i + 1)) hI (by omega)
      refine ⟨k + 1, ?_⟩
      rw [drive_succ, hs, Option.getD_some]
      exact hk

/-- A halted state is kept for ever. -/
theorem drive_of_halted {s : σ} (h : M.Halted s) : ∀ (k : ℕ) (r : ℕ → ε), M.drive r k s = s := by
  intro k
  induction k with
  | zero => intro r; rfl
  | succ k ih =>
    intro r
    rw [drive_succ, h (r 0), Option.getD_none]
    exact ih _

end Machine

end ConfdDemos
