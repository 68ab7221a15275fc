import Mathlib.Data.List.Infix

/-!
# Streams that arrive in pieces

A peer sends a stream, and the receiver gets it piece by piece. Each call returns some data, or
gives up because nothing came in time; when there is nothing left, the peer has closed the
connection.

A reader collects pieces until it has an answer, and `readUntil` is its loop. An answer that more
data can only extend does not depend on the pieces (`Stable`), so such a reader is a function of the
whole stream.

## Searching

`find` is the place of the first occurrence of a word in a text.
-/

namespace ConfdDemos

variable {α β : Type*}

/-- What one call returns. -/
inductive Arrival (α : Type*) where
  | data (x : List α) (hx : x ≠ [])
  /-- Nothing came in time. -/
  | timeout

/-- The data of a call. -/
def Arrival.items : Arrival α → List α
  | data x _ => x
  | timeout => []

/-- Data came in time. -/
def Arrival.Timely : Arrival α → Prop
  | data _ _ => True
  | timeout => False

/-- All that arrives. -/
def arrived (src : List (Arrival α)) : List α := src.flatMap Arrival.items

@[simp] theorem arrived_nil : arrived ([] : List (Arrival α)) = [] := rfl

@[simp] theorem arrived_data (x : List α) (hx : x ≠ []) (src : List (Arrival α)) :
    arrived (.data x hx :: src) = x ++ arrived src := rfl

@[simp] theorem arrived_timeout (src : List (Arrival α)) :
    arrived (.timeout :: src) = arrived src := rfl

theorem arrived_append (src tail : List (Arrival α)) :
    arrived (src ++ tail) = arrived src ++ arrived tail := List.flatMap_append

/-! ## Reading until there is an answer -/

/-- How a reader's loop ends. -/
inductive Reading (α β : Type*) where
  | done (b : β) (src : List (Arrival α))
  /-- The peer has closed, and this was read. -/
  | closed (acc : List α)
  /-- A call gave up after this was read. -/
  | late (acc : List α) (src : List (Arrival α))

/-- Pieces are collected until there is an answer. -/
def readUntil (answer : List α → Option β) (acc : List α) : List (Arrival α) → Reading α β
  | [] =>
    match answer acc with
    | some b => .done b []
    | none => .closed acc
  | a :: src =>
    match answer acc with
    | some b => .done b (a :: src)
    | none =>
      match a with
      | .data x _ => readUntil answer (acc ++ x) src
      | .timeout => .late acc src

section ReadUntil

variable {answer : List α → Option β} {acc acc' : List α} {src src' : List (Arrival α)} {b : β}

theorem readUntil_of_some (h : answer acc = some b) : readUntil answer acc src = .done b src := by
  cases src with
  | nil => simp only [readUntil, h]
  | cons a src => cases a <;> simp only [readUntil, h]

theorem readUntil_nil (h : answer acc = none) : readUntil answer acc [] = .closed acc := by
  simp only [readUntil, h]

theorem readUntil_data (h : answer acc = none) {x : List α} (hx : x ≠ []) :
    readUntil answer acc (.data x hx :: src) = readUntil answer (acc ++ x) src := by
  simp only [readUntil, h]

theorem readUntil_timeout (h : answer acc = none) :
    readUntil answer acc (.timeout :: src) = .late acc src := by
  simp only [readUntil, h]

/-- The answer is the one for what was read, and the rest is still to come. -/
theorem exists_of_readUntil_done (h : readUntil answer acc src = .done b src') :
    ∃ pre, src = pre ++ src' ∧ (∀ a ∈ pre, a.Timely) ∧ answer (acc ++ arrived pre) = some b := by
  induction src generalizing acc with
  | nil =>
    rcases hans : answer acc with _ | b'
    · exact nomatch (readUntil_nil hans).symm.trans h
    · obtain ⟨rfl, rfl⟩ := Reading.done.inj ((readUntil_of_some hans).symm.trans h)
      exact ⟨[], rfl, List.forall_mem_nil _, by rw [arrived_nil, List.append_nil, hans]⟩
  | cons a src ih =>
    rcases hans : answer acc with _ | b'
    · rcases a with ⟨x, hx⟩ | _
      · obtain ⟨pre, rfl, htimely, hpre⟩ := ih ((readUntil_data hans hx).symm.trans h)
        refine ⟨.data x hx :: pre, rfl, List.forall_mem_cons.mpr ⟨trivial, htimely⟩, ?_⟩
        rw [arrived_data, ← List.append_assoc, hpre]
      · exact nomatch (readUntil_timeout hans).symm.trans h
    · obtain ⟨rfl, rfl⟩ := Reading.done.inj ((readUntil_of_some hans).symm.trans h)
      exact ⟨[], rfl, List.forall_mem_nil _, by rw [arrived_nil, List.append_nil, hans]⟩

theorem eq_of_readUntil_closed (h : readUntil answer acc src = .closed acc') :
    acc' = acc ++ arrived src ∧ answer acc' = none := by
  induction src generalizing acc with
  | nil =>
    rcases hans : answer acc with _ | b'
    · obtain rfl := Reading.closed.inj ((readUntil_nil hans).symm.trans h)
      exact ⟨(List.append_nil _).symm, hans⟩
    · exact nomatch (readUntil_of_some hans).symm.trans h
  | cons a src ih =>
    rcases hans : answer acc with _ | b'
    · rcases a with ⟨x, hx⟩ | _
      · obtain ⟨rfl, hnone⟩ := ih ((readUntil_data hans hx).symm.trans h)
        exact ⟨by rw [arrived_data, List.append_assoc], hnone⟩
      · exact nomatch (readUntil_timeout hans).symm.trans h
    · exact nomatch (readUntil_of_some hans).symm.trans h

/-- What was read when a call gave up. -/
theorem exists_of_readUntil_late (h : readUntil answer acc src = .late acc' src') :
    ∃ pre, src = pre ++ .timeout :: src' ∧ (∀ a ∈ pre, a.Timely) ∧ acc' = acc ++ arrived pre := by
  induction src generalizing acc with
  | nil =>
    rcases hans : answer acc with _ | b'
    · exact nomatch (readUntil_nil hans).symm.trans h
    · exact nomatch (readUntil_of_some hans).symm.trans h
  | cons a src ih =>
    rcases hans : answer acc with _ | b'
    · rcases a with ⟨x, hx⟩ | _
      · obtain ⟨pre, rfl, htimely, rfl⟩ := ih ((readUntil_data hans hx).symm.trans h)
        refine ⟨.data x hx :: pre, rfl, List.forall_mem_cons.mpr ⟨trivial, htimely⟩, ?_⟩
        rw [arrived_data, List.append_assoc]
      · obtain ⟨rfl, rfl⟩ := Reading.late.inj ((readUntil_timeout hans).symm.trans h)
        exact ⟨[], rfl, List.forall_mem_nil _, (List.append_nil _).symm⟩
    · exact nomatch (readUntil_of_some hans).symm.trans h

/-- With data in time the reader answers, or the peer closes before there is an answer. -/
theorem readUntil_of_timely (htimely : ∀ a ∈ src, a.Timely) :
    (∃ b src', readUntil answer acc src = .done b src') ∨
      ∃ acc', readUntil answer acc src = .closed acc' := by
  rcases h : readUntil answer acc src with ⟨b, src'⟩ | acc' | ⟨acc', src'⟩
  · exact .inl ⟨b, src', rfl⟩
  · exact .inr ⟨acc', rfl⟩
  · obtain ⟨pre, rfl, -, -⟩ := exists_of_readUntil_late h
    exact (htimely .timeout (List.mem_append_right _ List.mem_cons_self)).elim

/-- What comes later does not matter to a reader that has its answer. -/
theorem readUntil_append (h : readUntil answer acc src = .done b src') (tail : List (Arrival α)) :
    readUntil answer acc (src ++ tail) = .done b (src' ++ tail) := by
  induction src generalizing acc with
  | nil =>
    rcases hans : answer acc with _ | b'
    · exact nomatch (readUntil_nil hans).symm.trans h
    · obtain ⟨rfl, rfl⟩ := Reading.done.inj ((readUntil_of_some hans).symm.trans h)
      exact readUntil_of_some hans
  | cons a src ih =>
    rcases hans : answer acc with _ | b'
    · rcases a with ⟨x, hx⟩ | _
      · rw [List.cons_append, readUntil_data hans]
        exact ih ((readUntil_data hans hx).symm.trans h)
      · exact nomatch (readUntil_timeout hans).symm.trans h
    · obtain ⟨rfl, rfl⟩ := Reading.done.inj ((readUntil_of_some hans).symm.trans h)
      exact readUntil_of_some hans

/-- More data extends an answer and does not change it. -/
def Stable (answer : List α → Option β) (extend : β → List α → β) : Prop :=
  ∀ acc x b, answer acc = some b → answer (acc ++ x) = some (extend b x)

/-- **A stable answer does not depend on the pieces.** -/
theorem Stable.readUntil_done {extend : β → List α → β} (hstable : Stable answer extend)
    (h : readUntil answer acc src = .done b src') :
    answer (acc ++ arrived src) = some (extend b (arrived src')) := by
  obtain ⟨pre, rfl, -, hans⟩ := exists_of_readUntil_done h
  rw [arrived_append, ← List.append_assoc]
  exact hstable _ _ _ hans

/-- The answer is given as soon as enough has arrived. -/
theorem Stable.exists_readUntil {extend : β → List α → β} (hstable : Stable answer extend)
    (htimely : ∀ a ∈ src, a.Timely) (hans : answer (acc ++ arrived src) = some b) :
    ∃ b' src', readUntil answer acc src = .done b' src' ∧ src' <:+ src ∧
      extend b' (arrived src') = b := by
  rcases readUntil_of_timely htimely with ⟨b', src', h⟩ | ⟨acc', h⟩
  · obtain ⟨pre, hpre, -, -⟩ := exists_of_readUntil_done h
    refine ⟨b', src', h, ⟨pre, hpre.symm⟩, ?_⟩
    exact Option.some_inj.mp ((hstable.readUntil_done h).symm.trans hans)
  · obtain ⟨rfl, hnone⟩ := eq_of_readUntil_closed h
    exact nomatch hnone.symm.trans hans

/-- Without an answer the reader gets everything and then sees the end. -/
theorem Stable.readUntil_closed {extend : β → List α → β} (hstable : Stable answer extend)
    (htimely : ∀ a ∈ src, a.Timely) (hans : answer (acc ++ arrived src) = none) :
    readUntil answer acc src = .closed (acc ++ arrived src) := by
  rcases readUntil_of_timely htimely with ⟨b, src', h⟩ | ⟨acc', h⟩
  · exact nomatch (hstable.readUntil_done h).symm.trans hans
  · rw [h, (eq_of_readUntil_closed h).1]

end ReadUntil

/-! ## The first occurrence of a word -/

variable [DecidableEq α]

/-- Where a word occurs first. -/
def find (w : List α) : List α → Option ℕ
  | [] => if w = [] then some 0 else none
  | c :: s => if w <+: c :: s then some 0 else (find w s).map (· + 1)

section Find

variable {w s x : List α} {i : ℕ}

theorem find_eq_none_iff (hw : w ≠ []) : find w s = none ↔ ∀ j, ¬w <+: s.drop j := by
  induction s with
  | nil =>
    rw [find, if_neg hw]
    refine ⟨fun _ j h ↦ hw ?_, fun _ ↦ rfl⟩
    rw [List.drop_nil] at h
    exact List.prefix_nil.mp h
  | cons c s ih =>
    rw [find]
    split_ifs with hpre
    · exact ⟨fun h ↦ (nomatch h), fun h ↦ (h 0 hpre).elim⟩
    · rw [Option.map_eq_none_iff, ih]
      refine ⟨fun h j ↦ ?_, fun h j ↦ h (j + 1)⟩
      cases j with
      | zero => exact hpre
      | succ j => exact h j

theorem find_eq_some_iff (hw : w ≠ []) :
    find w s = some i ↔ w <+: s.drop i ∧ ∀ j < i, ¬w <+: s.drop j := by
  induction s generalizing i with
  | nil =>
    rw [find, if_neg hw]
    refine ⟨fun h ↦ (nomatch h), fun h ↦ (hw ?_).elim⟩
    have hpre := h.1
    rw [List.drop_nil] at hpre
    exact List.prefix_nil.mp hpre
  | cons c s ih =>
    rw [find]
    split_ifs with hpre
    · refine ⟨fun h ↦ ?_, fun h ↦ ?_⟩
      · obtain rfl := Option.some_inj.mp h
        exact ⟨hpre, fun j hj ↦ (Nat.not_lt_zero j hj).elim⟩
      · cases i with
        | zero => rfl
        | succ i => exact (h.2 0 (Nat.succ_pos i) hpre).elim
    · rw [Option.map_eq_some_iff]
      refine ⟨?_, fun h ↦ ?_⟩
      · rintro ⟨k, hk, rfl⟩
        obtain ⟨hat, hbefore⟩ := ih.mp hk
        refine ⟨hat, fun j hj ↦ ?_⟩
        cases j with
        | zero => exact hpre
        | succ j => exact hbefore j (Nat.lt_of_succ_lt_succ hj)
      · cases i with
        | zero => exact (hpre h.1).elim
        | succ i => exact ⟨i, ih.mpr ⟨h.1, fun j hj ↦ h.2 (j + 1) (Nat.succ_lt_succ hj)⟩, rfl⟩

/-- A text is what stands before a word, the word, and what follows it. -/
theorem eq_of_find (hw : w ≠ []) (h : find w s = some i) :
    s = s.take i ++ w ++ s.drop (i + w.length) := by
  obtain ⟨rest, hrest⟩ := ((find_eq_some_iff hw).mp h).1
  have hdrop : s.drop (i + w.length) = rest := by
    rw [← List.drop_drop, ← hrest, List.drop_left]
  rw [hdrop, List.append_assoc, hrest, List.take_append_drop]

theorem length_of_find (hw : w ≠ []) (h : find w s = some i) : i + w.length ≤ s.length := by
  have hlen := congrArg List.length (eq_of_find hw h)
  rw [List.length_append, List.length_append, List.length_take, List.length_drop] at hlen
  have hpos := List.length_pos_iff.mpr hw
  omega

/-- A first occurrence stays one. -/
theorem find_append (hw : w ≠ []) (h : find w s = some i) : find w (s ++ x) = some i := by
  have hlen := length_of_find hw h
  obtain ⟨hat, hbefore⟩ := (find_eq_some_iff hw).mp h
  refine (find_eq_some_iff hw).mpr ⟨?_, fun j hj hpre ↦ hbefore j hj ?_⟩
  · rw [List.drop_append_of_le_length (by omega)]
    exact hat.trans (List.prefix_append _ _)
  · rw [List.drop_append_of_le_length (by omega)] at hpre
    refine List.prefix_of_prefix_length_le hpre (List.prefix_append _ _) ?_
    rw [List.length_drop]
    omega

/-- The first occurrence, seen from a place before it. -/
theorem find_drop {k : ℕ} (hw : w ≠ []) (h : find w s = some i) (hk : k ≤ i) :
    find w (s.drop k) = some (i - k) := by
  obtain ⟨hat, hbefore⟩ := (find_eq_some_iff hw).mp h
  refine (find_eq_some_iff hw).mpr ⟨?_, fun j hj hpre ↦ hbefore (k + j) (by omega) ?_⟩
  · rw [List.drop_drop, Nat.add_sub_cancel' hk]
    exact hat
  · rwa [List.drop_drop] at hpre

end Find

end ConfdDemos
