import ConfdDemos.Foundation.Delimited

/-!
# Quoted strings with escapes

A reader of a quoted string takes letters as they are, up to the closing quote, except that a letter
behind the escape letter stands for what `unescape` makes of it. A writer that puts a value between
two quotes as it is relies on the reader giving the value back.

`Quoting.reads_self` is the good case: a value without quote and escape letters. There is no other:
when the text between the quotes is the raw value, the reader either stops too early or lags behind
what it should produce from the first escape letter on, and it never catches up
(`Quoting.ne_of_lag`).
-/

namespace ConfdDemos

variable {α : Type*}

/-- How quoted strings are read. A quote behind the escape letter stands for itself. -/
structure Quoting (quote escape : α) where
  unescape : α → α
  quote_ne : quote ≠ escape
  unescape_quote : unescape quote = quote

namespace Quoting

variable {quote escape : α} (Q : Quoting quote escape)

/-- `Q.Reads body value`: between two quotes, `body` is read as `value`. -/
inductive Reads : List α → List α → Prop
  | nil : Reads [] []
  | plain {c : α} {body value : List α} (hquote : c ≠ quote) (hescape : c ≠ escape)
      (h : Reads body value) : Reads (c :: body) (c :: value)
  | escaped {c : α} {body value : List α} (h : Reads body value) :
      Reads (escape :: c :: body) (Q.unescape c :: value)

variable {Q}

/-- A value without quote and escape letters is read back. -/
theorem reads_self {value : List α} (hquote : quote ∉ value) (hescape : escape ∉ value) :
    Q.Reads value value := by
  induction value with
  | nil => exact .nil
  | cons c value ih =>
    rw [List.mem_cons, not_or] at hquote hescape
    exact .plain (Ne.symm hquote.1) (Ne.symm hescape.1) (ih hquote.2 hescape.2)

/-- A reader that is behind by the letters `lag`, none of them a quote, does not end at the quote
behind the value. -/
theorem ne_of_lag {body value lag rest after : List α} (h : Q.Reads body value) (hlag : lag ≠ [])
    (hquote : quote ∉ lag) : lag ++ (body ++ quote :: rest) ≠ value ++ quote :: after := by
  induction h generalizing lag with
  | nil =>
    obtain ⟨a, lag, rfl⟩ := List.exists_cons_of_ne_nil hlag
    intro heq
    obtain ⟨rfl, -⟩ := List.cons.inj heq
    exact hquote List.mem_cons_self
  | @plain c body value hc _ _ ih =>
    obtain ⟨a, lag, rfl⟩ := List.exists_cons_of_ne_nil hlag
    intro heq
    obtain ⟨-, heq⟩ := List.cons.inj heq
    -- the letter just read is now waiting to be produced
    refine ih (by simp : lag ++ [c] ≠ []) ?_ (by simpa using heq)
    rw [List.mem_cons, not_or] at hquote
    simp [hquote.2, Ne.symm hc]
  | @escaped c body value _ ih =>
    obtain ⟨a, lag, rfl⟩ := List.exists_cons_of_ne_nil hlag
    intro heq
    obtain ⟨ha, heq⟩ := List.cons.inj heq
    rw [List.mem_cons, not_or] at hquote
    have hc : quote ≠ c := by
      rintro rfl
      exact hquote.1 (by rw [ha, Q.unescape_quote])
    exact ih (by simp : lag ++ [escape, c] ≠ []) (by simp [hquote.2, Q.quote_ne, hc])
      (by simpa using heq)

/-- **Only clean values survive**: when the raw value stands between the quotes and is read back, it
has neither quotes nor escape letters, and the reader stopped where the writer did. -/
theorem clean_of_reads {body value rest after : List α} (h : Q.Reads body value)
    (heq : body ++ quote :: rest = value ++ quote :: after) :
    body = value ∧ rest = after ∧ quote ∉ value ∧ escape ∉ value := by
  induction h with
  | nil => exact ⟨rfl, (List.cons.inj heq).2, List.not_mem_nil, List.not_mem_nil⟩
  | plain hc hc' _ ih =>
    obtain ⟨rfl, rfl, hquote, hescape⟩ := ih (List.cons.inj heq).2
    simp [hquote, hescape, Ne.symm hc, Ne.symm hc']
  | @escaped c body value h _ =>
    obtain ⟨hc, heq⟩ := List.cons.inj heq
    have hne : quote ≠ c := by
      rintro rfl
      exact Q.quote_ne (Q.unescape_quote.symm.trans hc.symm)
    exact absurd heq (ne_of_lag h (by simp : [c] ≠ []) (by simpa using hne))

/-- Reading makes no letter that only stands for itself. -/
theorem count_le_of_reads [DecidableEq α] {a : α} (ha : ∀ c, Q.unescape c = a → c = a)
    {body value : List α} (h : Q.Reads body value) : value.count a ≤ body.count a := by
  induction h with
  | nil => exact Nat.le_refl _
  | plain _ _ _ ih =>
    rw [List.count_cons, List.count_cons]
    exact Nat.add_le_add_right ih _
  | @escaped c body value _ ih =>
    have hle : (if Q.unescape c == a then 1 else 0) ≤ if c == a then 1 else 0 := by
      split_ifs with h1 h2
      · exact Nat.le_refl _
      · exact absurd (beq_iff_eq.mpr (ha c (beq_iff_eq.mp h1))) h2
      · exact Nat.zero_le 1
      · exact Nat.le_refl _
    rw [List.count_cons, List.count_cons, List.count_cons]
    omega

end Quoting

end ConfdDemos
