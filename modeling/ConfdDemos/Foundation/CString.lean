import Mathlib.Data.List.TakeDrop
import Mathlib.Data.List.TakeWhile

/-!
# Texts in buffers

A buffer is an array of characters of a fixed size. The text in it ends before the first character
`nul`. What is stored beyond the end of a buffer has no result, and neither has reading a text that
does not end in it.

`snprintf` stores at most as many characters as it is told, with `nul` among them, and `strcat`
stores behind the text that is there.
-/

namespace ConfdDemos.CString

variable {α : Type*} [DecidableEq α] {nul : α}

/-- The text in a buffer. -/
def text (nul : α) (buf : List α) : Option (List α) :=
  if nul ∈ buf then some (buf.takeWhile (· ≠ nul)) else none

/-- The buffer with some characters from a place on. -/
def store (buf : List α) (i : ℕ) (cs : List α) : Option (List α) :=
  if i + cs.length ≤ buf.length then some (buf.take i ++ cs ++ buf.drop (i + cs.length)) else none

def snprintf (nul : α) (buf : List α) (size : ℕ) (s : List α) : Option (List α) :=
  if size = 0 then some buf else store buf 0 (s.take (size - 1) ++ [nul])

def strcat (nul : α) (buf : List α) (s : List α) : Option (List α) :=
  (text nul buf).bind fun t ↦ store buf t.length (s ++ [nul])

variable {buf s t : List α}

theorem text_append (h : nul ∉ t) (rest : List α) : text nul (t ++ nul :: rest) = some t := by
  have hall : ∀ c ∈ t, decide (c ≠ nul) = true := fun c hc ↦
    decide_eq_true fun heq ↦ h (heq ▸ hc)
  rw [text, if_pos (List.mem_append_right t List.mem_cons_self), List.takeWhile_append_of_pos hall]
  simp

theorem exists_append_of_text (h : text nul buf = some t) :
    nul ∉ t ∧ ∃ rest, buf = t ++ nul :: rest := by
  have hmem : nul ∈ buf := by
    by_contra hnot
    rw [text, if_neg hnot] at h
    exact absurd h.symm (Option.some_ne_none t)
  obtain ⟨t', rest, rfl, ht'⟩ := List.eq_append_cons_of_mem hmem
  rw [text_append ht'] at h
  obtain rfl := Option.some.inj h
  exact ⟨ht', rest, rfl⟩

/-- What fits into the buffer and into the size is stored whole, the rest is cut off. -/
theorem snprintf_eq_some {size : ℕ} (hs : nul ∉ s) (hpos : 0 < size) (hsize : size ≤ buf.length) :
    ∃ buf', snprintf nul buf size s = some buf' ∧ buf'.length = buf.length ∧
      text nul buf' = some (s.take (size - 1)) := by
  have hlength : (s.take (size - 1) ++ [nul]).length ≤ buf.length := by
    rw [List.length_append, List.length_take, List.length_singleton]
    omega
  refine ⟨_, ?_, ?_, text_append (t := s.take (size - 1)) (fun h ↦ hs (List.mem_of_mem_take h))
    (buf.drop (s.take (size - 1) ++ [nul]).length)⟩
  · rw [snprintf, if_neg hpos.ne', store, if_pos (by rwa [Nat.zero_add]), List.take_zero,
      List.nil_append, Nat.zero_add, List.append_assoc, List.singleton_append]
  · rw [List.length_append, List.length_cons, List.length_drop]
    rw [List.length_append, List.length_singleton] at hlength ⊢
    omega

theorem strcat_eq_some (ht : text nul buf = some t) (hs : nul ∉ s)
    (hlength : t.length + s.length + 1 ≤ buf.length) :
    ∃ buf', strcat nul buf s = some buf' ∧ buf'.length = buf.length ∧
      text nul buf' = some (t ++ s) := by
  obtain ⟨hnul, rest, rfl⟩ := exists_append_of_text ht
  have hfits : t.length + (s ++ [nul]).length ≤ (t ++ nul :: rest).length := by
    rw [List.length_append, List.length_singleton]
    omega
  refine ⟨_, ?_, ?_, text_append (t := t ++ s) ?_
    ((t ++ nul :: rest).drop (t.length + (s ++ [nul]).length))⟩
  · rw [strcat, ht, Option.bind_some, store, if_pos hfits, List.take_left]
    simp only [List.append_assoc, List.singleton_append]
  · simp only [List.length_append, List.length_cons, List.length_drop, List.length_nil] at hfits ⊢
    omega
  · rw [List.mem_append, not_or]
    exact ⟨hnul, hs⟩

end ConfdDemos.CString
