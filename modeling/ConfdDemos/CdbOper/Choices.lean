import ConfdDemos.Foundation.CString

/-!
# Nested choices

ConfD asks for the case of a choice with an array of choices, the innermost one first, and the
operational data store wants them as one path, the outermost one first. `get_case` writes the path
into a buffer in a loop over the array from its end.

## The loop

Every round starts at the beginning of the buffer. The slash that `strcat` puts behind a choice is
gone in the next round, together with the choice, and what stays is the innermost one alone.

The size that `snprintf` is told is one less than that of the buffer. So a path of just the size of
the buffer, with its zero byte, loses its last character.
-/

namespace ConfdDemos.CdbOper

variable {N V : Type*}

/-- The zero byte at the end of a text. -/
def nul : Char := '\x00'

def kpMod : List Char := "-state".toList

/-- What the code uses of the libraries. Texts do not contain the zero byte. -/
structure Library (N V : Type*) where
  /-- `BUFSIZ`. -/
  bufsiz : ℕ
  bufsiz_ge : 256 ≤ bufsiz
  /-- `confd_ns2prefix`. -/
  ns2prefix : N → List Char
  /-- The text that `confd_pp_value` puts into a buffer, as far as it fits. -/
  ppValue : V → List Char
  nul_notMem_ns2prefix : ∀ ns, nul ∉ ns2prefix ns
  nul_notMem_ppValue : ∀ v, nul ∉ ppValue v

/-- A choice: an XML tag with its namespace. -/
structure Choice (N V : Type*) where
  ns : N
  value : V

namespace Library

variable (L : Library N V)

/-- The rounds of the loop with the indices below a number, from the greatest one on. -/
def choiceLoop (choice : List (Choice N V)) : ℕ → List Char → Option (List Char)
  | 0, choiceStr => some choiceStr
  | i + 1, choiceStr => (choice[i]?).bind fun c ↦ do
    let tmpStr := (L.ppValue c.value).take (L.bufsiz - 1)
    let choiceStr ← CString.snprintf nul choiceStr (L.bufsiz - 1)
      (L.ns2prefix c.ns ++ kpMod ++ ':' :: tmpStr)
    let choiceStr ← if 0 < i then CString.strcat nul choiceStr ['/'] else some choiceStr
    choiceLoop choice i choiceStr

/-- The path that `get_case` gives to `cdb_get_case`, where `choiceStr` is what the buffer holds in
the beginning. -/
def casePath (choice : List (Choice N V)) (choiceStr : List Char) : Option (List Char) :=
  (L.choiceLoop choice choice.length choiceStr).bind (CString.text nul)

/-! ## The path of all choices -/

/-- One choice in the path. -/
def segment (c : Choice N V) : List Char := L.ns2prefix c.ns ++ kpMod ++ ':' :: L.ppValue c.value

/-- A choice and those around it, the outermost one first. -/
def wholePath : Choice N V → List (Choice N V) → List Char
  | c, [] => L.segment c
  | c, c' :: outer => wholePath c' outer ++ '/' :: L.segment c

/-! ## The loop -/

variable {L}

theorem nul_notMem_segment (c : Choice N V) (n : ℕ) :
    nul ∉ L.ns2prefix c.ns ++ kpMod ++ ':' :: (L.ppValue c.value).take n := by
  have hmod : nul ∉ kpMod := by decide
  have hcolon : nul ≠ ':' := by decide
  have hvalue : nul ∉ (L.ppValue c.value).take n := fun h ↦
    L.nul_notMem_ppValue c.value (List.mem_of_mem_take h)
  simp only [List.mem_append, List.mem_cons, not_or]
  exact ⟨⟨L.nul_notMem_ns2prefix c.ns, hmod⟩, hcolon, hvalue⟩

/-- The buffer for the value is large enough for what is printed of it. -/
theorem take_segment (c : Choice N V) :
    (L.ns2prefix c.ns ++ kpMod ++ ':' :: (L.ppValue c.value).take (L.bufsiz - 1)).take
      (L.bufsiz - 1 - 1) = (L.segment c).take (L.bufsiz - 1 - 1) := by
  have hcut : ∀ a t : List Char, (a ++ t.take (L.bufsiz - 1)).take (L.bufsiz - 1 - 1) =
      (a ++ t).take (L.bufsiz - 1 - 1) := fun a t ↦ by
    have hle : L.bufsiz - 1 - 1 - a.length ≤ L.bufsiz - 1 :=
      (Nat.sub_le _ _).trans (Nat.sub_le _ _)
    rw [List.take_append, List.take_take, Nat.min_eq_left hle, ← List.take_append]
  have hcolon : ∀ t : List Char, L.ns2prefix c.ns ++ kpMod ++ ':' :: t =
      L.ns2prefix c.ns ++ kpMod ++ [':'] ++ t := fun t ↦ by
    rw [List.append_assoc _ [':'], List.singleton_append]
  rw [segment, hcolon (List.take _ _), hcolon (L.ppValue c.value), hcut]

/-- One round: nothing is written outside of the buffer, and the choice stands at its beginning. -/
theorem round_eq_some (c : Choice N V) {choiceStr : List Char}
    (hlength : choiceStr.length = L.bufsiz) :
    ∃ printed, CString.snprintf nul choiceStr (L.bufsiz - 1)
        (L.ns2prefix c.ns ++ kpMod ++ ':' :: (L.ppValue c.value).take (L.bufsiz - 1)) =
          some printed ∧ printed.length = L.bufsiz ∧
      CString.text nul printed = some ((L.segment c).take (L.bufsiz - 1 - 1)) ∧
      ∃ joined, CString.strcat nul printed ['/'] = some joined ∧ joined.length = L.bufsiz := by
  have hge := L.bufsiz_ge
  have hpos : 0 < L.bufsiz - 1 := by omega
  have hle : L.bufsiz - 1 ≤ choiceStr.length := by omega
  obtain ⟨printed, hprint, hprinted, htext⟩ := CString.snprintf_eq_some
    (nul_notMem_segment c (L.bufsiz - 1)) hpos hle
  rw [take_segment] at htext
  have hfits : ((L.segment c).take (L.bufsiz - 1 - 1)).length + ['/'].length + 1 ≤
      printed.length := by
    rw [hprinted, hlength, List.length_take, List.length_singleton]
    omega
  obtain ⟨joined, hjoin, hjoined, -⟩ := CString.strcat_eq_some htext (by decide) hfits
  exact ⟨printed, hprint, hprinted.trans hlength, htext, joined, hjoin,
    hjoined.trans (hprinted.trans hlength)⟩

/-- Only the round with the index zero counts. -/
theorem choiceLoop_eq_some (c : Choice N V) (outer : List (Choice N V)) {i : ℕ}
    (hi : i < (c :: outer).length) {choiceStr : List Char} (hlength : choiceStr.length = L.bufsiz) :
    ∃ choiceStr', L.choiceLoop (c :: outer) (i + 1) choiceStr = some choiceStr' ∧
      CString.text nul choiceStr' = some ((L.segment c).take (L.bufsiz - 1 - 1)) := by
  induction i generalizing choiceStr with
  | zero =>
    obtain ⟨printed, hprint, -, htext, -⟩ := round_eq_some c hlength
    refine ⟨printed, ?_, htext⟩
    simp only [choiceLoop, List.getElem?_cons_zero, hprint, bind, Option.bind_some, lt_irrefl,
      if_false]
  | succ i ih =>
    obtain ⟨printed, hprint, -, -, joined, hjoin, hjoined⟩ :=
      round_eq_some ((c :: outer).get ⟨i + 1, hi⟩) hlength
    obtain ⟨choiceStr', hrest, htext⟩ := ih (Nat.lt_of_succ_lt hi) hjoined
    have hget : (c :: outer)[i + 1]? = some ((c :: outer).get ⟨i + 1, hi⟩) :=
      List.getElem?_eq_getElem hi
    refine ⟨choiceStr', ?_, htext⟩
    rw [choiceLoop, hget]
    simp only [hprint, hjoin, bind, Option.bind_some, Nat.succ_pos, if_true, hrest]

theorem length_segment_lt (c c' : Choice N V) (outer : List (Choice N V)) :
    (L.segment c).length < (L.wholePath c (c' :: outer)).length := by
  rw [wholePath, List.length_append, List.length_cons]
  omega

/-- The path names all choices if and only if there is only one, and its text leaves room for two
characters in the buffer. -/
theorem casePath_eq_iff (L : Library N V) (c : Choice N V) (outer : List (Choice N V))
    (hfits : (L.wholePath c outer).length < L.bufsiz) {choiceStr : List Char}
    (hlength : choiceStr.length = L.bufsiz) :
    L.casePath (c :: outer) choiceStr = some (L.wholePath c outer) ↔
      outer = [] ∧ (L.wholePath c outer).length + 2 ≤ L.bufsiz := by
  obtain ⟨choiceStr', hloop, htext⟩ :=
    choiceLoop_eq_some c outer (Nat.lt_succ_self outer.length) hlength
  have hpath : L.casePath (c :: outer) choiceStr =
      some ((L.segment c).take (L.bufsiz - 1 - 1)) := by
    rw [casePath, List.length_cons, hloop, Option.bind_some, htext]
  rw [hpath, Option.some.injEq]
  constructor
  · intro heq
    have hle := congrArg List.length heq
    rw [List.length_take] at hle
    rcases outer with - | ⟨c', outer⟩
    · rw [wholePath] at hle hfits ⊢
      refine ⟨rfl, ?_⟩
      have hge := L.bufsiz_ge
      omega
    · have hlt := length_segment_lt (L := L) c c' outer
      omega
  · rintro ⟨rfl, hle⟩
    rw [wholePath] at hle ⊢
    exact List.take_of_length_le (by omega)

end Library

/-- Prefixes and names of one character, numbered by it. -/
def shortNames : Library Char Char where
  bufsiz := 256
  bufsiz_ge := le_rfl
  ns2prefix ns := if ns = nul then [] else [ns]
  ppValue v := if v = nul then [] else [v]
  nul_notMem_ns2prefix ns := by
    by_cases h : ns = nul
    · simp [h]
    · simpa [h] using Ne.symm h
  nul_notMem_ppValue v := by
    by_cases h : v = nul
    · simp [h]
    · simpa [h] using Ne.symm h

theorem casePath_eq_iff_shortNames :
    (shortNames.wholePath ⟨'p', 'i'⟩ []).length < shortNames.bufsiz ∧
      (shortNames.casePath [⟨'p', 'i'⟩] (List.replicate 256 nul) =
          some (shortNames.wholePath ⟨'p', 'i'⟩ []) ↔
        ([] : List (Choice Char Char)) = [] ∧
          (shortNames.wholePath ⟨'p', 'i'⟩ []).length + 2 ≤ shortNames.bufsiz) :=
  ⟨by decide, Library.casePath_eq_iff shortNames _ _ (by decide) List.length_replicate⟩

/-- A choice in another one. The path names only the inner one. -/
theorem casePath_loses_outer :
    shortNames.casePath [⟨'p', 'i'⟩, ⟨'p', 'o'⟩] (List.replicate 256 nul) =
        some "p-state:i".toList ∧
      shortNames.wholePath ⟨'p', 'i'⟩ [⟨'p', 'o'⟩] = "p-state:o/p-state:i".toList ∧
      shortNames.casePath [⟨'p', 'i'⟩, ⟨'p', 'o'⟩] (List.replicate 256 nul) ≠
        some (shortNames.wholePath ⟨'p', 'i'⟩ [⟨'p', 'o'⟩]) := by
  have hpath : shortNames.casePath [⟨'p', 'i'⟩, ⟨'p', 'o'⟩] (List.replicate 256 nul) =
      some "p-state:i".toList := by
    obtain ⟨choiceStr, hloop, htext⟩ := Library.choiceLoop_eq_some (L := shortNames) ⟨'p', 'i'⟩
      [⟨'p', 'o'⟩] (Nat.lt_succ_self 1) (List.length_replicate (n := 256) (a := nul))
    rw [Library.casePath, List.length_cons, List.length_singleton, hloop, Option.bind_some, htext]
    rfl
  refine ⟨hpath, rfl, ?_⟩
  rw [hpath]
  decide

end ConfdDemos.CdbOper
