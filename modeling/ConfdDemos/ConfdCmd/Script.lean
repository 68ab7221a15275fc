import ConfdDemos.Foundation.CString

/-!
# Scripts of commands

`confd_cmd` runs scripts: a line has commands with semicolons between them, a command has words with
blanks between them, and a word can be quoted. What is behind a `#` is a comment. `read_line` walks
over the line with two pointers, and `read_file` gives it one line after the other, always in the
same buffer.

## The end of a line

A quote that is not closed ends with the line. Behind the end of every quoted word the pointer is
moved by one, over the closing quote, and here over the zero byte. So the loop goes on in what the
buffer holds behind the line, which is the end of a longer line that was read before. `lex` says
what a line is as a machine over its letters, and `readLine_eq_lex_iff` that `read_line` agrees with
it up to this case.

## Printing

`print_script` writes a script down again. Every word but the first of a command gets quotes.
-/

namespace ConfdDemos.ConfdCmd

abbrev Text := List Char

/-- The zero byte at the end of a text. -/
def nul : Char := '\x00'

def maxArgs : ℕ := 16

/-- In the locale of C. -/
def isspace (c : Char) : Bool := c == ' ' || ('\t' ≤ c && c ≤ '\r')

/-- A command with the number of its line. The first word is the name of the command. -/
structure Cmdline where
  lineno : ℕ
  argv : List Text
  deriving DecidableEq

/-- The program ends, or it reads behind the end of an array. -/
inductive Stop
  | maxArgs
  | overrun
  deriving DecidableEq

/-! ## Reading a line -/

/-- A pointer is what the array holds from there on. -/
def skipSpace : List Char → Except Stop (List Char)
  | [] => .error .overrun
  | c :: r => if isspace c then skipSpace r else .ok (c :: r)

def endsWord (inquote : Bool) (c : Char) : Bool :=
  c == nul || if inquote then c == '"' else isspace c || c == '#' || c == ';'

/-- The pointer `c` from `b` on, with the letters it has passed. -/
def scanWord (inquote : Bool) : List Char → Except Stop (Text × List Char)
  | [] => .error .overrun
  | c :: r =>
    if endsWord inquote c then .ok ([], c :: r)
    else (scanWord inquote r).map fun x ↦ (c :: x.1, x.2)

mutual

/-- The commands of a line, none if it is empty. -/
def readLine (lineno : ℕ) : ℕ → List Char → Except Stop (List Cmdline)
  | 0, _ => .error .overrun
  | fuel + 1, line => do
    let b ← skipSpace line
    if b.head? = some nul ∨ b.head? = some '#' then .ok [] else readWords lineno fuel [] b

/-- The loop over the words of a command. -/
def readWords (lineno : ℕ) : ℕ → List Text → List Char → Except Stop (List Cmdline)
  | 0, _, _ => .error .overrun
  | fuel + 1, argv, b => do
    let b ← skipSpace b
    if b.head? = some nul ∨ b.head? = some '#' then .ok [⟨lineno, argv⟩]
    else if b.head? = some ';' then do
      let next ← readLine lineno fuel b.tail
      .ok (⟨lineno, argv⟩ :: next)
    else do
      let inquote := b.head? = some '"'
      let (arg, c) ← scanWord inquote (if inquote then b.tail else b)
      if argv.length = maxArgs then .error .maxArgs
      else readWords lineno fuel (argv ++ [arg]) (if inquote then c.tail else c)

end

/-- No round of the loop leaves the pointer where it is. -/
def readLineOf (lineno : ℕ) (line : List Char) : Except Stop (List Cmdline) :=
  readLine lineno (2 * line.length + 2) line

/-! ## Reading a file -/

/-- At most `n` letters, up to the end of a line. -/
def fgets : ℕ → Text → Text × Text
  | 0, f => ([], f)
  | _ + 1, [] => ([], [])
  | n + 1, c :: f => if c = '\n' then ([c], f) else ((c :: (fgets n f).1), (fgets n f).2)

/-- The loop of `read_file`, where `line` is what the buffer holds. -/
def readLines (bufsiz : ℕ) : ℕ → ℕ → List Char → Text → Except Stop (List Cmdline)
  | 0, _, _, _ => .ok []
  | fuel + 1, lineno, line, f =>
    if f = [] then .ok []
    else
      let (l, f) := fgets (bufsiz - 1) f
      match CString.store line 0 (l ++ [nul]) with
      | none => .error .overrun
      | some line => do
        let tmp ← readLineOf lineno line
        let rest ← readLines bufsiz fuel (lineno + 1) line f
        .ok (tmp ++ rest)

/-- Every line has a letter at least. -/
def readFile (bufsiz : ℕ) (line : List Char) (f : Text) : Except Stop (List Cmdline) :=
  readLines bufsiz f.length 1 line f

/-! ## Printing -/

def printArgs : List Text → Text
  | [] => []
  | arg :: args => " \"".toList ++ arg ++ '"' :: printArgs args

def printCommand : List Text → Text
  | [] => []
  | cmd :: args => cmd ++ printArgs args

/-- The commands from some one on: the one before it is in the line `prev`, and `line` is the number
of the line that is printed. -/
def printFrom : Option ℕ → ℕ → List Cmdline → Text
  | _, _, [] => ['\n']
  | prev, line, c :: cs =>
    List.replicate (c.lineno - line) '\n' ++
      (if prev = some c.lineno then " ; ".toList else []) ++ printCommand c.argv ++
      printFrom (some c.lineno) (max line c.lineno) cs

def printScript (program : List Cmdline) : Text := printFrom none 1 program

/-! ## Lines as they are meant -/

inductive Mode
  /-- No word of the command has begun, nor a semicolon. -/
  | start
  | between
  | word (arg : Text)
  | quoted (arg : Text)

/-- The words of a command with one more. -/
def push (argv : List Text) (arg : Text) (k : List Text → Except Stop (List Cmdline)) :
    Except Stop (List Cmdline) :=
  if argv.length = maxArgs then .error .maxArgs else k (argv ++ [arg])

/-- A line from some letter on. A quote that is not closed is an overrun. -/
def lex (lineno : ℕ) : Mode → List Text → Text → Except Stop (List Cmdline)
  | .start, _, [] => .ok []
  | .between, argv, [] => .ok [⟨lineno, argv⟩]
  | .word arg, argv, [] => push argv arg fun argv ↦ .ok [⟨lineno, argv⟩]
  | .quoted arg, argv, [] => push argv arg fun _ ↦ .error .overrun
  | .start, argv, c :: t =>
    if isspace c then lex lineno .start argv t
    else if c = '#' then .ok []
    else if c = ';' then (lex lineno .start [] t).map (⟨lineno, argv⟩ :: ·)
    else if c = '"' then lex lineno (.quoted []) argv t
    else lex lineno (.word [c]) argv t
  | .between, argv, c :: t =>
    if isspace c then lex lineno .between argv t
    else if c = '#' then .ok [⟨lineno, argv⟩]
    else if c = ';' then (lex lineno .start [] t).map (⟨lineno, argv⟩ :: ·)
    else if c = '"' then lex lineno (.quoted []) argv t
    else lex lineno (.word [c]) argv t
  | .word arg, argv, c :: t =>
    if isspace c then push argv arg fun argv ↦ lex lineno .between argv t
    else if c = '#' then push argv arg fun argv ↦ .ok [⟨lineno, argv⟩]
    else if c = ';' then push argv arg fun argv ↦ (lex lineno .start [] t).map (⟨lineno, argv⟩ :: ·)
    else lex lineno (.word (arg ++ [c])) argv t
  | .quoted arg, argv, c :: t =>
    if c = '"' then push argv arg fun argv ↦ lex lineno .between argv t
    else lex lineno (.quoted (arg ++ [c])) argv t

/-! ## Walking over a line -/

variable {lineno : ℕ} {argv : List Text} {t : Text} {fuel : ℕ} {rest : List Char}

theorem isspace_nul : isspace nul = false := by decide

theorem skipSpace_append (t : Text) (rest : List Char) :
    skipSpace (t ++ nul :: rest) = .ok (t.dropWhile isspace ++ nul :: rest) := by
  induction t with
  | nil => rw [List.nil_append, skipSpace, isspace_nul]; rfl
  | cons c t ih =>
    rw [List.cons_append, skipSpace, List.dropWhile_cons, ih]
    split_ifs
    · rfl
    · rfl

theorem scanWord_append (inquote : Bool) {t : Text} (ht : nul ∉ t) (rest : List Char) :
    scanWord inquote (t ++ nul :: rest) = .ok (t.takeWhile fun c ↦ !endsWord inquote c,
      (t.dropWhile fun c ↦ !endsWord inquote c) ++ nul :: rest) := by
  induction t with
  | nil => rfl
  | cons c t ih =>
    rw [List.mem_cons, not_or] at ht
    rw [List.cons_append, scanWord, List.takeWhile_cons, List.dropWhile_cons, ih ht.2]
    cases endsWord inquote c with
    | true => rfl
    | false => rfl

theorem lex_start_dropWhile (t : Text) :
    lex lineno .start argv t = lex lineno .start argv (t.dropWhile isspace) := by
  induction t with
  | nil => rfl
  | cons c t ih =>
    rw [List.dropWhile_cons]
    split_ifs with hc
    · rw [lex, if_pos hc, ih]
    · rfl

theorem lex_between_dropWhile (t : Text) :
    lex lineno .between argv t = lex lineno .between argv (t.dropWhile isspace) := by
  induction t with
  | nil => rfl
  | cons c t ih =>
    rw [List.dropWhile_cons]
    split_ifs with hc
    · rw [lex, if_pos hc, ih]
    · rfl

/-- A word without quotes ends before the first letter that ends it. -/
theorem lex_word (arg : Text) (ht : nul ∉ t) : lex lineno (.word arg) argv t =
    push argv (arg ++ t.takeWhile fun c ↦ !endsWord false c) fun argv ↦
      lex lineno .between argv (t.dropWhile fun c ↦ !endsWord false c) := by
  induction t generalizing arg with
  | nil => rw [List.takeWhile_nil, List.append_nil]; rfl
  | cons c t ih =>
    rw [List.mem_cons, not_or] at ht
    have hends : endsWord false c = (isspace c || c == '#' || c == ';') := by
      rw [endsWord, beq_false_of_ne (Ne.symm ht.1)]
      rfl
    rw [List.takeWhile_cons, List.dropWhile_cons, hends, lex]
    by_cases hspace : isspace c = true
    · simp [hspace, lex]
    · by_cases hhash : c = '#'
      · subst hhash
        simp [lex, hspace]
      · by_cases hsemi : c = ';'
        · subst hsemi
          simp [lex, hspace]
        · simp [hspace, hhash, hsemi, ih (arg ++ [c]) ht.2]

/-- A quoted word ends with the next quote. -/
theorem lex_quoted (arg : Text) (ht : nul ∉ t) : lex lineno (.quoted arg) argv t =
    push argv (arg ++ t.takeWhile fun c ↦ !endsWord true c) fun argv ↦
      if '"' ∈ t then lex lineno .between argv (t.dropWhile fun c ↦ !endsWord true c).tail
      else .error .overrun := by
  induction t generalizing arg with
  | nil => rw [List.takeWhile_nil, List.append_nil]; rfl
  | cons c t ih =>
    rw [List.mem_cons, not_or] at ht
    have hends : endsWord true c = (c == '"') := by
      rw [endsWord, beq_false_of_ne (Ne.symm ht.1)]
      rfl
    rw [List.takeWhile_cons, List.dropWhile_cons, hends, lex]
    by_cases hquote : c = '"'
    · subst hquote
      simp
    · have hmem : '"' ∈ c :: t ↔ '"' ∈ t := by
        rw [List.mem_cons, or_iff_right (Ne.symm hquote)]
      simp [hquote, hmem, ih (arg ++ [c]) ht.2]

/-! ## Reading agrees with the machine -/

/-- What is read on a line, whatever is behind it, or something that is not an overrun only because
of what is behind the line. -/
def Agrees (x : List Char → Except Stop (List Cmdline)) (y : Except Stop (List Cmdline)) : Prop :=
  (y ≠ .error .overrun ∧ ∀ rest, x rest = y) ∨ (y = .error .overrun ∧ x [nul] ≠ .error .overrun)

theorem Agrees.of_eq {y : Except Stop (List Cmdline)} (hy : y ≠ .error .overrun) :
    Agrees (fun _ ↦ y) y := Or.inl ⟨hy, fun _ ↦ rfl⟩

theorem map_ne_overrun {x : Except Stop (List Cmdline)} (c : Cmdline) :
    x.map (c :: ·) ≠ .error .overrun ↔ x ≠ .error .overrun := by
  rcases x with e | l
  · simp [Except.map]
  · simp [Except.map]

theorem Agrees.map {x : List Char → Except Stop (List Cmdline)} {y : Except Stop (List Cmdline)}
    (h : Agrees x y) (c : Cmdline) :
    Agrees (fun rest ↦ (x rest).map (c :: ·)) (y.map (c :: ·)) := by
  rcases h with ⟨hy, hx⟩ | ⟨rfl, hx⟩
  · exact Or.inl ⟨(map_ne_overrun c).mpr hy, fun rest ↦ congrArg (Except.map _) (hx rest)⟩
  · exact Or.inr ⟨rfl, (map_ne_overrun c).mpr hx⟩

theorem Agrees.push {x : List Text → List Char → Except Stop (List Cmdline)}
    {y : List Text → Except Stop (List Cmdline)} {arg : Text}
    (h : Agrees (x (argv ++ [arg])) (y (argv ++ [arg]))) :
    Agrees (fun rest ↦ push argv arg fun argv ↦ x argv rest) (push argv arg y) := by
  unfold ConfdCmd.push
  split_ifs
  · exact .of_eq nofun
  · exact h

theorem bind_cons (x : Except Stop (List Cmdline)) (c : Cmdline) :
    (do let next ← x; Except.ok (c :: next)) = x.map (c :: ·) := by
  rcases x with e | l
  · rfl
  · rfl

/-- One round of the loop, from the next letter that is not a blank on. -/
theorem readWords_succ (ht : nul ∉ t) : readWords lineno (fuel + 1) argv (t ++ nul :: rest) =
    match t.dropWhile isspace with
    | [] => .ok [⟨lineno, argv⟩]
    | c :: u =>
      if c = '#' then .ok [⟨lineno, argv⟩]
      else if c = ';' then (readLine lineno fuel (u ++ nul :: rest)).map (⟨lineno, argv⟩ :: ·)
      else if c = '"' then
        push argv (u.takeWhile fun c ↦ !endsWord true c) fun argv ↦
          readWords lineno fuel argv ((u.dropWhile fun c ↦ !endsWord true c) ++ nul :: rest).tail
      else
        push argv ((c :: u).takeWhile fun c ↦ !endsWord false c) fun argv ↦
          readWords lineno fuel argv
            (((c :: u).dropWhile fun c ↦ !endsWord false c) ++ nul :: rest) := by
  have hnot : nul ∉ t.dropWhile isspace := fun h ↦ ht ((List.dropWhile_sublist _).subset h)
  rw [readWords, skipSpace_append]
  simp only [bind, Except.bind]
  rcases hu : t.dropWhile isspace with - | ⟨c, u⟩
  · rfl
  · rw [hu, List.mem_cons, not_or] at hnot
    simp only [List.cons_append, List.head?_cons, List.tail_cons, Option.some.injEq,
      Ne.symm hnot.1, false_or]
    by_cases hhash : c = '#'
    · rw [if_pos hhash, if_pos hhash]
    · rw [if_neg hhash, if_neg hhash]
      by_cases hsemi : c = ';'
      · rw [if_pos hsemi, if_pos hsemi]
        exact bind_cons _ _
      · rw [if_neg hsemi, if_neg hsemi]
        by_cases hquote : c = '"'
        · simp only [hquote, if_true, decide_true, scanWord_append true hnot.2]
          rfl
        · have hword := scanWord_append false (t := c :: u)
            (by rw [List.mem_cons, not_or]; exact hnot) rest
          rw [List.cons_append] at hword
          simp only [hquote, if_false, decide_false, hword]
          rfl

theorem notMem_dropWhile {p : Char → Bool} (ht : nul ∉ t) : nul ∉ t.dropWhile p := fun h ↦
  ht ((List.dropWhile_sublist p).subset h)

/-- Behind a quote that is closed, and behind the zero byte. -/
theorem exists_dropWhile_quote (ht : nul ∉ t) (rest : List Char) :
    ((t.dropWhile fun c ↦ !endsWord true c) ++ nul :: rest).tail =
      if '"' ∈ t then (t.dropWhile fun c ↦ !endsWord true c).tail ++ nul :: rest else rest := by
  induction t with
  | nil => rfl
  | cons c t ih =>
    rw [List.mem_cons, not_or] at ht
    have hends : endsWord true c = (c == '"') := by
      rw [endsWord, beq_false_of_ne (Ne.symm ht.1)]
      rfl
    rw [List.dropWhile_cons, hends]
    by_cases hquote : c = '"'
    · subst hquote
      simp
    · have hmem : '"' ∈ c :: t ↔ '"' ∈ t := by
        rw [List.mem_cons, or_iff_right (Ne.symm hquote)]
      simp only [beq_false_of_ne hquote, Bool.not_false, if_true, hmem]
      exact ih ht.2

theorem agrees_readWords_nul (hfuel : 1 ≤ fuel) :
    readWords lineno fuel argv [nul] ≠ .error .overrun := by
  obtain ⟨fuel, rfl⟩ := Nat.exists_eq_add_of_le' hfuel
  exact nofun

/-- One round of the loop, when everything behind it agrees. -/
theorem agrees_readWords {n : ℕ}
    (hwords : ∀ {t : Text} {fuel : ℕ} {argv : List Text}, t.length < n → nul ∉ t →
      2 * t.length + 1 ≤ fuel → Agrees (fun rest ↦ readWords lineno fuel argv (t ++ nul :: rest))
        (lex lineno .between argv t))
    (hline : ∀ {t : Text} {fuel : ℕ}, t.length < n → nul ∉ t → 2 * t.length + 2 ≤ fuel →
      Agrees (fun rest ↦ readLine lineno fuel (t ++ nul :: rest)) (lex lineno .start [] t))
    (hlength : t.length ≤ n) (ht : nul ∉ t) (hfuel : 2 * t.length + 1 ≤ fuel) :
    Agrees (fun rest ↦ readWords lineno fuel argv (t ++ nul :: rest))
      (lex lineno .between argv t) := by
  obtain ⟨fuel, rfl⟩ : ∃ f, fuel = f + 1 := ⟨fuel - 1, by omega⟩
  simp only [readWords_succ ht]
  rw [lex_between_dropWhile]
  have hnot := notMem_dropWhile (p := isspace) ht
  have hle := (List.dropWhile_sublist isspace (l := t)).length_le
  have hhead := List.head?_dropWhile_not isspace t
  rcases hu : t.dropWhile isspace with - | ⟨c, u⟩
  · exact .of_eq nofun
  · rw [hu, List.mem_cons, not_or] at hnot
    rw [hu, List.length_cons] at hle
    rw [hu] at hhead
    have hspace : isspace c = false := by simpa using hhead
    have hquoted := (List.dropWhile_sublist (fun c ↦ !endsWord true c) (l := u)).length_le
    have hword := (List.dropWhile_sublist (fun c ↦ !endsWord false c) (l := u)).length_le
    simp only [lex, hspace, Bool.false_eq_true, if_false]
    by_cases hhash : c = '#'
    · simp only [if_pos hhash]
      exact .of_eq nofun
    · simp only [if_neg hhash]
      by_cases hsemi : c = ';'
      · simp only [if_pos hsemi]
        exact (hline (by omega) hnot.2 (by omega)).map _
      · simp only [if_neg hsemi]
        by_cases hquote : c = '"'
        · simp only [if_pos hquote, lex_quoted [] hnot.2, List.nil_append,
            exists_dropWhile_quote hnot.2]
          refine Agrees.push ?_
          by_cases hmem : '"' ∈ u
          · simp only [if_pos hmem]
            have htail := List.length_tail (l := u.dropWhile fun c ↦ !endsWord true c)
            exact hwords (by omega)
              (fun h ↦ notMem_dropWhile hnot.2 (List.mem_of_mem_tail h)) (by omega)
          · simp only [if_neg hmem]
            exact Or.inr ⟨rfl, agrees_readWords_nul (by omega)⟩
        · have hends : endsWord false c = false := by
            simp [endsWord, Ne.symm hnot.1, hspace, hhash, hsemi]
          simp only [if_neg hquote, lex_word [c] hnot.2, List.singleton_append,
            List.takeWhile_cons, List.dropWhile_cons, hends, Bool.not_false, if_true]
          exact Agrees.push (hwords (by omega) (notMem_dropWhile hnot.2) (by omega))

theorem lex_start_eq {c : Char} {u : Text} (hspace : isspace c = false) (hhash : c ≠ '#') :
    lex lineno .start argv (c :: u) = lex lineno .between argv (c :: u) := by
  simp only [lex, hspace, Bool.false_eq_true, if_false, if_neg hhash]

/-- The beginning of a command, when its words agree. -/
theorem agrees_readLine
    (hwords : ∀ {u : Text}, u.length ≤ t.length → nul ∉ u →
      Agrees (fun rest ↦ readWords lineno fuel [] (u ++ nul :: rest)) (lex lineno .between [] u))
    (ht : nul ∉ t) : Agrees (fun rest ↦ readLine lineno (fuel + 1) (t ++ nul :: rest))
      (lex lineno .start [] t) := by
  simp only [readLine, skipSpace_append, bind, Except.bind]
  rw [lex_start_dropWhile]
  have hnot := notMem_dropWhile (p := isspace) ht
  have hle := (List.dropWhile_sublist isspace (l := t)).length_le
  have hhead := List.head?_dropWhile_not isspace t
  rcases hu : t.dropWhile isspace with - | ⟨c, u⟩
  · exact .of_eq nofun
  · rw [hu] at hnot hle hhead
    have hspace : isspace c = false := by simpa using hhead
    have hnul : c ≠ nul := fun h ↦ hnot (h ▸ List.mem_cons_self)
    by_cases hhash : c = '#'
    · subst hhash
      exact .of_eq nofun
    · rw [lex_start_eq hspace hhash]
      simp only [List.cons_append, List.head?_cons, Option.some.injEq, hnul, hhash, or_self,
        if_false]
      exact hwords hle hnot

/-- **Reading a line agrees with the machine**, by induction on what is left of the line. -/
theorem agrees (lineno n : ℕ) :
    (∀ {t : Text} {fuel : ℕ} {argv : List Text}, t.length < n → nul ∉ t → 2 * t.length + 1 ≤ fuel →
      Agrees (fun rest ↦ readWords lineno fuel argv (t ++ nul :: rest))
        (lex lineno .between argv t)) ∧
    ∀ {t : Text} {fuel : ℕ}, t.length < n → nul ∉ t → 2 * t.length + 2 ≤ fuel →
      Agrees (fun rest ↦ readLine lineno fuel (t ++ nul :: rest)) (lex lineno .start [] t) := by
  induction n with
  | zero => exact ⟨fun h ↦ absurd h (Nat.not_lt_zero _), fun h ↦ absurd h (Nat.not_lt_zero _)⟩
  | succ n ih =>
    refine ⟨fun hlength ht hfuel ↦
      agrees_readWords ih.1 ih.2 (Nat.le_of_lt_succ hlength) ht hfuel,
      fun {t fuel} hlength ht hfuel ↦ ?_⟩
    obtain ⟨fuel, rfl⟩ : ∃ f, fuel = f + 1 := ⟨fuel - 1, by omega⟩
    refine agrees_readLine (fun hu hnot ↦ ?_) ht
    exact agrees_readWords ih.1 ih.2 (hu.trans (Nat.le_of_lt_succ hlength)) hnot (by omega)

/-- **A line is what the machine says, and nothing behind it is read, unless a quote is open.** -/
theorem readLine_eq_lex_iff (lineno : ℕ) {t : Text} (ht : nul ∉ t) :
    (∀ rest, readLineOf lineno (t ++ nul :: rest) = lex lineno .start [] t) ↔
      lex lineno .start [] t ≠ .error .overrun := by
  have hagrees (rest : List Char) : Agrees (fun rest' ↦
      readLine lineno (2 * (t ++ nul :: rest).length + 2) (t ++ nul :: rest'))
      (lex lineno .start [] t) := by
    refine (agrees lineno (t.length + 1)).2 (Nat.lt_succ_self _) ht ?_
    rw [List.length_append]
    omega
  constructor
  · intro h hover
    rcases hagrees [nul] with ⟨hne, -⟩ | ⟨-, hread⟩
    · exact hne hover
    · exact hread ((h [nul]).trans hover)
  · intro hne rest
    rcases hagrees rest with ⟨-, hread⟩ | ⟨hover, -⟩
    · exact hread rest
    · exact absurd hover hne

theorem readLine_eq_lex_iff_open_quote :
    ¬∀ rest, readLineOf 2 ("w \"/b\n".toList ++ nul :: rest) =
      lex 2 .start [] "w \"/b\n".toList := by
  rw [readLine_eq_lex_iff 2 (by decide)]
  exact fun h ↦ h rfl

/-- The end of the longer line is run again. -/
example : readFile 40 (List.replicate 40 nul) "w /a 10 ; trigger 5\nw \"/b\n".toList =
    .ok [⟨1, ["w".toList, "/a".toList, "10".toList]⟩, ⟨1, ["trigger".toList, "5".toList]⟩,
      ⟨2, ["w".toList, "/b\n".toList]⟩, ⟨2, ["trigger".toList, "5".toList]⟩] := by
  decide +kernel

/-! ## What is printed is read again -/

/-- The commands of one line. -/
def lineText : List Cmdline → Text
  | [] => []
  | c :: cs => printCommand c.argv ++ cs.flatMap fun d ↦ " ; ".toList ++ printCommand d.argv

/-- The first word of a command is printed without quotes. -/
def IsName (w : Text) : Prop := w ≠ [] ∧ w.head? ≠ some '"' ∧ ∀ c ∈ w, endsWord false c = false

def IsArg (w : Text) : Prop := ∀ c ∈ w, c ≠ '"' ∧ c ≠ nul ∧ c ≠ '\n'

def IsCommand : List Text → Prop
  | [] => True
  | name :: args => IsName name ∧ (∀ arg ∈ args, IsArg arg) ∧ args.length < maxArgs

instance (w : Text) : Decidable (IsName w) :=
  letI : Decidable (∀ c ∈ w, endsWord false c = false) := List.decidableBAll _ w
  inferInstanceAs (Decidable (_ ∧ _ ∧ _))

instance (w : Text) : Decidable (IsArg w) := List.decidableBAll _ w

instance : DecidablePred IsCommand
  | [] => inferInstanceAs (Decidable True)
  | _ :: _ => inferInstanceAs (Decidable (_ ∧ _ ∧ _))

/-- The commands of one line in a script. -/
def commandsOf (program : List Cmdline) (n : ℕ) : List Cmdline :=
  program.filter fun c ↦ c.lineno = n

/-- A script that can be printed. A semicolon at the end of a line adds a command without words, and
it is not read again. -/
structure Printable (bufsiz : ℕ) (program : List Cmdline) : Prop where
  sorted : program.Pairwise fun c d ↦ c.lineno ≤ d.lineno
  pos : ∀ c ∈ program, 1 ≤ c.lineno
  command : ∀ c ∈ program, IsCommand c.argv
  ends : ∀ n, ∀ c ∈ (commandsOf program n).getLast?, c.argv ≠ []
  short : ∀ n, (lineText (commandsOf program n)).length + 1 < bufsiz

/-! ### A line -/

theorem lex_quoted_append {arg : Text} (harg : '"' ∉ arg) (acc t : Text) :
    lex lineno (.quoted acc) argv (arg ++ '"' :: t) =
      push argv (acc ++ arg) fun argv ↦ lex lineno .between argv t := by
  induction arg generalizing acc with
  | nil => rw [List.append_nil, List.nil_append, lex, if_pos rfl]
  | cons c arg ih =>
    rw [List.mem_cons, not_or] at harg
    rw [List.cons_append, lex, if_neg (Ne.symm harg.1), ih harg.2, List.append_assoc]
    rfl

theorem lex_printArgs {args : List Text} (hargs : ∀ arg ∈ args, IsArg arg)
    (hlength : argv.length + args.length ≤ maxArgs) (t : Text) :
    lex lineno .between argv (printArgs args ++ t) = lex lineno .between (argv ++ args) t := by
  induction args generalizing argv with
  | nil => rw [List.append_nil]; rfl
  | cons arg args ih =>
    rw [List.length_cons] at hlength
    have hquote : '"' ∉ arg := fun h ↦ (hargs arg List.mem_cons_self '"' h).1 rfl
    have hroom : argv.length ≠ maxArgs := by omega
    have htext : printArgs (arg :: args) ++ t =
        ' ' :: '"' :: (arg ++ '"' :: (printArgs args ++ t)) := by simp [printArgs]
    have hstep : lex lineno .between argv (' ' :: '"' :: (arg ++ '"' :: (printArgs args ++ t))) =
        lex lineno (.quoted []) argv (arg ++ '"' :: (printArgs args ++ t)) := rfl
    rw [htext, hstep, lex_quoted_append hquote, push, if_neg hroom, List.nil_append]
    rw [ih (fun a ha ↦ hargs a (List.mem_cons_of_mem _ ha))
      (by rw [List.length_append, List.length_singleton]; omega), List.append_assoc]
    rfl

theorem notEnds_iff {c : Char} :
    endsWord false c = false ↔ c ≠ nul ∧ isspace c = false ∧ c ≠ '#' ∧ c ≠ ';' := by
  simp [endsWord, and_assoc]

theorem lex_word_append {w : Text} (hw : ∀ c ∈ w, endsWord false c = false) (acc t : Text) :
    lex lineno (.word acc) argv (w ++ t) = lex lineno (.word (acc ++ w)) argv t := by
  induction w generalizing acc with
  | nil => rw [List.append_nil]; rfl
  | cons c w ih =>
    obtain ⟨-, hc⟩ := notEnds_iff.mp (hw c List.mem_cons_self)
    rw [List.cons_append, lex, if_neg (by simp [hc.1]), if_neg hc.2.1, if_neg hc.2.2,
      ih (fun d hd ↦ hw d (List.mem_cons_of_mem _ hd)), List.append_assoc]
    rfl

/-- The name of a command, with a blank behind it. -/
theorem lex_name {name : Text} (hname : IsName name) {s : Char} (hs : isspace s = true) (t : Text) :
    lex lineno .start [] (name ++ s :: t) = lex lineno .between [name] (s :: t) := by
  obtain ⟨hne, hquote, hw⟩ := hname
  obtain ⟨c, w, rfl⟩ := List.exists_cons_of_ne_nil hne
  obtain ⟨-, hc⟩ := notEnds_iff.mp (hw c List.mem_cons_self)
  have hquote : c ≠ '"' := fun h ↦ hquote (by rw [h]; rfl)
  have hend : lex lineno (.word (c :: w)) [] (s :: t) = lex lineno .between [c :: w] (s :: t) := by
    rw [lex, if_pos hs, lex, if_pos hs]
    rfl
  rw [List.cons_append, lex, if_neg (by simp [hc.1]), if_neg hc.2.1, if_neg hc.2.2, if_neg hquote,
    lex_word_append (fun d hd ↦ hw d (List.mem_cons_of_mem _ hd)), List.singleton_append, hend]

/-- A command with words, and a blank behind it. -/
theorem lex_printCommand {argv : List Text} (h : IsCommand argv) (hne : argv ≠ []) {s : Char}
    (hs : isspace s = true) (t : Text) : lex lineno .start [] (printCommand argv ++ s :: t) =
      lex lineno .between argv (s :: t) := by
  obtain ⟨name, args, rfl⟩ := List.exists_cons_of_ne_nil hne
  obtain ⟨hname, hargs, hlength⟩ := h
  have hroom : [name].length + args.length ≤ maxArgs := by
    rw [List.length_singleton]
    omega
  rw [printCommand, List.append_assoc]
  rcases args with - | ⟨arg, args⟩
  · exact lex_name hname hs t
  · have hblank : printArgs (arg :: args) ++ s :: t =
        ' ' :: ('"' :: arg ++ '"' :: printArgs args ++ s :: t) := by simp [printArgs]
    rw [hblank, lex_name hname (by decide), ← hblank, lex_printArgs hargs hroom,
      List.singleton_append]

/-- A semicolon between two commands. -/
theorem lex_semicolon {argv : List Text} (h : IsCommand argv) (t : Text) :
    lex lineno .start [] (printCommand argv ++ (" ; ".toList ++ t)) =
      (lex lineno .start [] t).map (⟨lineno, argv⟩ :: ·) := by
  rcases argv with - | ⟨name, args⟩
  · rfl
  · have hblank : isspace ' ' = true := by decide
    exact (lex_printCommand h (List.cons_ne_nil _ _) hblank (';' :: ' ' :: t)).trans rfl

theorem lex_lineText {c : Cmdline} {cs : List Cmdline} (hlineno : ∀ d ∈ c :: cs, d.lineno = lineno)
    (hcommand : ∀ d ∈ c :: cs, IsCommand d.argv)
    (hends : ∀ d ∈ (c :: cs).getLast?, d.argv ≠ []) :
    lex lineno .start [] (lineText (c :: cs) ++ ['\n']) = .ok (c :: cs) := by
  induction cs generalizing c with
  | nil =>
    have hne : c.argv ≠ [] := hends c rfl
    have hc : (⟨lineno, c.argv⟩ : Cmdline) = c := by
      rw [← hlineno c List.mem_cons_self]
    rw [lineText, List.flatMap_nil, List.append_nil,
      lex_printCommand (hcommand c List.mem_cons_self) hne (by decide)]
    exact congrArg (fun c ↦ Except.ok [c]) hc
  | cons d cs ih =>
    have hc : (⟨lineno, c.argv⟩ : Cmdline) = c := by
      rw [← hlineno c List.mem_cons_self]
    have htext : lineText (c :: d :: cs) ++ ['\n'] =
        printCommand c.argv ++ (" ; ".toList ++ (lineText (d :: cs) ++ ['\n'])) := by
      simp only [lineText, List.flatMap_cons, List.append_assoc]
    rw [htext, lex_semicolon (hcommand c List.mem_cons_self),
      ih (fun e he ↦ hlineno e (List.mem_cons_of_mem _ he))
        (fun e he ↦ hcommand e (List.mem_cons_of_mem _ he))
        (by rwa [List.getLast?_cons_cons] at hends), hc]
    rfl

/-! ### A script -/

theorem notMem_printCommand {argv : List Text} (h : IsCommand argv) :
    nul ∉ printCommand argv ∧ '\n' ∉ printCommand argv := by
  have hargs {args : List Text} (hargs : ∀ arg ∈ args, IsArg arg) :
      nul ∉ printArgs args ∧ '\n' ∉ printArgs args := by
    induction args with
    | nil => exact ⟨List.not_mem_nil, List.not_mem_nil⟩
    | cons arg args ih =>
      obtain ⟨hnul, hend⟩ := ih fun a ha ↦ hargs a (List.mem_cons_of_mem _ ha)
      have hnul' : nul ∉ arg := fun hmem ↦ (hargs arg List.mem_cons_self nul hmem).2.1 rfl
      have hend' : '\n' ∉ arg := fun hmem ↦ (hargs arg List.mem_cons_self '\n' hmem).2.2 rfl
      simp only [printArgs, List.mem_append, List.mem_cons, not_or]
      exact ⟨⟨⟨by decide, hnul'⟩, by decide, hnul⟩, ⟨by decide, hend'⟩, by decide, hend⟩
  rcases argv with - | ⟨name, args⟩
  · exact ⟨List.not_mem_nil, List.not_mem_nil⟩
  · obtain ⟨⟨-, -, hname⟩, hall, -⟩ := h
    obtain ⟨hnul, hend⟩ := hargs hall
    rw [printCommand, List.mem_append, List.mem_append, not_or, not_or]
    exact ⟨⟨fun hmem ↦ (notEnds_iff.mp (hname _ hmem)).1 rfl, hnul⟩,
      fun hmem ↦ absurd (notEnds_iff.mp (hname _ hmem)).2.1 (by decide), hend⟩

theorem notMem_lineText {cs : List Cmdline} (h : ∀ c ∈ cs, IsCommand c.argv) :
    nul ∉ lineText cs ∧ '\n' ∉ lineText cs := by
  rcases cs with - | ⟨c, cs⟩
  · exact ⟨List.not_mem_nil, List.not_mem_nil⟩
  · obtain ⟨hnul, hend⟩ := notMem_printCommand (h c List.mem_cons_self)
    simp only [lineText, List.mem_append, List.mem_flatMap, not_or, not_exists, not_and]
    refine ⟨⟨hnul, fun d hd ↦ ⟨by decide, ?_⟩⟩, hend, fun d hd ↦ ⟨by decide, ?_⟩⟩
    · exact (notMem_printCommand (h d (List.mem_cons_of_mem _ hd))).1
    · exact (notMem_printCommand (h d (List.mem_cons_of_mem _ hd))).2

/-- What is printed from the line `line` on, where the commands begin. -/
def remainder (line : ℕ) (cs : List Cmdline) : Text :=
  if cs = [] then [] else printFrom none line cs

theorem printFrom_ne_nil (prev : Option ℕ) (line : ℕ) (cs : List Cmdline) :
    printFrom prev line cs ≠ [] := by
  induction cs generalizing prev line with
  | nil => exact List.cons_ne_nil _ _
  | cons c cs ih =>
    rw [printFrom]
    exact List.append_ne_nil_of_right_ne_nil _ (ih _ _)

theorem remainder_eq_nil_iff {line : ℕ} {cs : List Cmdline} : remainder line cs = [] ↔ cs = [] := by
  rw [remainder]
  split_ifs with h
  · exact iff_of_true rfl h
  · exact iff_of_false (printFrom_ne_nil none line cs) h

/-- The commands of later lines, from the end of a line on. -/
theorem printFrom_later {line : ℕ} {prev : Option ℕ} {cs : List Cmdline}
    (hprev : ∀ n ∈ prev, n ≤ line) (hcs : ∀ c ∈ cs, line < c.lineno) :
    printFrom prev line cs = '\n' :: remainder (line + 1) cs := by
  rcases cs with - | ⟨c, cs⟩
  · rfl
  · have hlt := hcs c List.mem_cons_self
    have hne : prev ≠ some c.lineno := fun heq ↦ by
      have := hprev c.lineno heq
      omega
    obtain ⟨k, hk⟩ := Nat.exists_eq_add_of_lt hlt
    have hlines : c.lineno - line = (c.lineno - (line + 1)) + 1 := by omega
    have hmax : max line c.lineno = max (line + 1) c.lineno := by omega
    rw [remainder, if_neg (List.cons_ne_nil c cs), printFrom, printFrom, if_neg hne,
      if_neg nofun, hlines, List.replicate_succ, hmax]
    rfl

theorem printFrom_same {line : ℕ} {cs later : List Cmdline} (hcs : ∀ c ∈ cs, c.lineno = line)
    (hlater : ∀ c ∈ later, line < c.lineno) : printFrom (some line) line (cs ++ later) =
      (cs.flatMap fun d ↦ " ; ".toList ++ printCommand d.argv) ++
        '\n' :: remainder (line + 1) later := by
  induction cs with
  | nil => exact printFrom_later (fun n hn ↦ (Option.some.inj hn).ge) hlater
  | cons c cs ih =>
    have hc := hcs c List.mem_cons_self
    rw [List.cons_append, printFrom, hc, Nat.sub_self, if_pos rfl, Nat.max_self,
      ih fun d hd ↦ hcs d (List.mem_cons_of_mem _ hd), List.flatMap_cons]
    simp only [List.replicate_zero, List.nil_append, List.append_assoc]

/-- The first line has no commands if the next ones are in later lines. -/
theorem printFrom_append {line : ℕ} {cs later : List Cmdline} (hcs : ∀ c ∈ cs, c.lineno = line)
    (hlater : ∀ c ∈ later, line < c.lineno) :
    printFrom none line (cs ++ later) = lineText cs ++ '\n' :: remainder (line + 1) later := by
  rcases cs with - | ⟨c, cs⟩
  · exact printFrom_later nofun hlater
  · have hc := hcs c List.mem_cons_self
    rw [List.cons_append, printFrom, hc, Nat.sub_self, if_neg nofun, Nat.max_self,
      printFrom_same (fun d hd ↦ hcs d (List.mem_cons_of_mem _ hd)) hlater, lineText]
    simp only [List.replicate_zero, List.nil_append, List.append_assoc]

/-- The commands from a line on. -/
def commandsFrom (program : List Cmdline) (line : ℕ) : List Cmdline :=
  program.filter fun c ↦ line ≤ c.lineno

theorem commandsFrom_eq {program : List Cmdline}
    (h : program.Pairwise fun c d ↦ c.lineno ≤ d.lineno) (line : ℕ) :
    commandsFrom program line = commandsOf program line ++ commandsFrom program (line + 1) := by
  induction program with
  | nil => rfl
  | cons c cs ih =>
    obtain ⟨hc, hcs⟩ := List.pairwise_cons.mp h
    have ih := ih hcs
    rw [commandsFrom, commandsOf, commandsFrom, List.filter_cons, List.filter_cons,
      List.filter_cons]
    rw [commandsFrom, commandsOf, commandsFrom] at ih
    rcases lt_trichotomy c.lineno line with hlt | heq | hlt
    · rw [if_neg (by simp; omega), if_neg (by simp; omega), if_neg (by simp; omega), ih]
    · rw [if_pos (by simp; omega), if_pos (by simp; omega), if_neg (by simp; omega), ih,
        List.cons_append]
    · have hnone : cs.filter (fun d ↦ decide (d.lineno = line)) = [] := by
        refine List.filter_eq_nil_iff.mpr fun d hd heq ↦ ?_
        have := hc d hd
        have := of_decide_eq_true heq
        omega
      rw [hnone, List.nil_append] at ih
      rw [if_pos (by simp; omega), if_neg (by simp; omega), if_pos (by simp; omega), hnone, ih]
      rfl

theorem fgets_append {l f : Text} {n : ℕ} (hl : '\n' ∉ l) (hn : l.length < n) :
    fgets n (l ++ '\n' :: f) = (l ++ ['\n'], f) := by
  induction l generalizing n with
  | nil =>
    obtain ⟨n, rfl⟩ := Nat.exists_eq_add_of_lt hn
    rfl
  | cons c l ih =>
    rw [List.mem_cons, not_or] at hl
    obtain ⟨n, rfl⟩ : ∃ m, n = m + 1 := ⟨n - 1, by omega⟩
    rw [List.cons_append, fgets, if_neg (Ne.symm hl.1),
      ih hl.2 (Nat.lt_of_succ_lt_succ hn)]
    rfl

theorem store_eq_some {line l : List Char} (h : l.length < line.length) :
    CString.store line 0 (l ++ [nul]) = some (l ++ nul :: line.drop (l.length + 1)) := by
  rw [CString.store, if_pos (by rw [List.length_append, List.length_singleton]; omega),
    List.take_zero, List.nil_append, Nat.zero_add, List.length_append, List.length_singleton,
    List.append_assoc]
  rfl

theorem lex_commandsOf {program : List Cmdline} {bufsiz : ℕ} (h : Printable bufsiz program)
    (line : ℕ) : lex line .start [] (lineText (commandsOf program line) ++ ['\n']) =
      .ok (commandsOf program line) := by
  have hends := h.ends line
  have hmem : ∀ c ∈ commandsOf program line, c ∈ program ∧ c.lineno = line := fun c hc ↦ by
    simpa [commandsOf] using hc
  rcases hcs : commandsOf program line with - | ⟨c, cs⟩
  · rfl
  · rw [hcs] at hends hmem
    exact lex_lineText (fun d hd ↦ (hmem d hd).2) (fun d hd ↦ h.command d (hmem d hd).1) hends

theorem printFrom_commandsFrom {program : List Cmdline} {bufsiz : ℕ} (h : Printable bufsiz program)
    (line : ℕ) : printFrom none line (commandsFrom program line) =
      lineText (commandsOf program line) ++
        '\n' :: remainder (line + 1) (commandsFrom program (line + 1)) := by
  rw [commandsFrom_eq h.sorted line]
  refine printFrom_append (fun c hc ↦ ?_) fun c hc ↦ ?_
  · simpa using (List.mem_filter.mp hc).2
  · have hle : line + 1 ≤ c.lineno := by simpa using (List.mem_filter.mp hc).2
    exact hle

/-- One line is read, whatever the buffer holds behind it. -/
theorem readLines_line {program : List Cmdline} {bufsiz : ℕ} (h : Printable bufsiz program)
    {buf : List Char} (hbuf : buf.length = bufsiz) (fuel line : ℕ) (f : Text) :
    ∃ buf', buf'.length = bufsiz ∧
      readLines bufsiz (fuel + 1) line buf (lineText (commandsOf program line) ++ '\n' :: f) =
        (readLines bufsiz fuel (line + 1) buf' f).map (commandsOf program line ++ ·) := by
  have hcommand : ∀ c ∈ commandsOf program line, IsCommand c.argv := fun c hc ↦
    h.command c (List.mem_filter.mp hc).1
  obtain ⟨hnul, hend⟩ := notMem_lineText hcommand
  have hshort := h.short line
  set l := lineText (commandsOf program line) with hl
  have hlength : (l ++ ['\n']).length < buf.length := by
    rw [List.length_append, List.length_singleton]
    omega
  have hread := (readLine_eq_lex_iff line (t := l ++ ['\n']) (by
    rw [List.mem_append, not_or]
    exact ⟨hnul, by decide⟩)).mpr (by rw [hl, lex_commandsOf h]; exact nofun)
  refine ⟨l ++ ['\n'] ++ nul :: buf.drop ((l ++ ['\n']).length + 1), ?_, ?_⟩
  · rw [List.length_append, List.length_cons, List.length_drop]
    omega
  · rw [readLines, if_neg (List.append_ne_nil_of_right_ne_nil l (List.cons_ne_nil _ _))]
    simp only [fgets_append hend (by omega : l.length < bufsiz - 1), store_eq_some hlength, hread]
    rw [hl, lex_commandsOf h]
    rcases readLines bufsiz fuel (line + 1) _ f with e | rest
    · rfl
    · rfl

theorem readLines_remainder {program : List Cmdline} {bufsiz : ℕ} (h : Printable bufsiz program)
    {fuel line : ℕ} {buf : List Char} (hbuf : buf.length = bufsiz)
    (hfuel : (remainder line (commandsFrom program line)).length ≤ fuel) :
    readLines bufsiz fuel line buf (remainder line (commandsFrom program line)) =
      .ok (commandsFrom program line) := by
  induction fuel generalizing line buf with
  | zero =>
    rw [remainder_eq_nil_iff.mp (List.eq_nil_of_length_eq_zero (Nat.le_zero.mp hfuel))]
    rfl
  | succ fuel ih =>
    by_cases hnil : commandsFrom program line = []
    · rw [hnil]
      rfl
    · rw [remainder, if_neg hnil, printFrom_commandsFrom h, List.length_append,
        List.length_cons] at hfuel
      obtain ⟨buf', hbuf', hread⟩ := readLines_line h hbuf fuel line
        (remainder (line + 1) (commandsFrom program (line + 1)))
      rw [remainder, if_neg hnil, printFrom_commandsFrom h, hread, ih hbuf' (by omega),
        commandsFrom_eq h.sorted line]
      rfl

/-- **A script that can be printed is read again as it was**, whatever the buffer holds. -/
theorem readFile_printScript {bufsiz : ℕ} {program : List Cmdline} (h : Printable bufsiz program)
    {line : List Char} (hline : line.length = bufsiz) :
    readFile bufsiz line (printScript program) = .ok program := by
  have hall : commandsFrom program 1 = program := by
    refine List.filter_eq_self.mpr fun c hc ↦ ?_
    simpa using h.pos c hc
  have hprint := printFrom_commandsFrom h 1
  rw [hall] at hprint
  obtain ⟨buf', hbuf', hread⟩ := readLines_line h hline
    ((lineText (commandsOf program 1)).length + (remainder 2 (commandsFrom program 2)).length) 1
    (remainder 2 (commandsFrom program 2))
  rw [readFile, printScript, hprint, List.length_append, List.length_cons, ← Nat.add_assoc, hread,
    readLines_remainder h hbuf' (Nat.le_add_left _ _)]
  have hsplit := commandsFrom_eq h.sorted 1
  rw [hall] at hsplit
  exact congrArg Except.ok hsplit.symm

/-- Two commands in one line, with one without words between them, and one two lines below. -/
def subscribeScript : List Cmdline :=
  [⟨1, ["w".toList, "/servers/server {a}".toList]⟩, ⟨1, []⟩, ⟨1, ["trigger".toList, "5".toList]⟩,
    ⟨3, ["sm".toList, "/".toList]⟩]

theorem readFile_printScript_subscribeScript :
    readFile 80 (List.replicate 80 'x') (printScript subscribeScript) = .ok subscribeScript := by
  have hlines (n : ℕ) : n = 1 ∨ n = 3 ∨ commandsOf subscribeScript n = [] := by
    by_cases hone : n = 1
    · exact Or.inl hone
    · by_cases hthree : n = 3
      · exact Or.inr (Or.inl hthree)
      · exact Or.inr (Or.inr (by simp [commandsOf, subscribeScript, Ne.symm hone, Ne.symm hthree]))
  refine readFile_printScript ⟨by decide, by decide, by decide, fun n ↦ ?_, fun n ↦ ?_⟩
    List.length_replicate
  · rcases hlines n with rfl | rfl | hnone
    · decide
    · decide
    · rw [hnone]
      exact nofun
  · rcases hlines n with rfl | rfl | hnone
    · decide
    · decide
    · rw [hnone]
      decide

end ConfdDemos.ConfdCmd
