import Mathlib.Data.List.Basic

/-!
# gNMI paths as strings

A gNMI path is a list of elements, each a name with keys. MAAPI and CDB take a path as a string,
which `make_formatted_path` builds and in which `fix_path_prefixes` replaces module names by
prefixes.

Strings are lists of characters, so that a statement about a path is one about a list.

## Prefixes

`fix_path_prefixes` is a regular expression substitution. A match is a run of characters other than
`/` and `:` that a `:` follows, so one pass from left to right that remembers the run since the last
`/` or `:` finds all of them.
-/

namespace ConfdDemos.Gnmi

/-! ## Paths -/

structure PathElem where
  name : List Char
  /-- The keys in the order in which they are iterated. -/
  key : List (List Char × List Char)
  deriving DecidableEq, Repr

structure Path where
  elem : List PathElem
  deriving DecidableEq, Repr

/-- The text of one key, as a predicate of an XPath or as a part of a keypath. -/
def keyText (quoteVal xpath : Bool) (q : List Char × List Char) : List Char :=
  let val := if quoteVal then '"' :: q.2 ++ ['"'] else q.2
  if xpath then '[' :: q.1 ++ '=' :: val ++ [']'] else '{' :: val ++ ['}']

def elemText (quoteVal xpath : Bool) (e : PathElem) : List Char :=
  '/' :: e.name ++ e.key.flatMap (keyText quoteVal xpath)

/-- `make_path` of `_make_string_path`. -/
def makePath (quoteVal xpath : Bool) (p : Path) : List Char :=
  let path := p.elem.flatMap (elemText quoteVal xpath)
  if path = [] then ['/'] else path

/-- `_make_string_path`. -/
def makeStringPath (gnmiPath gnmiPrefix : Option Path) (quoteVal xpath : Bool) : List Char :=
  let start := match gnmiPrefix with
    | some p => if p.elem = [] then [] else makePath quoteVal xpath p
    | none => []
  match gnmiPath with
  | some p => start ++ makePath quoteVal xpath p
  | none => start

def makeFormattedPath (gnmiPath : Path) (gnmiPrefix : Option Path) (quoteVal : Bool) : List Char :=
  makeStringPath (some gnmiPath) gnmiPrefix quoteVal false

/-- A string path that starts at the root. -/
def IsAbsolute (path : List Char) : Prop := path.head? = some '/'

instance (path : List Char) : Decidable (IsAbsolute path) :=
  inferInstanceAs (Decidable (_ = _))

theorem isAbsolute_append {xs : List Char} (h : IsAbsolute xs) (ys : List Char) :
    IsAbsolute (xs ++ ys) := by
  cases xs with
  | nil => exact absurd h (by simp [IsAbsolute])
  | cons c xs => exact h

theorem isAbsolute_makePath (quoteVal xpath : Bool) (p : Path) :
    IsAbsolute (makePath quoteVal xpath p) := by
  obtain ⟨elem⟩ := p
  cases elem with
  | nil => rfl
  | cons e elem => simp [makePath, elemText, IsAbsolute]

/-- **A formatted path starts at the root**, whatever its prefix. -/
theorem isAbsolute_makeFormattedPath (gnmiPath : Path) (gnmiPrefix : Option Path)
    (quoteVal : Bool) : IsAbsolute (makeFormattedPath gnmiPath gnmiPrefix quoteVal) := by
  have hpath := isAbsolute_makePath quoteVal false gnmiPath
  cases gnmiPrefix with
  | none => exact hpath
  | some p =>
    simp only [makeFormattedPath, makeStringPath]
    split_ifs
    · exact hpath
    · exact isAbsolute_append (isAbsolute_makePath quoteVal false p) _

/-! ## Prefixes -/

/-- `module_to_pfx`, which `get_nslist` fills. A YANG prefix is an identifier. -/
structure Prefixes where
  moduleToPfx : List Char → Option (List Char)
  identifier : ∀ {name pfx : List Char}, moduleToPfx name = some pfx →
    pfx ≠ [] ∧ '/' ∉ pfx ∧ ':' ∉ pfx

namespace Prefixes

variable (P : Prefixes)

/-- `module_to_prefix`. -/
def moduleToPrefix (name : List Char) : List Char := (P.moduleToPfx name).getD name ++ [':']

/-- The substitution, with the characters read since the last `/` or `:`. -/
def fixFrom (run : List Char) : List Char → List Char
  | [] => run
  | c :: rest =>
    if c = '/' then run ++ '/' :: fixFrom [] rest
    -- the expression needs at least one character before the colon
    else if c = ':' then (if run = [] then [':'] else P.moduleToPrefix run) ++ fixFrom [] rest
    else fixFrom (run ++ [c]) rest

/-- `fix_path_prefixes`. -/
def fixPathPrefixes (path : List Char) : List Char := P.fixFrom [] path

variable {P}

theorem not_isAbsolute_append {xs : List Char} (hne : xs ≠ []) (hslash : '/' ∉ xs)
    (ys : List Char) : ¬ IsAbsolute (xs ++ ys) := by
  cases xs with
  | nil => exact absurd rfl hne
  | cons c xs =>
    intro h
    obtain rfl : c = '/' := by simpa [IsAbsolute] using h
    exact hslash List.mem_cons_self

theorem not_isAbsolute_moduleToPrefix {run : List Char} (hne : run ≠ []) (hslash : '/' ∉ run)
    (rest : List Char) : ¬ IsAbsolute (P.moduleToPrefix run ++ rest) := by
  rw [moduleToPrefix, List.append_assoc]
  cases hpfx : P.moduleToPfx run with
  | none => exact not_isAbsolute_append hne hslash _
  | some pfx =>
    obtain ⟨hpne, hpslash, -⟩ := P.identifier hpfx
    exact not_isAbsolute_append hpne hpslash _

/-- Once a character other than `/` has been read, the result does not start with `/`. -/
theorem not_isAbsolute_fixFrom {run : List Char} (hne : run ≠ []) (hslash : '/' ∉ run)
    (path : List Char) : ¬ IsAbsolute (P.fixFrom run path) := by
  induction path generalizing run with
  | nil =>
    rw [fixFrom, ← List.append_nil run]
    exact not_isAbsolute_append hne hslash []
  | cons c rest ih =>
    rw [fixFrom]
    split_ifs with hc hcolon
    · exact not_isAbsolute_append hne hslash _
    · exact not_isAbsolute_moduleToPrefix hne hslash _
    · exact ih (by simp) (by simp [hslash, Ne.symm hc])

/-- A name is rewritten to an absolute path exactly when it is one. -/
theorem isAbsolute_fixPathPrefixes {path : List Char} :
    IsAbsolute (P.fixPathPrefixes path) ↔ IsAbsolute path := by
  cases path with
  | nil => exact Iff.rfl
  | cons c rest =>
    rw [fixPathPrefixes, fixFrom]
    split_ifs with hc hcolon hnil
    · simp [IsAbsolute, hc]
    · simp [IsAbsolute, hcolon]
    · exact absurd rfl hnil
    · refine iff_of_false (not_isAbsolute_fixFrom (by simp) (by simpa using Ne.symm hc) rest) ?_
      simpa [IsAbsolute] using hc

/-- With no module to replace, the path stays as it is. -/
theorem fixFrom_of_none (h : ∀ name, P.moduleToPfx name = none) (run path : List Char) :
    P.fixFrom run path = run ++ path := by
  induction path generalizing run with
  | nil => rw [fixFrom, List.append_nil]
  | cons c rest ih =>
    rw [fixFrom]
    split_ifs with hslash hcolon hrun
    · rw [ih, hslash, List.nil_append]
    · rw [ih, hcolon, hrun]
      rfl
    · rw [ih, hcolon, moduleToPrefix, h, Option.getD_none]
      simp
    · rw [ih, List.append_assoc, List.singleton_append]

end Prefixes

end ConfdDemos.Gnmi
