import ConfdDemos.Gnmi.Addressing

/-!
# Prefixes in a formatted path

`set` and `delete` give ConfD the string of `make_formatted_path`, in which `fix_path_prefixes` has
replaced module names by prefixes. The substitution runs over the whole string, where an element
name and a key value look alike.

## What is rewritten

A run of the substitution that reaches across a brace is no module name. So every key value is
rewritten on its own (`fixValue`), and the string becomes that of a path with other names and other
values (`fixPathPrefixes_makePath`). A value is left as it is unless a module name stands in it
between a `/` or `:` and a `:`. A module name and its prefix are free of these two characters, so
two changes never make up for each other.
-/

namespace ConfdDemos.Gnmi

/-- The dictionary `module_to_pfx`, with the names of YANG modules as keys. -/
structure Modules extends Prefixes where
  moduleName : ∀ {name pfx : List Char}, moduleToPfx name = some pfx → isIdentifier name = true

namespace Modules

variable (M : Modules)

/-- The prefix of a module, or the name of an unknown one. -/
def prefixOf (name : List Char) : List Char := (M.moduleToPfx name).getD name

/-- The substitution in a key value, which no module name begins. -/
def fixValue : List Char → List Char
  | [] => []
  | c :: rest => if c = '/' ∨ c = ':' then c :: M.fixFrom [] rest else c :: fixValue rest

/-- A known module name stands in the value between a `/` or `:` and a `:`, and has a prefix other
than itself. -/
def Touches (v : List Char) : Prop :=
  ∃ x c r y, (c = '/' ∨ c = ':') ∧ v = x ++ c :: (r ++ ':' :: y) ∧ M.prefixOf r ≠ r

/-- The element name with the prefix of its module. -/
def renamed (name : List Char) : List Char :=
  match name.splitOn ':' with
  | [module_, local_] => M.prefixOf module_ ++ ':' :: local_
  | _ => name

/-- The path with the prefixes of the modules in its element names. -/
def renamePath (p : Path) : Path := ⟨p.elem.map fun e ↦ { e with name := M.renamed e.name }⟩

/-! ## Runs -/

variable {M}

theorem isIdentifierChar_of_prefixOf_ne {r : List Char} (h : M.prefixOf r ≠ r) {c : Char}
    (hc : c ∈ r) : isIdentifierChar c = true := by
  rw [prefixOf] at h
  cases hpfx : M.moduleToPfx r with
  | none => exact absurd (by rw [hpfx, Option.getD_none]) h
  | some pfx => exact isIdentifierChar_of_mem (M.moduleName hpfx) hc

/-- A run with a character that no identifier has is not a module name. -/
theorem prefixOf_of_mem {r : List Char} {c : Char} (hc : c ∈ r)
    (hchar : isIdentifierChar c = false) : M.prefixOf r = r := by
  by_contra hne
  rw [isIdentifierChar_of_prefixOf_ne hne hc] at hchar
  exact absurd hchar (by simp)

theorem moduleToPrefix_eq (r : List Char) : M.moduleToPrefix r = M.prefixOf r ++ [':'] := rfl

/-- A prefix has no character at which a run ends. -/
theorem prefixOf_free {r : List Char} (h : ∀ a ∈ r, ¬ (a = '/' ∨ a = ':')) :
    ∀ a ∈ M.prefixOf r, ¬ (a = '/' ∨ a = ':') := by
  rw [prefixOf]
  cases hpfx : M.moduleToPfx r with
  | none => simpa using h
  | some pfx =>
    obtain ⟨-, hslash, hcolon⟩ := M.identifier hpfx
    intro a ha
    rw [Option.getD_some] at ha
    rintro (rfl | rfl)
    · exact hslash ha
    · exact hcolon ha

/-- Once the run has left the names, the rest is rewritten as the rest of a value. -/
theorem fixFrom_of_mem {run : List Char} {c : Char} (hc : c ∈ run)
    (hchar : isIdentifierChar c = false) (rest : List Char) :
    M.fixFrom run rest = run ++ M.fixValue rest := by
  induction rest generalizing run with
  | nil => rw [Prefixes.fixFrom, fixValue, List.append_nil]
  | cons d rest ih =>
    have hrun : run ≠ [] := List.ne_nil_of_mem hc
    rw [Prefixes.fixFrom, fixValue]
    split_ifs with hslash hor hcolon hor'
    · rw [hslash]
    · exact absurd (Or.inl hslash) hor
    · rw [moduleToPrefix_eq, prefixOf_of_mem hc hchar, hcolon, List.append_assoc,
        List.singleton_append]
    · exact absurd (Or.inr hcolon) hor'
    · rename_i hor''
      obtain h | h := hor''
      · exact absurd h hslash
      · exact absurd h hcolon
    · rw [ih (List.mem_append_left _ hc), List.append_assoc, List.singleton_append]

/-- A brace ends what is rewritten together. -/
theorem fixFrom_append_cons {b : Char} (hb : isIdentifierChar b = false) (hslash : b ≠ '/')
    (hcolon : b ≠ ':') (run v rest : List Char) :
    M.fixFrom run (v ++ b :: rest) = M.fixFrom run v ++ b :: M.fixValue rest := by
  induction v generalizing run with
  | nil =>
    have hread : M.fixFrom run (b :: rest) = M.fixFrom (run ++ [b]) rest := by
      rw [Prefixes.fixFrom, if_neg hslash, if_neg hcolon]
    rw [List.nil_append, hread, fixFrom_of_mem (List.mem_append_right run List.mem_cons_self) hb,
      Prefixes.fixFrom, List.append_assoc, List.singleton_append]
  | cons c v ih =>
    rw [List.cons_append, Prefixes.fixFrom, Prefixes.fixFrom]
    split_ifs
    · rw [ih, List.append_assoc, List.cons_append]
    · rw [ih, List.append_assoc]
    · rw [ih, List.append_assoc]
    · rw [ih]

theorem fixValue_append_cons {b : Char} (hb : isIdentifierChar b = false) (hslash : b ≠ '/')
    (hcolon : b ≠ ':') (v rest : List Char) :
    M.fixValue (v ++ b :: rest) = M.fixValue v ++ b :: M.fixValue rest := by
  induction v with
  | nil => simp [fixValue, hslash, hcolon]
  | cons c v ih =>
    rw [List.cons_append, fixValue, fixValue]
    split_ifs
    · rw [fixFrom_append_cons hb hslash hcolon, List.cons_append]
    · rw [ih, List.cons_append]

/-! ## Untouched values -/

/-- A character at which a run ends. -/
theorem fixFrom_append_delimiter {c : Char} (hc : c = '/' ∨ c = ':') (run x w : List Char) :
    M.fixFrom run (x ++ c :: w) = M.fixFrom run (x ++ [c]) ++ M.fixFrom [] w := by
  induction x generalizing run with
  | nil =>
    obtain rfl | rfl := hc
    · simp [Prefixes.fixFrom]
    · simp [Prefixes.fixFrom]
  | cons d x ih =>
    rw [List.cons_append, List.cons_append, Prefixes.fixFrom, Prefixes.fixFrom]
    split_ifs
    · rw [ih, List.append_assoc, List.cons_append]
    · rw [ih, List.append_assoc]
    · rw [ih, List.append_assoc]
    · rw [ih]

theorem fixFrom_nil_append {r : List Char} (h : ∀ a ∈ r, ¬ (a = '/' ∨ a = ':')) (hne : r ≠ [])
    (run y : List Char) :
    M.fixFrom run (r ++ ':' :: y) = M.prefixOf (run ++ r) ++ ':' :: M.fixFrom [] y := by
  induction r generalizing run with
  | nil => exact absurd rfl hne
  | cons a r ih =>
    obtain ⟨ha, hr⟩ := List.forall_mem_cons.1 h
    rw [List.cons_append, Prefixes.fixFrom, if_neg fun hs ↦ ha (.inl hs),
      if_neg fun hs ↦ ha (.inr hs)]
    by_cases hnil : r = []
    · subst hnil
      simp [Prefixes.fixFrom, moduleToPrefix_eq]
    · rw [ih hr hnil, List.append_assoc, List.singleton_append]

theorem not_delimiter_brace : ∀ a ∈ ['{'], ¬ (a = '/' ∨ a = ':') := by
  intro a ha
  rw [List.mem_singleton.mp ha]
  decide

/-- **Changes do not cancel out**: what is rewritten and begins like the original is the
original. -/
theorem fixFrom_eq_of_append {run v x x' : List Char} (hrun : ∀ a ∈ run, ¬ (a = '/' ∨ a = ':'))
    (h : M.fixFrom run v ++ x = run ++ v ++ x') : M.fixFrom run v = run ++ v := by
  induction v generalizing run with
  | nil => rw [Prefixes.fixFrom, List.append_nil]
  | cons c v ih =>
    rw [Prefixes.fixFrom] at h ⊢
    split_ifs at h ⊢ with hslash hcolon hnil
    · rw [List.append_assoc, List.append_assoc, List.append_cancel_left_eq, List.cons_append,
        List.cons_append] at h
      have hrest := ih (List.forall_mem_nil _) (List.cons.inj h).2
      rw [hrest, hslash, List.nil_append]
    · subst hnil
      have hrest := ih (List.forall_mem_nil _) (List.cons.inj h).2
      rw [hrest, hcolon]
      rfl
    · rw [moduleToPrefix_eq, List.append_assoc, List.append_assoc, List.append_assoc, hcolon] at h
      -- both runs end at the first colon
      obtain ⟨hpfx, htail⟩ := append_inj_of_stop (prefixOf_free hrun) hrun (by simp) (by simp) h
      have hrest := ih (List.forall_mem_nil _) (List.cons.inj htail).2
      rw [moduleToPrefix_eq, hpfx, hrest, hcolon, List.append_assoc]
      rfl
    · have hfree : ∀ a ∈ run ++ [c], ¬ (a = '/' ∨ a = ':') := by
        simp only [List.mem_append, List.mem_singleton]
        rintro a (ha | rfl)
        · exact hrun a ha
        · exact not_or.2 ⟨hslash, hcolon⟩
      rw [ih hfree (by simpa using h), List.append_assoc, List.singleton_append]

/-- Without a module name at the end of a run nothing is rewritten. -/
theorem fixFrom_eq_self {run v : List Char}
    (hrun : ∀ r y, run ++ v = r ++ ':' :: y → M.prefixOf r = r) (hv : ¬ M.Touches v) :
    M.fixFrom run v = run ++ v := by
  induction v generalizing run with
  | nil => rw [Prefixes.fixFrom, List.append_nil]
  | cons c v ih =>
    have hv' : ¬ M.Touches v := by
      rintro ⟨x, d, r, y, hd, rfl, hne⟩
      exact hv ⟨c :: x, d, r, y, hd, rfl, hne⟩
    -- behind a delimiter the next run begins in the value
    have hnext : c = '/' ∨ c = ':' → M.fixFrom [] v = v := by
      intro hc
      refine ih (fun r y heq ↦ ?_) hv'
      by_contra hne
      exact hv ⟨[], c, r, y, hc, by rw [← heq]; rfl, hne⟩
    rw [Prefixes.fixFrom]
    split_ifs with hslash hcolon hnil
    · rw [hnext (.inl hslash), hslash]
    · rw [hnext (.inr hcolon), hcolon, hnil]
      rfl
    · rw [hnext (.inr hcolon), moduleToPrefix_eq, hrun run v (by rw [hcolon]), hcolon,
        List.append_assoc]
      rfl
    · rw [ih (fun r y heq ↦ hrun r y (by rw [← heq]; simp)) hv']
      simp

/-- **When a value is left as it is.** -/
theorem fixValue_eq_self_iff {v : List Char} : M.fixValue v = v ↔ ¬ M.Touches v := by
  have hopen : M.fixFrom ['{'] v = '{' :: M.fixValue v :=
    fixFrom_of_mem (List.mem_singleton.2 rfl) rfl v
  constructor
  · rintro h ⟨x, c, r, y, hc, rfl, hne⟩
    have hfree : ∀ a ∈ r, ¬ (a = '/' ∨ a = ':') := by
      rintro a ha (rfl | rfl)
      · exact absurd (isIdentifierChar_of_prefixOf_ne hne ha) (by decide)
      · exact absurd (isIdentifierChar_of_prefixOf_ne hne ha) (by decide)
    have hr : r ≠ [] := by
      rintro rfl
      cases hpfx : M.moduleToPfx [] with
      | none => exact hne (by rw [prefixOf, hpfx, Option.getD_none])
      | some pfx => exact absurd (M.moduleName hpfx) (by decide)
    have hsplit : M.fixFrom ['{'] (x ++ [c]) ++ (M.prefixOf r ++ ':' :: M.fixFrom [] y) =
        ['{'] ++ (x ++ [c]) ++ (r ++ ':' :: y) := by
      rw [← List.nil_append r, ← fixFrom_nil_append hfree hr, List.nil_append,
        ← fixFrom_append_delimiter hc, hopen, h]
      simp
    have hleft := fixFrom_eq_of_append not_delimiter_brace hsplit
    rw [hleft, List.append_cancel_left_eq] at hsplit
    exact hne (append_inj_of_stop (prefixOf_free hfree) hfree (by simp) (by simp) hsplit).1
  · intro h
    have hself : M.fixFrom ['{'] v = ['{'] ++ v := by
      refine fixFrom_eq_self (fun r y heq ↦ ?_) h
      cases r with
      | nil => exact absurd (List.cons.inj heq).1 (by decide)
      | cons a r =>
        obtain rfl := (List.cons.inj heq).1
        exact prefixOf_of_mem List.mem_cons_self rfl
    exact (List.cons.inj (hopen.symm.trans hself)).2

theorem fixValue_eq_of_append {v x x' : List Char} (h : M.fixValue v ++ x = v ++ x') :
    M.fixValue v = v := by
  have hopen : M.fixFrom ['{'] v = '{' :: M.fixValue v :=
    fixFrom_of_mem (List.mem_singleton.2 rfl) rfl v
  have heq : M.fixFrom ['{'] v ++ x = ['{'] ++ v ++ x' := by
    rw [hopen, List.cons_append, h]
    simp
  have hself := fixFrom_eq_of_append not_delimiter_brace heq
  exact (List.cons.inj (hopen.symm.trans hself)).2

/-! ## Elements -/

variable (M) in
/-- A key with its value rewritten. -/
def fixKey (q : List Char × List Char) : List Char × List Char := (q.1, M.fixValue q.2)

variable (M) in
/-- What the substitution makes of an element. -/
def fixElem (e : PathElem) : PathElem := ⟨M.renamed e.name, e.key.map M.fixKey⟩

/-- The rest of the string behind an element. -/
theorem fixFrom_of_head {rest : List Char} (h : ∀ a ∈ rest.head?, a = '/') (run : List Char) :
    M.fixFrom run rest = run ++ M.fixFrom [] rest := by
  cases rest with
  | nil => simp [Prefixes.fixFrom]
  | cons c rest =>
    obtain rfl : c = '/' := h c rfl
    simp [Prefixes.fixFrom]

theorem fixValue_of_head {rest : List Char} (h : ∀ a ∈ rest.head?, a = '/') :
    M.fixValue rest = M.fixFrom [] rest := by
  cases rest with
  | nil => rfl
  | cons c rest =>
    obtain rfl : c = '/' := h c rfl
    simp [fixValue, Prefixes.fixFrom]

theorem keyText_eq (q : List Char × List Char) :
    keyText false false q = '{' :: q.2 ++ ['}'] := rfl

theorem fixValue_flatMap_keyText (keys : List (List Char × List Char)) {rest : List Char}
    (h : ∀ a ∈ rest.head?, a = '/') :
    M.fixValue (keys.flatMap (keyText false false) ++ rest) =
      (keys.map M.fixKey).flatMap (keyText false false) ++ M.fixFrom [] rest := by
  induction keys with
  | nil => exact fixValue_of_head h
  | cons q keys ih =>
    have hopen : ∀ w, M.fixValue ('{' :: w) = '{' :: M.fixValue w := by
      intro w
      simp [fixValue]
    have hsplit : (q :: keys).flatMap (keyText false false) ++ rest =
        '{' :: (q.2 ++ '}' :: (keys.flatMap (keyText false false) ++ rest)) := by
      simp [keyText_eq]
    rw [hsplit, hopen, fixValue_append_cons rfl (by decide) (by decide), ih]
    simp [keyText_eq, fixKey]

theorem fixFrom_flatMap_keyText (run : List Char) (keys : List (List Char × List Char))
    {rest : List Char} (h : ∀ a ∈ rest.head?, a = '/') :
    M.fixFrom run (keys.flatMap (keyText false false) ++ rest) =
      run ++ ((keys.map M.fixKey).flatMap (keyText false false) ++ M.fixFrom [] rest) := by
  cases keys with
  | nil => exact fixFrom_of_head h run
  | cons q keys =>
    rw [← fixValue_flatMap_keyText (q :: keys) h, List.flatMap_cons, keyText_eq]
    have hread := fixFrom_append_cons (M := M) (b := '{') rfl (by decide) (by decide) run []
      (q.2 ++ '}' :: (keys.flatMap (keyText false false) ++ rest))
    simpa [fixValue, Prefixes.fixFrom] using hread

/-- A word without delimiters joins the run. -/
theorem fixFrom_append_free {l : List Char} (h : ∀ a ∈ l, ¬ (a = '/' ∨ a = ':'))
    (run rest : List Char) : M.fixFrom run (l ++ rest) = M.fixFrom (run ++ l) rest := by
  induction l generalizing run with
  | nil => rw [List.nil_append, List.append_nil]
  | cons a l ih =>
    obtain ⟨ha, hl⟩ := List.forall_mem_cons.1 h
    rw [List.cons_append, Prefixes.fixFrom, if_neg fun hs ↦ ha (.inl hs),
      if_neg fun hs ↦ ha (.inr hs), ih hl, List.append_assoc, List.singleton_append]

theorem isIdentifier_free {l : List Char} (h : isIdentifier l = true) :
    ∀ a ∈ l, ¬ (a = '/' ∨ a = ':') := by
  rintro a ha (rfl | rfl)
  · exact absurd (isIdentifierChar_of_mem h ha) (by decide)
  · exact absurd (isIdentifierChar_of_mem h ha) (by decide)

theorem isYangName_cases {name : List Char} (h : isYangName name = true) :
    (isIdentifier name = true ∧ M.renamed name = name) ∨
      ∃ m l, isIdentifier m = true ∧ isIdentifier l = true ∧ name = m ++ ':' :: l ∧
        M.renamed name = M.prefixOf m ++ ':' :: l := by
  have hname : [':'].intercalate (name.splitOn ':') = name := List.intercalate_splitOn ':'
  rw [isYangName] at h
  rw [renamed]
  split at h
  next a heq =>
    rw [heq, List.intercalate_singleton] at hname
    rw [heq]
    exact Or.inl ⟨hname ▸ h, rfl⟩
  next m a heq =>
    rw [Bool.and_eq_true] at h
    rw [heq] at hname ⊢
    exact Or.inr ⟨m, a, h.1, h.2, by simp [← hname], rfl⟩
  next => exact absurd h (by simp)

/-- **One element**: the module of its name becomes a prefix, and its values are rewritten. -/
theorem fixFrom_elemText {e : PathElem} (he : isYangName e.name = true) {rest : List Char}
    (h : ∀ a ∈ rest.head?, a = '/') :
    M.fixFrom [] (elemText false false e ++ rest) =
      elemText false false (M.fixElem e) ++ M.fixFrom [] rest := by
  have hslash : ∀ w, M.fixFrom [] ('/' :: w) = '/' :: M.fixFrom [] w := by
    intro w
    simp [Prefixes.fixFrom]
  rw [elemText, elemText, List.cons_append, List.cons_append, hslash, List.append_assoc, fixElem,
    List.cons_append, List.cons_append, List.append_assoc]
  congr 1
  obtain ⟨hid, hren⟩ | ⟨m, l, hm, hl, hname, hren⟩ := isYangName_cases (M := M) he
  · rw [fixFrom_append_free (isIdentifier_free hid), List.nil_append, fixFrom_flatMap_keyText _ _ h,
      hren]
  · have hne : m ≠ [] := by
      rintro rfl
      exact absurd hm (by decide)
    rw [hren, hname, List.append_assoc, List.cons_append,
      fixFrom_nil_append (isIdentifier_free hm) hne, List.nil_append,
      fixFrom_append_free (isIdentifier_free hl), List.nil_append, fixFrom_flatMap_keyText _ _ h,
      List.append_assoc, List.cons_append]

theorem fixFrom_flatMap_elemText {es : List PathElem} (h : ∀ e ∈ es, isYangName e.name = true) :
    M.fixFrom [] (es.flatMap (elemText false false)) =
      (es.map M.fixElem).flatMap (elemText false false) := by
  induction es with
  | nil => rfl
  | cons e es ih =>
    obtain ⟨he, hes⟩ := List.forall_mem_cons.1 h
    have hhead : ∀ a ∈ (es.flatMap (elemText false false)).head?, a = '/' := by
      cases es with
      | nil => simp
      | cons e' es => simp [elemText]
    rw [List.flatMap_cons, fixFrom_elemText he hhead, ih hes, List.map_cons, List.flatMap_cons]

/-! ## Paths -/

theorem makePath_of_ne_nil {es : List PathElem} (h : es ≠ []) :
    makePath false false ⟨es⟩ = es.flatMap (elemText false false) := by
  have hne : es.flatMap (elemText false false) ≠ [] := by
    obtain ⟨e, es, rfl⟩ := List.exists_cons_of_ne_nil h
    simp [elemText]
  exact if_neg hne

/-- **What becomes of a path**: its string is rewritten to that of the path with rewritten
elements. -/
theorem fixPathPrefixes_makeFormattedPath {p : Path} (h : ∀ e ∈ p.elem, isYangName e.name = true) :
    M.fixPathPrefixes (makeFormattedPath p none false) =
      makeFormattedPath ⟨p.elem.map M.fixElem⟩ none false := by
  obtain ⟨es⟩ := p
  simp only [makeFormattedPath, makeStringPath, List.nil_append]
  by_cases hes : es = []
  · subst hes
    simp [makePath, Prefixes.fixPathPrefixes, Prefixes.fixFrom]
  · rw [makePath_of_ne_nil hes, makePath_of_ne_nil (by simpa using hes),
      Prefixes.fixPathPrefixes, fixFrom_flatMap_elemText h]

theorem flatMap_keyText_inj {keys : List (List Char × List Char)} {x x' : List Char}
    (h : (keys.map M.fixKey).flatMap (keyText false false) ++ x =
      keys.flatMap (keyText false false) ++ x') :
    (∀ q ∈ keys, M.fixValue q.2 = q.2) ∧ x = x' := by
  induction keys with
  | nil => exact ⟨List.forall_mem_nil _, h⟩
  | cons q keys ih =>
    simp only [List.map_cons, List.flatMap_cons, keyText_eq, fixKey, List.cons_append,
      List.append_assoc, List.cons.injEq, true_and] at h
    have hq := fixValue_eq_of_append h
    rw [hq, List.append_cancel_left_eq] at h
    obtain ⟨hkeys, hx⟩ := ih (List.cons.inj h).2
    exact ⟨List.forall_mem_cons.2 ⟨hq, hkeys⟩, hx⟩

theorem flatMap_elemText_inj {es : List PathElem}
    (h : (es.map M.fixElem).flatMap (elemText false false) =
      (es.map fun e ↦ { e with name := M.renamed e.name }).flatMap (elemText false false)) :
    ∀ e ∈ es, ∀ q ∈ e.key, M.fixValue q.2 = q.2 := by
  induction es with
  | nil => exact List.forall_mem_nil _
  | cons e es ih =>
    simp only [List.map_cons, List.flatMap_cons, elemText, fixElem, List.cons_append,
      List.append_assoc, List.cons.injEq, true_and, List.append_cancel_left_eq] at h
    obtain ⟨hkeys, hes⟩ := flatMap_keyText_inj h
    exact List.forall_mem_cons.2 ⟨hkeys, ih hes⟩

/-- **Prefix rewriting touches only names** if and only if no key value holds, between a `/` or `:`
and a `:`, the name of a known module that has a prefix other than itself. -/
theorem fixPathPrefixes_touches_only_names_iff (M : Modules) (p : Path)
    (h : ∀ e ∈ p.elem, isYangName e.name = true) :
    M.fixPathPrefixes (makeFormattedPath p none false) =
      makeFormattedPath (M.renamePath p) none false ↔
    ∀ e ∈ p.elem, ∀ q ∈ e.key, ¬ M.Touches q.2 := by
  rw [fixPathPrefixes_makeFormattedPath h]
  simp only [← fixValue_eq_self_iff]
  obtain ⟨es⟩ := p
  constructor
  · intro heq
    by_cases hes : es = []
    · subst hes
      exact List.forall_mem_nil _
    simp only [makeFormattedPath, makeStringPath, renamePath, List.nil_append] at heq
    rw [makePath_of_ne_nil (by simpa using hes), makePath_of_ne_nil (by simpa using hes)] at heq
    exact flatMap_elemText_inj heq
  · intro hall
    have hmap : es.map M.fixElem = es.map fun e ↦ { e with name := M.renamed e.name } := by
      refine List.map_congr_left fun e he ↦ ?_
      have hkeys : e.key.map M.fixKey = e.key := by
        refine List.map_congr_left (g := id) (fun q hq ↦ ?_) |>.trans (List.map_id _)
        rw [fixKey, hall e he q hq]
        rfl
      rw [fixElem, hkeys]
    rw [hmap, renamePath]

/-! ## An address as a key -/

/-- A module `acme` with the prefix `a`. -/
def acmeModules : Modules where
  moduleToPfx name := if name = "acme".toList then some ['a'] else none
  identifier {name pfx} h := by
    split_ifs at h
    obtain rfl := Option.some.inj h
    decide
  moduleName {name pfx} h := by
    split_ifs at h with hname
    rw [hname]
    decide

/-- A list entry whose key is the given text. -/
def acmePath (v : List Char) : Path := ⟨[⟨"acme:peer".toList, [("id".toList, v)]⟩]⟩

/-- A key value that names the module behind a slash is rewritten with the names. -/
theorem fixPathPrefixes_touches_value :
    acmeModules.fixPathPrefixes (makeFormattedPath (acmePath "/acme:1".toList) none false) ≠
      makeFormattedPath (acmeModules.renamePath (acmePath "/acme:1".toList)) none false := by
  decide

theorem fixPathPrefixes_keeps_address :
    acmeModules.fixPathPrefixes (makeFormattedPath (acmePath "fe80::1/64".toList) none false) =
        makeFormattedPath (acmeModules.renamePath (acmePath "fe80::1/64".toList)) none false ∧
      ¬ acmeModules.Touches "fe80::1/64".toList := by
  have hsame : acmeModules.fixPathPrefixes
      (makeFormattedPath (acmePath "fe80::1/64".toList) none false) =
      makeFormattedPath (acmeModules.renamePath (acmePath "fe80::1/64".toList)) none false := by
    decide
  exact ⟨hsame, (fixPathPrefixes_touches_only_names_iff acmeModules
    (acmePath "fe80::1/64".toList) (by decide)).1 hsame _ List.mem_cons_self _
    List.mem_cons_self⟩

end Modules

end ConfdDemos.Gnmi
