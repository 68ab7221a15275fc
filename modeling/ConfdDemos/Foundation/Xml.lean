import Mathlib.Data.List.Infix
import Mathlib.Data.List.TakeWhile

/-!
# Reading XML

A text is read letter by letter into tags and character data, and a document is a forest whose tags
are those of the text. Only what a document of elements needs is read: a comment, a processing
instruction or a section of character data is an error here, and names are made of ASCII letters.

## Character data

What stands between two tags is decoded: line ends are normalized and references are replaced. A
text that is `Clean` is its own decoding.
-/

namespace ConfdDemos.Xml

/-! ## Characters -/

/-- The characters that XML admits. -/
def isLegal (c : Char) : Bool :=
  c == '\t' || c == '\n' || c == '\r' || (decide (0x20 ≤ c.toNat) && c.toNat != 0xFFFE &&
    c.toNat != 0xFFFF)

def isSpace (c : Char) : Bool := c == ' ' || c == '\t' || c == '\n' || c == '\r'

def isNameStart (c : Char) : Bool := c.isAlpha || c == '_' || c == ':'

def isNameChar (c : Char) : Bool := c.isAlphanum || c == '_' || c == ':' || c == '-' || c == '.'

def isName (s : List Char) : Bool := (s.head?.any isNameStart) && s.all isNameChar

/-- A character by its decimal or hexadecimal number. -/
def charOfDigits (base : ℕ) (value : Char → Option ℕ) (digits : List Char) : Option Char :=
  if digits = [] then none
  else
    (digits.foldl (fun n d ↦ n.bind fun n ↦ (value d).map fun k ↦ base * n + k)
      (some 0)).bind fun n ↦
      let c := Char.ofNat n
      if c.toNat = n ∧ isLegal c then some c else none

def decimal (c : Char) : Option ℕ := if c.isDigit then some (c.toNat - '0'.toNat) else none

def hexadecimal (c : Char) : Option ℕ :=
  if c.isDigit then some (c.toNat - '0'.toNat)
  else if 'a'.toNat ≤ c.toNat ∧ c.toNat ≤ 'f'.toNat then some (c.toNat - 'a'.toNat + 10)
  else if 'A'.toNat ≤ c.toNat ∧ c.toNat ≤ 'F'.toNat then some (c.toNat - 'A'.toNat + 10)
  else none

/-- What a reference stands for. -/
def referenced (ref : List Char) : Option Char :=
  if ref = "amp".toList then some '&'
  else if ref = "lt".toList then some '<'
  else if ref = "gt".toList then some '>'
  else if ref = "quot".toList then some '"'
  else if ref = "apos".toList then some '\''
  else
    match ref with
    | '#' :: 'x' :: digits => charOfDigits 16 hexadecimal digits
    | '#' :: digits => charOfDigits 10 decimal digits
    | _ => none

/-- The replacement of references, inside of one when the letters of it are given. -/
def decodeRefs : Option (List Char) → List Char → Option (List Char)
  | none, [] => some []
  | some _, [] => none
  | none, c :: s =>
    if c = '&' then decodeRefs (some []) s else (decodeRefs none s).map (c :: ·)
  | some ref, c :: s =>
    if c = ';' then (referenced ref).bind fun d ↦ (decodeRefs none s).map (d :: ·)
    else decodeRefs (some (ref ++ [c])) s

def normalizeNewlines : List Char → List Char
  | [] => []
  | [c] => if c = '\r' then ['\n'] else [c]
  | c :: d :: s =>
    if c = '\r' then
      if d = '\n' then normalizeNewlines (d :: s) else '\n' :: normalizeNewlines (d :: s)
    else c :: normalizeNewlines (d :: s)

/-- Character data between two tags. -/
def decodeText (raw : List Char) : Option (List Char) :=
  if raw.all isLegal ∧ ¬ "]]>".toList <:+: raw then decodeRefs none (normalizeNewlines raw)
  else none

/-- The value of an attribute. -/
def decodeAttr (raw : List Char) : Option (List Char) :=
  if raw.all isLegal then
    decodeRefs none ((normalizeNewlines raw).map fun c ↦ if isSpace c then ' ' else c)
  else none

/-- Text that stands for itself. -/
structure Clean (t : List Char) : Prop where
  legal : t.all isLegal = true
  close : ¬ "]]>".toList <:+: t
  amp : '&' ∉ t
  cr : '\r' ∉ t

section Decoding

variable {s t : List Char}

theorem decodeRefs_of_notMem (h : '&' ∉ s) : decodeRefs none s = some s := by
  induction s with
  | nil => rfl
  | cons c s ih =>
    have hc : c ≠ '&' := fun heq ↦ h (heq ▸ List.mem_cons_self)
    rw [decodeRefs, if_neg hc, ih fun hmem ↦ h (List.mem_cons_of_mem _ hmem), Option.map_some]

theorem normalizeNewlines_of_notMem (h : '\r' ∉ s) : normalizeNewlines s = s := by
  fun_induction normalizeNewlines s with
  | case1 => rfl
  | case2 => exact absurd List.mem_cons_self h
  | case3 => rfl
  | case4 => exact absurd List.mem_cons_self h
  | case5 => exact absurd List.mem_cons_self h
  | case6 c d s hc ih => rw [ih fun hmem ↦ h (List.mem_cons_of_mem _ hmem)]

theorem Clean.decodeText (h : Clean t) : decodeText t = some t := by
  rw [Xml.decodeText, if_pos ⟨h.legal, h.close⟩, normalizeNewlines_of_notMem h.cr,
    decodeRefs_of_notMem h.amp]

end Decoding

/-! ## Tags -/

abbrev Attrs := List (List Char × List Char)

inductive Token
  | text (t : List Char)
  | startTag (name : List Char) (attrs : Attrs)
  | endTag (name : List Char)
  deriving DecidableEq

namespace Token

def isStart : Token → Bool
  | startTag _ _ => true
  | _ => false

def isEnd : Token → Bool
  | endTag _ => true
  | _ => false

end Token

/-- Where the reader of attributes is. -/
inductive AttrMode
  /-- Behind a name or an attribute. -/
  | start
  | space
  | name (n : List Char)
  /-- Before the equals sign. -/
  | eq (n : List Char)
  /-- Before the value. -/
  | before (n : List Char)
  | value (n : List Char) (quote : Char) (v : List Char)

def readAttrs : AttrMode → List Char → Option Attrs
  | .start, [] => some []
  | .space, [] => some []
  | _, [] => none
  | .start, c :: s => if isSpace c then readAttrs .space s else none
  | .space, c :: s =>
    if isSpace c then readAttrs .space s
    else if isNameStart c then readAttrs (.name [c]) s else none
  | .name n, c :: s =>
    if isNameChar c then readAttrs (.name (n ++ [c])) s
    else if isSpace c then readAttrs (.eq n) s
    else if c = '=' then readAttrs (.before n) s else none
  | .eq n, c :: s =>
    if isSpace c then readAttrs (.eq n) s else if c = '=' then readAttrs (.before n) s else none
  | .before n, c :: s =>
    if isSpace c then readAttrs (.before n) s
    else if c = '"' ∨ c = '\'' then readAttrs (.value n c []) s else none
  | .value n quote v, c :: s =>
    if c = quote then (decodeAttr v).bind fun d ↦ (readAttrs .start s).map ((n, d) :: ·)
    else readAttrs (.value n quote (v ++ [c])) s

/-- A tag that is not an end tag, without the slash of an empty element. -/
def readStartTag (body : List Char) : Option (List Char × Attrs) :=
  let name := body.takeWhile isNameChar
  if isName name then
    (readAttrs .start (body.dropWhile isNameChar)).bind fun attrs ↦
      if (attrs.map Prod.fst).Nodup then some (name, attrs) else none
  else none

/-- What stands between angle brackets. An empty element is read as its two tags. -/
def readTag (raw : List Char) : Option (List Token) :=
  match raw with
  | '/' :: rest =>
    let name := rest.takeWhile isNameChar
    if isName name ∧ (rest.dropWhile isNameChar).all isSpace then some [.endTag name] else none
  | _ =>
    if raw.getLast? = some '/' then
      (readStartTag raw.dropLast).map fun t ↦ [.startTag t.1 t.2, .endTag t.1]
    else (readStartTag raw).map fun t ↦ [.startTag t.1 t.2]

section Names

variable {n rest : List Char}

theorem all_of_isName (h : isName n = true) : ∀ c ∈ n, isNameChar c = true :=
  List.all_eq_true.mp (Bool.and_eq_true_iff.mp h).2

theorem notMem_of_isName (h : isName n = true) {c : Char} (hc : isNameChar c = false) : c ∉ n := by
  intro hmem
  rw [all_of_isName h c hmem] at hc
  exact absurd hc (by decide)

theorem ne_nil_of_isName (h : isName n = true) : n ≠ [] := by
  rintro rfl
  exact absurd h (by decide)

theorem noHead : ∀ c ∈ ([] : List Char).head?, isNameChar c = false := by simp

/-- The name is read up to the first letter that names do not have. -/
theorem takeWhile_name (h : isName n = true) (hrest : ∀ c ∈ rest.head?, isNameChar c = false) :
    (n ++ rest).takeWhile isNameChar = n ∧ (n ++ rest).dropWhile isNameChar = rest := by
  rw [List.takeWhile_append_of_pos (all_of_isName h),
    List.dropWhile_append_of_pos (all_of_isName h)]
  rcases rest with - | ⟨c, rest⟩
  · simp
  · have hc : isNameChar c = false := hrest c rfl
    simp [hc]

theorem readStartTag_name (h : isName n = true) (hrest : ∀ c ∈ rest.head?, isNameChar c = false) :
    readStartTag (n ++ rest) = (readAttrs .start rest).bind fun attrs ↦
      if (attrs.map Prod.fst).Nodup then some (n, attrs) else none := by
  obtain ⟨htake, hdrop⟩ := takeWhile_name h hrest
  unfold readStartTag
  rw [htake, hdrop]
  exact if_pos h

theorem readTag_end (h : isName n = true) : readTag ('/' :: n) = some [.endTag n] := by
  obtain ⟨htake, hdrop⟩ := takeWhile_name h noHead
  rw [List.append_nil] at htake hdrop
  simp [readTag, htake, hdrop, h]

/-- A tag is not taken for an end tag. -/
theorem readTag_of_name {raw : List Char} (h : isName n = true) (hraw : n <+: raw) :
    readTag raw =
      if raw.getLast? = some '/' then
        (readStartTag raw.dropLast).map fun t ↦ [.startTag t.1 t.2, .endTag t.1]
      else (readStartTag raw).map fun t ↦ [.startTag t.1 t.2] := by
  obtain ⟨rest, rfl⟩ := hraw
  obtain ⟨c, m, rfl⟩ := List.exists_cons_of_ne_nil (ne_nil_of_isName h)
  have hc : c ≠ '/' := by
    rintro rfl
    exact notMem_of_isName h (by decide) List.mem_cons_self
  unfold readTag
  split
  next heq => exact absurd (List.cons.inj heq).1 hc
  next => rfl

theorem readTag_start (h : isName n = true) : readTag n = some [.startTag n []] := by
  have hlast : n.getLast? ≠ some '/' := fun hlast ↦
    notMem_of_isName h (by decide) (List.mem_of_getLast? hlast)
  have hstart := readStartTag_name h noHead
  rw [List.append_nil] at hstart
  rw [readTag_of_name h (List.prefix_refl n), if_neg hlast, hstart]
  rfl

theorem readTag_empty (h : isName n = true) :
    readTag (n ++ ['/']) = some [.startTag n [], .endTag n] := by
  have hstart := readStartTag_name h noHead
  rw [List.append_nil] at hstart
  rw [readTag_of_name h (List.prefix_append n _), if_pos (by simp), List.dropLast_concat, hstart]
  rfl

/-- A start tag with attributes. -/
theorem readTag_attrs (h : isName n = true) (hhead : ∀ c ∈ rest.head?, isNameChar c = false)
    (hlast : (n ++ rest).getLast? ≠ some '/') : readTag (n ++ rest) =
      (readAttrs .start rest).bind fun attrs ↦
        if (attrs.map Prod.fst).Nodup then some [.startTag n attrs] else none := by
  rw [readTag_of_name h (List.prefix_append n _), if_neg hlast, readStartTag_name h hhead]
  rcases readAttrs .start rest with - | attrs
  · rfl
  · simp only [Option.bind_some]
    split_ifs
    · rfl
    · rfl

/-- The value of an attribute is read up to its quote. -/
theorem readAttrs_value {m v w : List Char} (h : '"' ∉ w) :
    readAttrs (.value m '"' v) (w ++ ['"']) = (decodeAttr (v ++ w)).map fun d ↦ [(m, d)] := by
  induction w generalizing v with
  | nil =>
    rw [List.nil_append, readAttrs, if_pos rfl, List.append_nil]
    rcases decodeAttr v with - | d
    · rfl
    · rfl
  | cons c w ih =>
    have hc : c ≠ '"' := fun heq ↦ h (heq ▸ List.mem_cons_self)
    rw [List.cons_append, readAttrs, if_neg hc, ih fun hmem ↦ h (List.mem_cons_of_mem _ hmem),
      List.append_assoc, List.singleton_append]

end Names

/-! ## Documents -/

/-- What has been read since the last tag ended, or since one began. -/
inductive Mode
  | content (raw : List Char)
  | tag (quote : Option Char) (raw : List Char)

/-- Character data as tokens; there is no token for none. -/
def textTokens (raw : List Char) : Option (List Token) :=
  if raw = [] then some [] else (decodeText raw).map fun t ↦ [.text t]

def step : Mode → Char → Option (List Token × Mode)
  | .content raw, c =>
    if c = '<' then (textTokens raw).map fun ts ↦ (ts, .tag none [])
    else some ([], .content (raw ++ [c]))
  | .tag (some quote) raw, c =>
    if c = '<' then none
    else some ([], .tag (if c = quote then none else some quote) (raw ++ [c]))
  | .tag none raw, c =>
    if c = '<' then none
    else if c = '>' then (readTag raw).map fun ts ↦ (ts, .content [])
    else some ([], .tag (if c = '"' ∨ c = '\'' then some c else none) (raw ++ [c]))

def run : Mode → List Char → Option (List Token × Mode)
  | m, [] => some ([], m)
  | m, c :: s => (step m c).bind fun t ↦ (run t.2 s).map fun u ↦ (t.1 ++ u.1, u.2)

/-- The tokens of a text that does not end in a tag. -/
def finish (t : List Token × Mode) : Option (List Token) :=
  match t.2 with
  | .content raw => (textTokens raw).map (t.1 ++ ·)
  | .tag _ _ => none

def lex (s : List Char) : Option (List Token) := (run (.content []) s).bind finish

section Run

variable {m : Mode} {a b raw w : List Char}

theorem run_append : run m (a ++ b) =
    (run m a).bind fun t ↦ (run t.2 b).map fun u ↦ (t.1 ++ u.1, u.2) := by
  induction a generalizing m with
  | nil =>
    rw [List.nil_append, run, Option.bind_some]
    simp
  | cons c a ih =>
    rw [List.cons_append, run, run]
    rcases step m c with - | t
    · rfl
    · simp only [Option.bind_some, ih]
      rcases run t.2 a with - | u
      · rfl
      · simp only [Option.map_some, Option.bind_some]
        rcases run u.2 b with - | v
        · rfl
        · simp

theorem run_content (h : '<' ∉ w) : run (.content raw) w = some ([], .content (raw ++ w)) := by
  induction w generalizing raw with
  | nil => rw [run, List.append_nil]
  | cons c w ih =>
    have hc : c ≠ '<' := fun heq ↦ h (heq ▸ List.mem_cons_self)
    rw [run, step, if_neg hc, Option.bind_some, ih fun hmem ↦ h (List.mem_cons_of_mem _ hmem)]
    simp

/-- The letters of a tag outside of values. -/
def IsPlain (w : List Char) : Prop := '<' ∉ w ∧ '>' ∉ w ∧ '"' ∉ w ∧ '\'' ∉ w

theorem run_tag (h : IsPlain w) : run (.tag none raw) w = some ([], .tag none (raw ++ w)) := by
  induction w generalizing raw with
  | nil => rw [run, List.append_nil]
  | cons c w ih =>
    obtain ⟨hopen, hclose, hquote, hapos⟩ := h
    have hne : ∀ {d : Char}, d ∉ c :: w → c ≠ d := fun hd heq ↦ hd (heq ▸ List.mem_cons_self)
    have hplain : IsPlain w := ⟨fun hmem ↦ hopen (List.mem_cons_of_mem _ hmem),
      fun hmem ↦ hclose (List.mem_cons_of_mem _ hmem),
      fun hmem ↦ hquote (List.mem_cons_of_mem _ hmem),
      fun hmem ↦ hapos (List.mem_cons_of_mem _ hmem)⟩
    rw [run, step, if_neg (hne hopen), if_neg (hne hclose),
      if_neg (not_or.mpr ⟨hne hquote, hne hapos⟩), Option.bind_some, ih hplain]
    simp

theorem run_value {quote : Char} (hopen : '<' ∉ w) (hquote : quote ∉ w) :
    run (.tag (some quote) raw) w = some ([], .tag (some quote) (raw ++ w)) := by
  induction w generalizing raw with
  | nil => rw [run, List.append_nil]
  | cons c w ih =>
    have hc : c ≠ '<' := fun heq ↦ hopen (heq ▸ List.mem_cons_self)
    have hq : c ≠ quote := fun heq ↦ hquote (heq ▸ List.mem_cons_self)
    rw [run, step, if_neg hc, if_neg hq, Option.bind_some,
      ih (fun hmem ↦ hopen (List.mem_cons_of_mem _ hmem))
        fun hmem ↦ hquote (List.mem_cons_of_mem _ hmem)]
    simp

/-- The tokens of a tag, after those of the text before it. -/
theorem run_plain_tag (h : IsPlain w) : run (.content raw) ('<' :: (w ++ ['>'])) =
    (textTokens raw).bind fun ts ↦ (readTag w).map fun us ↦ (ts ++ us, .content []) := by
  rw [run, step, if_pos rfl]
  rcases textTokens raw with - | ts
  · rfl
  · simp only [Option.map_some, Option.bind_some, run_append, run_tag h, List.nil_append]
    rw [run, step, if_neg (by decide), if_pos rfl]
    rcases readTag w with - | us
    · rfl
    · simp [run]

/-- A tag that ends with the value of an attribute. -/
theorem run_value_tag {v : List Char} (h : IsPlain w) (hopen : '<' ∉ v) (hquote : '"' ∉ v) :
    run (.content raw) ('<' :: (w ++ '"' :: (v ++ ['"', '>']))) =
      (textTokens raw).bind fun ts ↦
        (readTag (w ++ '"' :: (v ++ ['"']))).map fun us ↦ (ts ++ us, .content []) := by
  rw [run, step, if_pos rfl]
  rcases textTokens raw with - | ts
  · rfl
  · simp only [Option.map_some, Option.bind_some, run_append, run_tag h, List.nil_append]
    rw [run, step, if_neg (by decide), if_neg (by decide), if_pos (.inl rfl)]
    simp only [Option.bind_some, run_append, run_value hopen hquote, List.nil_append]
    rw [run, step, if_neg (by decide), if_pos rfl, Option.bind_some, run, step, if_neg (by decide),
      if_pos rfl]
    simp only [List.append_assoc, List.cons_append, List.nil_append]
    rcases readTag (w ++ '"' :: (v ++ ['"'])) with - | us
    · rfl
    · simp [run]

end Run

/-- A forest of elements with text. -/
inductive Forest
  | nil
  | text (t : List Char) (rest : Forest)
  | element (name : List Char) (attrs : Attrs) (children rest : Forest)

namespace Forest

def tokens : Forest → List Token
  | nil => []
  | text t rest => .text t :: tokens rest
  | element name attrs children rest =>
    .startTag name attrs :: (tokens children ++ .endTag name :: tokens rest)

def append : Forest → Forest → Forest
  | nil, e => e
  | text t rest, e => text t (append rest e)
  | element name attrs children rest, e => element name attrs children (append rest e)

theorem tokens_append (f e : Forest) : (f.append e).tokens = f.tokens ++ e.tokens := by
  induction f with
  | nil => rfl
  | text t rest ih => rw [append, tokens, tokens, ih, List.cons_append]
  | element name attrs children rest _ ih =>
    rw [append, tokens, tokens, ih, List.cons_append, List.append_assoc, List.cons_append]

/-- Every element has its end tag. -/
theorem countP_isStart (f : Forest) :
    f.tokens.countP Token.isStart = f.tokens.countP Token.isEnd := by
  induction f with
  | nil => rfl
  | text t rest ih => simpa [tokens, Token.isStart, Token.isEnd] using ih
  | element name attrs children rest ihc ihr =>
    simp only [tokens, List.countP_cons, List.countP_append, Token.isStart, Token.isEnd, ihc, ihr]
    simp
    omega

theorem append_assoc (f g e : Forest) : (f.append g).append e = f.append (g.append e) := by
  induction f with
  | nil => rfl
  | text t rest ih => rw [append, append, append, ih]
  | element name attrs children rest _ ih => rw [append, append, append, ih]

end Forest

end ConfdDemos.Xml
