import ConfdDemos.Gnmi.RoundTrip

/-!
# What a string addresses

`set` and `delete` address a node by `make_formatted_path`, `get` and the samples of a subscription
by `make_xpath_path` with quoted values. In neither is a key value escaped, so a value may imitate
the end of its own element and the beginning of another.

Both strings are bracketed segments in the sense of `Brackets`: the keypath brackets a value in
braces, the XPath brackets a key name, an equals sign and a quoted value. When a path has at most
one key in each element, its string addresses it alone exactly when the library's criterion holds of
both sequences of segments.

## Key names

Key names are whatever `IsKey` admits. YANG has identifiers there; gNMI itself has arbitrary
strings, and then an XPath predicate may also be read as another key name with another value.
-/

namespace ConfdDemos.Gnmi

/-! ## YANG names -/

def isIdentifierStart (c : Char) : Bool := c.isAlpha || c == '_'

def isIdentifierChar (c : Char) : Bool := c.isAlphanum || c == '_' || c == '-' || c == '.'

/-- A YANG identifier. -/
def isIdentifier : List Char → Bool
  | [] => false
  | c :: cs => isIdentifierStart c && cs.all isIdentifierChar

/-- An identifier that a module name may qualify. -/
def isYangName (name : List Char) : Bool :=
  match name.splitOn ':' with
  | [local_] => isIdentifier local_
  | [module_, local_] => isIdentifier module_ && isIdentifier local_
  | _ => false

theorem isIdentifierChar_of_mem {name : List Char} {c : Char} (h : isIdentifier name = true)
    (hc : c ∈ name) : isIdentifierChar c = true := by
  cases name with
  | nil => exact absurd hc List.not_mem_nil
  | cons d cs =>
    rw [isIdentifier, Bool.and_eq_true] at h
    rcases List.mem_cons.mp hc with rfl | hc'
    · have hstart := h.1
      simp only [isIdentifierStart, isIdentifierChar, Bool.or_eq_true, Char.isAlphanum] at hstart ⊢
      tauto
    · exact List.all_eq_true.mp h.2 c hc'

theorem isYangName_char {name : List Char} {c : Char} (h : isYangName name = true)
    (hc : c ∈ name) : isIdentifierChar c = true ∨ c = ':' := by
  have hname : [':'].intercalate (name.splitOn ':') = name := List.intercalate_splitOn ':'
  rw [isYangName] at h
  split at h
  next a heq =>
    rw [heq, List.intercalate_singleton] at hname
    exact Or.inl (isIdentifierChar_of_mem (hname ▸ h) hc)
  next m a heq =>
    rw [Bool.and_eq_true] at h
    rw [heq] at hname
    rw [← hname] at hc
    simp only [List.intercalate_cons_cons, List.intercalate_singleton, List.mem_append,
      List.mem_singleton] at hc
    rcases hc with (hc | hc) | hc
    · exact Or.inl (isIdentifierChar_of_mem h.1 hc)
    · exact Or.inr hc
    · exact Or.inl (isIdentifierChar_of_mem h.2 hc)
  next => exact absurd h (by simp)

/-- A character that is neither part of an identifier nor a colon does not occur in a name. -/
theorem notMem_of_isYangName {name : List Char} {c : Char} (h : isYangName name = true)
    (hc : isIdentifierChar c = false) (hcolon : c ≠ ':') : c ∉ name := by
  intro hmem
  rcases isYangName_char h hmem with hchar | rfl
  · rw [hc] at hchar
    exact absurd hchar (by simp)
  · exact hcolon rfl

theorem ne_nil_of_isYangName {name : List Char} (h : isYangName name = true) : name ≠ [] := by
  rintro rfl
  exact absurd h (by decide)

/-! ## Paths as segments -/

/-- What the braces of a keypath enclose. -/
def formattedBrackets : Brackets Char where
  separator := '/'
  opening := '{'
  closing := '}'
  tail := []
  opening_ne := by decide
  separator_ne := by decide
  closing_ne := by decide
  notMem_tail := by decide

/-- What the brackets of an XPath predicate enclose, up to the closing quote. -/
def xpathBrackets : Brackets Char where
  separator := '/'
  opening := '['
  closing := '"'
  tail := [']']
  opening_ne := by decide
  separator_ne := by decide
  closing_ne := by decide
  notMem_tail := by decide

/-- A key name, the equals sign, the opening quote and the value. -/
def predicateText (q : List Char × List Char) : List Char := q.1 ++ '=' :: '"' :: q.2

/-- The elements with what the payload of their key is, for paths with at most one key in each. -/
def Path.segments (payload : List Char × List Char → List Char) (p : Path) :
    List (List Char × Option (List Char)) :=
  p.elem.map fun e ↦ (e.name, e.key.head?.map payload)

/-- Element names are YANG names, no element has two keys, and key names are admissible. -/
structure Addressed (IsKey : List Char → Prop) (p : Path) : Prop where
  name : ∀ e ∈ p.elem, isYangName e.name = true
  one_key : ∀ e ∈ p.elem, e.key.length ≤ 1
  key : ∀ e ∈ p.elem, ∀ q ∈ e.key, IsKey q.1

/-- The payloads that some admissible key has. -/
def HasKey (IsKey : List Char → Prop) (payload : List Char × List Char → List Char)
    (w : List Char) : Prop := ∃ q, IsKey q.1 ∧ payload q = w

section Segments

variable {IsKey : List Char → Prop} {B : Brackets Char}
  {payload : List Char × List Char → List Char} {quoteVal xpath : Bool} {p q : Path}

theorem PathElem.key_eq_of_length {e : PathElem} (h : e.key.length ≤ 1) :
    e.key = [] ∨ ∃ q, e.key = [q] := by
  match hk : e.key, h with
  | [], _ => exact Or.inl rfl
  | [q], _ => exact Or.inr ⟨q, rfl⟩

theorem Addressed.proper (hp : Addressed IsKey p) :
    Brackets.Proper (fun n ↦ isYangName n = true) (HasKey IsKey payload) (p.segments payload) := by
  intro s hs
  obtain ⟨e, he, rfl⟩ := List.mem_map.mp hs
  refine ⟨hp.name e he, fun w hw ↦ ?_⟩
  obtain ⟨q, hq, rfl⟩ := Option.map_eq_some_iff.mp hw
  exact ⟨q, hp.key e he q (List.mem_of_head? hq), rfl⟩

/-- Every sequence of admissible segments is that of a path. -/
theorem exists_segments_eq {l : List (List Char × Option (List Char))}
    (h : Brackets.Proper (fun n ↦ isYangName n = true) (HasKey IsKey payload) l) :
    ∃ q, Addressed IsKey q ∧ q.segments payload = l := by
  induction l with
  | nil => exact ⟨⟨[]⟩, ⟨by simp, by simp, by simp⟩, rfl⟩
  | cons s l ih =>
    obtain ⟨n, w⟩ := s
    obtain ⟨hs, hl⟩ := List.forall_mem_cons.mp h
    obtain ⟨⟨elem⟩, hq, rfl⟩ := ih hl
    cases w with
    | none =>
      refine ⟨⟨⟨n, []⟩ :: elem⟩, ⟨List.forall_mem_cons.mpr ⟨hs.1, hq.name⟩,
        List.forall_mem_cons.mpr ⟨by simp, hq.one_key⟩,
        List.forall_mem_cons.mpr ⟨by simp, hq.key⟩⟩, rfl⟩
    | some w =>
      obtain ⟨k, hk, rfl⟩ := hs.2 w rfl
      refine ⟨⟨⟨n, [k]⟩ :: elem⟩, ⟨List.forall_mem_cons.mpr ⟨hs.1, hq.name⟩,
        List.forall_mem_cons.mpr ⟨by simp, hq.one_key⟩,
        List.forall_mem_cons.mpr ⟨by simpa using hk, hq.key⟩⟩, rfl⟩

section

variable (hsep : B.separator = '/')
  (htext : ∀ q, keyText quoteVal xpath q = B.opening :: payload q ++ B.closing :: B.tail)

include hsep htext

theorem flatMap_elemText (hp : Addressed IsKey p) :
    p.elem.flatMap (elemText quoteVal xpath) = B.render (p.segments payload) := by
  obtain ⟨elem⟩ := p
  rw [Brackets.render, Path.segments, List.flatMap_map]
  refine List.flatMap_congr fun e he ↦ ?_
  rcases PathElem.key_eq_of_length (hp.one_key e he) with hk | ⟨q, hk⟩
  · simp [elemText, Brackets.text, hk, hsep]
  · simp [elemText, Brackets.text, hk, hsep, htext]

/-- The root has a string of its own, since names are not empty. -/
theorem makePath_eq_iff (hp : Addressed IsKey p) (hq : Addressed IsKey q) :
    makePath quoteVal xpath p = makePath quoteVal xpath q ↔
      B.render (p.segments payload) = B.render (q.segments payload) := by
  rw [← flatMap_elemText hsep htext hp, ← flatMap_elemText hsep htext hq]
  have hroot : ∀ {r : Path}, Addressed IsKey r →
      r.elem.flatMap (elemText quoteVal xpath) ≠ ['/'] := by
    intro r hr heq
    obtain ⟨elem⟩ := r
    cases elem with
    | nil => simp at heq
    | cons e elem =>
      have hname := ne_nil_of_isYangName (hr.name e List.mem_cons_self)
      simp [elemText, hname] at heq
  simp only [makePath]
  split_ifs with h₁ h₂ h₂
  · simp [h₁, h₂]
  · exact iff_of_false (hroot hq).symm (by rw [h₁]; exact Ne.symm h₂)
  · exact iff_of_false (hroot hp) (by rw [h₂]; exact h₁)
  · exact Iff.rfl

variable (B payload quoteVal xpath) in
/-- The criterion for one of the two strings. -/
theorem makePath_determined_iff
    (hext : ∀ k v t, payload (k, v) ++ t = payload (k, v ++ t))
    (hname : ∀ n, isYangName n = true → B.separator ∉ n ∧ B.opening ∉ n ∧ B.closing ∉ n)
    (hp : Addressed IsKey p) :
    (∀ q, Addressed IsKey q → makePath quoteVal xpath p = makePath quoteVal xpath q →
        p.segments payload = q.segments payload) ↔
      Brackets.payloads (p.segments payload) ≤ 1 ∧ ∀ s ∈ p.segments payload, ∀ w ∈ s.2,
        ¬ B.Cut (fun n ↦ isYangName n = true) (HasKey IsKey payload) w := by
  have hclosed : ∀ x t, HasKey IsKey payload x → HasKey IsKey payload (x ++ t) := by
    rintro x t ⟨⟨k, v⟩, hk, rfl⟩
    exact ⟨(k, v ++ t), hk, (hext k v t).symm⟩
  rw [← Brackets.determined_iff hname hclosed hp.proper]
  constructor
  · intro h l hl heq
    obtain ⟨q, hq, rfl⟩ := exists_segments_eq hl
    exact h q hq ((makePath_eq_iff hsep htext hp hq).mpr heq)
  · intro h q hq heq
    exact h _ hq.proper ((makePath_eq_iff hsep htext hp hq).mp heq)

end

theorem payloads_segments :
    Brackets.payloads (p.segments payload) = p.elem.countP fun e ↦ !e.key.isEmpty := by
  rw [Brackets.payloads, Path.segments, List.countP_map]
  refine List.countP_congr fun e _ ↦ ?_
  cases hk : e.key <;> simp [hk]

theorem forall_segments_iff {P : List Char → Prop} (hp : Addressed IsKey p) :
    (∀ s ∈ p.segments payload, ∀ w ∈ s.2, P w) ↔ ∀ e ∈ p.elem, ∀ q ∈ e.key, P (payload q) := by
  rw [Path.segments, List.forall_mem_map]
  refine forall₂_congr fun e he ↦ ?_
  rcases PathElem.key_eq_of_length (hp.one_key e he) with hk | ⟨q, hk⟩ <;> simp [hk]

/-- With one key at most, the values of an element are its payload. -/
theorem segments_snd_eq_iff (hp : Addressed IsKey p) (hq : Addressed IsKey q) :
    p.segments Prod.snd = q.segments Prod.snd ↔
      (p.elem.map fun e ↦ (e.name, e.key.map Prod.snd))
        = q.elem.map fun e ↦ (e.name, e.key.map Prod.snd) := by
  have hto : ∀ r : Path, r.segments Prod.snd
      = (r.elem.map fun e ↦ (e.name, e.key.map Prod.snd)).map fun s ↦ (s.1, s.2.head?) := by
    intro r
    rw [Path.segments, List.map_map]
    exact List.map_congr_left fun e _ ↦ by simp
  have hof : ∀ {r : Path}, Addressed IsKey r →
      (r.elem.map fun e ↦ (e.name, e.key.map Prod.snd))
        = (r.segments Prod.snd).map fun s ↦ (s.1, s.2.toList) := by
    intro r hr
    rw [Path.segments, List.map_map]
    refine List.map_congr_left fun e he ↦ ?_
    rcases PathElem.key_eq_of_length (hr.one_key e he) with hk | ⟨q, hk⟩ <;> simp [hk]
  constructor
  · intro h
    rw [hof hp, hof hq, h]
  · intro h
    rw [hto, hto, h]

end Segments

/-! ## The two strings of a path -/

section Identified

variable (IsKey : List Char → Prop)

/-- No other path has one of the strings of `p`: the keypath gives the element names and the key
values, the XPath gives the elements. -/
def Identified (p : Path) : Prop :=
  ∀ q, Addressed IsKey q →
    (makeFormattedPath p none false = makeFormattedPath q none false →
      (p.elem.map fun e ↦ (e.name, e.key.map Prod.snd))
        = q.elem.map fun e ↦ (e.name, e.key.map Prod.snd)) ∧
    (makeXpathPath (some p) none true = makeXpathPath (some q) none true → p = q)

/-- At most one element has a key, its value does not read as `…}/name/name{…` in a keypath or as
`…"]/name/name[key="…` in an XPath, and its predicate has one reading. -/
structure Unambiguous (p : Path) : Prop where
  one_keyed : (p.elem.countP fun e ↦ !e.key.isEmpty) ≤ 1
  formatted : ∀ e ∈ p.elem, ∀ q ∈ e.key,
    ¬ formattedBrackets.Cut (fun n ↦ isYangName n = true) (HasKey IsKey Prod.snd) q.2
  xpath : ∀ e ∈ p.elem, ∀ q ∈ e.key,
    ¬ xpathBrackets.Cut (fun n ↦ isYangName n = true) (HasKey IsKey predicateText) (predicateText q)
  predicate : ∀ e ∈ p.elem, ∀ q ∈ e.key, ∀ q', IsKey q'.1 → predicateText q' = predicateText q →
    q' = q

variable {IsKey} {p q : Path}

/-- Delimiters do not occur in names. -/
theorem delimiter_notMem {name : List Char} (h : isYangName name = true) :
    '/' ∉ name ∧ '{' ∉ name ∧ '}' ∉ name ∧ '[' ∉ name ∧ '"' ∉ name := by
  refine ⟨?_, ?_, ?_, ?_, ?_⟩ <;> exact notMem_of_isYangName h (by decide) (by decide)

/-- The criterion for the keypath. -/
theorem formatted_determined_iff (hp : Addressed IsKey p) :
    (∀ q, Addressed IsKey q →
      makeFormattedPath p none false = makeFormattedPath q none false →
        (p.elem.map fun e ↦ (e.name, e.key.map Prod.snd))
          = q.elem.map fun e ↦ (e.name, e.key.map Prod.snd)) ↔
      (p.elem.countP fun e ↦ !e.key.isEmpty) ≤ 1 ∧ ∀ e ∈ p.elem, ∀ q ∈ e.key,
        ¬ formattedBrackets.Cut (fun n ↦ isYangName n = true) (HasKey IsKey Prod.snd) q.2 := by
  have hname : ∀ n, isYangName n = true → formattedBrackets.separator ∉ n ∧
      formattedBrackets.opening ∉ n ∧ formattedBrackets.closing ∉ n := fun n hn ↦
    ⟨(delimiter_notMem hn).1, (delimiter_notMem hn).2.1, (delimiter_notMem hn).2.2.1⟩
  have hiff := makePath_determined_iff formattedBrackets Prod.snd false false rfl (fun _ ↦ rfl)
    (fun _ _ _ ↦ rfl) hname hp
  rw [payloads_segments, forall_segments_iff hp] at hiff
  rw [← hiff]
  refine forall₂_congr fun q hq ↦ ?_
  rw [segments_snd_eq_iff hp hq]
  rfl

/-- The criterion for the segments of the XPath. -/
theorem xpath_determined_iff (hp : Addressed IsKey p) :
    (∀ q, Addressed IsKey q →
      makeXpathPath (some p) none true = makeXpathPath (some q) none true →
        p.segments predicateText = q.segments predicateText) ↔
      (p.elem.countP fun e ↦ !e.key.isEmpty) ≤ 1 ∧ ∀ e ∈ p.elem, ∀ q ∈ e.key,
        ¬ xpathBrackets.Cut (fun n ↦ isYangName n = true) (HasKey IsKey predicateText)
          (predicateText q) := by
  have hname : ∀ n, isYangName n = true → xpathBrackets.separator ∉ n ∧
      xpathBrackets.opening ∉ n ∧ xpathBrackets.closing ∉ n := fun n hn ↦
    ⟨(delimiter_notMem hn).1, (delimiter_notMem hn).2.2.2.1, (delimiter_notMem hn).2.2.2.2⟩
  have htext : ∀ q, keyText true true q
      = xpathBrackets.opening :: predicateText q ++
        xpathBrackets.closing :: xpathBrackets.tail := by
    intro q
    simp [keyText, predicateText, xpathBrackets]
  have hiff := makePath_determined_iff xpathBrackets predicateText true true rfl htext
    (fun k v t ↦ by simp [predicateText]) hname hp
  rw [payloads_segments, forall_segments_iff hp] at hiff
  exact hiff

/-- A predicate with one reading gives its key. -/
theorem eq_of_segments_predicateText (hp : Addressed IsKey p) (hq : Addressed IsKey q)
    (hpred : ∀ e ∈ p.elem, ∀ q ∈ e.key, ∀ q', IsKey q'.1 → predicateText q' = predicateText q →
      q' = q)
    (h : p.segments predicateText = q.segments predicateText) : p = q := by
  obtain ⟨es⟩ := p
  obtain ⟨fs⟩ := q
  congr 1
  refine List.ext_getElem (by simpa [Path.segments] using congrArg List.length h) fun i hi hi' ↦ ?_
  have hei := hp.one_key es[i] (List.getElem_mem hi)
  have hfi := hq.one_key fs[i] (List.getElem_mem hi')
  have hseg : (es[i].name, es[i].key.head?.map predicateText)
      = (fs[i].name, fs[i].key.head?.map predicateText) := by
    simpa [Path.segments, hi, hi'] using congrArg (·[i]?) h
  obtain ⟨hname, hkey⟩ := Prod.mk.inj hseg
  have hkeys : es[i].key = fs[i].key := by
    rcases PathElem.key_eq_of_length hei with he | ⟨a, he⟩ <;>
      rcases PathElem.key_eq_of_length hfi with hf | ⟨b, hf⟩ <;> rw [he, hf] at hkey
    · rw [he, hf]
    · simp at hkey
    · simp at hkey
    · have hb : IsKey b.1 := hq.key _ (List.getElem_mem hi') b (by simp [hf])
      have hab := hpred _ (List.getElem_mem hi) a (by simp [he]) b hb (by simpa using hkey.symm)
      rw [he, hf, hab]
  cases hes : es[i]
  cases hfs : fs[i]
  simp_all

/-- **Which paths are addressed by their strings.** A path with YANG element names and at most one
key in each element shares neither its keypath nor its XPath with another such path if and only if
it is unambiguous. -/
theorem identified_iff (hp : Addressed IsKey p) : Identified IsKey p ↔ Unambiguous IsKey p := by
  constructor
  · intro h
    obtain ⟨hone, hformatted⟩ := (formatted_determined_iff hp).mp fun q hq ↦ (h q hq).1
    have hxpath := (xpath_determined_iff hp).mp fun q hq heq ↦ by rw [(h q hq).2 heq]
    refine ⟨hone, hformatted, hxpath.2, fun e he k hk k' hk' heq ↦ ?_⟩
    -- the same path with the other reading of the predicate has the same string
    obtain ⟨as, bs, hsplit⟩ := List.append_of_mem he
    obtain ⟨k₀, hk₀⟩ : ∃ k₀, e.key = [k₀] :=
      (PathElem.key_eq_of_length (hp.one_key e he)).resolve_left (List.ne_nil_of_mem hk)
    obtain rfl : k = k₀ := by simpa [hk₀] using hk
    have hq : Addressed IsKey ⟨as ++ ⟨e.name, [k']⟩ :: bs⟩ := by
      obtain ⟨hname, hkey₁, hkey⟩ := hp
      rw [hsplit] at hname hkey₁ hkey
      simp only [List.forall_mem_append, List.forall_mem_cons] at hname hkey₁ hkey
      constructor <;> simp only [List.forall_mem_append, List.forall_mem_cons]
      · exact hname
      · exact ⟨hkey₁.1, by simp, hkey₁.2.2⟩
      · exact ⟨hkey.1, ⟨hk', by simp⟩, hkey.2.2⟩
    have htext : makeXpathPath (some p) none true
        = makeXpathPath (some ⟨as ++ ⟨e.name, [k']⟩ :: bs⟩) none true := by
      have helem : elemText true true e = elemText true true ⟨e.name, [k']⟩ := by
        have hkeyText : ∀ q, keyText true true q = '[' :: predicateText q ++ ['"', ']'] := by
          intro q
          simp [keyText, predicateText]
        simp [elemText, hk₀, hkeyText, heq]
      simp only [makeXpathPath, makeStringPath, makePath, hsplit, List.flatMap_append,
        List.flatMap_cons, helem]
    have hpq := congrArg Path.elem ((h _ hq).2 htext)
    rw [hsplit] at hpq
    have he' : e = ⟨e.name, [k']⟩ := by simpa using hpq
    have hkeys := congrArg PathElem.key he'
    rw [hk₀] at hkeys
    exact (List.cons.inj hkeys).1.symm
  · intro h q hq
    refine ⟨fun heq ↦ (formatted_determined_iff hp).mpr ⟨h.one_keyed, h.formatted⟩ q hq heq,
      fun heq ↦ ?_⟩
    exact eq_of_segments_predicateText hp hq h.predicate
      ((xpath_determined_iff hp).mpr ⟨h.one_keyed, h.xpath⟩ q hq heq)

end Identified

/-- With identifiers as key names, a predicate has one reading. -/
theorem eq_of_predicateText {a b : List Char × List Char} (ha : isIdentifier a.1 = true)
    (hb : isIdentifier b.1 = true) (h : predicateText a = predicateText b) : a = b := by
  have hstop : ∀ k, isIdentifier k = true → ∀ c ∈ k, ¬ c = '=' := by
    rintro k hk c hc rfl
    exact absurd (isIdentifierChar_of_mem hk hc) (by decide)
  obtain ⟨hkey, hrest⟩ := append_inj_of_stop (hstop a.1 ha) (hstop b.1 hb) (by simp) (by simp) h
  exact Prod.ext hkey (by simpa using hrest)

/-- `/n[k=a]`. -/
def keyedPath : Path := ⟨[⟨['n'], [(['k'], ['a'])]⟩]⟩

theorem identified_keyedPath : Identified (fun k ↦ isIdentifier k = true) keyedPath := by
  have hp : Addressed (fun k ↦ isIdentifier k = true) keyedPath := by
    constructor <;> decide
  refine (identified_iff hp).mpr ⟨by decide, ?_, ?_, ?_⟩
  · intro e he q hq hcut
    have hclose : '}' ∈ q.2 := hcut.subset List.mem_cons_self
    revert e q
    simp [keyedPath]
  · intro e he q hq hcut
    have hclose : ']' ∈ predicateText q :=
      hcut.subset (List.mem_cons_of_mem _ List.mem_cons_self)
    revert e q
    simp [keyedPath, predicateText]
  · exact fun e he q hq q' hq' heq ↦ eq_of_predicateText hq' (hp.key e he q hq) heq

/-- `/n[k=a]/m[k=b]`. -/
def nestedPath : Path := ⟨[⟨['n'], [(['k'], ['a'])]⟩, ⟨['m'], [(['k'], ['b'])]⟩]⟩

/-- The value `a}/m{b` of one key. -/
def bracedPath : Path := ⟨[⟨['n'], [(['k'], ['a', '}', '/', 'm', '{', 'b'])]⟩]⟩

/-- The value `a"]/m[k="b` of one key. -/
def quotedPath : Path :=
  ⟨[⟨['n'], [(['k'], ['a', '"', ']', '/', 'm', '[', 'k', '=', '"', 'b'])]⟩]⟩

/-- A key value makes a keypath or an XPath that addresses another node. -/
theorem not_identified_nestedPath :
    (Addressed (fun k ↦ isIdentifier k = true) nestedPath ∧
      Addressed (fun k ↦ isIdentifier k = true) bracedPath ∧
      Addressed (fun k ↦ isIdentifier k = true) quotedPath) ∧
    (makeFormattedPath bracedPath none false = makeFormattedPath nestedPath none false ∧
      (bracedPath.elem.map fun e ↦ (e.name, e.key.map Prod.snd))
        ≠ nestedPath.elem.map fun e ↦ (e.name, e.key.map Prod.snd)) ∧
    makeXpathPath (some quotedPath) none true = makeXpathPath (some nestedPath) none true ∧
      quotedPath ≠ nestedPath := by
  refine ⟨⟨?_, ?_, ?_⟩, by decide, by decide⟩ <;> constructor <;> decide

end ConfdDemos.Gnmi
