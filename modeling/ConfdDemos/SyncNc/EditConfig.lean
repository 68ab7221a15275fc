import Mathlib.Data.Int.Notation
import ConfdDemos.Foundation.Delimited
import ConfdDemos.Foundation.Xml

/-!
# The payload of an edit

`process_modifications` turns an array of tagged values into the text of an edit. Every element of
the array is one line or, for a leaf-list, one line for each value; the indentation and the path of
the open elements are passed from element to element.

## Values

The text of a value is written between the tags as it is. It comes back from an XML reader as it was
exactly when it is `Xml.Clean`, and the values of a leaf-list are told apart by the white space
between them. The tag of a deleted leaf is written without its end tag, so that an edit with a
deleted leaf is not well formed.
-/

namespace ConfdDemos.SyncNc

/-! ## Tagged values -/

/-- Identifiers of YANG. -/
def isIdentifier (s : List Char) : Bool :=
  (s.head?.any fun c ↦ c.isAlpha || c == '_') &&
    s.all fun c ↦ c.isAlphanum || c == '_' || c == '-' || c == '.'

/-- A node of the schema: `str(tv)`, `hash2str(tv.ns)` and `ns2prefix(tv.ns)`. The namespace is a
URI, which has no angle brackets and no quotes. -/
structure NodeTag where
  tag : List Char
  ns : List Char
  pfx : List Char
  isIdentifier_tag : isIdentifier tag = true
  isIdentifier_pfx : isIdentifier pfx = true
  ns_chars : '<' ∉ ns ∧ '"' ∉ ns

/-- An element of the array, by the type of its value. -/
inductive TagVal (V : Type*)
  | xmlBegin (t : NodeTag)
  | xmlEnd (t : NodeTag)
  | noExists (t : NodeTag)
  | xmlBeginDel (t : NodeTag)
  | xmlTag (t : NodeTag)
  | list (t : NodeTag) (vs : List V)
  | leaf (t : NodeTag) (v : V)

/-- `val2str`, by the namespace and the path of the node. The text of a leaf-list has the texts of
its values with blanks between them. -/
structure Val2str (V : Type*) where
  leaf : V → List Char → List Char → List Char
  list : List V → List Char → List Char → List Char
  list_eq : ∀ vs ns path, list vs ns path = [' '].intercalate (vs.map fun v ↦ leaf v ns path)

/-- `str.isspace` of one character. -/
def isPySpace (c : Char) : Bool :=
  let n := c.toNat
  (decide (0x09 ≤ n) && decide (n ≤ 0x0D)) || (decide (0x1C ≤ n) && decide (n ≤ 0x20)) ||
    n == 0x85 || n == 0xA0 || n == 0x1680 || (decide (0x2000 ≤ n) && decide (n ≤ 0x200A)) ||
    n == 0x2028 || n == 0x2029 || n == 0x202F || n == 0x205F || n == 0x3000

/-- `str.split()`, with the letters since the last white space. -/
def splitFrom (word : List Char) : List Char → List (List Char)
  | [] => if word = [] then [] else [word]
  | c :: s =>
    if isPySpace c then if word = [] then splitFrom [] s else word :: splitFrom [] s
    else splitFrom (word ++ [c]) s

def pySplit (s : List Char) : List (List Char) := splitFrom [] s

/-! ## The text -/

section Render

variable {V : Type*} (conv : Val2str V) (rootNs : List Char)

def TagVal.node : TagVal V → NodeTag
  | .xmlBegin t => t
  | .xmlEnd t => t
  | .noExists t => t
  | .xmlBeginDel t => t
  | .xmlTag t => t
  | .list t _ => t
  | .leaf t _ => t

/-- `"/" + prefix + ":" + tag`. -/
def pathStep (t : NodeTag) : List Char := '/' :: (t.pfx ++ ':' :: t.tag)

/-- `current_path[:last_slash]`. -/
def parentPath (path : List Char) : List Char :=
  if '/' ∈ path then (path.reverse.dropWhile (· != '/')).tail.reverse else []

/-- `INDENT_STR * indent`. -/
def indentText (indent : ℤ) : List Char := List.replicate indent.toNat ' '

def indentSize : ℤ := 2

/-- What stands between the angle brackets of a tag with `nc:operation`. -/
def deleteTag (t : NodeTag) : List Char :=
  t.tag ++ " nc:operation=".toList ++ '"' :: ("delete".toList ++ ['"'])

/-- `"{}<{}>{}</{}>\n"`. -/
def leafLine (indent : ℤ) (t : NodeTag) (val : List Char) : List Char :=
  indentText indent ++ ('<' :: (t.tag ++ ['>'])) ++ val ++ ('<' :: ('/' :: t.tag ++ ['>'])) ++
    ['\n']

/-- A line with one tag. -/
def tagLine (indent : ℤ) (body : List Char) : List Char :=
  indentText indent ++ ('<' :: (body ++ ['>'])) ++ ['\n']

/-- `get_value`. -/
def getValue (tv : TagVal V) (indent : ℤ) (currentPath : List Char) : List Char × ℤ × List Char :=
  match tv with
  | .xmlBegin t =>
    (tagLine indent (t.tag ++ " xmlns=".toList ++ '"' :: (t.ns ++ ['"'])), indent + indentSize,
      currentPath ++ pathStep t)
  | .xmlEnd t => (tagLine indent ('/' :: t.tag), indent - indentSize, parentPath currentPath)
  -- there is no end tag
  | .noExists t => (tagLine indent (deleteTag t), indent, currentPath)
  | .xmlBeginDel t =>
    (tagLine indent (deleteTag t), indent + indentSize, currentPath ++ pathStep t)
  | .xmlTag t => (tagLine indent (t.tag ++ ['/']), indent, currentPath)
  | .list t vs =>
    let valStrs := pySplit (conv.list vs rootNs (currentPath ++ pathStep t))
    (valStrs.flatMap (leafLine indent t), indent, currentPath)
  | .leaf t v =>
    (leafLine indent t (conv.leaf v rootNs (currentPath ++ pathStep t)), indent, currentPath)

/-- The variables of the loop of `process_modifications`. -/
structure Progress where
  indent : ℤ
  result : List Char
  currentPath : List Char

def Progress.start : Progress := ⟨0, [], []⟩

/-- The body of the loop. -/
def Progress.next (s : Progress) (tv : TagVal V) : Progress :=
  let (text, indent, currentPath) := getValue conv rootNs tv s.indent s.currentPath
  ⟨indent, s.result ++ text, currentPath⟩

/-- The loop of `process_modifications`. -/
def Progress.loop (s : Progress) (mods : List (TagVal V)) : Progress :=
  mods.foldl (Progress.next conv rootNs) s

/-- What `process_modifications` passes to `edit_config_msg`, with no result when there is no second
element. -/
def editPayload (mods : List (TagVal V)) : Option (List Char) :=
  mods[1]?.map fun second ↦ (Progress.start.loop conv second.node.ns mods).result

end Render

/-! ## Arrays -/

/-- The tree of a well-nested array. -/
inductive Mods (V : Type*)
  | nil
  | container (delete : Bool) (t : NodeTag) (children rest : Mods V)
  | leaf (t : NodeTag) (v : V) (rest : Mods V)
  | empty (t : NodeTag) (rest : Mods V)
  | leafList (t : NodeTag) (vs : List V) (rest : Mods V)
  | deleted (t : NodeTag) (rest : Mods V)

section Mods

variable {V : Type*}

def Mods.array : Mods V → List (TagVal V)
  | nil => []
  | container delete t children rest =>
    (if delete then .xmlBeginDel t else .xmlBegin t) :: (array children ++ .xmlEnd t :: array rest)
  | leaf t v rest => .leaf t v :: array rest
  | empty t rest => .xmlTag t :: array rest
  | leafList t vs rest => .list t vs :: array rest
  | deleted t rest => .noExists t :: array rest

/-- What one element of the array does to the elements that are open, the innermost one last. -/
def openNext (opened : List NodeTag) : TagVal V → List NodeTag
  | .xmlBegin t => opened ++ [t]
  | .xmlBeginDel t => opened ++ [t]
  | .xmlEnd _ => opened.dropLast
  | _ => opened

def pathOf (opened : List NodeTag) : List Char := opened.flatMap pathStep

/-! ## What the text has to show -/

/-- The attribute for a deletion. -/
def deletes (attrs : Xml.Attrs) : Bool :=
  attrs.contains ("nc:operation".toList, "delete".toList)

/-- White space between elements is passed over. -/
def skipSpace : Xml.Forest → Xml.Forest
  | .text t rest => if t.all Xml.isSpace then rest else .text t rest
  | f => f

def textForest (t : List Char) : Xml.Forest := if t = [] then .nil else .text t .nil

/-- An element without element children, and what follows it. -/
def ShowsLeaf (tag : List Char) (delete : Bool) (text : List Char) (next : Xml.Forest → Prop)
    (f : Xml.Forest) : Prop :=
  ∃ attrs rest, skipSpace f = .element tag attrs (textForest text) rest ∧ deletes attrs = delete ∧
    next rest

variable (conv : Val2str V) (rootNs : List Char)

/-- The forest has the elements of the array, with the text of the values, below the elements that
are open. -/
def Mods.Shows (opened : List NodeTag) : Mods V → Xml.Forest → Prop
  | nil, f => skipSpace f = .nil
  | container delete t children rest, f =>
    ∃ attrs below next, skipSpace f = .element t.tag attrs below next ∧ deletes attrs = delete ∧
      Shows (opened ++ [t]) children below ∧ Shows opened rest next
  | leaf t v rest, f =>
    ShowsLeaf t.tag false (conv.leaf v rootNs (pathOf (opened ++ [t]))) (Shows opened rest) f
  | empty t rest, f => ShowsLeaf t.tag false [] (Shows opened rest) f
  | leafList t vs rest, f =>
    vs.foldr (fun v ↦ ShowsLeaf t.tag false (conv.leaf v rootNs (pathOf (opened ++ [t]))))
      (Shows opened rest) f
  | deleted t rest, f => ShowsLeaf t.tag true [] (Shows opened rest) f

/-- The text is well formed, with the tree of the array; the path at every element is that of the
elements open there, and it is empty at the end. -/
structure Mods.Renders (m : Mods V) (text : List Char) : Prop where
  shows_ : ∃ f : Xml.Forest, Xml.lex text = some f.tokens ∧ m.Shows conv rootNs [] f
  path : ∀ before tv after, m.array = before ++ tv :: after →
    (Progress.start.loop conv rootNs before).currentPath = pathOf (before.foldl openNext [])
  path_end : (Progress.start.loop conv rootNs m.array).currentPath = []

end Mods

/-! ## Lines -/

/-- The white space that the script writes. -/
def IsBlank (w : List Char) : Prop := ∀ c ∈ w, c = ' ' ∨ c = '\n'

section Lines

variable {raw w v : List Char} {indent : ℤ} {t : NodeTag}

theorem isName_of_isIdentifier (h : isIdentifier w = true) : Xml.isName w = true := by
  rw [isIdentifier, Bool.and_eq_true] at h
  rw [Xml.isName, Bool.and_eq_true]
  refine ⟨?_, ?_⟩
  · obtain ⟨c, hc, hstart⟩ := (Option.any_eq_true _ _).mp h.1
    refine (Option.any_eq_true _ _).mpr ⟨c, hc, ?_⟩
    rw [Xml.isNameStart, hstart]
    rfl
  · rw [List.all_eq_true]
    intro c hc
    have hc' := List.all_eq_true.mp h.2 c hc
    simp only [Xml.isNameChar, Bool.or_eq_true] at hc' ⊢
    tauto

theorem NodeTag.isName (t : NodeTag) : Xml.isName t.tag = true :=
  isName_of_isIdentifier t.isIdentifier_tag

theorem isBlank_indentText (indent : ℤ) : IsBlank (indentText indent) :=
  fun _ hc ↦ .inl (List.eq_of_mem_replicate hc)

theorem IsBlank.append (h : IsBlank raw) (hw : IsBlank w) : IsBlank (raw ++ w) := by
  intro c hc
  rcases List.mem_append.mp hc with hc | hc
  · exact h c hc
  · exact hw c hc

theorem IsBlank.notMem (h : IsBlank w) {c : Char} (hc : c ≠ ' ' ∧ c ≠ '\n') : c ∉ w := by
  intro hmem
  rcases h c hmem with rfl | rfl
  · exact hc.1 rfl
  · exact hc.2 rfl

theorem IsBlank.clean (h : IsBlank w) : Xml.Clean w where
  legal := by
    rw [List.all_eq_true]
    intro c hc
    rcases h c hc with rfl | rfl
    · decide
    · decide
  close := fun hsub ↦ h.notMem (by decide : ']' ≠ ' ' ∧ ']' ≠ '\n') (hsub.subset (by decide))
  amp := h.notMem (by decide)
  cr := h.notMem (by decide)

theorem IsBlank.all_isSpace (h : IsBlank w) : w.all Xml.isSpace = true := by
  rw [List.all_eq_true]
  intro c hc
  rcases h c hc with rfl | rfl
  · decide
  · decide

theorem textTokens_of_clean (h : Xml.Clean v) :
    Xml.textTokens v = some (textForest v).tokens := by
  unfold Xml.textTokens textForest
  split_ifs
  · rfl
  · rw [h.decodeText]
    rfl

/-- A value that an XML reader gives back. -/
structure CleanValue (v : List Char) : Prop where
  open_notMem : '<' ∉ v
  clean : Xml.Clean v

theorem isPlain_of_isName (h : Xml.isName w = true) : Xml.IsPlain w :=
  ⟨Xml.notMem_of_isName h (by decide), Xml.notMem_of_isName h (by decide),
    Xml.notMem_of_isName h (by decide), Xml.notMem_of_isName h (by decide)⟩

/-- A line with a tag of its own, behind white space. -/
theorem run_tagLine (hraw : IsBlank raw) {body : List Char} {ts : List Xml.Token}
    (hbody : ∀ raw, Xml.run (.content raw) ('<' :: (body ++ ['>'])) =
      (Xml.textTokens raw).map fun us ↦ (us ++ ts, .content [])) :
    Xml.run (.content raw) (tagLine indent body) =
      some ((textForest (raw ++ indentText indent)).tokens ++ ts, .content ['\n']) := by
  have hindent := isBlank_indentText indent
  rw [tagLine, Xml.run_append, Xml.run_append, Xml.run_content (hindent.notMem (by decide))]
  simp only [Option.bind_some, hbody, textTokens_of_clean (hraw.append hindent).clean,
    Option.map_some, List.nil_append]
  rw [Xml.run_content (by decide)]
  simp

theorem run_endTag (raw : List Char) :
    Xml.run (.content raw) ('<' :: ('/' :: t.tag ++ ['>'])) =
      (Xml.textTokens raw).map fun us ↦ (us ++ [.endTag t.tag], .content []) := by
  have hplain : Xml.IsPlain ('/' :: t.tag) := by
    obtain ⟨h₁, h₂, h₃, h₄⟩ := isPlain_of_isName t.isName
    simp [Xml.IsPlain, h₁, h₂, h₃, h₄]
  rw [Xml.run_plain_tag hplain, Xml.readTag_end t.isName]
  rcases Xml.textTokens raw with - | us
  · rfl
  · rfl

theorem run_startTag (raw : List Char) :
    Xml.run (.content raw) ('<' :: (t.tag ++ ['>'])) =
      (Xml.textTokens raw).map fun us ↦ (us ++ [.startTag t.tag []], .content []) := by
  rw [Xml.run_plain_tag (isPlain_of_isName t.isName), Xml.readTag_start t.isName]
  rcases Xml.textTokens raw with - | us
  · rfl
  · rfl

theorem run_emptyTag (raw : List Char) :
    Xml.run (.content raw) ('<' :: ((t.tag ++ ['/']) ++ ['>'])) =
      (Xml.textTokens raw).map fun us ↦
        (us ++ [.startTag t.tag [], .endTag t.tag], .content []) := by
  have hplain : Xml.IsPlain (t.tag ++ ['/']) := by
    obtain ⟨h₁, h₂, h₃, h₄⟩ := isPlain_of_isName t.isName
    simp [Xml.IsPlain, h₁, h₂, h₃, h₄]
  rw [Xml.run_plain_tag hplain, Xml.readTag_empty t.isName]
  rcases Xml.textTokens raw with - | us
  · rfl
  · rfl

/-- A tag with one attribute, whose name is read to the end of `front`. -/
theorem run_attrTag {front attr v d : List Char} (raw : List Char) (hplain : Xml.IsPlain front)
    (hhead : ∀ c ∈ front.head?, Xml.isNameChar c = false)
    (hfront : ∀ w, Xml.readAttrs .start (front ++ '"' :: w) = Xml.readAttrs (.value attr '"' []) w)
    (hv : '<' ∉ v ∧ '"' ∉ v) (hd : Xml.decodeAttr v = some d) (hne : front ≠ []) :
    Xml.run (.content raw) ('<' :: ((t.tag ++ front ++ '"' :: (v ++ ['"'])) ++ ['>'])) =
      (Xml.textTokens raw).map fun us ↦ (us ++ [.startTag t.tag [(attr, d)]], .content []) := by
  have htext : (t.tag ++ front ++ '"' :: (v ++ ['"'])) ++ ['>'] =
      (t.tag ++ front) ++ '"' :: (v ++ ['"', '>']) := by simp
  have hplain' : Xml.IsPlain (t.tag ++ front) := by
    obtain ⟨h₁, h₂, h₃, h₄⟩ := isPlain_of_isName t.isName
    obtain ⟨k₁, k₂, k₃, k₄⟩ := hplain
    simp [Xml.IsPlain, h₁, h₂, h₃, h₄, k₁, k₂, k₃, k₄]
  have hhead' : ∀ c ∈ (front ++ '"' :: (v ++ ['"'])).head?, Xml.isNameChar c = false := by
    rw [List.head?_append_of_ne_nil _ hne]
    exact hhead
  have hlast : (t.tag ++ (front ++ '"' :: (v ++ ['"']))).getLast? ≠ some '/' := by
    simp [List.getLast?_append, List.getLast?_cons]
  rw [htext, Xml.run_value_tag hplain' hv.1 hv.2, List.append_assoc,
    Xml.readTag_attrs t.isName hhead' hlast, hfront, Xml.readAttrs_value hv.2, List.nil_append, hd]
  rcases Xml.textTokens raw with - | us
  · rfl
  · rfl

theorem run_deleteTag (raw : List Char) :
    Xml.run (.content raw) ('<' :: (deleteTag t ++ ['>'])) =
      (Xml.textTokens raw).map fun us ↦
        (us ++ [.startTag t.tag [("nc:operation".toList, "delete".toList)]], .content []) := by
  refine run_attrTag raw ?_ (by simp; decide) (fun w ↦ rfl) (by decide) (by decide) (by decide)
  unfold Xml.IsPlain
  decide

theorem run_beginTag {d : List Char} (hd : Xml.decodeAttr t.ns = some d) (raw : List Char) :
    Xml.run (.content raw)
        ('<' :: ((t.tag ++ " xmlns=".toList ++ '"' :: (t.ns ++ ['"'])) ++ ['>'])) =
      (Xml.textTokens raw).map fun us ↦
        (us ++ [.startTag t.tag [("xmlns".toList, d)]], .content []) := by
  refine run_attrTag raw ?_ (by simp; decide) (fun w ↦ rfl) t.ns_chars hd (by decide)
  unfold Xml.IsPlain
  decide

theorem run_leafLine (hraw : IsBlank raw) (hv : CleanValue v) :
    Xml.run (.content raw) (leafLine indent t v) =
      some ((textForest (raw ++ indentText indent)).tokens ++
        (Xml.Forest.element t.tag [] (textForest v) .nil).tokens, .content ['\n']) := by
  have hindent := isBlank_indentText indent
  rw [leafLine, Xml.run_append, Xml.run_append, Xml.run_append, Xml.run_append,
    Xml.run_content (hindent.notMem (by decide))]
  simp only [Option.bind_some, run_startTag, textTokens_of_clean (hraw.append hindent).clean,
    Option.map_some, List.nil_append, Xml.run_content hv.open_notMem, run_endTag,
    textTokens_of_clean hv.clean]
  rw [Xml.run_content (by decide)]
  simp [Xml.Forest.tokens]

end Lines

/-! ## What lines show -/

/-- Behind white space, the text is read as a forest that passes on to what follows it. -/
def Emits (text : List Char) (shows_ : (Xml.Forest → Prop) → Xml.Forest → Prop) : Prop :=
  ∀ raw, IsBlank raw → ∃ (f : Xml.Forest) (raw' : List Char), IsBlank raw' ∧
    Xml.run (.content raw) text = some (f.tokens, .content raw') ∧
    ∀ (next : Xml.Forest → Prop) e, next e → shows_ next (f.append e)

/-- The same, for text that nothing but white space follows. -/
def EmitsLast (text : List Char) (shows_ : Xml.Forest → Prop) : Prop :=
  ∀ raw, IsBlank raw → ∃ (f : Xml.Forest) (raw' : List Char), IsBlank raw' ∧
    Xml.run (.content raw) text = some (f.tokens, .content raw') ∧
    ∀ e, skipSpace e = .nil → shows_ (f.append e)

section Emitting

variable {raw v : List Char} {indent : ℤ} {t : NodeTag}

theorem isBlank_newline : IsBlank ['\n'] := fun _ hc ↦ .inr (List.mem_singleton.mp hc)

theorem skipSpace_append (h : IsBlank raw) {name : List Char} {attrs : Xml.Attrs}
    {below rest : Xml.Forest} :
    skipSpace ((textForest raw).append (.element name attrs below rest)) =
      .element name attrs below rest := by
  unfold textForest
  split_ifs
  · rfl
  · exact if_pos h.all_isSpace

theorem skipSpace_textForest (h : IsBlank raw) : skipSpace (textForest raw) = .nil := by
  unfold textForest
  split_ifs
  · rfl
  · exact if_pos h.all_isSpace

theorem Emits.append {a b : List Char} {P Q : (Xml.Forest → Prop) → Xml.Forest → Prop}
    (ha : Emits a P) (hb : Emits b Q) : Emits (a ++ b) fun next ↦ P (Q next) := by
  intro raw hraw
  obtain ⟨f, raw₁, hraw₁, hrun, hf⟩ := ha raw hraw
  obtain ⟨g, raw₂, hraw₂, hrun', hg⟩ := hb raw₁ hraw₁
  refine ⟨f.append g, raw₂, hraw₂, ?_, fun next e he ↦ ?_⟩
  · rw [Xml.run_append, hrun, Option.bind_some, hrun', Option.map_some, Xml.Forest.tokens_append]
  · rw [Xml.Forest.append_assoc]
    exact hf _ _ (hg next e he)

theorem Emits.last {a b : List Char} {P : (Xml.Forest → Prop) → Xml.Forest → Prop}
    {R : Xml.Forest → Prop} (ha : Emits a P) (hb : EmitsLast b R) : EmitsLast (a ++ b) (P R) := by
  intro raw hraw
  obtain ⟨f, raw₁, hraw₁, hrun, hf⟩ := ha raw hraw
  obtain ⟨g, raw₂, hraw₂, hrun', hg⟩ := hb raw₁ hraw₁
  refine ⟨f.append g, raw₂, hraw₂, ?_, fun e he ↦ ?_⟩
  · rw [Xml.run_append, hrun, Option.bind_some, hrun', Option.map_some, Xml.Forest.tokens_append]
  · rw [Xml.Forest.append_assoc]
    exact hf _ _ (hg e he)

theorem emitsLast_nil : EmitsLast [] fun f ↦ skipSpace f = .nil :=
  fun raw hraw ↦ ⟨.nil, raw, hraw, rfl, fun _ he ↦ he⟩

theorem emits_leafLine (hv : CleanValue v) :
    Emits (leafLine indent t v) (ShowsLeaf t.tag false v) := by
  intro raw hraw
  refine ⟨(textForest (raw ++ indentText indent)).append
    (.element t.tag [] (textForest v) .nil), ['\n'], isBlank_newline, ?_, fun next e he ↦ ?_⟩
  · rw [run_leafLine hraw hv, Xml.Forest.tokens_append]
  · rw [Xml.Forest.append_assoc]
    exact ⟨[], e, skipSpace_append (hraw.append (isBlank_indentText indent)), rfl, he⟩

theorem emits_emptyLine : Emits (tagLine indent (t.tag ++ ['/'])) (ShowsLeaf t.tag false []) := by
  intro raw hraw
  refine ⟨(textForest (raw ++ indentText indent)).append (.element t.tag [] .nil .nil), ['\n'],
    isBlank_newline, ?_, fun next e he ↦ ?_⟩
  · rw [run_tagLine hraw run_emptyTag, Xml.Forest.tokens_append]
    rfl
  · rw [Xml.Forest.append_assoc]
    exact ⟨[], e, skipSpace_append (hraw.append (isBlank_indentText indent)), rfl, he⟩

theorem emits_leaves (indent : ℤ) (t : NodeTag) {vs : List (List Char)}
    (hvs : ∀ v ∈ vs, CleanValue v) :
    Emits (vs.flatMap (leafLine indent t)) fun next ↦ vs.foldr (ShowsLeaf t.tag false) next := by
  induction vs with
  | nil => exact fun raw hraw ↦ ⟨.nil, raw, hraw, rfl, fun _ _ he ↦ he⟩
  | cons v vs ih =>
    rw [List.flatMap_cons]
    exact (emits_leafLine (hvs v List.mem_cons_self)).append
      (ih fun w hw ↦ hvs w (List.mem_cons_of_mem _ hw))

/-- An element between its two tags. -/
theorem emits_container {body text : List Char} {attrs : Xml.Attrs} {indent' : ℤ}
    {R : Xml.Forest → Prop}
    (hbody : ∀ raw, Xml.run (.content raw) ('<' :: (body ++ ['>'])) =
      (Xml.textTokens raw).map fun us ↦ (us ++ [.startTag t.tag attrs], .content []))
    (hR : EmitsLast text R) :
    Emits (tagLine indent body ++ (text ++ tagLine indent' ('/' :: t.tag))) fun next f ↦
      ∃ below rest, skipSpace f = .element t.tag attrs below rest ∧ R below ∧ next rest := by
  intro raw hraw
  obtain ⟨f, raw', hraw', hrun, hf⟩ := hR ['\n'] isBlank_newline
  have hblank := hraw'.append (isBlank_indentText indent')
  refine ⟨(textForest (raw ++ indentText indent)).append
    (.element t.tag attrs (f.append (textForest (raw' ++ indentText indent'))) .nil), ['\n'],
    isBlank_newline, ?_, fun next e he ↦ ?_⟩
  · rw [Xml.run_append, run_tagLine hraw hbody, Option.bind_some, Xml.run_append, hrun,
      Option.bind_some, run_tagLine hraw' run_endTag]
    simp [Xml.Forest.tokens, Xml.Forest.tokens_append]
  · rw [Xml.Forest.append_assoc]
    exact ⟨_, e, skipSpace_append (hraw.append (isBlank_indentText indent)),
      hf _ (skipSpace_textForest hblank), he⟩

end Emitting

/-! ## Paths and lists -/

section Paths

variable {V : Type*} {conv : Val2str V} {rootNs : List Char} {opened : List NodeTag} {t : NodeTag}

theorem slash_notMem_of_isIdentifier {w : List Char} (h : isIdentifier w = true) : '/' ∉ w :=
  Xml.notMem_of_isName (isName_of_isIdentifier h) (by decide)

/-- The last step of a path is removed. -/
theorem parentPath_append (path : List Char) (t : NodeTag) :
    parentPath (path ++ pathStep t) = path := by
  have hstep : '/' ∉ t.pfx ++ ':' :: t.tag := by
    simp [slash_notMem_of_isIdentifier t.isIdentifier_pfx,
      slash_notMem_of_isIdentifier t.isIdentifier_tag]
  have hdrop : (path ++ pathStep t).reverse.dropWhile (· != '/') = '/' :: path.reverse := by
    rw [pathStep, List.reverse_append, List.reverse_cons, List.append_assoc,
      List.dropWhile_append_of_pos fun c hc ↦ ?_]
    · rfl
    · simpa using fun heq : c = '/' ↦ hstep (heq ▸ List.mem_reverse.mp hc)
  rw [parentPath, if_pos (by simp [pathStep]), hdrop, List.tail_cons, List.reverse_reverse]

theorem pathOf_concat (opened : List NodeTag) (t : NodeTag) :
    pathOf (opened ++ [t]) = pathOf opened ++ pathStep t := by
  simp [pathOf]

theorem parentPath_pathOf (opened : List NodeTag) :
    parentPath (pathOf opened) = pathOf opened.dropLast := by
  rcases List.eq_nil_or_concat opened with rfl | ⟨front, t, rfl⟩
  · rfl
  · rw [List.concat_eq_append, pathOf_concat, parentPath_append, List.dropLast_concat]

/-- The path follows the open elements from element to element. -/
theorem currentPath_loop {s : Progress} (hs : s.currentPath = pathOf opened)
    (mods : List (TagVal V)) :
    (s.loop conv rootNs mods).currentPath = pathOf (mods.foldl openNext opened) := by
  induction mods generalizing s opened with
  | nil => exact hs
  | cons tv mods ih =>
    have hnext : (s.next conv rootNs tv).currentPath = pathOf (openNext opened tv) := by
      rcases tv with t | t | t | t | t | ⟨t, vs⟩ | ⟨t, v⟩
      · exact (congrArg (· ++ pathStep t) hs).trans (pathOf_concat opened t).symm
      · exact (congrArg parentPath hs).trans (parentPath_pathOf opened)
      · exact hs
      · exact (congrArg (· ++ pathStep t) hs).trans (pathOf_concat opened t).symm
      · exact hs
      · exact hs
      · exact hs
    rw [Progress.loop, List.foldl_cons, ← Progress.loop, ih hnext, List.foldl_cons]

/-- A well-nested array leaves open what was open before it. -/
theorem foldl_openNext_array (m : Mods V) (opened : List NodeTag) :
    m.array.foldl openNext opened = opened := by
  induction m generalizing opened with
  | nil => rfl
  | container delete t children rest ihc ihr =>
    have hfirst : openNext opened (if delete then .xmlBeginDel t else .xmlBegin t : TagVal V) =
        opened ++ [t] := by
      cases delete
      all_goals rfl
    rw [Mods.array, List.foldl_cons, hfirst, List.foldl_append, ihc, List.foldl_cons, openNext,
      List.dropLast_concat, ihr]
  | leaf t v rest ih => exact ih opened
  | empty t rest ih => exact ih opened
  | leafList t vs rest ih => exact ih opened
  | deleted t rest ih => exact ih opened

/-- A value of a leaf-list that is told apart from the others. -/
structure ListValue (v : List Char) : Prop where
  ne_nil : v ≠ []
  space : ∀ c ∈ v, isPySpace c = false
  clean : CleanValue v

theorem splitFrom_append (word rest : List Char) {v : List Char}
    (hv : ∀ c ∈ v, isPySpace c = false) :
    splitFrom word (v ++ rest) = splitFrom (word ++ v) rest := by
  induction v generalizing word with
  | nil => rw [List.nil_append, List.append_nil]
  | cons c v ih =>
    have hc : ¬ isPySpace c = true := by simp [hv c List.mem_cons_self]
    rw [List.cons_append, splitFrom, if_neg hc, ih _ fun d hd ↦ hv d (List.mem_cons_of_mem _ hd),
      List.append_assoc, List.singleton_append]

/-- Values without white space come back from the text of the leaf-list. -/
theorem pySplit_intercalate {vs : List (List Char)} (hvs : ∀ v ∈ vs, ListValue v) :
    pySplit ([' '].intercalate vs) = vs := by
  induction vs with
  | nil => rfl
  | cons v vs ih =>
    have hv := hvs v List.mem_cons_self
    rcases vs with - | ⟨w, vs⟩
    · have happ := splitFrom_append [] [] hv.space
      rw [List.append_nil, List.nil_append] at happ
      rw [List.intercalate_singleton, pySplit, happ, splitFrom, if_neg hv.ne_nil]
    · have hrest := ih fun x hx ↦ hvs x (List.mem_cons_of_mem _ hx)
      have hjoin : [' '].intercalate (v :: w :: vs) = v ++ ' ' :: [' '].intercalate (w :: vs) := by
        simp [List.intercalate]
      rw [hjoin, pySplit, splitFrom_append _ _ hv.space, List.nil_append, splitFrom,
        if_pos (by decide), if_neg hv.ne_nil]
      exact congrArg (v :: ·) hrest

end Paths

/-! ## Edits that are well formed -/

section Good

variable {V : Type*} (conv : Val2str V) (rootNs : List Char)

/-- Nothing is deleted but what has an end tag, and every value comes back. -/
def Mods.Good (opened : List NodeTag) : Mods V → Prop
  | nil => True
  | container delete t children rest =>
    (delete = false → (Xml.decodeAttr t.ns).isSome) ∧ Good (opened ++ [t]) children ∧
      Good opened rest
  | leaf t v rest => CleanValue (conv.leaf v rootNs (pathOf (opened ++ [t]))) ∧ Good opened rest
  | empty _ rest => Good opened rest
  | leafList t vs rest =>
    (∀ v ∈ vs, ListValue (conv.leaf v rootNs (pathOf (opened ++ [t])))) ∧ Good opened rest
  | deleted _ _ => False

variable {conv rootNs} {opened : List NodeTag}

theorem loop_cons {indent indent' : ℤ} {r path path' text : List Char} {tv : TagVal V}
    (h : getValue conv rootNs tv indent path = (text, indent', path')) (mods : List (TagVal V)) :
    (⟨indent, r, path⟩ : Progress).loop conv rootNs (tv :: mods) =
      (⟨indent', r ++ text, path'⟩ : Progress).loop conv rootNs mods := by
  rw [Progress.loop, List.foldl_cons, ← Progress.loop, Progress.next, h]

theorem loop_append (s : Progress) (front mods : List (TagVal V)) :
    s.loop conv rootNs (front ++ mods) = (s.loop conv rootNs front).loop conv rootNs mods :=
  List.foldl_append

variable (conv rootNs) in
/-- The start tag of an element, and what it says about a deletion. -/
theorem run_container {delete : Bool} {t : NodeTag}
    (h : delete = false → (Xml.decodeAttr t.ns).isSome) (indent : ℤ) (path : List Char) :
    ∃ body attrs,
      getValue conv rootNs (if delete then .xmlBeginDel t else .xmlBegin t) indent path =
        (tagLine indent body, indent + indentSize, path ++ pathStep t) ∧ deletes attrs = delete ∧
      ∀ raw, Xml.run (.content raw) ('<' :: (body ++ ['>'])) =
        (Xml.textTokens raw).map fun us ↦ (us ++ [.startTag t.tag attrs], .content []) := by
  rcases delete with - | -
  · obtain ⟨d, hd⟩ := Option.isSome_iff_exists.mp (h rfl)
    refine ⟨_, [("xmlns".toList, d)], rfl, ?_, run_beginTag hd⟩
    simp [deletes]
  · exact ⟨_, _, rfl, rfl, run_deleteTag⟩

/-- Every part of a good array is read as what it has to show. -/
theorem Mods.emits (m : Mods V) (h : m.Good conv rootNs opened) (indent : ℤ) :
    ∃ text, (∀ r, (⟨indent, r, pathOf opened⟩ : Progress).loop conv rootNs m.array =
        ⟨indent, r ++ text, pathOf opened⟩) ∧
      EmitsLast text (m.Shows conv rootNs opened) := by
  induction m generalizing opened indent with
  | nil =>
    refine ⟨[], fun r ↦ ?_, emitsLast_nil⟩
    rw [List.append_nil]
    rfl
  | container delete t children rest ihc ihr =>
    obtain ⟨hns, hchildren, hrest⟩ := h
    obtain ⟨below, hbelow, hemits⟩ := ihc hchildren (indent + indentSize)
    obtain ⟨text, hloop, hemits'⟩ := ihr hrest indent
    obtain ⟨body, attrs, hfirst, hdeletes, hbody⟩ :=
      run_container conv rootNs hns indent (pathOf opened)
    refine ⟨(tagLine indent body ++ (below ++ tagLine (indent + indentSize) ('/' :: t.tag))) ++
      text, fun r ↦ ?_, ?_⟩
    · -- the end tag takes the indentation and the path back to where they were
      have hlast : getValue conv rootNs (.xmlEnd t) (indent + indentSize) (pathOf (opened ++ [t])) =
          (tagLine (indent + indentSize) ('/' :: t.tag), indent, pathOf opened) := by
        rw [getValue, parentPath_pathOf, List.dropLast_concat, Int.add_sub_cancel]
      rw [Mods.array, loop_cons hfirst, ← pathOf_concat, loop_append, hbelow, loop_cons hlast,
        hloop]
      simp only [List.append_assoc]
    · refine fun raw hraw ↦ ?_
      obtain ⟨f, raw', hraw', hrun, hf⟩ := ((emits_container hbody hemits).last hemits') raw hraw
      refine ⟨f, raw', hraw', hrun, fun e he ↦ ?_⟩
      obtain ⟨below, next, hskip, hbelow, hnext⟩ := hf e he
      exact ⟨attrs, below, next, hskip, hdeletes, hbelow, hnext⟩
  | leaf t v rest ih =>
    obtain ⟨hv, hrest⟩ := h
    obtain ⟨text, hloop, hemits⟩ := ih hrest indent
    refine ⟨leafLine indent t (conv.leaf v rootNs (pathOf (opened ++ [t]))) ++ text, fun r ↦ ?_,
      (emits_leafLine hv).last hemits⟩
    have hleaf : getValue conv rootNs (.leaf t v) indent (pathOf opened) =
        (leafLine indent t (conv.leaf v rootNs (pathOf (opened ++ [t]))), indent,
          pathOf opened) := by
      rw [getValue, pathOf_concat]
    rw [Mods.array, loop_cons hleaf, hloop, List.append_assoc]
  | empty t rest ih =>
    obtain ⟨text, hloop, hemits⟩ := ih h indent
    refine ⟨tagLine indent (t.tag ++ ['/']) ++ text, fun r ↦ ?_, emits_emptyLine.last hemits⟩
    have hempty : getValue conv rootNs (.xmlTag t) indent (pathOf opened) =
        (tagLine indent (t.tag ++ ['/']), indent, pathOf opened) := rfl
    rw [Mods.array, loop_cons hempty, hloop, List.append_assoc]
  | leafList t vs rest ih =>
    obtain ⟨hvs, hrest⟩ := h
    obtain ⟨text, hloop, hemits⟩ := ih hrest indent
    have hpath := pathOf_concat opened t
    have hmem : ∀ w ∈ vs.map (fun v ↦ conv.leaf v rootNs (pathOf (opened ++ [t]))),
        ListValue w := by
      intro w hw
      obtain ⟨v, hv, rfl⟩ := List.mem_map.mp hw
      exact hvs v hv
    -- the text of a leaf-list is split into the texts of its values again
    have hsplit : pySplit (conv.list vs rootNs (pathOf opened ++ pathStep t)) =
        vs.map fun v ↦ conv.leaf v rootNs (pathOf (opened ++ [t])) := by
      rw [conv.list_eq, ← hpath, pySplit_intercalate hmem]
    have hlist : getValue conv rootNs (.list t vs) indent (pathOf opened) =
        ((vs.map fun v ↦ conv.leaf v rootNs (pathOf (opened ++ [t]))).flatMap (leafLine indent t),
          indent, pathOf opened) := by
      simp only [getValue, hsplit]
    refine ⟨(vs.map fun v ↦ conv.leaf v rootNs (pathOf (opened ++ [t]))).flatMap
      (leafLine indent t) ++ text, fun r ↦ ?_, ?_⟩
    · rw [Mods.array, loop_cons hlist, hloop, List.append_assoc]
    · have hleaves := (emits_leaves indent t fun w hw ↦ (hmem w hw).clean).last hemits
      rw [List.foldr_map] at hleaves
      exact hleaves
  | deleted t rest => exact absurd h id

/-- **Edits.** The text for an array of at least two elements in which no leaf is deleted, every
value comes back from a reader and leaf-lists can be split is read as the tree of the array. -/
theorem renders_of_good {m : Mods V} {second : TagVal V} (hsecond : m.array[1]? = some second)
    (h : m.Good conv second.node.ns []) :
    ∃ text, editPayload conv m.array = some text ∧ m.Renders conv second.node.ns text := by
  obtain ⟨text, hloop, hemits⟩ := m.emits h 0
  have hstart : Progress.start.loop conv second.node.ns m.array = ⟨0, text, []⟩ := hloop []
  refine ⟨text, ?_, ?_, fun before tv after _ ↦ currentPath_loop rfl before, ?_⟩
  · rw [editPayload, hsecond, Option.map_some, hstart]
  · obtain ⟨f, raw, hraw, hrun, hf⟩ := hemits [] (fun _ hc ↦ absurd hc List.not_mem_nil)
    refine ⟨f.append (textForest raw), ?_, hf _ (skipSpace_textForest hraw)⟩
    rw [Xml.lex, hrun, Option.bind_some, Xml.Forest.tokens_append]
    simp only [Xml.finish, textTokens_of_clean hraw.clean, Option.map_some]
  · rw [hstart]

end Good

/-- Values that are their own text. -/
def plainVal2str : Val2str (List Char) where
  leaf v _ _ := v
  list vs _ _ := [' '].intercalate vs
  list_eq := by simp

def systemTag (tag : String) (h : isIdentifier tag.toList = true) : NodeTag where
  tag := tag.toList
  ns := "http://example.com/ns/system".toList
  pfx := "sys".toList
  isIdentifier_tag := h
  isIdentifier_pfx := by decide
  ns_chars := by decide

/-- A host name that is set, with two servers. -/
def hostEdit : Mods (List Char) :=
  .container false (systemTag "sys" (by decide))
    (.leaf (systemTag "host" (by decide)) "a > b".toList
      (.leafList (systemTag "server" (by decide)) ["10.0.0.1".toList, "10.0.0.2".toList] .nil)) .nil

theorem renders_hostEdit : ∃ text, editPayload plainVal2str hostEdit.array = some text ∧
    hostEdit.Renders plainVal2str "http://example.com/ns/system".toList text := by
  have hclean : ∀ v : List Char, '<' ∉ v → v.all Xml.isLegal = true → ¬ "]]>".toList <:+: v →
      '&' ∉ v → '\r' ∉ v → CleanValue v := fun v h₁ h₂ h₃ h₄ h₅ ↦ ⟨h₁, h₂, h₃, h₄, h₅⟩
  have hspace : ∀ v : List Char, (v.all fun c ↦ !isPySpace c) = true →
      ∀ c ∈ v, isPySpace c = false :=
    fun v hall c hc ↦ by simpa using List.all_eq_true.mp hall c hc
  refine renders_of_good (m := hostEdit) rfl ⟨fun _ ↦ by decide, ⟨?_, ?_, trivial⟩, trivial⟩
  · exact hclean _ (by decide) (by decide) (by decide) (by decide) (by decide)
  · intro v hv
    rcases List.mem_cons.mp hv with rfl | hv
    · exact ⟨by decide, hspace _ (by decide),
        hclean _ (by decide) (by decide) (by decide) (by decide) (by decide)⟩
    · obtain rfl := List.mem_singleton.mp hv
      exact ⟨by decide, hspace _ (by decide),
        hclean _ (by decide) (by decide) (by decide) (by decide) (by decide)⟩

/-- A host name that is deleted. -/
def hostDelete : Mods (List Char) :=
  .container false (systemTag "sys" (by decide)) (.deleted (systemTag "host" (by decide)) .nil) .nil

/-- The tag of the deleted leaf is never closed. -/
theorem not_renders_hostDelete : ¬ ∃ text, editPayload plainVal2str hostDelete.array = some text ∧
    hostDelete.Renders plainVal2str "http://example.com/ns/system".toList text := by
  rintro ⟨text, htext, hrenders⟩
  obtain ⟨f, hlex, -⟩ := hrenders.shows_
  have hcount : ((editPayload plainVal2str hostDelete.array).bind Xml.lex).map (fun ts ↦
      (ts.countP Xml.Token.isStart, ts.countP Xml.Token.isEnd)) = some (2, 1) := by decide +kernel
  rw [htext, Option.bind_some, hlex, Option.map_some, f.countP_isStart] at hcount
  simp only [Option.some.injEq, Prod.mk.injEq] at hcount
  omega

end ConfdDemos.SyncNc
