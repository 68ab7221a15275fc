import Mathlib.Data.Fintype.Basic
import ConfdDemos.AnnStmt.Extraction
import ConfdDemos.Foundation.Rewording

/-!
# Masking words before the document is parsed

`tailf_info_path` of the tagging script works on the YIN text of a module. Before the text is
parsed, words that the parser would treat specially are replaced, and after the document has been
printed they are replaced back. Here the replacements are applied to one text, with no change to the
document in between.

## How the result is read off

Every text is laid out as letters and words, `exists_layout`, where the words are all that the
replacements touch, in the spelling of the document or already in the masked one. Each of the
fifteen replacements then only changes the wording: `original` becomes `masked₁` and so on to
`unmasked₇`. The text comes back if and only if all of its words do, `unmask_mask_eq_self_iff`.

A masked spelling in the document is not kept apart from one that the masking has made, so it is
changed by the replacements back. The exceptions are a `yname=`, which gets a second `y`, and the
name of an annotation with an equals sign behind it, which gets a `y` before `name=`.
-/

namespace ConfdDemos.CmdPath

open AnnStmt Rewording

/-! ## The replacements -/

/-- What is done to the text of the document before it is parsed. -/
def mask (yinContent : Text) : Text :=
  let yinContent := replace yinContent "tailf:" "tailf_prefix_"
  let yinContent := replace yinContent "name=" "yname="
  let yinContent := replace yinContent "leaf-list" "leaflist"
  let yinContent := replace yinContent "tailf_prefix_meta-data" "tailf_prefix_metadata"
  let yinContent := replace yinContent "tailf_prefix_alt-name" "tailf_prefix_alt_name"
  let yinContent :=
    replace yinContent "tailf_prefix_cli-drop-node-name" "tailf_prefix_cli_drop_node_name"
  let yinContent :=
    replace yinContent "tailf_prefix_cli-expose-key-name" "tailf_prefix_cli_expose_key_name"
  replace yinContent "xmlns:" "xmlns_"

/-- What is done to the text of the document after it has been printed. -/
def unmask (yinSoupStr : Text) : Text :=
  let yinSoupStr := replace yinSoupStr "tailf_prefix_" "tailf:"
  let yinSoupStr := replace yinSoupStr "tailf:alt_name" "tailf:alt-name"
  let yinSoupStr := replace yinSoupStr "tailf:cli_drop_node_name" "tailf:cli-drop-node-name"
  let yinSoupStr := replace yinSoupStr "tailf:cli_expose_key_name" "tailf:cli-expose-key-name"
  let yinSoupStr := replace yinSoupStr "yname=" "name="
  let yinSoupStr := replace yinSoupStr "leaflist" "leaf-list"
  replace yinSoupStr "xmlns_" "xmlns:"

/-! ## The words -/

/-- A word is spelled as in the document or as the masking would spell it. -/
inductive Form
  | plain
  | masked
  deriving DecidableEq

/-- The annotations whose names end with `name`. -/
inductive Named
  | altName
  | cliDropNodeName
  | cliExposeKeyName
  deriving DecidableEq

/-- What can follow on `tailf:`. The end of `meta-data` can be the beginning of the next `tailf:`,
and when this has `meta-data` as well, only the first one is an occurrence. -/
inductive Ending
  | metaData (overlapping : Option Form)
  | named (n : Named) (f : Form)
  deriving DecidableEq

/-- What the replacements touch. The last letters of `leaf-list` and `meta-data` are not part of the
word, because `tailf:` can begin there. -/
inductive Token
  | tailf (f : Form) (e : Option Ending)
  | name
  | leafList (f : Form)
  | xmlns (f : Form)
  deriving DecidableEq

structure Wording where
  tailf : Form → Text
  metaData : Text
  named : Named → Form → Text
  name : Text
  leafList : Form → Text
  xmlns : Form → Text

/-- The end of a word that belongs to the text behind it. -/
def ata : Text := ['a', 't', 'a']

def ist : Text := ['i', 's', 't']

namespace Wording

def ending (w : Wording) : Ending → Text
  | .metaData none => w.metaData
  | .metaData (some f) => w.metaData ++ 'a' :: (w.tailf f ++ ['m', 'e', 't', 'a', '-', 'd'])
  | .named n f => w.named n f

def text (w : Wording) : Token → Text
  | .tailf f none => w.tailf f
  | .tailf f (some e) => w.tailf f ++ w.ending e
  | .name => w.name
  | .leafList f => w.leafList f
  | .xmlns f => w.xmlns f

end Wording

/-- The words as they stand in the document. -/
def original : Wording where
  tailf
    | .plain => ['t', 'a', 'i', 'l', 'f', ':']
    | .masked => ['t', 'a', 'i', 'l', 'f', '_', 'p', 'r', 'e', 'f', 'i', 'x', '_']
  metaData := ['m', 'e', 't', 'a', '-', 'd']
  named
    | .altName, .plain => ['a', 'l', 't', '-', 'n', 'a', 'm', 'e']
    | .altName, .masked => ['a', 'l', 't', '_', 'n', 'a', 'm', 'e']
    | .cliDropNodeName, .plain => ['c', 'l', 'i', '-', 'd', 'r', 'o', 'p', '-', 'n', 'o', 'd', 'e',
        '-', 'n', 'a', 'm', 'e']
    | .cliDropNodeName, .masked => ['c', 'l', 'i', '_', 'd', 'r', 'o', 'p', '_', 'n', 'o', 'd',
        'e', '_', 'n', 'a', 'm', 'e']
    | .cliExposeKeyName, .plain => ['c', 'l', 'i', '-', 'e', 'x', 'p', 'o', 's', 'e', '-', 'k',
        'e', 'y', '-', 'n', 'a', 'm', 'e']
    | .cliExposeKeyName, .masked => ['c', 'l', 'i', '_', 'e', 'x', 'p', 'o', 's', 'e', '_', 'k',
        'e', 'y', '_', 'n', 'a', 'm', 'e']
  name := ['n', 'a', 'm', 'e', '=']
  leafList
    | .plain => ['l', 'e', 'a', 'f', '-', 'l']
    | .masked => ['l', 'e', 'a', 'f', 'l']
  xmlns
    | .plain => ['x', 'm', 'l', 'n', 's', ':']
    | .masked => ['x', 'm', 'l', 'n', 's', '_']

/-- The whole of the annotation that is removed. -/
def metaData : Text := original.metaData ++ ata

/-- Both spellings of an annotation become the one of `f`. -/
def Wording.rename (w : Wording) (n : Named) (f : Form) : Wording :=
  { w with named := Function.update w.named n fun _ ↦ original.named n f }

def masked₁ : Wording := { original with tailf := fun _ ↦ original.tailf .masked }

def masked₂ : Wording := { masked₁ with name := 'y' :: original.name }

def masked₃ : Wording := { masked₂ with leafList := fun _ ↦ original.leafList .masked }

def masked₄ : Wording := { masked₃ with metaData := ['m', 'e', 't', 'a', 'd'] }

def masked₅ : Wording := masked₄.rename .altName .masked

def masked₆ : Wording := masked₅.rename .cliDropNodeName .masked

def masked₇ : Wording := masked₆.rename .cliExposeKeyName .masked

def masked₈ : Wording := { masked₇ with xmlns := fun _ ↦ original.xmlns .masked }

def unmasked₁ : Wording := { masked₈ with tailf := fun _ ↦ original.tailf .plain }

def unmasked₂ : Wording := unmasked₁.rename .altName .plain

def unmasked₃ : Wording := unmasked₂.rename .cliDropNodeName .plain

def unmasked₄ : Wording := unmasked₃.rename .cliExposeKeyName .plain

def unmasked₅ : Wording := { unmasked₄ with name := original.name }

def unmasked₆ : Wording := { unmasked₅ with leafList := fun _ ↦ original.leafList .plain }

def unmasked₇ : Wording := { unmasked₆ with xmlns := fun _ ↦ original.xmlns .plain }

namespace Token

def all : List Token :=
  let forms := [Form.plain, .masked]
  let names := [Named.altName, .cliDropNodeName, .cliExposeKeyName]
  let endings := [Ending.metaData none] ++ forms.map (fun f ↦ .metaData (some f)) ++
    names.flatMap fun n ↦ forms.map fun f ↦ .named n f
  forms.flatMap (fun f ↦ (none :: endings.map some).map fun e ↦ .tailf f e) ++ [.name] ++
    forms.map .leafList ++ forms.map .xmlns

theorem mem_all (k : Token) : k ∈ all := by
  rcases k with ⟨f, e⟩ | - | f | f
  · rcases f <;> rcases e with - | ⟨- | - | -⟩ | ⟨- | - | -, - | -⟩ <;> decide
  · decide
  · rcases f <;> decide
  · rcases f <;> decide

instance : Fintype Token := ⟨⟨all, Multiset.coe_nodup.mpr (by decide)⟩, mem_all⟩

/-- How the text goes on behind the word. -/
def ahead : Token → Text
  | .tailf _ (some (.metaData _)) => ata
  | .leafList _ => ist
  | _ => []

/-- A `tailf:` alone. -/
def isBare : Token → Bool
  | .tailf _ none => true
  | _ => false

def isNamed : Token → Bool
  | .tailf _ (some (.named _ _)) => true
  | _ => false

def isMetaData : Token → Bool
  | .tailf _ (some (.metaData _)) => true
  | _ => false

end Token

/-- Where one of these begins, a word begins. -/
def spellings : List Text :=
  [original.tailf .plain, original.tailf .masked, original.name,
    original.leafList .plain ++ ist, original.leafList .masked ++ ist,
    original.xmlns .plain, original.xmlns .masked]

/-- A word is taken as long as possible, but an annotation whose name is the end of `name=` is left
to the latter. -/
def Fits : Rewording.Piece Char Token → Text → Prop
  | .letter c, t => ∀ w ∈ spellings, ¬w <+: c :: t
  | .word (.tailf _ none), t => ¬metaData <+: t ∧
      ∀ n f, original.named n f <+: t → original.named n f ++ ['='] <+: t
  | .word (.tailf _ (some (.metaData none))), t => ata <+: t ∧
      ∀ f, ¬('a' :: (original.tailf f ++ metaData)) <+: t
  | .word (.tailf _ (some (.metaData (some _)))), t => ata <+: t
  | .word (.tailf _ (some (.named _ _))), t => ¬['='] <+: t
  | .word (.leafList _), t => ist <+: t
  | .word .name, _ => True
  | .word (.xmlns _), _ => True

/-- The layout of a text. -/
abbrev Layout (ps : List (Rewording.Piece Char Token)) : Prop := Laid Fits original.text ps

section Layout

variable {c : Char} {k : Token} {ps : List (Rewording.Piece Char Token)}

theorem Layout.ahead (h : Layout (.word k :: ps)) : k.ahead <+: render original.text ps := by
  rcases k with ⟨f, - | ⟨- | f⟩ | ⟨n, f⟩⟩ | - | f | f
  · exact List.nil_prefix
  · exact h.1.1
  · exact h.1
  · exact List.nil_prefix
  · exact List.nil_prefix
  · exact h.1
  · exact List.nil_prefix

theorem Layout.not_equals (h : Layout (.word k :: ps)) (hk : k.isNamed = true) :
    ¬['='] <+: render original.text ps := by
  rcases k with ⟨f, _ | _ | ⟨n, f⟩⟩ | _ | _ | _
  case tailf.some.named => exact h.1
  all_goals exact absurd hk Bool.false_ne_true

theorem exists_tailf (f : Form) {t : Text} (ht : original.tailf f <+: t) :
    ∃ e t', original.text (.tailf f e) ++ t' = t ∧ Fits (.word (.tailf f e)) t' := by
  obtain ⟨t, rfl⟩ := ht
  by_cases hmeta : metaData <+: t
  · obtain ⟨t, rfl⟩ := hmeta
    by_cases hover : ∃ f, 'a' :: (original.tailf f ++ metaData) <+: ata ++ t
    · obtain ⟨f', t', ht'⟩ := hover
      refine ⟨some (.metaData (some f')), ata ++ t', ?_, List.prefix_append _ _⟩
      rw [metaData, List.append_assoc, ← ht', metaData, Wording.text, Wording.ending]
      simp only [original, List.append_assoc, List.cons_append]
    · refine ⟨some (.metaData none), ata ++ t, ?_, List.prefix_append _ _, ?_⟩
      · rw [metaData, List.append_assoc, Wording.text, Wording.ending, List.append_assoc]
      · exact not_exists.mp hover
  by_cases hname : ∃ n f, original.named n f <+: t ∧ ¬original.named n f ++ ['='] <+: t
  · obtain ⟨n, f', ⟨t, rfl⟩, hname⟩ := hname
    refine ⟨some (.named n f'), t, List.append_assoc .., ?_⟩
    rwa [List.prefix_append_right_inj] at hname
  · push Not at hname
    exact ⟨none, t, rfl, hmeta, hname⟩

theorem text_original_ne_nil (k : Token) : original.text k ≠ [] := by
  revert k
  decide +kernel

/-- Every text has a layout. -/
theorem exists_layout (t : Text) : ∃ ps, Layout ps ∧ render original.text ps = t := by
  induction hn : t.length using Nat.strong_induction_on generalizing t with
  | _ n ih =>
    -- a word at the beginning is cut off, and what is left is shorter
    have hword (k : Token) (t' : Text) (heq : original.text k ++ t' = t)
        (hfits : Fits (.word k) t') : ∃ ps, Layout ps ∧ render original.text ps = t := by
      have hlt : t'.length < n := by
        have hpos := List.length_pos_iff.mpr (text_original_ne_nil k)
        rw [← hn, ← heq, List.length_append]
        omega
      obtain ⟨ps, hps, rfl⟩ := ih _ hlt t' rfl
      exact ⟨.word k :: ps, ⟨hfits, hps⟩, heq⟩
    by_cases htailf : ∃ f, original.tailf f <+: t
    · obtain ⟨f, hf⟩ := htailf
      obtain ⟨e, t', heq, hfits⟩ := exists_tailf f hf
      exact hword _ t' heq hfits
    by_cases hname : original.name <+: t
    · obtain ⟨t', ht'⟩ := hname
      exact hword .name t' ht' trivial
    by_cases hleaf : ∃ f, original.leafList f ++ ist <+: t
    · obtain ⟨f, t', ht'⟩ := hleaf
      exact hword (.leafList f) _ (ht' ▸ (List.append_assoc ..).symm) (List.prefix_append _ t')
    by_cases hxmlns : ∃ f, original.xmlns f <+: t
    · obtain ⟨f, t', ht'⟩ := hxmlns
      exact hword (.xmlns f) t' ht' trivial
    -- no word begins here, so the first letter is one of the text itself
    rcases t with - | ⟨c, t⟩
    · exact ⟨[], trivial, rfl⟩
    obtain ⟨ps, hps, rfl⟩ := ih _ (hn ▸ Nat.lt_succ_self t.length) t rfl
    refine ⟨.letter c :: ps, ⟨fun w hw hold ↦ ?_, hps⟩, rfl⟩
    simp only [spellings, List.mem_cons, List.not_mem_nil, or_false] at hw
    rcases hw with rfl | rfl | rfl | rfl | rfl | rfl | rfl
    · exact htailf ⟨.plain, hold⟩
    · exact htailf ⟨.masked, hold⟩
    · exact hname hold
    · exact hleaf ⟨.plain, hold⟩
    · exact hleaf ⟨.masked, hold⟩
    · exact hxmlns ⟨.plain, hold⟩
    · exact hxmlns ⟨.masked, hold⟩

end Layout

/-! ## One replacement -/

theorem replaceFrom_length_append (old new u t : Text) :
    replaceFrom old new u.length (u ++ t) = replaceFrom old new 0 t := by
  induction u with
  | nil => rfl
  | cons c u ih => exact ih

theorem replace_eq {old new : String} {old' new' : Text} (t : Text) (hold : old.toList = old')
    (hnew : new.toList = new') : replace t old new = replaceFrom old' new' 0 t := by
  rw [replace, hold, hnew]

theorem replaces {old : Text} (hold : old ≠ []) (new : Text) :
    Replaces old new (replaceFrom old new 0) where
  ne_nil := hold
  nil := rfl
  hit t := by
    obtain ⟨c, u, rfl⟩ := List.exists_cons_of_ne_nil hold
    have hpre : (c :: u).isPrefixOf (c :: (u ++ t)) = true :=
      List.isPrefixOf_iff_prefix.mpr (List.prefix_append (c :: u) t)
    rw [List.cons_append, replaceFrom, if_pos hpre, List.length_cons, Nat.add_sub_cancel,
      replaceFrom_length_append]
  miss {c t} h := by
    rw [replaceFrom, if_neg (mt List.isPrefixOf_iff_prefix.mp h)]

/-- Replacing `old` by `new` takes the wording `w` to `w'`, the words in `delicate` aside. -/
structure Step (old new : Text) (w w' : Wording) (delicate : Token → Bool) : Prop where
  ne_nil : old ≠ []
  steady : Steady w.text original.text old.tail
  ahead : ∀ k : Token, Steady original.text w.text k.ahead
  words : ∀ k, delicate k = true ∨
    ∃ q ∈ [[], k.ahead], Rewords old (replaceFrom old new 0) (w.text k) (w'.text k) q

/-- An occurrence of `old` begins with a word. -/
def Spelled (old : Text) : Prop := ∃ s ∈ spellings, s <+: old

section Decidable

variable {old new : Text} {w w' : Wording} {delicate : Token → Bool}

instance : Decidable (Step old new w w' delicate) :=
  decidable_of_iff (_ ∧ _ ∧ _ ∧ _)
    ⟨fun h ↦ ⟨h.1, h.2.1, h.2.2.1, h.2.2.2⟩, fun h ↦ ⟨h.ne_nil, h.steady, h.ahead, h.words⟩⟩

instance : Decidable (Spelled old) := inferInstanceAs (Decidable (∃ s ∈ spellings, _))

end Decidable

section Step

variable {c : Char} {k : Token} {ps : List (Rewording.Piece Char Token)} {w w' : Wording}
  {old new : Text} {delicate : Token → Bool}

theorem not_prefix_letter (hold : Spelled old)
    (hsteady : Steady w.text original.text old.tail) (hps : Layout (.letter c :: ps)) :
    ¬old <+: c :: render w.text ps := by
  intro h
  obtain ⟨s, hs, hsold⟩ := hold
  refine hps.1 s hs (hsold.trans ?_)
  rcases old with - | ⟨d, old⟩
  · exact List.nil_prefix
  rw [List.cons_prefix_cons] at h ⊢
  exact ⟨h.1, prefix_render hsteady h.2⟩

theorem Step.replaceFrom_render (h : Step old new w w' delicate) (hps : Layout ps)
    (hletter : ∀ c ps, Layout (.letter c :: ps) → ¬old <+: c :: render w.text ps)
    (hdelicate : ∀ k ps, delicate k = true → Layout (.word k :: ps) →
      replaceFrom old new 0 (w.text k ++ render w.text ps) =
        w'.text k ++ replaceFrom old new 0 (render w.text ps)) :
    replaceFrom old new 0 (render w.text ps) = render w'.text ps := by
  refine (replaces h.ne_nil new).render hps hletter fun k ps hps ↦ ?_
  rcases h.words k with hk | ⟨q, hq, hreword⟩
  · exact hdelicate k ps hk hps
  · refine (replaces h.ne_nil new).reword hreword ?_
    rcases List.mem_pair.mp hq with rfl | rfl
    · exact List.nil_prefix
    · exact prefix_render (h.ahead k) (Layout.ahead hps)

theorem Step.replaceFrom_spelled (h : Step old new w w' fun _ ↦ false) (hold : Spelled old)
    (hps : Layout ps) : replaceFrom old new 0 (render w.text ps) = render w'.text ps :=
  h.replaceFrom_render hps (fun _ _ hps ↦ not_prefix_letter hold h.steady hps) nofun

/-- A word that would be replaced only if `e` followed. -/
theorem replaceFrom_of_not {e : Text} (hold : old ≠ [])
    (hk : w'.text k = w.text k ∧ ∀ u ∈ (w.text k).tails, u ≠ [] → Meets u old → old = u ++ e)
    (he : ¬e <+: render w.text ps) :
    replaceFrom old new 0 (w.text k ++ render w.text ps) =
      w'.text k ++ replaceFrom old new 0 (render w.text ps) := by
  rw [hk.1]
  exact (replaces hold new).append_of_not hk.2 he

/-- The name of an annotation does not follow on `tailf:` in letters. -/
theorem Layout.not_named {f f' : Form} {n : Named} (hps : Layout (.word (.tailf f none) :: ps))
    (hquiet : ∀ k, Quiet (w.text k) (original.named n f')) :
    ¬original.named n f' <+: render w.text ps := by
  intro hname
  obtain ⟨ps', rfl⟩ := eq_letters_append hquiet hname
  have hequals : ['='] <+: render original.text ps' := by
    have h := hps.1.2 n f'
    rw [render_letters, List.prefix_append_right_inj] at h
    exact h (List.prefix_append _ _)
  obtain ⟨a, ha⟩ : ['n', 'a', 'm', 'e'] <:+ original.named n f' := by
    rcases n <;> rcases f' <;> decide
  have hletters : Layout (['n', 'a', 'm', 'e'].map .letter ++ ps') := by
    refine Laid.of_suffix hps.2 ⟨a.map .letter, ?_⟩
    rw [← List.append_assoc, ← List.map_append, ha]
  have hnot : ¬original.name <+: render original.text (['n', 'a', 'm', 'e'].map .letter ++ ps') :=
    hletters.1 original.name (by decide)
  have heq : original.name = ['n', 'a', 'm', 'e'] ++ ['='] := rfl
  rw [render_letters, heq, List.prefix_append_right_inj] at hnot
  exact hnot hequals

end Step

/-- The replacement of an annotation behind `s`, from the spelling `g` to `f`. -/
structure NamedStep (s : Text) (w : Wording) (n : Named) (f g : Form) : Prop where
  step : Step (s ++ original.named n g) (s ++ original.named n f) w (w.rename n f) Token.isBare
  spelled : Spelled (s ++ original.named n g)
  tails : ∀ k : Token, k.isBare = true → ∀ u ∈ (w.text k).tails, u ≠ [] →
    Meets u (s ++ original.named n g) → s ++ original.named n g = u ++ original.named n g
  quiet : ∀ k, Quiet (w.text k) (original.named n g)

instance {s : Text} {w : Wording} {n : Named} {f g : Form} : Decidable (NamedStep s w n f g) :=
  decidable_of_iff (_ ∧ _ ∧ _ ∧ _)
    ⟨fun h ↦ ⟨h.1, h.2.1, h.2.2.1, h.2.2.2⟩, fun h ↦ ⟨h.step, h.spelled, h.tails, h.quiet⟩⟩

theorem NamedStep.replaceFrom_render {s : Text} {w : Wording} {n : Named} {f g : Form}
    {ps : List (Rewording.Piece Char Token)} (h : NamedStep s w n f g) (hps : Layout ps) :
    replaceFrom (s ++ original.named n g) (s ++ original.named n f) 0 (render w.text ps) =
      render (w.rename n f).text ps := by
  refine h.step.replaceFrom_render hps
    (fun c ps hps ↦ not_prefix_letter h.spelled h.step.steady hps) fun k ps hk hps ↦ ?_
  rcases k with ⟨f', _ | _⟩ | _ | _ | _
  · exact replaceFrom_of_not h.step.ne_nil ⟨rfl, h.tails _ hk⟩ (hps.not_named h.quiet)
  all_goals exact absurd hk Bool.false_ne_true

/-! ## The course of the text

That each replacement takes one wording to the next is found by running through the words.
-/

/-- `meta-data` as it stands when it is replaced. -/
def maskedMetaData : Text := original.tailf .masked ++ metaData

def newMetaData : Text := original.tailf .masked ++ masked₄.metaData ++ ata

structure Course : Prop where
  tailf : Step (original.tailf .plain) (original.tailf .masked) original masked₁ fun _ ↦ false
  name : Step original.name ('y' :: original.name) masked₁ masked₂ Token.isNamed
  leafList : Step (original.leafList .plain ++ ist) (original.leafList .masked ++ ist) masked₂
    masked₃ fun _ ↦ false
  metaData : Step maskedMetaData newMetaData masked₃ masked₄ fun k ↦ k.isBare || k.isMetaData
  altName : NamedStep (original.tailf .masked) masked₄ .altName .masked .plain
  dropNodeName : NamedStep (original.tailf .masked) masked₅ .cliDropNodeName .masked .plain
  exposeKeyName : NamedStep (original.tailf .masked) masked₆ .cliExposeKeyName .masked .plain
  xmlns : Step (original.xmlns .plain) (original.xmlns .masked) masked₇ masked₈ fun _ ↦ false
  maskedTailf : Step (original.tailf .masked) (original.tailf .plain) masked₈ unmasked₁
    fun _ ↦ false
  maskedAltName : NamedStep (original.tailf .plain) unmasked₁ .altName .plain .masked
  maskedDropNodeName : NamedStep (original.tailf .plain) unmasked₂ .cliDropNodeName .plain .masked
  maskedExposeKeyName : NamedStep (original.tailf .plain) unmasked₃ .cliExposeKeyName .plain .masked
  maskedName : Step ('y' :: original.name) original.name unmasked₄ unmasked₅ fun _ ↦ false
  maskedLeafList : Step (original.leafList .masked ++ ist) (original.leafList .plain ++ ist)
    unmasked₅ unmasked₆ fun _ ↦ false
  maskedXmlns : Step (original.xmlns .masked) (original.xmlns .plain) unmasked₆ unmasked₇
    fun _ ↦ false

theorem course : Course where
  tailf := by decide +kernel
  name := by decide +kernel
  leafList := by decide +kernel
  metaData := by decide +kernel
  altName := by decide +kernel
  dropNodeName := by decide +kernel
  exposeKeyName := by decide +kernel
  xmlns := by decide +kernel
  maskedTailf := by decide +kernel
  maskedAltName := by decide +kernel
  maskedDropNodeName := by decide +kernel
  maskedExposeKeyName := by decide +kernel
  maskedName := by decide +kernel
  maskedLeafList := by decide +kernel
  maskedXmlns := by decide +kernel

/-- What the steps need about the words they leave aside. -/
structure Delicate : Prop where
  named : ∀ k : Token, k.isNamed = true → masked₂.text k = masked₁.text k ∧
    ∀ u ∈ (masked₁.text k).tails, u ≠ [] → Meets u original.name → original.name = u ++ ['=']
  equals : Steady masked₁.text original.text ['=']
  meets_metaData : ∀ k : Token, Meets (masked₃.text k) maskedMetaData →
    (k.isBare || k.isMetaData) = true
  metaData : Steady masked₃.text original.text metaData
  overlapping : ∀ k, Quiet (masked₃.text k) ['a']
  bare : ∀ u ∈ (original.tailf .masked).tails, u ≠ [] → Meets u maskedMetaData →
    maskedMetaData = u ++ CmdPath.metaData
  maskedName : ∀ k : Token, ¬Meets (unmasked₄.text k) original.name
  ame : Steady unmasked₄.text original.text original.name.tail

theorem delicate : Delicate where
  named := by decide +kernel
  equals := by decide +kernel
  meets_metaData := by decide +kernel
  metaData := by decide +kernel
  overlapping := by decide +kernel
  bare := by decide +kernel
  maskedName := by decide +kernel
  ame := by decide +kernel

section Course

variable {ps : List (Rewording.Piece Char Token)}

theorem replace_name (hps : Layout ps) :
    replace (render masked₁.text ps) "name=" "yname=" = render masked₂.text ps := by
  refine (replace_eq _ (by decide) (by decide)).trans (course.name.replaceFrom_render hps
    (fun c ps hps ↦ not_prefix_letter (by decide) course.name.steady hps) fun k ps hk hps ↦ ?_)
  exact replaceFrom_of_not course.name.ne_nil (delicate.named k hk)
    fun hequals ↦ hps.not_equals hk (prefix_render delicate.equals hequals)

theorem spelled_maskedMetaData : Spelled maskedMetaData := by decide

theorem exists_tailf_of_masked (hps : Layout ps)
    (hold : maskedMetaData <+: render masked₃.text ps) :
    ∃ f, original.tailf f ++ metaData <+: render original.text ps := by
  rcases ps with - | ⟨c | k, ps⟩
  · exact absurd (List.prefix_nil.mp hold) (by decide)
  · exact absurd hold (not_prefix_letter spelled_maskedMetaData course.metaData.steady hps)
  have hk := delicate.meets_metaData k (meets_of_prefix_append hold)
  rcases k with ⟨f, _ | ⟨_ | f'⟩ | _⟩ | _ | _ | _
  · have hmeta : metaData <+: render masked₃.text ps := (List.prefix_append_right_inj _).mp hold
    exact absurd (prefix_render delicate.metaData hmeta) hps.1.1
  · refine ⟨f, ?_⟩
    rw [metaData, ← List.append_assoc]
    exact (List.prefix_append_right_inj _).mpr hps.1.1
  · have hmeta : metaData <+: original.ending (.metaData (some f')) := by rcases f' <;> decide
    exact ⟨f, ((List.prefix_append_right_inj _).mpr hmeta).trans (List.prefix_append _ _)⟩
  all_goals exact absurd hk Bool.false_ne_true

/-- The end of `meta-data` is not the beginning of a second one. -/
theorem Layout.not_overlapping {f : Form}
    (hps : Layout (.word (.tailf f (some (.metaData none))) :: ps)) :
    ¬('a' :: maskedMetaData) <+: render masked₃.text ps := by
  intro hold
  have ha : ['a'] <+: 'a' :: maskedMetaData := List.cons_prefix_cons.mpr ⟨rfl, List.nil_prefix⟩
  obtain ⟨ps, rfl⟩ := eq_letters_append delicate.overlapping (ha.trans hold)
  rw [render_letters, List.singleton_append, List.cons_prefix_cons] at hold
  obtain ⟨f', hf'⟩ := exists_tailf_of_masked hps.2.2 hold.2
  exact hps.1.2 f' (List.cons_prefix_cons.mpr ⟨rfl, hf'⟩)

def maskMetaData (t : Text) : Text := replaceFrom maskedMetaData newMetaData 0 t

theorem replaces_maskMetaData : Replaces maskedMetaData newMetaData maskMetaData :=
  replaces course.metaData.ne_nil _

theorem maskMetaData_single {f : Form}
    (hps : Layout (.word (.tailf f (some (.metaData none))) :: ps)) :
    maskMetaData (masked₃.text (.tailf f (some (.metaData none))) ++ render masked₃.text ps) =
      masked₄.text (.tailf f (some (.metaData none))) ++ maskMetaData (render masked₃.text ps) := by
  have hf := replaces_maskMetaData
  have hta : ∀ u ∈ ata.tails, u ≠ [] → Meets u maskedMetaData → u = ['t', 'a'] := by decide
  obtain ⟨t, ht⟩ : ata <+: render masked₃.text ps :=
    prefix_render (course.metaData.ahead (.tailf f (some (.metaData none)))) hps.1.1
  have hrest : maskMetaData (ata ++ t) = ata ++ maskMetaData t := by
    refine hf.append fun u hu hne hocc ↦ hps.not_overlapping ?_
    rw [hta u ((List.mem_tails _ _).mpr hu) hne (meets_of_prefix_append hocc)] at hocc
    rw [← ht]
    exact List.cons_prefix_cons.mpr ⟨rfl, hocc⟩
  rw [← ht, hrest]
  calc maskMetaData (masked₃.text (.tailf f (some (.metaData none))) ++ (ata ++ t))
      = maskMetaData (maskedMetaData ++ t) := by rw [← List.append_assoc]; rfl
    _ = newMetaData ++ maskMetaData t := hf.hit t
    _ = masked₄.text (.tailf f (some (.metaData none))) ++ (ata ++ maskMetaData t) := by
        rw [newMetaData, List.append_assoc]; rfl

/-- Of two that overlap, the first one is replaced. -/
theorem maskMetaData_overlapping {f f' : Form} :
    maskMetaData (masked₃.text (.tailf f (some (.metaData (some f')))) ++ render masked₃.text ps) =
      masked₄.text (.tailf f (some (.metaData (some f')))) ++
        maskMetaData (render masked₃.text ps) := by
  have hf := replaces_maskMetaData
  have hquiet : Quiet maskedMetaData ((original.tailf .masked).drop 2 ++ original.metaData) := by
    decide
  have hold : masked₃.text (.tailf f (some (.metaData (some f')))) =
      maskedMetaData ++ ((original.tailf .masked).drop 2 ++ original.metaData) := rfl
  rw [hold, List.append_assoc, hf.hit, hf.quiet hquiet, ← List.append_assoc]
  rfl

theorem maskMetaData_render (hps : Layout ps) :
    maskMetaData (render masked₃.text ps) = render masked₄.text ps := by
  refine course.metaData.replaceFrom_render hps
    (fun c ps hps ↦ not_prefix_letter spelled_maskedMetaData course.metaData.steady hps)
    fun k ps hk hps ↦ ?_
  rcases k with ⟨f, _ | ⟨_ | f'⟩ | _⟩ | _ | _ | _
  · exact replaceFrom_of_not course.metaData.ne_nil ⟨rfl, delicate.bare⟩
      fun hmeta ↦ hps.1.1 (prefix_render delicate.metaData hmeta)
  · exact maskMetaData_single hps
  · exact maskMetaData_overlapping
  all_goals exact absurd hk Bool.false_ne_true

theorem replace_maskedName (hps : Layout ps) :
    replace (render unmasked₄.text ps) "yname=" "name=" = render unmasked₅.text ps := by
  refine (replace_eq _ (by decide) (by decide)).trans
    (course.maskedName.replaceFrom_render hps (fun c ps hps hold ↦ ?_) nofun)
  -- the `y` alone is a letter as well, so it is `name=` that is spelled in letters
  have hname : original.name <+: render unmasked₄.text ps := (List.cons_prefix_cons.mp hold).2
  rcases ps with - | ⟨d | k, ps⟩
  · exact absurd (List.prefix_nil.mp hname) (by decide)
  · exact not_prefix_letter (by decide) delicate.ame hps.2 hname
  · exact delicate.maskedName k (meets_of_prefix_append hname)

theorem mask_render (hps : Layout ps) :
    mask (render original.text ps) = render masked₈.text ps := by
  have h₁ : replace (render original.text ps) "tailf:" "tailf_prefix_" = render masked₁.text ps :=
    (replace_eq _ (by decide) (by decide)).trans
      (course.tailf.replaceFrom_spelled (by decide) hps)
  have h₃ : replace (render masked₂.text ps) "leaf-list" "leaflist" = render masked₃.text ps :=
    (replace_eq _ (by decide) (by decide)).trans
      (course.leafList.replaceFrom_spelled (by decide) hps)
  have h₄ : replace (render masked₃.text ps) "tailf_prefix_meta-data" "tailf_prefix_metadata" =
      render masked₄.text ps :=
    (replace_eq _ (by decide) (by decide)).trans (maskMetaData_render hps)
  have h₅ : replace (render masked₄.text ps) "tailf_prefix_alt-name" "tailf_prefix_alt_name" =
      render masked₅.text ps :=
    (replace_eq _ (by decide) (by decide)).trans (course.altName.replaceFrom_render hps)
  have h₆ : replace (render masked₅.text ps) "tailf_prefix_cli-drop-node-name"
      "tailf_prefix_cli_drop_node_name" = render masked₆.text ps :=
    (replace_eq _ (by decide) (by decide)).trans (course.dropNodeName.replaceFrom_render hps)
  have h₇ : replace (render masked₆.text ps) "tailf_prefix_cli-expose-key-name"
      "tailf_prefix_cli_expose_key_name" = render masked₇.text ps :=
    (replace_eq _ (by decide) (by decide)).trans (course.exposeKeyName.replaceFrom_render hps)
  have h₈ : replace (render masked₇.text ps) "xmlns:" "xmlns_" = render masked₈.text ps :=
    (replace_eq _ (by decide) (by decide)).trans
      (course.xmlns.replaceFrom_spelled (by decide) hps)
  simp only [mask, h₁, replace_name hps, h₃, h₄, h₅, h₆, h₇, h₈]

theorem unmask_render (hps : Layout ps) :
    unmask (render masked₈.text ps) = render unmasked₇.text ps := by
  have h₁ : replace (render masked₈.text ps) "tailf_prefix_" "tailf:" = render unmasked₁.text ps :=
    (replace_eq _ (by decide) (by decide)).trans
      (course.maskedTailf.replaceFrom_spelled (by decide) hps)
  have h₂ : replace (render unmasked₁.text ps) "tailf:alt_name" "tailf:alt-name" =
      render unmasked₂.text ps :=
    (replace_eq _ (by decide) (by decide)).trans (course.maskedAltName.replaceFrom_render hps)
  have h₃ : replace (render unmasked₂.text ps) "tailf:cli_drop_node_name"
      "tailf:cli-drop-node-name" = render unmasked₃.text ps :=
    (replace_eq _ (by decide) (by decide)).trans (course.maskedDropNodeName.replaceFrom_render hps)
  have h₄ : replace (render unmasked₃.text ps) "tailf:cli_expose_key_name"
      "tailf:cli-expose-key-name" = render unmasked₄.text ps :=
    (replace_eq _ (by decide) (by decide)).trans (course.maskedExposeKeyName.replaceFrom_render hps)
  have h₆ : replace (render unmasked₅.text ps) "leaflist" "leaf-list" = render unmasked₆.text ps :=
    (replace_eq _ (by decide) (by decide)).trans
      (course.maskedLeafList.replaceFrom_spelled (by decide) hps)
  have h₇ : replace (render unmasked₆.text ps) "xmlns_" "xmlns:" = render unmasked₇.text ps :=
    (replace_eq _ (by decide) (by decide)).trans
      (course.maskedXmlns.replaceFrom_spelled (by decide) hps)
  simp only [unmask, h₁, h₂, h₃, h₄, replace_maskedName hps, h₆, h₇]

end Course

/-! ## Texts that come back -/

/-- These words are not in the text, and where a masked annotation name stands behind `tailf:`, it
is the beginning of an attribute. -/
structure Restorable (yinContent : Text) : Prop where
  lost : ∀ w ∈ ["tailf_prefix_", "leaflist", "xmlns_", "tailf:meta-data"],
    ¬w.toList <:+: yinContent
  loose : ∀ w ∈ ["tailf:alt_name", "tailf:cli_drop_node_name", "tailf:cli_expose_key_name"],
    ∀ before after, yinContent = before ++ w.toList ++ after → ['='] <+: after

section Restorable

variable {ps : List (Rewording.Piece Char Token)}

/-- The word comes back as it was. -/
def Token.Kept (k : Token) : Prop := original.text k = unmasked₇.text k

instance : DecidablePred Token.Kept := fun _ ↦ inferInstanceAs (Decidable (_ = _))

def lostTexts : List Text :=
  [original.tailf .masked, original.leafList .masked ++ ist, original.xmlns .masked,
    original.tailf .plain ++ metaData]

def looseTexts : List Text :=
  [Named.altName, .cliDropNodeName, .cliExposeKeyName].map fun n ↦
    original.tailf .plain ++ original.named n .masked

theorem restorable_iff {yinContent : Text} : Restorable yinContent ↔
    (∀ w ∈ lostTexts, ¬w <:+: yinContent) ∧
      ∀ w ∈ looseTexts, ∀ before after, yinContent = before ++ w ++ after → ['='] <+: after := by
  have hlost : lostTexts = ["tailf_prefix_", "leaflist", "xmlns_", "tailf:meta-data"].map
      String.toList := by decide
  have hloose : looseTexts = ["tailf:alt_name", "tailf:cli_drop_node_name",
      "tailf:cli_expose_key_name"].map String.toList := by decide
  rw [hlost, hloose, List.forall_mem_map, List.forall_mem_map]
  exact ⟨fun h ↦ ⟨h.lost, h.loose⟩, fun h ↦ ⟨h.1, h.2⟩⟩

/-- How the words compare to the texts that do not come back. -/
structure Comparison : Prop where
  spelled : ∀ w ∈ lostTexts ++ looseTexts, Spelled w
  inside : ∀ w ∈ lostTexts ++ looseTexts, ∀ k : Token, ∀ u ∈ (original.text k).tails,
    u ≠ [] → u ≠ original.text k → Meets (u ++ k.ahead) w → ¬k.Kept
  lost : ∀ w ∈ lostTexts, ∀ k : Token, Meets (original.text k) w →
    ¬k.Kept ∨ k = .tailf .plain none ∧ w = original.tailf .plain ++ metaData
  loose : ∀ w ∈ looseTexts, ∀ k : Token, Meets (original.text k) w →
    ¬k.Kept ∨ k = .tailf .plain none
  words : ∀ k : Token, k.Kept ∨ (∃ w ∈ lostTexts, w <+: original.text k ++ k.ahead) ∨
    original.text k ∈ looseTexts ∧ k.isNamed = true
  differ : ∀ k, original.text k = unmasked₇.text k ∨ ¬Meets (original.text k) (unmasked₇.text k)

theorem comparison : Comparison where
  spelled := by decide +kernel
  inside := by decide +kernel
  lost := by decide +kernel
  loose := by decide +kernel
  words := by decide +kernel
  differ := by decide +kernel

/-- Where a text begins that is spelled, there is a word, unless some word does not come back. -/
theorem exists_word {w b : Text} (hw : w ∈ lostTexts ++ looseTexts) (hps : Layout ps)
    (hkept : ∀ k, .word k ∈ ps → k.Kept) (h : w ++ b <:+ render original.text ps) :
    ∃ k ps', .word k :: ps' <:+ ps ∧ w ++ b = original.text k ++ render original.text ps' := by
  obtain ⟨s, hs, hsw⟩ := comparison.spelled w hw
  have hbegin : s <+: w ++ b := hsw.trans (List.prefix_append w b)
  rcases suffix_render h with ⟨ps', hps', heq⟩ | ⟨k, ps', u, hk, hu, hnil, hall, heq⟩
  · rw [heq] at hbegin
    have hlayout : Layout ps' := hps.of_suffix hps'
    rcases ps' with - | ⟨c | k, ps'⟩
    · have hne : ∀ s ∈ spellings, s ≠ [] := by decide
      exact absurd (List.prefix_nil.mp hbegin) (hne s hs)
    · exact absurd hbegin (hlayout.1 s hs)
    · exact ⟨k, ps', hps', heq⟩
  · have hlayout : Layout (.word k :: ps') := hps.of_suffix hk
    obtain ⟨t, ht⟩ := hlayout.ahead
    have hmeets : Meets (u ++ k.ahead) w := by
      rw [← ht, ← List.append_assoc] at heq
      exact meets_of_prefix_append (heq ▸ List.prefix_append w b)
    have hmem : .word k ∈ ps := hk.subset List.mem_cons_self
    exact absurd (hkept k hmem)
      (comparison.inside w hw k u ((List.mem_tails _ _).mpr hu) hnil hall hmeets)

theorem Layout.restorable (hps : Layout ps) (hkept : ∀ k, .word k ∈ ps → k.Kept) :
    Restorable (render original.text ps) := by
  refine restorable_iff.mpr ⟨fun w hw ↦ ?_, fun w hw before after heq ↦ ?_⟩
  · rintro ⟨a, b, hab⟩
    obtain ⟨k, ps', hk, heq⟩ := exists_word (List.mem_append_left _ hw) hps hkept
      ⟨a, (List.append_assoc ..).symm.trans hab⟩
    have hmem : .word k ∈ ps := hk.subset List.mem_cons_self
    rcases comparison.lost w hw k (meets_of_prefix_append (heq ▸ List.prefix_append w b)) with
      hnot | ⟨rfl, rfl⟩
    · exact hnot (hkept k hmem)
    · have hlayout : Layout (.word (.tailf .plain none) :: ps') := hps.of_suffix hk
      rw [List.append_assoc] at heq
      exact hlayout.1.1 ⟨b, List.append_cancel_left heq⟩
  · obtain ⟨k, ps', hk, heq'⟩ := exists_word (List.mem_append_right _ hw) hps hkept
      ⟨before, (List.append_assoc ..).symm.trans heq.symm⟩
    have hmem : .word k ∈ ps := hk.subset List.mem_cons_self
    rcases comparison.loose w hw k (meets_of_prefix_append (heq' ▸ List.prefix_append w after)) with
      hnot | rfl
    · exact absurd (hkept k hmem) hnot
    · have hlayout : Layout (.word (.tailf .plain none) :: ps') := hps.of_suffix hk
      obtain ⟨n, -, rfl⟩ := List.mem_map.mp hw
      rw [List.append_assoc] at heq'
      have hrest : original.named n .masked ++ after = render original.text ps' :=
        List.append_cancel_left heq'
      have hequals := hlayout.1.2 n .masked ⟨after, hrest⟩
      rwa [← hrest, List.prefix_append_right_inj] at hequals

theorem Layout.kept (hps : Layout ps) (h : Restorable (render original.text ps)) {k : Token}
    (hk : .word k ∈ ps) : k.Kept := by
  obtain ⟨hlost, hloose⟩ := restorable_iff.mp h
  obtain ⟨ps₁, ps₂, rfl⟩ := List.append_of_mem hk
  have hlayout : Layout (.word k :: ps₂) := hps.of_suffix (List.suffix_append ps₁ _)
  obtain ⟨before, hbefore⟩ := render_suffix_render (r := original.text)
    (List.suffix_append ps₁ (.word k :: ps₂))
  rcases comparison.words k with hkept | ⟨w, hw, hahead⟩ | ⟨hw, hnamed⟩
  · exact hkept
  · have hinfix : w <:+: render original.text (ps₁ ++ .word k :: ps₂) := by
      have hmore := (List.prefix_append_right_inj (original.text k)).mpr hlayout.ahead
      rw [← hbefore]
      exact ((hahead.trans hmore).isInfix).trans (List.suffix_append before _).isInfix
    exact absurd hinfix (hlost w hw)
  · have hequals := hloose _ hw before (render original.text ps₂)
      (hbefore.symm.trans (List.append_assoc ..).symm)
    exact absurd hequals (hlayout.not_equals hnamed)

theorem unmask_mask_eq_self_iff (yinContent : Text) :
    unmask (mask yinContent) = yinContent ↔ Restorable yinContent := by
  obtain ⟨ps, hps, rfl⟩ := exists_layout yinContent
  rw [mask_render hps, unmask_render hps, eq_comm, render_eq_render_iff comparison.differ]
  exact ⟨hps.restorable, fun h k hk ↦ hps.kept h hk⟩

/-- A leaf with the name `leaflist`. -/
def leaflistModule : Text :=
  "<module name=\"m\"><leaf name=\"leaflist\"><type name=\"string\"/></leaf></module>".toList

def leafListModule : Text :=
  "<module name=\"m\"><leaf name=\"leaf-list\"><type name=\"string\"/></leaf></module>".toList

/-- The leaf comes back with another name. -/
theorem unmask_mask_leaflistModule : ¬"tailf:meta-data".toList <:+: leaflistModule ∧
    unmask (mask leaflistModule) = leafListModule ∧ leafListModule ≠ leaflistModule := by
  decide +kernel

end Restorable

end ConfdDemos.CmdPath
