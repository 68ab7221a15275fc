import ConfdDemos.AnnStmt.Extraction

/-!
# No statement is lost

The statements of the selected kinds that are in a module have to be found again, in the rewritten
module or in the annotation module, if that is written. A statement may be found there without some
statements of selected kinds that were below it and are found elsewhere.

## Results

A pass is a cut of the document in the sense of `Forest.cut`, so what the passes remove together is
what they put into the annotations (`Forest.rel_occurrences_removed`). `preserved_iff` combines this
with the decision at the end. If the substitutions leave the names of all elements and the selected
statements alone, nothing is lost exactly when there is nothing to lose, or one of the passes is
noticed: there is a selected `must` or `when` statement, or a selected extension that is not below a
selected statement of one of the five other kinds. For these nobody asks whether a statement was
found.
-/

namespace ConfdDemos.AnnStmt

open Forest

/-! ## A pass is a cut -/

namespace Kind

variable {k : Kind} {parent : Text} {a : Item}

theorem finds_eq (k : Kind) (a : Item) : k.finds a = k.hits a.name := by
  cases a with
  | text t =>
    have hnil : k.hits [] = false := by cases k <;> decide
    exact hnil.symm
  | element name attrs => rfl

/-- Below an element that is not itself found, every statement that is found is moved. -/
theorem takes_eq (h : k.hits parent = false) : k.takes parent a = k.finds a := by
  rw [takes]
  by_cases hk : k = .tailf
  · have hparent : "tailf_prefix_".toList.isPrefixOf parent = false := by
      rw [hits, if_pos hk, decide_eq_false_iff_not, hk] at h
      rw [← Bool.not_eq_true, List.isPrefixOf_iff_prefix]
      exact fun hpre ↦ h hpre.isInfix
    rw [hparent, Bool.not_false, Bool.or_true, Bool.and_true]
  · rw [bne_iff_ne.mpr hk, Bool.true_or, Bool.and_true]

theorem remaining_eq_cut (h : k.hits parent = false) (f : Xml) :
    k.remaining parent f = f.cut k.finds := by
  induction f generalizing parent with
  | nil => rfl
  | node a c r ihc ihr =>
    rw [remaining, cut, takes_eq h]
    split_ifs with hfind
    · exact ihr h
    · rw [Bool.not_eq_true, finds_eq] at hfind
      rw [ihc hfind, ihr h]

end Kind

/-- A statement with annotations around it. -/
def Wraps (x : Piece Item) (w : Xml) : Prop := ∃ path, w = addStmt path (.node x.1 x.2 .nil)

theorem Kind.forall₂_annotated {k : Kind} {parent : Text} (h : k.hits parent = false)
    (path seen : List Text) (f : Xml) :
    List.Forall₂ Wraps (f.pieces k.finds) (k.annotated parent path seen f).1 := by
  induction f generalizing parent path seen with
  | nil => exact .nil
  | node a c r ihc ihr =>
    rw [annotated, pieces, takes_eq h]
    by_cases hfind : k.finds a = true
    · rw [if_pos hfind, if_pos hfind]
      exact .cons ⟨path, rfl⟩ (ihr h path seen)
    · rw [if_neg hfind, if_neg hfind]
      rw [Bool.not_eq_true, finds_eq] at hfind
      exact List.rel_append (ihc hfind _ _) (ihr h _ _)

/-! ## All passes -/

/-- The kinds are looked for one after the other. -/
def anyKind (ks : List Kind) (a : Item) : Bool := ks.any (·.finds a)

theorem noted_foldl_pass_of_quiet {root : Text} {ks : List Kind} (hks : ∀ k ∈ ks, k.isNoted = false)
    (s : Soup) : (ks.foldl (Soup.pass root) s).noted = s.noted := by
  induction ks generalizing s with
  | nil => rfl
  | cons k ks ih =>
    rw [List.foldl_cons, ih fun k' hk' ↦ hks k' (List.mem_cons_of_mem _ hk'), Soup.pass,
      hks k List.mem_cons_self, Bool.false_and, Bool.or_false]

section Passes

variable {root : Text} (hroot : ∀ k : Kind, k.hits root = false)

include hroot

theorem yin_foldl_pass (ks : List Kind) (s : Soup) :
    (ks.foldl (Soup.pass root) s).yin = s.yin.cut (anyKind ks) := by
  induction ks generalizing s with
  | nil => exact (cut_eq_self (has_false s.yin)).symm
  | cons k ks ih =>
    rw [List.foldl_cons, ih, Soup.pass, Kind.remaining_eq_cut (hroot k), cut_cut]
    rfl

theorem anns_foldl_pass (ks : List Kind) (s : Soup) :
    ∃ ws, (ks.foldl (Soup.pass root) s).anns = s.anns ++ ws ∧
      List.Forall₂ Wraps (removed (ks.map Kind.finds) s.yin) ws := by
  induction ks generalizing s with
  | nil => exact ⟨[], (List.append_nil _).symm, .nil⟩
  | cons k ks ih =>
    obtain ⟨ws, hanns, hws⟩ := ih (s.pass root k)
    refine ⟨(k.annotated root [] [] s.yin).1 ++ ws, ?_, ?_⟩
    · rw [List.foldl_cons, hanns, Soup.pass, List.append_assoc]
    · rw [Soup.pass, Kind.remaining_eq_cut (hroot k)] at hws
      exact List.rel_append (Kind.forall₂_annotated (hroot k) _ _ _) hws

theorem noted_foldl_pass_of_noted {ks : List Kind} (hks : ∀ k ∈ ks, k.isNoted = true) (s : Soup) :
    (ks.foldl (Soup.pass root) s).noted = (s.noted || s.yin.has (anyKind ks)) := by
  induction ks generalizing s with
  | nil =>
    have hnone : s.yin.has (anyKind []) = false := has_false s.yin
    rw [List.foldl_nil, hnone, Bool.or_false]
  | cons k ks ih =>
    have hsplit : (s.yin.has k.finds || s.yin.visible (anyKind ks) k.finds) =
        s.yin.has (anyKind (k :: ks)) := has_or_visible s.yin
    rw [List.foldl_cons, ih fun k' hk' ↦ hks k' (List.mem_cons_of_mem _ hk'), Soup.pass,
      Kind.remaining_eq_cut (hroot k), hks k List.mem_cons_self, Bool.true_and, has_cut,
      Bool.or_assoc, hsplit]

end Passes

theorem YinModule.hits_rootName (m : YinModule) (k : Kind) : k.hits m.rootName = false := by
  rw [YinModule.rootName]
  cases m.isSubmodule <;> cases k <;> decide

/-! ## What is to be preserved -/

/-- What a pass for the kind sees of an item of the module. -/
def wanted (ks : List Kind) (a : Item) : Bool := anyKind ks (a.substitute yinIn)

/-- The statements of the kinds selected by the flags. -/
def selected (flags : Kind → Bool) : Item → Bool := wanted (passes flags false)

/-- Every selected statement is found again, each in a place of its own, in the rewritten module or
in the annotation module that is written. It may lack selected statements that were below it. -/
def Preserved (flags : Kind → Bool) (m : YinModule) (out : Output) : Prop :=
  ∃ found : Multiset (Piece Item),
    found ≤ (out.module_.occurrences (selected flags) : Multiset (Piece Item)) +
      ((out.annotation.getD .nil).occurrences (selected flags) : Multiset (Piece Item)) ∧
    Multiset.Rel (PrunedPiece (selected flags)) (m.body.occurrences (selected flags)) found

/-- A selected `must` or `when` statement, or a selected extension that is not below a selected
statement of the kinds nobody asks for. -/
def noticed (flags : Kind → Bool) (m : YinModule) : Bool :=
  m.body.has (wanted (earlyKinds.filter flags)) ||
    m.body.visible (wanted ((lateKinds false).filter flags)) (wanted (quietKinds.filter flags))

/-- The substitutions give the selected statements back in the annotation module. -/
def StringsKept (flags : Kind → Bool) (m : YinModule) : Prop :=
  ∀ e ∈ m.body.occurrences (selected flags),
    (e.1.substitute yinIn).substitute annOut = e.1 ∧
      (e.2.map (Item.substitute yinIn)).map (Item.substitute annOut) = e.2

/-- The substitutions give the names of elements back in the rewritten module. -/
def NamesKept (m : YinModule) : Prop := ∀ a ∈ m.body.labels, yinOut (yinIn a.name) = a.name

/-! ## Names of statements -/

/-- The names of extensions are those of `tailf-common` with another prefix. -/
theorem yinIn_extension {name : Text} (hcolon : ':' ∉ name) (hequals : '=' ∉ name) :
    yinIn ("tailf:".toList ++ name) = "tailf_prefix_".toList ++ name := by
  have hfirst : replace ("tailf:".toList ++ name) "tailf:" "tailf_prefix_" =
      "tailf_prefix_".toList ++ replaceFrom "tailf:".toList "tailf_prefix_".toList 0 name := rfl
  rw [replaceFrom_eq_self (by decide : ':' ∈ "tailf:".toList) hcolon] at hfirst
  have hcolon' : ':' ∉ "tailf_prefix_".toList ++ name := by
    rw [List.mem_append, not_or]
    exact ⟨by decide, hcolon⟩
  have hequals' : '=' ∉ "tailf_prefix_".toList ++ name := by
    rw [List.mem_append, not_or]
    exact ⟨by decide, hequals⟩
  simp only [yinIn, hfirst]
  rw [replace, replace, replace, replaceFrom_eq_self (by decide : '=' ∈ "name=".toList) hequals',
    replaceFrom_eq_self (by decide : '=' ∈ "target-node=".toList) hequals',
    replaceFrom_eq_self (by decide : ':' ∈ "xmlns:".toList) hcolon']

/-- Every extension of `tailf-common` is selected by the flag for them. -/
theorem selected_extension {flags : Kind → Bool} (hflag : flags .tailf = true) {name : Text}
    (hcolon : ':' ∉ name) (hequals : '=' ∉ name) (attrs : Attrs) :
    selected flags (.element ("tailf:".toList ++ name) attrs) = true := by
  refine List.any_eq_true.mpr ⟨.tailf, ?_, ?_⟩
  · exact List.mem_filter.mpr ⟨by decide, hflag⟩
  · rw [Kind.finds_eq, Item.substitute, Item.name, yinIn_extension hcolon hequals, Kind.hits,
      if_pos rfl, decide_eq_true_iff]
    exact (List.prefix_append _ _).isInfix

/-! ## The decision -/

theorem passes_eq (flags : Kind → Bool) :
    passes flags false =
      earlyKinds.filter flags ++ quietKinds.filter flags ++ (lateKinds false).filter flags := by
  rw [passes, List.filter_append, List.filter_append]

theorem has_map_anyKind (ks : List Kind) (f : Xml) :
    (f.map (Item.substitute yinIn)).has (anyKind ks) = f.has (wanted ks) :=
  has_map f

theorem noted_eq_noticed (flags : Kind → Bool) (m : YinModule) :
    ((passes flags false).foldl (Soup.pass m.rootName)
      { yin := m.body.map (Item.substitute yinIn), anns := [], noted := false }).noted =
      noticed flags m := by
  have hroot := m.hits_rootName
  have hearly : ∀ k ∈ earlyKinds.filter flags, k.isNoted = true := by
    intro k hk
    have hmem := List.mem_of_mem_filter hk
    revert hmem
    cases k <;> decide
  have hquiet : ∀ k ∈ quietKinds.filter flags, k.isNoted = false := by
    intro k hk
    have hmem := List.mem_of_mem_filter hk
    revert hmem
    cases k <;> decide
  have hlate : ∀ k ∈ (lateKinds false).filter flags, k.isNoted = true := by
    intro k hk
    have hmem := List.mem_of_mem_filter hk
    revert hmem
    cases k <;> decide
  rw [passes_eq, List.foldl_append, List.foldl_append, noted_foldl_pass_of_noted hroot hlate,
    noted_foldl_pass_of_quiet hquiet, noted_foldl_pass_of_noted hroot hearly,
    yin_foldl_pass hroot, yin_foldl_pass hroot, Bool.false_or, cut_map, cut_map, has_map_anyKind,
    has_map_anyKind, noticed]
  -- once an early statement is there, nothing else matters
  cases hhas : m.body.has (wanted (earlyKinds.filter flags)) with
  | true => rw [Bool.true_or, Bool.true_or]
  | false =>
    have hcut : m.body.cut (anyKind (earlyKinds.filter flags) ∘ Item.substitute yinIn) = m.body :=
      cut_eq_self hhas
    rw [hcut, Bool.false_or, Bool.false_or]
    exact has_cut m.body

/-! ## The annotation module -/

theorem occurrences_concat (p : Item → Bool) (l : List Xml) :
    (concat l).occurrences p = l.flatMap (·.occurrences p) := by
  induction l with
  | nil => rfl
  | cons f l ih => rw [concat, List.foldr_cons, occurrences_append, List.flatMap_cons, ← ih, concat]

theorem map_concat (u : Item → Item) (l : List Xml) :
    (concat l).map u = concat (l.map (·.map u)) := by
  induction l with
  | nil => rfl
  | cons f l ih => rw [concat, List.foldr_cons, map_append, List.map_cons, ← concat, ih]; rfl

/-- What is below an element is in the document. -/
theorem occurrences_sublist_node (p : Item → Bool) (a : Item) (c r : Xml) :
    (c.occurrences p).Sublist ((Forest.node a c r).occurrences p) := by
  rw [occurrences]
  exact ((c.occurrences p).sublist_append_left _).trans (List.sublist_append_right _ _)

theorem occurrences_sublist_element (p : Item → Bool) (u : Item → Item) (name : String)
    (attrs : Attrs) (c : Xml) :
    ((c.map u).occurrences p).Sublist (((element name attrs c).map u).occurrences p) :=
  occurrences_sublist_node p _ _ _

theorem occurrences_sublist_addStmt (p : Item → Bool) (u : Item → Item) (path : List Text)
    (f : Xml) :
    ((f.map u).occurrences p).Sublist (((addStmt path f).map u).occurrences p) := by
  induction path generalizing f with
  | nil => exact List.Sublist.refl _
  | cons step path ih => exact (occurrences_sublist_element p u _ _ f).trans (ih _)

/-- Statements that the substitutions leave alone are in the printed annotations. -/
theorem inPieces_sublist_concat {p : Item → Bool} {u v : Item → Item} {l : List (Piece Item)}
    {ws : List Xml} (hkept : ∀ x ∈ l, v (u x.1) = x.1 ∧ (x.2.map u).map v = x.2)
    (hws : List.Forall₂ Wraps (l.map fun x ↦ (u x.1, x.2.map u)) ws) :
    (inPieces p l).Sublist (((concat ws).map v).occurrences p) := by
  rw [map_concat, occurrences_concat]
  induction l generalizing ws with
  | nil => exact List.nil_sublist _
  | cons x l ih =>
    obtain ⟨w, ws', hw, hws', rfl⟩ := List.forall₂_cons_left_iff.mp hws
    obtain ⟨path, rfl⟩ := hw
    have hx : (Forest.node (u x.1) (x.2.map u) .nil).map v = .node x.1 x.2 .nil := by
      obtain ⟨hlabel, hchildren⟩ := hkept x List.mem_cons_self
      rw [map, hlabel, hchildren, map]
    have hsub := occurrences_sublist_addStmt p v path (.node (u x.1) (x.2.map u) .nil)
    rw [hx] at hsub
    exact hsub.append (ih (fun y hy ↦ hkept y (List.mem_cons_of_mem _ hy)) hws')

theorem concat_sublist_genAnnModule (p : Item → Bool) (u : Item → Item) (today name ns pfx : Text)
    (imports anns : List Xml) :
    (((concat anns).map u).occurrences p).Sublist
      (((genAnnModule today name ns pfx imports anns).map u).occurrences p) := by
  have hlast : ∀ (l : List Xml) (f : Xml), f ∈ l →
      ((f.map u).occurrences p).Sublist (((concat l).map u).occurrences p) := by
    intro l f hf
    rw [map_concat, occurrences_concat]
    obtain ⟨l₁, l₂, rfl⟩ := List.append_of_mem hf
    rw [List.map_append, List.map_cons, List.flatMap_append, List.flatMap_cons]
    exact (List.sublist_append_left _ _).trans (List.sublist_append_right _ _)
  refine (occurrences_sublist_element p u "tailf_prefix_annotate_module"
    [("module_name".toList, name)] (concat anns)).trans (hlast _ _ (List.mem_append_right _ ?_))
  exact List.mem_cons_of_mem _ (List.mem_cons_of_mem _ List.mem_cons_self)

/-! ## The rewritten module -/

theorem has_dropFirst {p q : Item → Bool} {f : Xml} (h : f.has p = false) :
    (dropFirst q f).has p = false := by
  induction f with
  | nil => exact h
  | node a c r ihc ihr =>
    have hnode := h
    rw [has, Bool.or_eq_false_iff, Bool.or_eq_false_iff] at h
    obtain ⟨⟨ha, hc⟩, hr⟩ := h
    rw [dropFirst]
    split_ifs
    · exact hr
    · rw [has, ha, ihc hc, hr, Bool.or_false, Bool.or_false]
    · rw [has, ha, hc, ihr hr, Bool.or_false, Bool.or_false]

theorem has_retype {p q : Item → Bool} {f : Xml} (hp : ∀ a b : Item, a.name = b.name → p a = p b)
    (h : f.has p = false) : (retype q f).has p = false := by
  induction f with
  | nil => exact h
  | node a c r ihc ihr =>
    rw [has, Bool.or_eq_false_iff, Bool.or_eq_false_iff] at h
    obtain ⟨⟨ha, hc⟩, hr⟩ := h
    rw [retype]
    split_ifs
    · have hstring := (hp (.element a.name (setAttr a.attrs "yname".toList "string".toList)) a
        rfl).trans ha
      rw [has, hstring, has, ihr hr, Bool.or_false, Bool.or_false]
    · rw [has, ha, ihc hc, ihr hr, Bool.or_false, Bool.or_false]

theorem has_dropTailfImport {p : Item → Bool} {f : Xml}
    (hp : ∀ a b : Item, a.name = b.name → p a = p b) (h : f.has p = false) :
    (dropTailfImport f).has p = false := by
  rw [dropTailfImport]
  split_ifs
  · exact h
  · exact has_retype hp (has_dropFirst h)
  · exact h

theorem Item.name_substitute {f : Text → Text} (hf : f [] = []) (a : Item) :
    (a.substitute f).name = f a.name := by
  cases a with
  | text t => exact hf.symm
  | element name attrs => rfl

/-- Whether a statement is selected is a matter of its name. -/
theorem selected_congr {flags : Kind → Bool} {a b : Item} (h : a.name = b.name) :
    selected flags a = selected flags b := by
  have hfinds : ∀ k : Kind, k.finds (a.substitute yinIn) = k.finds (b.substitute yinIn) := by
    intro k
    rw [Kind.finds_eq, Kind.finds_eq, Item.name_substitute rfl, Item.name_substitute rfl, h]
  simp only [selected, wanted, anyKind, hfinds]

/-- What the passes make of a module. -/
def soupOf (flags : Kind → Bool) (m : YinModule) : Soup :=
  (passes flags false).foldl (Soup.pass m.rootName)
    { yin := m.body.map (Item.substitute yinIn), anns := [], noted := false }

section Script

variable {flags : Kind → Bool} {today name : Text} {m : YinModule} {out : Output}

theorem tailfAnnStmt_spec (h : tailfAnnStmt flags false false today name m = some out) :
    out.module_ = (Forest.node (m.root.substitute yinIn) (dropTailfImport (soupOf flags m).yin)
      .nil).map (Item.substitute yinOut) ∧
    ∃ a ns pfx imports, out.annotation =
      if (soupOf flags m).noted then
        some ((Forest.node a (genAnnModule today name ns pfx imports (soupOf flags m).anns)
          .nil).map (Item.substitute annOut))
      else none := by
  simp only [tailfAnnStmt, Option.bind_eq_bind, Option.bind_eq_some_iff] at h
  obtain ⟨⟨ns, pfx⟩, -, yname, -, hout⟩ := h
  obtain rfl := Option.some.inj hout
  have hwritten : ∀ (noted : Bool) (ann : Xml),
      (if (false || !noted) = true then none else some ann) =
        if noted = true then some ann else none := by
    intro noted ann
    cases noted
    · rfl
    · rfl
  exact ⟨rfl, .element "module".toList
    (setAttr (m.root.substitute yinIn).attrs "yname".toList (yname ++ "-ann".toList)), ns, pfx,
    topImports (dropTailfImport (soupOf flags m).yin), hwritten (soupOf flags m).noted _⟩

/-- No selected statement stays in the rewritten module. -/
theorem has_module_eq_false (hnames : NamesKept m)
    (h : tailfAnnStmt flags false false today name m = some out) :
    out.module_.has (selected flags) = false := by
  have hbody : (soupOf flags m).yin.has (selected flags ∘ Item.substitute yinOut) = false := by
    rw [soupOf, yin_foldl_pass m.hits_rootName, cut_map, has_map, has_eq_any, List.any_eq_false]
    intro a ha
    have hname : ((a.substitute yinIn).substitute yinOut).name = a.name := by
      rw [Item.name_substitute rfl, Item.name_substitute rfl]
      exact hnames a (mem_labels_of_cut ha)
    have hcut : (m.body.cut (selected flags)).has (selected flags) = false := has_cut_self m.body
    rw [has_eq_any, List.any_eq_false] at hcut
    rw [Function.comp_apply, Function.comp_apply, selected_congr hname]
    exact hcut a ha
  have hroot : selected flags ((m.root.substitute yinIn).substitute yinOut) = false := by
    refine List.any_eq_false.mpr fun k _ ↦ ?_
    have hhits : k.hits (yinIn (yinOut (yinIn m.rootName))) = false := by
      rw [YinModule.rootName]
      cases m.isSubmodule <;> cases k <;> decide
    rw [Kind.finds_eq, Item.name_substitute rfl, Item.name_substitute rfl,
      Item.name_substitute rfl, YinModule.root, Item.name, hhits]
    exact Bool.false_ne_true
  have hp : ∀ a b : Item, a.name = b.name →
      (selected flags ∘ Item.substitute yinOut) a =
        (selected flags ∘ Item.substitute yinOut) b := by
    intro a b hab
    refine selected_congr ?_
    rw [Item.name_substitute rfl, Item.name_substitute rfl, hab]
  rw [(tailfAnnStmt_spec h).1, has_map, has, Function.comp_apply, hroot,
    has_dropTailfImport hp hbody]
  rfl

/-- What the passes look for, in the words of the module. -/
def wantedKinds (flags : Kind → Bool) : List (Item → Bool) :=
  ((passes flags false).map Kind.finds).map (· ∘ Item.substitute yinIn)

theorem selected_of_mem_wantedKinds : ∀ q ∈ wantedKinds flags, ∀ a, q a = true →
    selected flags a = true := by
  intro q hq a ha
  obtain ⟨q', hq', rfl⟩ := List.mem_map.mp hq
  obtain ⟨k, hk, rfl⟩ := List.mem_map.mp hq'
  exact List.any_eq_true.mpr ⟨k, hk, ha⟩

/-- The selected statements of a module are in what the passes remove. -/
theorem rel_removed (flags : Kind → Bool) (m : YinModule) :
    Multiset.Rel (PrunedPiece (selected flags)) (m.body.occurrences (selected flags))
      (inPieces (selected flags) (removed (wantedKinds flags) m.body)) := by
  have hrel := rel_occurrences_removed (@selected_of_mem_wantedKinds flags) m.body
  have hpred : (fun a ↦ (wantedKinds flags).any (· a)) = selected flags := by
    funext a
    rw [wantedKinds, List.any_map, List.any_map, selected, wanted, anyKind]
    rfl
  rw [hpred, occurrences_eq_nil_iff.mpr (has_cut_self m.body), Multiset.coe_nil, zero_add] at hrel
  exact hrel

/-- What the passes remove is in the annotation module. -/
theorem removed_sublist_anns (hstrings : StringsKept flags m) :
    (inPieces (selected flags) (removed (wantedKinds flags) m.body)).Sublist
      (((concat (soupOf flags m).anns).map (Item.substitute annOut)).occurrences
        (selected flags)) := by
  obtain ⟨ws, hanns, hws⟩ := anns_foldl_pass m.hits_rootName (passes flags false)
    { yin := m.body.map (Item.substitute yinIn), anns := [], noted := false }
  rw [soupOf, hanns, List.nil_append]
  rw [removed_map] at hws
  refine inPieces_sublist_concat (fun x hx ↦ ?_) hws
  obtain ⟨e, he, hlabel, hpruned⟩ :=
    exists_occurrence_of_mem_removed selected_of_mem_wantedKinds hx
  obtain ⟨hkept, hkept'⟩ := hstrings e he
  rw [map_map] at hkept'
  rw [← hlabel, map_map]
  exact ⟨hkept, hpruned.map_eq hkept'⟩

/-- **No statement is lost**, as far as the substitutions leave names and selected statements alone,
exactly when there is none to lose or one of the passes is noticed. -/
theorem preserved_iff (hstrings : StringsKept flags m) (hnames : NamesKept m)
    (hout : tailfAnnStmt flags false false today name m = some out) :
    Preserved flags m out ↔
      m.body.has (selected flags) = false ∨ noticed flags m = true := by
  obtain ⟨-, a, ns, pfx, imports, hann⟩ := tailfAnnStmt_spec hout
  have hmodule := occurrences_eq_nil_iff.mpr (has_module_eq_false hnames hout)
  have hnoted : (soupOf flags m).noted = noticed flags m := noted_eq_noticed flags m
  constructor
  · rintro ⟨found, hle, hrel⟩
    by_cases hnot : noticed flags m = true
    · exact Or.inr hnot
    · -- nothing is written, and nothing is in the rewritten module
      rw [hann, hnoted, if_neg hnot, hmodule] at hle
      obtain rfl : found = 0 := Multiset.le_zero.mp hle
      have hnil := (Multiset.coe_eq_zero _).mp (Multiset.rel_zero_right.mp hrel)
      exact Or.inl (occurrences_eq_nil_iff.mp hnil)
  · rintro (hnone | hnot)
    · refine ⟨0, Multiset.zero_le _, ?_⟩
      rw [occurrences_eq_nil_iff.mpr hnone]
      exact Multiset.Rel.zero
    · refine ⟨_, ?_, rel_removed flags m⟩
      rw [hann, hnoted, if_pos hnot, hmodule, Multiset.coe_nil, zero_add, Option.getD_some]
      refine Multiset.coe_le.mpr (List.Sublist.subperm ?_)
      exact ((removed_sublist_anns hstrings).trans
        (concat_sublist_genAnnModule _ _ today name ns pfx imports _)).trans
        (occurrences_sublist_node _ _ _ _)

end Script

/-! ## A module with one leaf

The leaf is mandatory, and it has a `must` statement. Both statements are moved if both flags are
given. With the flag for `mandatory` alone the statement is in neither of the two modules. -/

def leafModule : YinModule where
  isSubmodule := false
  attrs := [("name".toList, "m".toList)]
  body := concat
    [element "namespace" [("uri".toList, "urn:m".toList)] .nil,
      element "prefix" [("value".toList, "m".toList)] .nil,
      element "leaf" [("name".toList, "x".toList)] (concat
        [element "mandatory" [("value".toList, "true".toList)] .nil,
          element "must" [("condition".toList, ". > 1".toList)] .nil])]

theorem leafModule_preserved :
    ∃ out, tailfAnnStmt (fun k ↦ k == .must || k == .mandatory) false false
        "2024-01-01".toList "m".toList leafModule = some out ∧
      Preserved (fun k ↦ k == .must || k == .mandatory) leafModule out := by
  refine ⟨_, rfl, (preserved_iff ?_ ?_ rfl).mpr (Or.inr ?_)⟩
  · unfold StringsKept
    decide +kernel
  · unfold NamesKept
    decide +kernel
  · decide +kernel

theorem leafModule_mandatory_lost :
    ∃ out, tailfAnnStmt (fun k ↦ k == .mandatory) false false "2024-01-01".toList "m".toList
        leafModule = some out ∧ ¬ Preserved (fun k ↦ k == .mandatory) leafModule out := by
  refine ⟨_, rfl, ?_⟩
  rintro ⟨found, hle, hrel⟩
  have hnone : found = 0 := Multiset.le_zero.mp (hle.trans (by decide +kernel))
  rw [hnone, Multiset.rel_zero_right] at hrel
  exact absurd hrel (by decide +kernel)

end ConfdDemos.AnnStmt
