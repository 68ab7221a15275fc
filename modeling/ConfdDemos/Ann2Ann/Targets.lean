import ConfdDemos.Ann2Ann.Conversion
import ConfdDemos.Foundation.Places

/-!
# What the conversion finds

In a module without choices, groupings and augments a path of the schema is a path of statements. So
the conversion should find the data nodes with the path, and nothing else: a chain of annotations
for each, which names the statements from the top of the module down to the node.

## What is compared

The loops over the candidates amount to a filter: a candidate is kept if the names at it and above
it are those of the path, from the last one on, for as many steps as there are (`bears`). It is not
asked what kinds of statements have these names, nor whether the topmost of them stands right below
the module. On the other hand the input and the output of an operation have no names in the YIN
form, and no path that leads through them is found.

## Results

`converts_exactly_iff` says that these are the only reasons for a wrong result.
-/

namespace ConfdDemos.Ann2Ann

open AnnStmt Forest

/-! ## Statements that are neither choices, groupings nor augments -/

/-- The keywords that the script treats specially. -/
def special : List Text := ["choice".toList, "grouping".toList, "augment".toList]

def IsPlain (t : Tag) : Prop := ∀ a ∈ t.chain, a.name ∉ special

namespace IsPlain

variable {t : Tag}

theorem parent (h : IsPlain t) : IsPlain t.parent := fun a ha ↦ h a (List.mem_of_mem_tail ha)

theorem name_notMem (h : IsPlain t) : t.name ∉ special := by
  unfold Tag.name
  rcases hchain : t.chain with - | ⟨a, up⟩
  · decide
  · exact h a (hchain ▸ List.mem_cons_self)

theorem name_ne {keyword : Text} (h : IsPlain t) (hkeyword : keyword ∈ special) :
    t.name ≠ keyword := fun heq ↦ h.name_notMem (heq ▸ hkeyword)

theorem skipsCase (h : IsPlain t) (s : Search) : skipsCase s t = some false := by
  have hnamed : ∀ {t : Tag} (_ : IsPlain t) (name : Text), isNamed t "choice" name = some false :=
    fun ht name ↦ if_neg (ht.name_ne List.mem_cons_self)
  unfold Ann2Ann.skipsCase
  rw [hnamed h.parent, hnamed h]
  rcases s.pathTags.getLast? with - | pathTag
  · rfl
  · simp only [hnamed h.parent]
    rfl

end IsPlain

theorem chain_subset_of_mem_tags {up : List Item} {f : Xml} {t : Tag} (ht : t ∈ tags up f) :
    ∀ a ∈ t.chain, a ∈ up ∨ a ∈ f.labels := by
  induction f generalizing up with
  | nil => exact absurd ht List.not_mem_nil
  | node b c r ihc ihr =>
    have hrest : t ∈ tags up r → ∀ a ∈ t.chain, a ∈ up ∨ a ∈ (Forest.node b c r).labels :=
      fun htr a ha ↦ (ihr htr a ha).imp_right fun hr ↦
        List.mem_cons_of_mem _ (List.mem_append_right _ hr)
    rcases b with text | ⟨name, attrs⟩
    · exact hrest ht
    · rcases List.mem_cons.mp ht with rfl | ht
      · intro a ha
        rcases List.mem_cons.mp ha with rfl | ha
        · exact Or.inr List.mem_cons_self
        · exact Or.inl ha
      · rcases List.mem_append.mp ht with ht | ht
        · intro a ha
          rcases ihc ht a ha with hup | hc
          · rcases List.mem_cons.mp hup with rfl | hup
            · exact Or.inr List.mem_cons_self
            · exact Or.inl hup
          · exact Or.inr (List.mem_cons_of_mem _ (List.mem_append_left _ hc))
        · exact hrest ht

/-! ## The loops -/

/-- What becomes of a candidate and its annotation. -/
def advance (name : Text) (x : Tag × Xml) : Option (Tag × Xml) :=
  if x.1.parent.attr "yname" = some name then
    some (x.1.parent, annotateStatement (statementPath x.1.parent.name name) x.2)
  else none

namespace Search

/-- The lists of candidates and annotations in the middle of a loop. -/
def withRows (s : Search) (done rest : List (Tag × Xml)) : Search :=
  { s with
    moduleNodes := (done ++ rest).map Prod.fst
    annNodes := (done ++ rest).map Prod.snd
    index := done.length }

variable (s : Search) (done rest : List (Tag × Xml)) (x : Tag × Xml)

theorem withRows_annNode : (s.withRows done (x :: rest)).annNodes[done.length]? = some x.2 := by
  have hget : ((done ++ x :: rest).map Prod.snd)[done.length]? = some x.2 := by
    rw [List.getElem?_map, List.getElem?_append_right (Nat.le_refl _), Nat.sub_self]
    rfl
  exact hget

/-- The index points to the candidate that is looked at, so the edit is made in its place. -/
theorem put_withRows (y : Tag × Xml) :
    (s.withRows done (x :: rest)).put y.1 y.2 = s.withRows (done ++ [y]) rest := by
  have hset : ∀ {α : Type} (f : Tag × Xml → α) (a : α),
      ((done ++ x :: rest).map f).set done.length a = done.map f ++ a :: rest.map f := by
    intro α f a
    have hlen : done.length = (done.map f).length := (List.length_map f).symm
    rw [List.map_append, List.map_cons, hlen, List.set_append_right _ _ (Nat.le_refl _),
      Nat.sub_self, List.set_cons_zero]
  have hmap : ∀ {α : Type} (f : Tag × Xml → α),
      ((done ++ [y]) ++ rest).map f = done.map f ++ f y :: rest.map f := by
    intro α f
    rw [List.append_assoc, List.map_append]
    rfl
  unfold put withRows
  simp only [hset, hmap, List.length_append, List.length_singleton]

theorem del_withRows : (s.withRows done (x :: rest)).del = s.withRows done rest := by
  have herase : ∀ {α : Type} (f : Tag × Xml → α),
      ((done ++ x :: rest).map f).eraseIdx done.length = (done ++ rest).map f := by
    intro α f
    have hlen : done.length = (done.map f).length := (List.length_map f).symm
    rw [List.map_append, List.map_cons, hlen, List.eraseIdx_append_of_length_le (Nat.le_refl _),
      Nat.sub_self, List.map_append]
    rfl
  unfold del withRows
  simp only [herase]

end Search

theorem climb_withRows {soup : List Tag} {s : Search} {done rest : List (Tag × Xml)}
    {x : Tag × Xml} (hx : IsPlain x.1) :
    climb soup (s.withRows done (x :: rest)) x.1 =
      some (s.withRows (done ++ (advance s.pathTagName x).toList) rest) := by
  have hann : (s.withRows done (x :: rest)).annNodes[(s.withRows done (x :: rest)).index]? =
      some x.2 := s.withRows_annNode done rest x
  have hname : (s.withRows done (x :: rest)).pathTagName = s.pathTagName := rfl
  unfold climb
  rw [hann, Option.bind_eq_bind, Option.bind_some, hx.skipsCase, hname]
  by_cases hparent : x.1.parent.attr "yname" = some s.pathTagName
  · have hadvance : advance s.pathTagName x =
        some (x.1.parent, annotateStatement (statementPath x.1.parent.name s.pathTagName) x.2) :=
      if_pos hparent
    have hput := s.put_withRows done rest x
      (x.1.parent, annotateStatement (statementPath x.1.parent.name s.pathTagName) x.2)
    rw [hadvance, Option.toList_some, ← hput]
    simp only [Option.bind_eq_bind, Option.bind_some, Bool.false_eq_true, if_false, if_pos hparent]
  · have hadvance : advance s.pathTagName x = none := if_neg hparent
    have hgrouping : x.1.parent.name ≠ "grouping".toList := hx.parent.name_ne (by decide)
    have haugment : x.1.parent.name ≠ "augment".toList := hx.parent.name_ne (by decide)
    rw [hadvance, Option.toList_none, List.append_nil, ← s.del_withRows done rest x]
    simp only [Option.bind_eq_bind, Option.bind_some, Bool.false_eq_true, if_false,
      if_neg hparent, if_neg hgrouping, if_neg haugment]

theorem foldlM_climb {soup : List Tag} {s : Search} {done rest : List (Tag × Xml)}
    (hrest : ∀ x ∈ rest, IsPlain x.1) :
    rest.foldlM (fun s x ↦ climb soup s x.1) (s.withRows done rest) =
      some (s.withRows (done ++ rest.filterMap (advance s.pathTagName)) []) := by
  induction rest generalizing done with
  | nil =>
    rw [List.filterMap_nil, List.append_nil]
    rfl
  | cons x rest ih =>
    rw [List.foldlM_cons, climb_withRows (hrest x List.mem_cons_self), Option.bind_eq_bind,
      Option.bind_some, ih fun y hy ↦ hrest y (List.mem_cons_of_mem _ hy), List.append_assoc]
    rcases hx : advance s.pathTagName x with - | y
    · rw [List.filterMap_cons_none hx]
      rfl
    · rw [List.filterMap_cons_some hx]
      rfl

/-- **A loop over the candidates is a filter**, although it edits the lists it goes over. -/
theorem forEach_climb {soup : List Tag} {s : Search} {rows : List (Tag × Xml)}
    (hnodes : s.moduleNodes = rows.map Prod.fst) (hanns : s.annNodes = rows.map Prod.snd)
    (hrows : ∀ x ∈ rows, IsPlain x.1) :
    s.forEach (climb soup) =
      some (s.withRows (rows.filterMap (advance s.pathTagName)) []) := by
  have hzip : s.moduleNodes.zip s.annNodes = rows := by
    have hunzip := List.zip_unzip rows
    rwa [List.unzip_eq_map, ← hnodes, ← hanns] at hunzip
  have hstart : { s with index := 0 } = s.withRows [] rows := by
    rw [Search.withRows, List.nil_append, ← hnodes, ← hanns]
    rfl
  rw [Search.forEach, hzip, hstart, foldlM_climb hrows, List.nil_append]

/-! ## The names above a candidate -/

def yname (a : Item) : Option Text := a.attrs.lookup "yname".toList

/-- Annotations around each other, for statements from the innermost one on. -/
def wrap (step : Item → Text) (content : Xml) (stmts : List Item) : Xml :=
  stmts.foldl (fun x a ↦ annotateStatement (step a) x) content

/-- The step to a statement by its name. -/
def namedStep (a : Item) : Text := statementPath a.name ((yname a).getD [])

/-- What becomes of a candidate and its annotation after several steps, from the last one on. -/
def ascend : List Text → Tag × Xml → Option (Tag × Xml)
  | [], x => some x
  | name :: names, x => (advance name x).bind (ascend names)

theorem map_ascend (names : List Text) (x : Tag × Xml) :
    (ascend names x).map Prod.snd =
      if (names.map some).isPrefixOf (x.1.chain.tail.map yname) then
        some (wrap namedStep x.2 (x.1.chain.tail.take names.length))
      else none := by
  induction names generalizing x with
  | nil => rfl
  | cons name names ih =>
    obtain ⟨⟨chain⟩, y⟩ := x
    rw [ascend, advance, List.map_cons]
    unfold Tag.attr Tag.name Tag.parent
    rcases hup : chain.tail with - | ⟨a, up⟩
    · rw [if_neg (Option.some_ne_none name).symm]
      rfl
    · simp only [List.map_cons, List.isPrefixOf_cons_cons, List.length_cons, List.take_succ_cons]
      by_cases hname : yname a = some name
      · have hstep : namedStep a = statementPath a.name name := by
          rw [namedStep, hname, Option.getD_some]
        have hlookup : a.attrs.lookup "yname".toList = some name := hname
        rw [if_pos hlookup, Option.bind_some, ih, hname, beq_self_eq_true, Bool.true_and, wrap,
          wrap, List.foldl_cons, hstep, List.tail_cons]
      · have hlookup : ¬ a.attrs.lookup "yname".toList = some name := hname
        have hnot : (some name == yname a) = false := beq_eq_false_iff_ne.mpr (Ne.symm hname)
        rw [if_neg hlookup, hnot, Bool.false_and, if_neg Bool.false_ne_true]
        rfl

theorem isPlain_of_advance {name : Text} {x y : Tag × Xml} (hx : IsPlain x.1)
    (h : advance name x = some y) : IsPlain y.1 := by
  unfold advance at h
  split_ifs at h
  obtain rfl := Option.some.inj h
  exact hx.parent

/-! ## The path -/

/-- The name of a node, with the prefix of the module. -/
def pathTag (modulePrefix name : Text) : Text := modulePrefix ++ ':' :: name

theorem splitOn_pathTag {modulePrefix name : Text} (hmodule : ':' ∉ modulePrefix)
    (hname : ':' ∉ name) : (pathTag modulePrefix name).splitOn ':' = [modulePrefix, name] := by
  rw [pathTag, List.splitOn_append_cons_self_of_not_mem hmodule, List.splitOn_eq_singleton hname]

theorem lastName_pathTag {modulePrefix name : Text} (hmodule : ':' ∉ modulePrefix)
    (hname : ':' ∉ name) : lastName (pathTag modulePrefix name) = name := by
  rw [lastName, splitOn_pathTag hmodule hname]
  rfl

theorem firstName_pathTag {modulePrefix name : Text} (hmodule : ':' ∉ modulePrefix)
    (hname : ':' ∉ name) : firstName (pathTag modulePrefix name) = modulePrefix := by
  rw [firstName, splitOn_pathTag hmodule hname]
  rfl

/-- The loop over the path is a filter too. -/
theorem whileTags_eq (soup : List Tag) {modulePrefix : Text} (hmodule : ':' ∉ modulePrefix)
    {names : List Text} (hnames : ∀ name ∈ names, ':' ∉ name) {s : Search}
    {rows : List (Tag × Xml)} (htags : s.pathTags = (names.map (pathTag modulePrefix)).reverse)
    (hnodes : s.moduleNodes = rows.map Prod.fst) (hanns : s.annNodes = rows.map Prod.snd)
    (hrows : ∀ x ∈ rows, IsPlain x.1) :
    ∃ s', whileTags soup modulePrefix names.length s = some s' ∧
      s'.annNodes = (rows.filterMap (ascend names)).map Prod.snd ∧ s'.tmpNodes = s.tmpNodes := by
  induction names generalizing s rows with
  | nil =>
    have hall : rows.filterMap (ascend []) = rows := List.filterMap_some
    exact ⟨s, rfl, by rw [hall, hanns], rfl⟩
  | cons name names ih =>
    have hcolon := hnames name List.mem_cons_self
    have hlast : s.pathTags.getLast? = some (pathTag modulePrefix name) := by
      rw [htags, List.map_cons, List.reverse_cons, List.getLast?_append, List.getLast?_singleton,
        Option.some_or]
    have hdrop : s.pathTags.dropLast = (names.map (pathTag modulePrefix)).reverse := by
      rw [htags, List.map_cons, List.reverse_cons, List.dropLast_concat]
    let start : Search := { s with pathTags := s.pathTags.dropLast, pathTagName := name }
    -- one name of the path is one round, in which the rows go up by one element
    have hloop : start.forEach (climb soup) =
        some (start.withRows (rows.filterMap (advance name)) []) :=
      forEach_climb hnodes hanns hrows
    have hplain : ∀ x ∈ rows.filterMap (advance name), IsPlain x.1 := by
      intro x hx
      obtain ⟨y, hy, hadvance⟩ := List.mem_filterMap.mp hx
      exact isPlain_of_advance (hrows y hy) hadvance
    obtain ⟨s', hrest, hanns', htmp⟩ :=
      ih (fun n hn ↦ hnames n (List.mem_cons_of_mem _ hn))
        (s := start.withRows (rows.filterMap (advance name)) []) hdrop
        (by rw [Search.withRows, List.append_nil]) (by rw [Search.withRows, List.append_nil]) hplain
    refine ⟨s', ?_, ?_, htmp⟩
    · rw [List.length_cons, whileTags]
      simp only [hlast, firstName_pathTag hmodule hcolon, lastName_pathTag hmodule hcolon, if_true]
      rw [hloop, Option.bind_eq_bind, Option.bind_some, hrest]
    · rw [hanns', List.filterMap_filterMap]
      rfl

/-! ## What is converted -/

/-- The part of YANG identifiers that matters in paths. -/
def IsIdentifier (t : Text) : Prop := t ≠ [] ∧ '/' ∉ t ∧ ':' ∉ t

/-- An absolute path with the prefix of the module in each step: those above the last one, and the
last one. -/
structure Target where
  modulePrefix : Text
  above : List Text
  last : Text
  isIdentifier : ∀ t ∈ modulePrefix :: last :: above, IsIdentifier t

namespace Target

variable (target : Target)

def steps : List Text := target.above ++ [target.last]

def text : Text := target.steps.flatMap fun name ↦ '/' :: pathTag target.modulePrefix name

variable {target}

theorem isIdentifier_modulePrefix : IsIdentifier target.modulePrefix :=
  target.isIdentifier _ List.mem_cons_self

theorem isIdentifier_of_mem {name : Text} (h : name ∈ target.steps) : IsIdentifier name := by
  rcases List.mem_append.mp h with h | h
  · exact target.isIdentifier _ (List.mem_cons_of_mem _ (List.mem_cons_of_mem _ h))
  · obtain rfl := List.mem_singleton.mp h
    exact target.isIdentifier _ (List.mem_cons_of_mem _ List.mem_cons_self)

theorem splitPath_text :
    splitPath target.text = target.steps.map (pathTag target.modulePrefix) := by
  have hslash : ∀ piece ∈ target.steps.map (pathTag target.modulePrefix), '/' ∉ piece := by
    intro piece hpiece
    obtain ⟨name, hname, rfl⟩ := List.mem_map.mp hpiece
    rw [pathTag, List.mem_append, List.mem_cons, not_or, not_or]
    exact ⟨isIdentifier_modulePrefix.2.1, by decide, (isIdentifier_of_mem hname).2.1⟩
  have hsplit := splitOn_append_flatMap (List.not_mem_nil : '/' ∉ []) hslash
  rw [List.nil_append, List.flatMap_map] at hsplit
  rw [splitPath, text, hsplit]

end Target

/-- A statement and those above it have the names of a path, from the last one on. -/
def bears (steps : List Text) (t : Tag) : Bool :=
  (steps.reverse.map some).isPrefixOf (t.chain.map yname)

theorem hasName_iff {name : Text} (hname : name ≠ []) (t : Tag) :
    hasName name t = true ↔ t.attr "yname" = some name := by
  unfold hasName
  rcases t.attr "yname" with - | value
  · exact iff_of_false (fun h ↦ hname (beq_iff_eq.mp h)) (Option.some_ne_none name).symm
  · rw [beq_iff_eq, Option.some.injEq]

/-- Without nested annotations there is the same for all candidates. -/
theorem annotateCandidates_eq {name : Text} {ts : List Tag}
    (hts : ∀ t ∈ ts, t.attr "yname" = some name) (content : Xml) :
    annotateCandidates (some content) content ts =
      some (ts.map fun t ↦ annotateStatement (statementPath t.name name) content) := by
  rcases ts with - | ⟨t, ts⟩
  · rfl
  · have hrest : ts.mapM (fun t ↦ do
          let name ← t.attr "yname"
          some (annotateStatement (statementPath t.name name) content)) =
        some (ts.map fun t ↦ annotateStatement (statementPath t.name name) content) := by
      induction ts with
      | nil => rfl
      | cons t' ts ih =>
        have hmem := hts t' (List.mem_cons_of_mem _ List.mem_cons_self)
        have hothers : ∀ u ∈ t :: ts, u.attr "yname" = some name := by
          intro u hu
          rcases List.mem_cons.mp hu with rfl | hu
          · exact hts u List.mem_cons_self
          · exact hts u (List.mem_cons_of_mem _ (List.mem_cons_of_mem _ hu))
        rw [List.mapM_cons, ih hothers, hmem]
        rfl
    rw [annotateCandidates, hrest, hts t List.mem_cons_self]
    rfl

/-- Two filters and a map, one after the other. -/
theorem filterMap_filter_eq {α β : Type} {p q r : α → Bool} {f g : α → β}
    (hr : ∀ a, r a = (p a && q a)) (hfg : ∀ a, r a = true → f a = g a) (l : List α) :
    (l.filter p).filterMap (fun a ↦ if q a then some (f a) else none) = (l.filter r).map g := by
  induction l with
  | nil => rfl
  | cons a l ih =>
    rcases hp : p a with - | -
    · rw [List.filter_cons_of_neg (by rw [hp]; exact Bool.false_ne_true),
        List.filter_cons_of_neg (by rw [hr, hp]; exact Bool.false_ne_true), ih]
    · rw [List.filter_cons_of_pos hp]
      rcases hq : q a with - | -
      · rw [List.filterMap_cons_none (by rw [hq]; rfl),
          List.filter_cons_of_neg (by rw [hr, hp, hq]; exact Bool.false_ne_true), ih]
      · have hra : r a = true := by rw [hr, hp, hq]; rfl
        rw [List.filterMap_cons_some (b := f a) (by rw [hq]; rfl), List.filter_cons_of_pos hra,
          List.map_cons, hfg a hra, ih]

/-- The statements with the last name of a path, and their annotations. -/
def candidates (soup : List Tag) (name : Text) (content : Xml) : List (Tag × Xml) :=
  (soup.filter (hasName name)).map fun t ↦
    (t, annotateStatement (statementPath t.name name) content)

theorem map_fst_candidates (soup : List Tag) (name : Text) (content : Xml) :
    (candidates soup name content).map Prod.fst = soup.filter (hasName name) := by
  rw [candidates, List.map_map]
  exact List.map_id _

theorem map_snd_candidates (soup : List Tag) (name : Text) (content : Xml) :
    (candidates soup name content).map Prod.snd = (soup.filter (hasName name)).map fun t ↦
      annotateStatement (statementPath t.name name) content := by
  rw [candidates, List.map_map]
  rfl

theorem bears_eq (target : Target) (t : Tag) :
    bears target.steps t = (hasName target.last t &&
      (target.above.reverse.map some).isPrefixOf (t.chain.tail.map yname)) := by
  have hlast := (target.isIdentifier_of_mem (List.mem_append_right _ List.mem_cons_self)).1
  have hname : hasName target.last t = (t.attr "yname" == some target.last) := by
    rw [Bool.eq_iff_iff, hasName_iff hlast, beq_iff_eq]
  obtain ⟨chain⟩ := t
  rw [bears, Target.steps, List.reverse_append, List.reverse_singleton, List.singleton_append,
    List.map_cons, hname]
  rcases chain with - | ⟨a, up⟩
  · rfl
  · rw [List.map_cons, List.isPrefixOf_cons_cons, Bool.beq_comm]
    rfl

theorem ascend_candidates (soup : List Tag) (target : Target) (content : Xml) :
    ((candidates soup target.last content).filterMap (ascend target.above.reverse)).map Prod.snd =
      (soup.filter (bears target.steps)).map fun t ↦
        wrap namedStep content (t.chain.take target.steps.length) := by
  have hlast := (target.isIdentifier_of_mem (List.mem_append_right _ List.mem_cons_self)).1
  rw [candidates, List.filterMap_map, List.map_filterMap, ← filterMap_filter_eq (bears_eq target)]
  · refine List.filterMap_congr fun t _ ↦ ?_
    exact map_ascend _ _
  · intro t ht
    rw [bears_eq, Bool.and_eq_true, hasName_iff hlast] at ht
    rcases t with ⟨- | ⟨a, up⟩⟩
    · exact absurd ht.1 (Option.some_ne_none _).symm
    · have hname : yname a = some target.last := ht.1
      have hlen : target.steps.length = target.above.reverse.length + 1 := by
        rw [Target.steps, List.length_append, List.length_reverse, List.length_singleton]
      rw [hlen, List.take_succ_cons, wrap, wrap, List.foldl_cons, namedStep, hname,
        Option.getD_some]
      rfl

/-- The statements that bear the names of the path, with annotations for as many statements as there
are steps. -/
theorem convert_eq {soup : List Tag} (hsoup : ∀ t ∈ soup, IsPlain t) (target : Target)
    (content : Xml) :
    convert soup target.modulePrefix target.text (some content) content =
      some (present target.text ((soup.filter (bears target.steps)).map fun t ↦
        wrap namedStep content (t.chain.take target.steps.length))) := by
  have hmodule := (target.isIdentifier_modulePrefix).2.2
  have hlast := target.isIdentifier_of_mem (List.mem_append_right _ List.mem_cons_self)
  have hgetLast : (splitPath target.text).getLast? =
      some (pathTag target.modulePrefix target.last) := by
    rw [Target.splitPath_text, Target.steps, List.map_append, List.map_singleton,
      List.getLast?_append, List.getLast?_singleton, Option.some_or]
  have hdropLast : (splitPath target.text).dropLast =
      (target.above.reverse.map (pathTag target.modulePrefix)).reverse := by
    rw [Target.splitPath_text, Target.steps, List.map_append, List.map_singleton,
      List.dropLast_concat, List.map_reverse, List.reverse_reverse]
  have hnames : ∀ name ∈ target.above.reverse, ':' ∉ name := fun name hname ↦
    (target.isIdentifier_of_mem (List.mem_append_left _ (List.mem_reverse.mp hname))).2.2
  -- the candidates are the tags with the last name of the path
  have hnamed : ∀ t ∈ soup.filter (hasName target.last), t.attr "yname" = some target.last :=
    fun t ht ↦ (hasName_iff hlast.1 t).mp (List.mem_filter.mp ht).2
  have hanns := annotateCandidates_eq hnamed content
  rw [← map_snd_candidates] at hanns
  have hrows : ∀ x ∈ candidates soup target.last content, IsPlain x.1 := by
    intro x hx
    obtain ⟨t, ht, rfl⟩ := List.mem_map.mp hx
    exact hsoup t (List.mem_filter.mp ht).1
  -- the loops climb from the candidates along the rest of the path
  let start : Search := ⟨(splitPath target.text).dropLast, target.last,
    soup.filter (hasName target.last), (candidates soup target.last content).map Prod.snd, [], 0⟩
  have hstart : start.pathTags =
      (target.above.reverse.map (pathTag target.modulePrefix)).reverse := hdropLast
  have hlen : (splitPath target.text).dropLast.length = target.above.reverse.length := by
    rw [hdropLast, List.length_reverse, List.length_map]
  obtain ⟨s, hwhile, hfound, htmp⟩ := whileTags_eq soup hmodule hnames hstart
    (map_fst_candidates soup target.last content).symm rfl hrows
  rw [convert, hgetLast]
  simp only [Option.bind_eq_bind, Option.bind_some, lastName_pathTag hmodule hlast.2.2, hanns, hlen]
  rw [hwhile, Option.bind_some, hfound, htmp, List.append_nil, ascend_candidates]

/-! ## Data nodes -/

def dataKeywords : List Text :=
  ["container".toList, "leaf".toList, "leaf-list".toList, "list".toList, "anydata".toList,
    "anyxml".toList]

/-- The keywords of schema nodes that have a name. -/
def schemaKeywords : List Text :=
  dataKeywords ++ ["rpc".toList, "action".toList, "notification".toList]

/-- The schema nodes that have their keyword for a name. -/
def operationParts : List Text := ["input".toList, "output".toList]

def isData (a : Item) : Bool := dataKeywords.contains a.name

/-- The name of a statement in paths of the schema. -/
def schemaName (a : Item) : Option Text :=
  if operationParts.contains a.name then some a.name
  else if schemaKeywords.contains a.name then yname a else none

/-- The step that names a statement. -/
def statementStep (a : Item) : Text :=
  if operationParts.contains a.name then a.name else namedStep a

/-- A data node whose complete path, from below the module, is the one given. -/
def isTarget (steps : List Text) (t : Tag) : Bool :=
  t.chain.head?.any isData && t.chain.dropLast.map schemaName == steps.reverse.map some

/-- One chain for each data node at the target, which names the statements on the path. -/
def expected (soup : List Tag) (target : Target) (content : Xml) : List Xml :=
  (soup.filter (isTarget target.steps)).map fun t ↦ wrap statementStep content t.chain.dropLast

/-- Statements that bear the names of the target are data nodes, stand below schema nodes with a
name, and the topmost one of those named stands right below the module; and no data node at the
target is part of an operation. -/
structure Unconfused (soup : List Tag) (steps : List Text) : Prop where
  data : ∀ t ∈ soup, bears steps t = true → t.chain.head?.any isData = true
  schema : ∀ t ∈ soup, bears steps t = true →
    ∀ a ∈ t.chain.dropLast, schemaKeywords.contains a.name = true
  complete : ∀ t ∈ soup, bears steps t = true → t.chain.length = steps.length + 1
  direct : ∀ t ∈ soup, isTarget steps t = true →
    ∀ a ∈ t.chain.dropLast, operationParts.contains a.name = false

theorem isOperation_of_schema {name : Text} (h : schemaKeywords.contains name = true) :
    operationParts.contains name = false := by
  have hall : ∀ k ∈ schemaKeywords, operationParts.contains k = false := by decide
  exact hall name (List.contains_iff_mem.mp h)

theorem schemaName_of_schema {a : Item} (h : schemaKeywords.contains a.name = true) :
    schemaName a = yname a := by
  rw [schemaName, isOperation_of_schema h, if_neg Bool.false_ne_true, if_pos h]

theorem schema_of_schemaName {a : Item} {name : Text} (h : schemaName a = some name)
    (hdirect : operationParts.contains a.name = false) :
    schemaKeywords.contains a.name = true := by
  rw [schemaName, hdirect, if_neg Bool.false_ne_true] at h
  by_contra hschema
  rw [if_neg hschema] at h
  exact Option.some_ne_none name h.symm

theorem bears_iff {steps : List Text} {t : Tag} :
    bears steps t = true ↔ steps.reverse.map some <+: t.chain.map yname := by
  rw [bears, List.isPrefixOf_iff_prefix]

theorem isTarget_iff {steps : List Text} {t : Tag} :
    isTarget steps t = true ↔ t.chain.head?.any isData = true ∧
      t.chain.dropLast.map schemaName = steps.reverse.map some := by
  rw [isTarget, Bool.and_eq_true, beq_iff_eq]

theorem length_of_isTarget {steps : List Text} {t : Tag} (h : isTarget steps t = true) :
    t.chain.length = steps.length + 1 := by
  obtain ⟨hdata, hpath⟩ := isTarget_iff.mp h
  have hlen := congrArg List.length hpath
  rw [List.length_map, List.length_dropLast, List.length_map, List.length_reverse] at hlen
  rcases hchain : t.chain with - | ⟨a, up⟩
  · rw [hchain] at hdata
    exact absurd hdata Bool.false_ne_true
  · rw [hchain, List.length_cons] at hlen
    rw [List.length_cons]
    omega

theorem schema_of_isTarget {steps : List Text} {t : Tag} (h : isTarget steps t = true)
    (hdirect : ∀ a ∈ t.chain.dropLast, operationParts.contains a.name = false) :
    ∀ a ∈ t.chain.dropLast, schemaKeywords.contains a.name = true := by
  intro a ha
  have hmem : schemaName a ∈ steps.reverse.map some :=
    (isTarget_iff.mp h).2 ▸ List.mem_map_of_mem ha
  obtain ⟨name, -, hname⟩ := List.mem_map.mp hmem
  exact schema_of_schemaName hname.symm (hdirect a ha)

theorem bears_of_isTarget {steps : List Text} {t : Tag} (h : isTarget steps t = true)
    (hdirect : ∀ a ∈ t.chain.dropLast, operationParts.contains a.name = false) :
    bears steps t = true := by
  have hnames : t.chain.dropLast.map schemaName = t.chain.dropLast.map yname :=
    List.map_congr_left fun a ha ↦ schemaName_of_schema (schema_of_isTarget h hdirect a ha)
  rw [bears_iff, ← (isTarget_iff.mp h).2, hnames]
  exact (List.dropLast_prefix t.chain).map yname

theorem Unconfused.isTarget_of_bears {soup : List Tag} {steps : List Text}
    (h : Unconfused soup steps) {t : Tag} (ht : t ∈ soup) (hbears : bears steps t = true) :
    isTarget steps t = true := by
  have hnames : t.chain.dropLast.map schemaName = t.chain.dropLast.map yname :=
    List.map_congr_left fun a ha ↦ schemaName_of_schema (h.schema t ht hbears a ha)
  refine isTarget_iff.mpr ⟨h.data t ht hbears, ?_⟩
  rw [hnames, List.dropLast_eq_take, h.complete t ht hbears, Nat.add_sub_cancel, List.map_take,
    List.prefix_iff_eq_take.mp (bears_iff.mp hbears), List.length_map, List.length_reverse]

/-! ## Chains of annotations -/

theorem wrap_concat (step : Item → Text) (content : Xml) (stmts : List Item) (a : Item) :
    wrap step content (stmts ++ [a]) = annotateStatement (step a) (wrap step content stmts) := by
  rw [wrap, List.foldl_append]
  rfl

theorem annotateStatement_injective {path path' : Text} {content content' : Xml}
    (h : annotateStatement path content = annotateStatement path' content') :
    path = path' ∧ content = content' := by
  unfold annotateStatement element at h
  injection h with hitem hcontent
  injection hitem with hname hattrs
  injection hattrs with hattr
  injection hattr with hkey hpath
  exact ⟨hpath, hcontent⟩

/-- A chain says which statements it is for. -/
theorem map_step_of_wrap_eq {step step' : Item → Text} {content : Xml} {stmts stmts' : List Item}
    (hlen : stmts.length = stmts'.length)
    (h : wrap step content stmts = wrap step' content stmts') :
    stmts.map step = stmts'.map step' := by
  induction stmts using List.reverseRecOn generalizing stmts' with
  | nil =>
    rw [List.eq_nil_of_length_eq_zero hlen.symm]
    rfl
  | append_singleton stmts a ih =>
    rcases List.eq_nil_or_concat' stmts' with rfl | ⟨stmts', a', rfl⟩
    · rw [List.length_append, List.length_singleton] at hlen
      exact absurd hlen (Nat.succ_ne_zero _)
    · rw [List.length_append, List.length_append, List.length_singleton, List.length_singleton,
        Nat.add_right_cancel_iff] at hlen
      rw [wrap_concat, wrap_concat] at h
      obtain ⟨hstep, hrest⟩ := annotateStatement_injective h
      rw [List.map_append, List.map_append, ih hlen hrest, List.map_singleton, List.map_singleton,
        hstep]

theorem wrap_congr {step step' : Item → Text} {content : Xml} {stmts : List Item}
    (h : ∀ a ∈ stmts, step a = step' a) : wrap step content stmts = wrap step' content stmts := by
  induction stmts using List.reverseRecOn with
  | nil => rfl
  | append_singleton stmts a ih =>
    rw [wrap_concat, wrap_concat, ih fun b hb ↦ h b (List.mem_append_left _ hb),
      h a (List.mem_append_right _ List.mem_cons_self)]

theorem exists_wrap_eq {step : Item → Text} {content : Xml} {stmts : List Item}
    (h : stmts ≠ []) : ∃ path inner, wrap step content stmts = annotateStatement path inner := by
  rcases List.eq_nil_or_concat' stmts with rfl | ⟨stmts', a, rfl⟩
  · exact absurd rfl h
  · exact ⟨_, _, wrap_concat step content stmts' a⟩

/-! ## What is presented -/

/-- Conflicts hold the annotations that are in conflict. -/
theorem map_snd_tops_conflicts (f : Xml × ℕ → Attrs) (l : List (Xml × ℕ)) :
    ((concat (l.map fun x ↦ element "conflict" (f x) x.1)).tops).map Prod.snd =
      l.map Prod.fst := by
  induction l with
  | nil => rfl
  | cons x l ih =>
    rw [List.map_cons, List.map_cons, ← ih]
    rfl

theorem map_snd_tops_present (target : Text) (x y : Xml) (rest : List Xml) :
    ((present target (x :: y :: rest)).tops).map Prod.snd = x :: y :: rest := by
  unfold present
  rw [map_snd_tops_conflicts, List.zipIdx_map_fst]

/-- The name of the first element of a document. -/
def firstElement : Xml → Text
  | .nil => []
  | .node a _ _ => a.name

def firstOutcome : List Xml → Text
  | [] => "skipped".toList
  | [_] => "tailf:annotate-statement".toList
  | _ => "conflict".toList

/-- What is presented shows how much was found. -/
theorem firstElement_present {target : Text} {l : List Xml}
    (hl : ∀ x ∈ l, ∃ path inner, x = annotateStatement path inner) :
    firstElement (present target l) = firstOutcome l := by
  match l with
  | [] => rfl
  | [x] =>
    obtain ⟨path, inner, rfl⟩ := hl x List.mem_cons_self
    rfl
  | x :: y :: rest => rfl

theorem present_injective {target : Text} {l l' : List Xml}
    (hl : ∀ x ∈ l, ∃ path inner, x = annotateStatement path inner)
    (hl' : ∀ x ∈ l', ∃ path inner, x = annotateStatement path inner)
    (h : present target l = present target l') : l = l' := by
  have hfirst := congrArg firstElement h
  rw [firstElement_present hl, firstElement_present hl'] at hfirst
  have hskipped : "skipped".toList ≠ "tailf:annotate-statement".toList := by decide
  have hconflict : "skipped".toList ≠ "conflict".toList := by decide
  have hstatement : "tailf:annotate-statement".toList ≠ "conflict".toList := by decide
  match l, l' with
  | [], [] => rfl
  | [], [_] => exact absurd hfirst hskipped
  | [], _ :: _ :: _ => exact absurd hfirst hconflict
  | [_], [] => exact absurd hfirst hskipped.symm
  | [x], [y] => exact congrArg (fun z ↦ [z]) h
  | [_], _ :: _ :: _ => exact absurd hfirst hstatement
  | _ :: _ :: _, [] => exact absurd hfirst hconflict.symm
  | _ :: _ :: _, [_] => exact absurd hfirst hstatement.symm
  | x :: y :: rest, x' :: y' :: rest' =>
    rw [← map_snd_tops_present target x y rest, h, map_snd_tops_present]

/-! ## When the conversion is exact -/

/-- There are no annotations inside of the annotation. -/
def NoNested (content : Xml) : Prop := ∀ x ∈ content.tops, isAnnotate x.1.name = false

theorem convertContent_eq {soup : List Tag} {modulePrefix : Text} {content : Xml}
    (h : NoNested content) :
    convertContent soup modulePrefix content = some (plainContent content) := by
  induction content with
  | nil => rfl
  | node a c r _ ihr =>
    have hrest := ihr fun x hx ↦ h x (List.mem_cons_of_mem _ hx)
    have hname := h (a, c) List.mem_cons_self
    rcases a with text | ⟨name, attrs⟩
    · exact hrest
    · have hplain : ¬ isAnnotate name = true := by
        rw [Bool.not_eq_true]
        exact hname
      rw [convertContent, plainContent, if_neg hplain, if_neg hplain, hrest]
      rfl

/-- The conversion yields one chain for each data node at the target, and nothing else. -/
def ConvertsExactly (m : YinModule) (target : Target) (attrs : Attrs) (content : Xml) : Prop :=
  handleAnnotateNode (moduleSoup m) target.modulePrefix attrs content =
    some (present target.text (expected (moduleSoup m) target (plainContent content)))

section Exactly

variable {soup : List Tag} {steps : List Text} {content : Xml}

/-- The chains for the statements that bear the names. -/
def found (soup : List Tag) (steps : List Text) (content : Xml) : List Xml :=
  (soup.filter (bears steps)).map fun t ↦ wrap namedStep content (t.chain.take steps.length)

theorem length_take_of_bears {t : Tag} (h : bears steps t = true) :
    (t.chain.take steps.length).length = steps.length := by
  have hle := (bears_iff.mp h).length_le
  rw [List.length_map, List.length_reverse, List.length_map] at hle
  rw [List.length_take, Nat.min_eq_left hle]

theorem length_dropLast_of_isTarget {t : Tag} (h : isTarget steps t = true) :
    t.chain.dropLast.length = steps.length := by
  rw [List.length_dropLast, length_of_isTarget h, Nat.add_sub_cancel]

theorem Unconfused.found_eq {target : Target} (h : Unconfused soup target.steps) :
    found soup target.steps content = expected soup target content := by
  have hfilter : soup.filter (bears target.steps) = soup.filter (isTarget target.steps) := by
    refine List.filter_congr fun t ht ↦ ?_
    rw [Bool.eq_iff_iff]
    exact ⟨h.isTarget_of_bears ht, fun hyes ↦ bears_of_isTarget hyes (h.direct t ht hyes)⟩
  rw [found, hfilter, expected]
  refine List.map_congr_left fun t ht ↦ ?_
  obtain ⟨hmem, hyes⟩ := List.mem_filter.mp ht
  rw [List.dropLast_eq_take, length_of_isTarget hyes, Nat.add_sub_cancel]
  refine wrap_congr fun a ha ↦ ?_
  have hdirect := h.direct t hmem hyes a
    (by rwa [List.dropLast_eq_take, length_of_isTarget hyes, Nat.add_sub_cancel])
  rw [statementStep, hdirect, if_neg Bool.false_ne_true]

/-- A step by name is not the keyword of a part of an operation. -/
theorem namedStep_ne {a b : Item} (hb : operationParts.contains b.name = true) :
    namedStep a ≠ b.name := by
  have hbracket : '[' ∈ namedStep a := by
    rw [namedStep, statementPath]
    exact List.mem_append_left _ (List.mem_append_left _ (List.mem_append_right _ (by decide)))
  have hall : ∀ k ∈ operationParts, '[' ∉ k := by decide
  exact fun heq ↦ hall _ (List.contains_iff_mem.mp hb) (heq ▸ hbracket)

theorem direct_of_found_eq {target : Target}
    (h : found soup target.steps content = expected soup target content) {t : Tag} (ht : t ∈ soup)
    (hyes : isTarget target.steps t = true) :
    ∀ a ∈ t.chain.dropLast, operationParts.contains a.name = false := by
  intro a ha
  by_contra hpart
  rw [Bool.not_eq_false] at hpart
  have hmem : wrap statementStep content t.chain.dropLast ∈ found soup target.steps content :=
    h ▸ List.mem_map.mpr ⟨t, List.mem_filter.mpr ⟨ht, hyes⟩, rfl⟩
  obtain ⟨t', ht', hwrap⟩ := List.mem_map.mp hmem
  have hbears := (List.mem_filter.mp ht').2
  have hsteps := map_step_of_wrap_eq
    ((length_take_of_bears hbears).trans (length_dropLast_of_isTarget hyes).symm) hwrap
  have hstep : statementStep a ∈ (t'.chain.take target.steps.length).map namedStep :=
    hsteps ▸ List.mem_map_of_mem ha
  obtain ⟨b, -, hb⟩ := List.mem_map.mp hstep
  rw [statementStep, if_pos hpart] at hb
  exact namedStep_ne hpart hb

theorem unconfused_of_found_eq {target : Target}
    (h : found soup target.steps content = expected soup target content) :
    Unconfused soup target.steps := by
  have hdirect := fun t ht hyes ↦ direct_of_found_eq (t := t) h ht hyes
  have hsub : (soup.filter (isTarget target.steps)).Sublist (soup.filter (bears target.steps)) := by
    have htwice : soup.filter (isTarget target.steps) =
        (soup.filter (bears target.steps)).filter (isTarget target.steps) := by
      rw [List.filter_filter]
      refine List.filter_congr fun t ht ↦ ?_
      rw [Bool.eq_iff_iff, Bool.and_eq_true]
      exact ⟨fun hyes ↦ ⟨hyes, bears_of_isTarget hyes (hdirect t ht hyes)⟩, And.left⟩
    rw [htwice]
    exact List.filter_sublist
  have hlen : (soup.filter (isTarget target.steps)).length =
      (soup.filter (bears target.steps)).length := by
    have hlen := congrArg List.length h
    rw [found, expected, List.length_map, List.length_map] at hlen
    exact hlen.symm
  have hall : ∀ t ∈ soup, bears target.steps t = true → isTarget target.steps t = true := by
    intro t ht hbears
    have hmem : t ∈ soup.filter (isTarget target.steps) :=
      hsub.eq_of_length hlen ▸ List.mem_filter.mpr ⟨ht, hbears⟩
    exact (List.mem_filter.mp hmem).2
  exact
    { data := fun t ht hbears ↦ (isTarget_iff.mp (hall t ht hbears)).1
      schema := fun t ht hbears ↦
        schema_of_isTarget (hall t ht hbears) (hdirect t ht (hall t ht hbears))
      complete := fun t ht hbears ↦ length_of_isTarget (hall t ht hbears)
      direct := hdirect }

end Exactly

/-- **The conversion is exact** if and only if nothing else bears the names of the target, and no
data node at the target is part of an operation. -/
theorem converts_exactly_iff (m : YinModule) (target : Target) {attrs : Attrs} {content : Xml}
    (hplain : ∀ a ∈ (document m).labels, a.name ∉ special)
    (hattrs : attrs.lookup "target".toList = some target.text) (hnested : NoNested content) :
    ConvertsExactly m target attrs content ↔ Unconfused (moduleSoup m) target.steps := by
  have hsoup : ∀ t ∈ moduleSoup m, IsPlain t := by
    intro t ht a ha
    rcases chain_subset_of_mem_tags ht a ha with hup | hlabel
    · exact absurd hup List.not_mem_nil
    · exact hplain a hlabel
  have hconvert : handleAnnotateNode (moduleSoup m) target.modulePrefix attrs content =
      some (present target.text (found (moduleSoup m) target.steps (plainContent content))) := by
    rw [handleAnnotateNode, hattrs, Option.bind_eq_bind, Option.bind_some,
      convertContent_eq hnested, convert_eq hsoup]
    rfl
  have hne : target.steps.length ≠ 0 := by
    rw [Target.steps, List.length_append, List.length_singleton]
    exact Nat.succ_ne_zero _
  rw [ConvertsExactly, hconvert, Option.some.injEq]
  constructor
  · intro h
    refine unconfused_of_found_eq (present_injective ?_ ?_ h)
    · intro x hx
      obtain ⟨t, ht, rfl⟩ := List.mem_map.mp hx
      have hlen := length_take_of_bears (List.mem_filter.mp ht).2
      exact exists_wrap_eq fun hnil ↦ hne (by rw [← hlen, hnil, List.length_nil])
    · intro x hx
      obtain ⟨t, ht, rfl⟩ := List.mem_map.mp hx
      have hlen := length_dropLast_of_isTarget (List.mem_filter.mp ht).2
      exact exists_wrap_eq fun hnil ↦ hne (by rw [← hlen, hnil, List.length_nil])
  · intro h
    rw [h.found_eq]

/-! ## A container inside of another one

The leaf of the inner container has the path `/p:a/p:b/p:x`, and it is found there. It is also found
at `/p:b/p:x`, where there is nothing. -/

def nestedContainers : YinModule where
  isSubmodule := false
  attrs := [("name".toList, "m".toList)]
  body := concat
    [element "namespace" [("uri".toList, "urn:m".toList)] .nil,
      element "prefix" [("value".toList, "p".toList)] .nil,
      element "container" [("name".toList, "a".toList)]
        (element "container" [("name".toList, "b".toList)]
          (element "leaf" [("name".toList, "x".toList)]
            (element "type" [("name".toList, "string".toList)] .nil)))]

def innerPath : Target where
  modulePrefix := "p".toList
  above := ["a".toList, "b".toList]
  last := "x".toList
  isIdentifier := by unfold IsIdentifier; decide

def partialPath : Target where
  modulePrefix := "p".toList
  above := ["b".toList]
  last := "x".toList
  isIdentifier := by unfold IsIdentifier; decide

def info : Xml := element "tailf:info" [] .nil

theorem converts_innerPath :
    ConvertsExactly nestedContainers innerPath [("target".toList, innerPath.text)] info := by
  refine (converts_exactly_iff nestedContainers innerPath ?_ rfl ?_).mpr ?_
  · decide +kernel
  · unfold NoNested
    decide
  · refine ⟨?_, ?_, ?_, ?_⟩
    · decide +kernel
    · decide +kernel
    · decide +kernel
    · decide +kernel

theorem not_converts_partialPath :
    ¬ ConvertsExactly nestedContainers partialPath [("target".toList, partialPath.text)] info := by
  unfold ConvertsExactly
  decide +kernel

end ConfdDemos.Ann2Ann
