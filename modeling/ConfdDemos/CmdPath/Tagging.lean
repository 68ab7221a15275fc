import ConfdDemos.CmdPath.Masking
import ConfdDemos.Foundation.Adorn
import ConfdDemos.Foundation.Decimal

/-!
# Tagging the statements of a module

`tailf_info_path` appends `tailf:meta-data` statements to a module, so that a command line can be
traced back to the statement it comes from: every leaf, leaf-list and presence container gets a
number of its own. A tag is appended to the statement that it is for, except for a key, whose tag
goes to the list with the name of the key in it. Whether a statement is a key is decided by
searching its name in the keys of the list.

The script walks over the document while it changes it. A tag is put behind everything that is
there, so that no statement moves, and it has no statement in it that is searched for later. So all
tags can be told from the module as it was before the first of them, `tailfInfoPath_eq`, and they
can be read off the result one by one.

## What is left out

`pyang`, which translates between YANG and YIN, and the parser and printer of the document are taken
to lose nothing, and `CONFD_DIR` is set. What is done to the words of the document after it has been
printed is in `Masking`.
-/

namespace ConfdDemos.CmdPath

open AnnStmt Forest

def named (name : String) (a : Item) : Bool := a.name == name.toList

def attr (key : String) (a : Item) : Option Text := a.attrs.lookup key.toList

/-! ## The script -/

def newMdStmt (md : Text) (mv : Option Text) : Piece Item :=
  let newValueStmt := element "tailf_prefix_value" [] (.node (.text md) .nil .nil)
  let newMvStmt := mv.map fun mv ↦ element "tailf_prefix_meta-value" [("value".toList, mv)] .nil
  (.element "tailf_prefix_meta-data".toList [], concat (newValueStmt :: newMvStmt.toList))

def appendMdVal (soup : Xml) (nodeStmt : List ℕ) (md : Text) (mv : Option Text) : Xml :=
  soup.graft nodeStmt (ofPieces [newMdStmt md mv])

/-- The document is not below anything. An attribute that is not there ends the script. -/
def appendMd (soup : Xml) (nodeStmt : List ℕ) (md : Text) (mv : Option Text) : Option Xml :=
  match nodeStmt with
  | [] => some (appendMdVal soup [] md mv)
  | _ :: parent =>
    if (soup.label? parent).any (named "list") then
      match (soup.elder nodeStmt).reverse.find? (named "key") with
      | some keyStmt => do
        let yname ← (soup.label? nodeStmt).bind (attr "yname")
        let value ← attr "value" keyStmt
        if yname <:+: value then
          match mv with
          | none => some (appendMdVal soup parent md (some yname))
          | some mv => some (appendMdVal soup parent md (some (yname ++ ':' :: mv)))
        else some (appendMdVal soup nodeStmt md mv)
      | none => some (appendMdVal soup nodeStmt md mv)
    else some (appendMdVal soup nodeStmt md mv)

/-- The first prefix of the document. One in a meta-data statement has lost its attributes when it
is asked for them. -/
def findPrefix (decomposed : Bool) : Xml → Option (Option Item)
  | .nil => none
  | .node a c r =>
    if named "prefix" a then some (if decomposed then none else some a)
    else
      (findPrefix (decomposed || named "tailf_prefix_metadata" a) c).or (findPrefix decomposed r)

def idText (value : Text) (id : ℕ) : Text := "ID ".toList ++ value ++ ':' :: Nat.toDigits 10 id

/-- The bodies of the loops over the extensions. The name of an extension is the tag. -/
def appendAltName (soup : Xml) (tailfAltExt : List ℕ) : Option Xml := do
  let yname ← (soup.label? tailfAltExt).bind (attr "yname")
  appendMd soup tailfAltExt.tail "tailf_prefix_alt_name".toList (some yname)

def appendExtension (name : String) (soup : Xml) (tailfExt : List ℕ) : Option Xml :=
  appendMd soup tailfExt.tail name.toList none

/-- The next number for a statement. -/
def appendId (nsPrefix : Option Item) (st : Xml × ℕ) (stmt : List ℕ) : Option (Xml × ℕ) := do
  let value ← nsPrefix.bind (attr "value")
  let soup ← appendMd st.1 stmt (idText value st.2) none
  some (soup, st.2 + 1)

def hasPresence (soup : Xml) (containerStmt : List ℕ) : Bool :=
  (soup.under containerStmt).tops.any fun x ↦ named "presence" x.1

def appendExtensions (yinSoup : Xml) : Option Xml := do
  let yinSoup ← (yinSoup.findAll (named "tailf_prefix_alt_name")).foldlM appendAltName yinSoup
  let yinSoup ← (yinSoup.findAll (named "tailf_prefix_cli_drop_node_name")).foldlM
    (appendExtension "tailf_prefix_cli_drop_node_name") yinSoup
  (yinSoup.findAll (named "tailf_prefix_cli_expose_key_name")).foldlM
    (appendExtension "tailf_prefix_cli_expose_key_name") yinSoup

def appendIds (nsPrefix : Option Item) (yinSoup : Xml) : Option (Xml × ℕ) := do
  let st ← (yinSoup.findAll (named "leaf")).foldlM (appendId nsPrefix) (yinSoup, 0)
  let st ← (st.1.findAll (named "leaflist")).foldlM (appendId nsPrefix) st
  (st.1.findAll (named "container")).foldlM (fun st stmt ↦
    if hasPresence st.1 stmt then appendId nsPrefix st stmt else some st) st

/-- The document as it is printed, before the words in it are replaced back. -/
def tailfInfoPath (yinContent : Xml) : Option Xml := do
  let yinSoup := yinContent.map (Item.substitute mask)
  let nsPrefix := (findPrefix false yinSoup).join
  let yinSoup ← appendExtensions (yinSoup.cut (named "tailf_prefix_metadata"))
  let st ← appendIds nsPrefix yinSoup
  some st.1

/-! ## The tags of a module -/

section Base

variable (base : Xml)

/-- Where a tag for a statement goes, and what is written with it. -/
def owner (nodeStmt : List ℕ) (mv : Option Text) : Option (List ℕ × Option Text) :=
  if (base.label? nodeStmt.tail).any (named "list") then
    match (base.elder nodeStmt).reverse.find? (named "key") with
    | some keyStmt => do
      let yname ← (base.label? nodeStmt).bind (attr "yname")
      let value ← attr "value" keyStmt
      if yname <:+: value then
        some (nodeStmt.tail, some (yname ++ (mv.map (':' :: ·)).getD []))
      else some (nodeStmt, mv)
    | none => some (nodeStmt, mv)
  else some (nodeStmt, mv)

def tagFor (nodeStmt : List ℕ) (md : Text) (mv : Option Text) : Option (List ℕ × Piece Item) :=
  (owner base nodeStmt mv).map fun x ↦ (x.1, newMdStmt md x.2)

/-- The statements that get a number, in the order of the numbers. -/
def numbered : List (List ℕ) :=
  base.findAll (named "leaf") ++ base.findAll (named "leaflist") ++
    (base.findAll (named "container")).filter (hasPresence base)

def altTag (ext : List ℕ) : Option (List ℕ × Piece Item) := do
  let yname ← (base.label? ext).bind (attr "yname")
  tagFor base ext.tail "tailf_prefix_alt_name".toList (some yname)

def extensionTag (name : String) (ext : List ℕ) : Option (List ℕ × Piece Item) :=
  tagFor base ext.tail name.toList none

def extensionTags : Option (List (List ℕ × Piece Item)) := do
  let alt ← (base.findAll (named "tailf_prefix_alt_name")).mapM (altTag base)
  let drop ← (base.findAll (named "tailf_prefix_cli_drop_node_name")).mapM
    (extensionTag base "tailf_prefix_cli_drop_node_name")
  let expose ← (base.findAll (named "tailf_prefix_cli_expose_key_name")).mapM
    (extensionTag base "tailf_prefix_cli_expose_key_name")
  some (alt ++ drop ++ expose)

def idTag (nsPrefix : Option Item) (x : List ℕ × ℕ) : Option (List ℕ × Piece Item) := do
  let value ← nsPrefix.bind (attr "value")
  tagFor base x.1 (idText value x.2) none

def idTags (nsPrefix : Option Item) : Option (List (List ℕ × Piece Item)) :=
  (numbered base).zipIdx.mapM (idTag base nsPrefix)

end Base

/-! ## Nothing that is searched for is added -/

/-- What the tags are put into. -/
def untagged (yinContent : Xml) : Xml :=
  (yinContent.map (Item.substitute mask)).cut (named "tailf_prefix_metadata")

/-- No tag has a statement of that name in it. -/
def Foreign (name : String) : Prop :=
  ∀ md mv, ∀ a ∈ (newMdStmt md mv).1 :: (newMdStmt md mv).2.labels, named name a = false

theorem foreign_of_notMem {name : String} (hname : name.toList ∉ ["tailf_prefix_meta-data".toList,
    "tailf_prefix_value".toList, "tailf_prefix_meta-value".toList, []]) : Foreign name := by
  intro md mv a ha
  have hmem : a.name ∈ ["tailf_prefix_meta-data".toList, "tailf_prefix_value".toList,
      "tailf_prefix_meta-value".toList, []] := by
    rcases mv with - | mv
    · have hcases : a = .element "tailf_prefix_meta-data".toList [] ∨
          a = .element "tailf_prefix_value".toList [] ∨ a = .text md := by
        simpa [newMdStmt, element, concat, Forest.append, Forest.labels] using ha
      rcases hcases with rfl | rfl | rfl
      · exact List.mem_cons_self
      · simp [Item.name]
      · simp [Item.name]
    · have hcases : a = .element "tailf_prefix_meta-data".toList [] ∨
          a = .element "tailf_prefix_value".toList [] ∨ a = .text md ∨
          a = .element "tailf_prefix_meta-value".toList [("value".toList, mv)] := by
        simpa [newMdStmt, element, concat, Forest.append, Forest.labels] using ha
      rcases hcases with rfl | rfl | rfl | rfl
      · exact List.mem_cons_self
      · simp [Item.name]
      · simp [Item.name]
      · simp [Item.name]
  rw [named, beq_eq_false_iff_ne]
  exact fun heq ↦ hname (heq ▸ hmem)

/-- Pieces that are tags, put below places that the document has. -/
def AreTags (base : Xml) (l : List (List ℕ × Piece Item)) : Prop :=
  ∀ x ∈ l, base.IsPlace x.1 ∧ ∃ md mv, x.2 = newMdStmt md mv

variable {base : Xml} {l : List (List ℕ × Piece Item)} {name : String}

theorem AreTags.labels (hl : AreTags base l) (hname : Foreign name) (p : List ℕ) :
    ∀ a ∈ (behind l p).labels, named name a = false := by
  refine labels_behind (fun x hx ↦ ?_) p
  obtain ⟨-, md, mv, htag⟩ := hl x hx
  rw [htag]
  exact hname md mv

theorem AreTags.findAll (hl : AreTags base l) (hname : Foreign name) :
    (base.adorn (behind l)).findAll (named name) = base.findAll (named name) :=
  findAll_adorn (hl.labels hname)

theorem foreign_presence : Foreign "presence" := foreign_of_notMem (by decide)

theorem AreTags.hasPresence (hl : AreTags base l) {p : List ℕ} (hp : base.IsPlace p) :
    hasPresence (base.adorn (behind l)) p = hasPresence base p := by
  have hnew : ((behind l p).tops.map Prod.fst).any (named "presence") = false :=
    List.any_eq_false.mpr fun a ha ↦ by
      rw [hl.labels foreign_presence p a (map_tops_subset_labels _ ha)]
      exact Bool.false_ne_true
  have htops : ∀ f : Xml, (f.tops.any fun x ↦ named "presence" x.1) =
      (f.tops.map Prod.fst).any (named "presence") := fun f ↦ by rw [List.any_map]; rfl
  rw [CmdPath.hasPresence, CmdPath.hasPresence, htops, htops, under_adorn hp, tops_append,
    List.map_append, List.any_append, hnew, Bool.or_false, map_tops_decorate]

/-! ## One tag -/

theorem appendMd_eq_owner (soup : Xml) (p : List ℕ) (md : Text) (mv : Option Text) :
    appendMd soup p md mv = (owner soup p mv).map fun x ↦ appendMdVal soup x.1 md x.2 := by
  rcases p with - | ⟨i, p⟩
  · rfl
  · rw [appendMd, owner, List.tail_cons]
    split_ifs
    · rcases (soup.elder (i :: p)).reverse.find? (named "key") with - | keyStmt
      · rfl
      · rcases (soup.label? (i :: p)).bind (attr "yname") with - | yname
        · rfl
        · rcases hvalue : attr "value" keyStmt with - | value
          · simp [hvalue]
          · simp only [hvalue, Option.bind_eq_bind, Option.bind_some]
            split_ifs
            · rcases mv with - | mv
              · simp
              · simp
            · rfl
    · rfl

theorem owner_adorn (g : List ℕ → Xml) {p : List ℕ} (hp : base.IsPlace p) (mv : Option Text) :
    owner (base.adorn g) p mv = owner base p mv := by
  rw [owner, owner, label?_adorn_of_isPlace hp, label?_adorn_of_isPlace hp.parent, elder_adorn hp]

theorem isPlace_owner {p : List ℕ} (hp : base.IsPlace p) {mv : Option Text}
    {x : List ℕ × Option Text} (h : owner base p mv = some x) : base.IsPlace x.1 := by
  rw [owner] at h
  split_ifs at h with hlist
  · split at h
    · simp only [Option.bind_eq_bind, Option.bind_eq_some_iff] at h
      obtain ⟨yname, -, value, -, h⟩ := h
      split_ifs at h
      · rw [← Option.some.inj h]
        exact hp.parent
      · rw [← Option.some.inj h]
        exact hp
    · rw [← Option.some.inj h]
      exact hp
  · rw [← Option.some.inj h]
    exact hp

/-- A tag that is appended is the one that the module without tags says. -/
theorem appendMd_adorn (l : List (List ℕ × Piece Item)) {p : List ℕ} (hp : base.IsPlace p)
    (md : Text) (mv : Option Text) : appendMd (base.adorn (behind l)) p md mv =
      (tagFor base p md mv).map fun x ↦ base.adorn (behind (l ++ [x])) := by
  rw [appendMd_eq_owner, owner_adorn _ hp, tagFor, Option.map_map]
  refine Option.map_congr fun x hx ↦ ?_
  exact graft_adorn l (x.1, newMdStmt md x.2) (isPlace_owner hp (Option.mem_def.mp hx))

/-! ## Loops -/

theorem AreTags.append {l' : List (List ℕ × Piece Item)} (hl : AreTags base l)
    (hl' : AreTags base l') : AreTags base (l ++ l') := fun x hx ↦
  (List.mem_append.mp hx).elim (hl x) (hl' x)

theorem areTags_of_tagFor {p : List ℕ} (hp : base.IsPlace p) {md : Text} {mv : Option Text}
    {x : List ℕ × Piece Item} (h : tagFor base p md mv = some x) : AreTags base [x] := by
  obtain ⟨⟨q, mv'⟩, howner, rfl⟩ := Option.map_eq_some_iff.mp h
  intro y hy
  obtain rfl := List.mem_singleton.mp hy
  exact ⟨isPlace_owner hp howner, md, mv', rfl⟩

theorem exists_of_mem_mapM {β γ : Type} {ps : List β} {tag : β → Option γ} {l : List γ}
    (h : ps.mapM tag = some l) {x : γ} (hx : x ∈ l) : ∃ p ∈ ps, tag p = some x := by
  induction ps generalizing l with
  | nil =>
    obtain rfl : [] = l := by simpa using h
    exact absurd hx List.not_mem_nil
  | cons p ps ih =>
    simp only [List.mapM_cons, Option.bind_eq_bind, Option.bind_eq_some_iff] at h
    obtain ⟨y, hy, l', hl', h⟩ := h
    rw [← Option.some.inj h] at hx
    rcases List.mem_cons.mp hx with rfl | hx
    · exact ⟨p, List.mem_cons_self, hy⟩
    · obtain ⟨q, hq, hxq⟩ := ih hl' hx
      exact ⟨q, List.mem_cons_of_mem _ hq, hxq⟩

theorem areTags_of_mapM {β : Type} {ps : List β} {tag : β → Option (List ℕ × Piece Item)}
    (htag : ∀ p ∈ ps, ∀ x, tag p = some x → AreTags base [x]) (h : ps.mapM tag = some l) :
    AreTags base l := by
  intro x hx
  obtain ⟨p, hp, hxp⟩ := exists_of_mem_mapM h hx
  exact htag p hp x hxp x List.mem_cons_self

/-- A loop that appends one tag in every step. -/
theorem foldlM_adorn {step : Xml → List ℕ → Option Xml}
    {tag : List ℕ → Option (List ℕ × Piece Item)} {ps : List (List ℕ)}
    (hstep : ∀ p ∈ ps, ∀ l, step (base.adorn (behind l)) p =
      (tag p).map fun x ↦ base.adorn (behind (l ++ [x])))
    (l : List (List ℕ × Piece Item)) :
    ps.foldlM step (base.adorn (behind l)) =
      (ps.mapM tag).map fun l' ↦ base.adorn (behind (l ++ l')) := by
  induction ps generalizing l with
  | nil => simp
  | cons p ps ih =>
    rw [List.foldlM_cons, List.mapM_cons, hstep p List.mem_cons_self]
    rcases tag p with - | x
    · rfl
    · have hrest := ih (fun q hq ↦ hstep q (List.mem_cons_of_mem _ hq)) (l ++ [x])
      rcases hmap : ps.mapM tag with - | l'
      · simpa [hmap] using hrest
      · simpa [hmap, List.append_assoc] using hrest

theorem foldlM_appendId (nsPrefix : Option Item) {ps : List (List ℕ)}
    (hps : ∀ p ∈ ps, base.IsPlace p) (l : List (List ℕ × Piece Item)) (k : ℕ) :
    ps.foldlM (appendId nsPrefix) (base.adorn (behind l), k) =
      ((ps.zipIdx k).mapM (idTag base nsPrefix)).map fun l' ↦
        (base.adorn (behind (l ++ l')), k + ps.length) := by
  induction ps generalizing l k with
  | nil => simp
  | cons p ps ih =>
    have hstep : appendId nsPrefix (base.adorn (behind l), k) p =
        (idTag base nsPrefix (p, k)).map fun x ↦ (base.adorn (behind (l ++ [x])), k + 1) := by
      rw [appendId, idTag]
      rcases nsPrefix.bind (attr "value") with - | value
      · rfl
      · simp only [appendMd_adorn l (hps p List.mem_cons_self), Option.bind_eq_bind,
          Option.bind_some]
        rcases tagFor base p (idText value k) none with - | x
        · rfl
        · rfl
    rw [List.foldlM_cons, List.zipIdx_cons, List.mapM_cons, hstep]
    rcases idTag base nsPrefix (p, k) with - | x
    · rfl
    · have hrest := ih (fun q hq ↦ hps q (List.mem_cons_of_mem _ hq)) (l ++ [x]) (k + 1)
      rcases hmap : (ps.zipIdx (k + 1)).mapM (idTag base nsPrefix) with - | l'
      · simpa [hmap] using hrest
      · simpa [hmap, List.append_assoc, Nat.add_assoc, Nat.add_comm 1] using hrest

theorem areTags_of_idTag {nsPrefix : Option Item} {x : List ℕ × ℕ} (hx : base.IsPlace x.1)
    {y : List ℕ × Piece Item} (h : idTag base nsPrefix x = some y) : AreTags base [y] := by
  simp only [idTag, Option.bind_eq_bind, Option.bind_eq_some_iff] at h
  obtain ⟨value, -, htag⟩ := h
  exact areTags_of_tagFor hx htag

theorem areTags_of_appendId {nsPrefix : Option Item} {p : List ℕ} (hp : base.IsPlace p)
    (hl : AreTags base l) {k : ℕ} {st : Xml × ℕ}
    (h : appendId nsPrefix (base.adorn (behind l), k) p = some st) :
    ∃ l', AreTags base l' ∧ st = (base.adorn (behind l'), k + 1) := by
  simp only [appendId, appendMd_adorn l hp, Option.bind_eq_bind, Option.bind_eq_some_iff,
    Option.map_eq_some_iff] at h
  obtain ⟨value, -, soup, ⟨x, hx, rfl⟩, h⟩ := h
  exact ⟨l ++ [x], hl.append (areTags_of_tagFor hp hx), (Option.some.inj h).symm⟩

/-- A container is asked for its presence while the tags are appended. -/
theorem foldlM_presence (nsPrefix : Option Item) {ps : List (List ℕ)}
    (hps : ∀ p ∈ ps, base.IsPlace p) (hl : AreTags base l) (k : ℕ) :
    ps.foldlM (fun st stmt ↦
        if hasPresence st.1 stmt then appendId nsPrefix st stmt else some st)
        (base.adorn (behind l), k) =
      (ps.filter (hasPresence base)).foldlM (appendId nsPrefix) (base.adorn (behind l), k) := by
  induction ps generalizing l k with
  | nil => rfl
  | cons p ps ih =>
    have hp := hps p List.mem_cons_self
    have hrest := fun q hq ↦ hps q (List.mem_cons_of_mem _ hq)
    rw [List.foldlM_cons, hl.hasPresence hp]
    by_cases hpresence : hasPresence base p = true
    · rw [if_pos hpresence, List.filter_cons_of_pos hpresence, List.foldlM_cons]
      rcases hst : appendId nsPrefix (base.adorn (behind l), k) p with - | st
      · rfl
      · obtain ⟨l', hl', rfl⟩ := areTags_of_appendId hp hl hst
        exact ih hrest hl' (k + 1)
    · rw [if_neg hpresence, List.filter_cons_of_neg hpresence]
      exact ih hrest hl k

/-! ## The result -/

theorem isPlace_numbered {p : List ℕ} (h : p ∈ numbered base) : base.IsPlace p := by
  rw [numbered, List.mem_append, List.mem_append] at h
  rcases h with (h | h) | h
  · exact isPlace_of_mem_findAll h
  · exact isPlace_of_mem_findAll h
  · exact isPlace_of_mem_findAll (List.mem_filter.mp h).1

theorem nodup_numbered (base : Xml) : (numbered base).Nodup := by
  have hne {n m : String} (hnm : n.toList ≠ m.toList) {p : List ℕ}
      (hn : p ∈ base.findAll (named n)) : p ∉ base.findAll (named m) := by
    intro hm
    obtain ⟨a, ha, hna⟩ := mem_findAll_iff.mp hn
    obtain ⟨b, hb, hmb⟩ := mem_findAll_iff.mp hm
    obtain rfl : a = b := Option.some.inj (ha.symm.trans hb)
    exact hnm ((beq_iff_eq.mp hna).symm.trans (beq_iff_eq.mp hmb))
  rw [numbered, List.nodup_append, List.nodup_append]
  refine ⟨⟨nodup_findAll _ _, nodup_findAll _ _, ?_⟩, (nodup_findAll _ _).filter _, ?_⟩
  · rintro p hp q hq rfl
    exact hne (by decide) hp hq
  · rintro p hp q hq rfl
    obtain ⟨hq, -⟩ := List.mem_filter.mp hq
    rcases List.mem_append.mp hp with hp | hp
    · exact hne (by decide) hp hq
    · exact hne (by decide) hp hq

theorem foldlM_altName (base : Xml) (l : List (List ℕ × Piece Item)) :
    (base.findAll (named "tailf_prefix_alt_name")).foldlM appendAltName (base.adorn (behind l)) =
      ((base.findAll (named "tailf_prefix_alt_name")).mapM (altTag base)).map fun l' ↦
        base.adorn (behind (l ++ l')) := by
  refine foldlM_adorn (fun p hp l ↦ ?_) l
  have hplace := isPlace_of_mem_findAll hp
  rw [appendAltName, altTag, label?_adorn_of_isPlace hplace]
  rcases (base.label? p).bind (attr "yname") with - | yname
  · rfl
  · exact appendMd_adorn l hplace.parent _ _

theorem foldlM_extension (base : Xml) (name : String) (l : List (List ℕ × Piece Item)) :
    (base.findAll (named name)).foldlM (appendExtension name) (base.adorn (behind l)) =
      ((base.findAll (named name)).mapM (extensionTag base name)).map fun l' ↦
        base.adorn (behind (l ++ l')) :=
  foldlM_adorn (fun _ hp l ↦ appendMd_adorn l (isPlace_of_mem_findAll hp).parent _ _) l

theorem areTags_altTag (h : (base.findAll (named "tailf_prefix_alt_name")).mapM (altTag base) =
    some l) : AreTags base l := by
  refine areTags_of_mapM (fun p hp x hx ↦ ?_) h
  simp only [altTag, Option.bind_eq_bind, Option.bind_eq_some_iff] at hx
  obtain ⟨yname, -, hx⟩ := hx
  exact areTags_of_tagFor (isPlace_of_mem_findAll hp).parent hx

theorem areTags_extensionTag (h : (base.findAll (named name)).mapM (extensionTag base name) =
    some l) : AreTags base l :=
  areTags_of_mapM (fun _ hp _ hx ↦
    areTags_of_tagFor (isPlace_of_mem_findAll hp).parent hx) h

theorem areTags_extensionTags (h : extensionTags base = some l) : AreTags base l := by
  simp only [extensionTags, Option.bind_eq_bind, Option.bind_eq_some_iff] at h
  obtain ⟨alt, halt, drop, hdrop, expose, hexpose, h⟩ := h
  rw [← Option.some.inj h]
  exact ((areTags_altTag halt).append (areTags_extensionTag hdrop)).append
    (areTags_extensionTag hexpose)

theorem areTags_idTags {nsPrefix : Option Item} (h : idTags base nsPrefix = some l) :
    AreTags base l := by
  refine areTags_of_mapM (fun x hx y hy ↦ areTags_of_idTag (isPlace_numbered ?_) hy) h
  obtain ⟨-, -, hx⟩ := List.mem_zipIdx hx
  rw [hx]
  exact List.getElem_mem _

theorem appendExtensions_eq (base : Xml) :
    appendExtensions base = (extensionTags base).map fun l ↦ base.adorn (behind l) := by
  have halt := foldlM_altName base []
  rw [behind_nil, adorn_nil] at halt
  rw [appendExtensions, halt, extensionTags]
  rcases hall : (base.findAll (named "tailf_prefix_alt_name")).mapM (altTag base) with - | alt
  · rfl
  · have htags := areTags_altTag hall
    have hdrop : Foreign "tailf_prefix_cli_drop_node_name" := foreign_of_notMem (by decide)
    simp only [Option.map_some, Option.bind_eq_bind, Option.bind_some, List.nil_append]
    rw [htags.findAll hdrop, foldlM_extension]
    rcases hall : (base.findAll (named "tailf_prefix_cli_drop_node_name")).mapM
        (extensionTag base "tailf_prefix_cli_drop_node_name") with - | drop
    · rfl
    · have htags := htags.append (areTags_extensionTag hall)
      have hexpose : Foreign "tailf_prefix_cli_expose_key_name" :=
        foreign_of_notMem (by decide)
      simp only [Option.map_some, Option.bind_some]
      rw [htags.findAll hexpose, foldlM_extension]
      rcases (base.findAll (named "tailf_prefix_cli_expose_key_name")).mapM
          (extensionTag base "tailf_prefix_cli_expose_key_name") with - | expose
      · rfl
      · rfl

theorem exists_areTags_of_foldlM {nsPrefix : Option Item} {ps : List (List ℕ)}
    (hps : ∀ p ∈ ps, base.IsPlace p) (hl : AreTags base l) {k : ℕ} {st : Xml × ℕ}
    (h : ps.foldlM (appendId nsPrefix) (base.adorn (behind l), k) = some st) :
    ∃ l' k', AreTags base l' ∧ st = (base.adorn (behind l'), k') := by
  rw [foldlM_appendId nsPrefix hps, Option.map_eq_some_iff] at h
  obtain ⟨l', hl', rfl⟩ := h
  refine ⟨l ++ l', k + ps.length, hl.append (areTags_of_mapM (fun x hx y hy ↦ ?_) hl'), rfl⟩
  refine areTags_of_idTag (hps x.1 ?_) hy
  obtain ⟨-, -, hx⟩ := List.mem_zipIdx hx
  rw [hx]
  exact List.getElem_mem _

theorem appendIds_adorn (nsPrefix : Option Item) (hl : AreTags base l) :
    appendIds nsPrefix (base.adorn (behind l)) =
      (idTags base nsPrefix).map fun l' ↦
        (base.adorn (behind (l ++ l')), (numbered base).length) := by
  have hplaces {q : Item → Bool} : ∀ p ∈ base.findAll q, base.IsPlace p :=
    fun p hp ↦ isPlace_of_mem_findAll hp
  have hnumbered : ∀ p ∈ numbered base, base.IsPlace p := fun p hp ↦ isPlace_numbered hp
  have hleaf : Foreign "leaf" := foreign_of_notMem (by decide)
  have hleaflist : Foreign "leaflist" := foreign_of_notMem (by decide)
  have hcontainer : Foreign "container" := foreign_of_notMem (by decide)
  -- the three loops are one over all of the statements
  have hone := foldlM_appendId nsPrefix hnumbered l 0
  rw [Nat.zero_add] at hone
  rw [appendIds, idTags, ← hone, numbered, List.foldlM_append, List.foldlM_append, hl.findAll hleaf]
  rcases hst : (base.findAll (named "leaf")).foldlM (appendId nsPrefix)
      (base.adorn (behind l), 0) with - | st
  · rfl
  · obtain ⟨l₁, k₁, hl₁, rfl⟩ := exists_areTags_of_foldlM hplaces hl hst
    simp only [Option.bind_eq_bind, Option.bind_some]
    rw [hl₁.findAll hleaflist]
    rcases hst : (base.findAll (named "leaflist")).foldlM (appendId nsPrefix)
        (base.adorn (behind l₁), k₁) with - | st
    · rfl
    · obtain ⟨l₂, k₂, hl₂, rfl⟩ := exists_areTags_of_foldlM hplaces hl₁ hst
      simp only [Option.bind_some]
      rw [hl₂.findAll hcontainer]
      exact foldlM_presence nsPrefix hplaces hl₂ k₂

/-- The prefix that stands in the numbers. -/
def prefixOf (yinContent : Xml) : Option Item :=
  (findPrefix false (yinContent.map (Item.substitute mask))).join

/-- What the numbers of a module begin with. -/
def idValue (nsPrefix : Option Item) : Text := (nsPrefix.bind (attr "value")).getD []

/-- All tags of a module. -/
def tagsOf (yinContent : Xml) : Option (List (List ℕ × Piece Item)) := do
  let exts ← extensionTags (untagged yinContent)
  let ids ← idTags (untagged yinContent) (prefixOf yinContent)
  some (exts ++ ids)

/-- **The tags can be told from the module as it was.** -/
theorem tailfInfoPath_eq (yinContent : Xml) : tailfInfoPath yinContent =
    (tagsOf yinContent).map fun l ↦ (untagged yinContent).adorn (behind l) := by
  have hexts := appendExtensions_eq (untagged yinContent)
  rw [untagged] at hexts
  rw [tailfInfoPath, tagsOf, untagged, hexts]
  rcases hall : extensionTags (untagged yinContent) with - | exts
  · rw [untagged] at hall
    rw [hall]
    rfl
  · have hids := appendIds_adorn (prefixOf yinContent) (areTags_extensionTags hall)
    rw [untagged] at hall hids
    simp only [hall, Option.map_some, Option.bind_eq_bind, Option.bind_some]
    rw [← prefixOf, hids]
    rcases idTags _ (prefixOf yinContent) with - | ids
    · rfl
    · rfl

/-! ## Reading the tags off -/

/-- A replacement leaves its word behind, unless there was nothing to replace. -/
theorem replaceFrom_cases {old : Text} (hold : old ≠ []) (new t : Text) :
    new <:+: replaceFrom old new 0 t ∨ replaceFrom old new 0 t = t ∧ ¬old <:+: t := by
  induction t with
  | nil => exact Or.inr ⟨rfl, fun h ↦ hold (List.infix_nil.mp h)⟩
  | cons c t ih =>
    rw [replaceFrom]
    split_ifs with hpre
    · exact Or.inl (List.prefix_append new _).isInfix
    · rcases ih with h | ⟨heq, hnot⟩
      · exact Or.inl (List.infix_cons h)
      · rw [heq]
        rw [List.isPrefixOf_iff_prefix] at hpre
        exact Or.inr ⟨rfl, fun h ↦ (List.infix_cons_iff.mp h).elim hpre hnot⟩

theorem of_replace_eq {t u : Text} {old new : String} (h : replace t old new = u)
    (hold : old.toList ≠ []) (hnew : ¬new.toList <:+: u) : t = u ∧ ¬old.toList <:+: t := by
  rcases replaceFrom_cases hold new.toList t with hinfix | ⟨heq, hnot⟩
  · rw [← h, replace] at hnew
    exact absurd hinfix hnew
  · exact ⟨heq.symm.trans h, hnot⟩

theorem mask_ne (t : Text) : mask t ≠ "tailf_prefix_meta-data".toList := by
  intro h
  obtain ⟨h, -⟩ := of_replace_eq h (by decide) (by decide)
  obtain ⟨h, -⟩ := of_replace_eq h (by decide) (by decide)
  obtain ⟨h, -⟩ := of_replace_eq h (by decide) (by decide)
  obtain ⟨h, -⟩ := of_replace_eq h (by decide) (by decide)
  obtain ⟨h, hnot⟩ := of_replace_eq h (by decide) (by decide)
  rw [h] at hnot
  exact hnot List.infix_rfl

/-- The name of the tags is masked in the module. -/
theorem untagged_has_metaData (yinContent : Xml) :
    (untagged yinContent).has (named "tailf_prefix_meta-data") = false := by
  rw [has_eq_any, List.any_eq_false]
  intro a ha
  have ha := mem_labels_of_cut ha
  rw [labels_map] at ha
  obtain ⟨b, -, rfl⟩ := List.mem_map.mp ha
  rw [named, beq_iff_eq]
  rcases b with t | ⟨name, attrs⟩
  · exact nofun
  · exact mask_ne name

/-- What is written in a tag. -/
def mdOf (x : Piece Item) : Text :=
  match x.2 with
  | .node _ (.node (.text md) _ _) _ => md
  | _ => []

@[simp]
theorem mdOf_newMdStmt (md : Text) (mv : Option Text) : mdOf (newMdStmt md mv) = md := rfl

/-- All tags in a document, with the places of the statements that they are appended to. -/
def metaDataIn (yinSoup : Xml) : List (List ℕ × Piece Item) :=
  placedBelow (named "tailf_prefix_meta-data") [] 0 yinSoup

theorem perm_metaDataIn {yinContent : Xml} (hl : AreTags (untagged yinContent) l) :
    (metaDataIn ((untagged yinContent).adorn (behind l))).Perm l := by
  refine perm_placedBelow_adorn (fun x hx ↦ ?_) (fun x hx ↦ (hl x hx).1)
    (untagged_has_metaData yinContent)
  obtain ⟨-, md, mv, htag⟩ := hl x hx
  rw [htag]
  rcases mv with - | mv
  · exact ⟨rfl, rfl⟩
  · exact ⟨rfl, rfl⟩

/-- The tags of an extension are named after it. -/
theorem mdOf_extensionTags (h : extensionTags base = some l) {x : List ℕ × Piece Item}
    (hx : x ∈ l) : "tailf_prefix_".toList <+: mdOf x.2 := by
  have htag {p : List ℕ} {name : String} {mv : Option Text}
      (h : tagFor base p name.toList mv = some x) : mdOf x.2 = name.toList := by
    obtain ⟨y, -, rfl⟩ := Option.map_eq_some_iff.mp h
    exact mdOf_newMdStmt name.toList y.2
  simp only [extensionTags, Option.bind_eq_bind, Option.bind_eq_some_iff] at h
  obtain ⟨alt, halt, drop, hdrop, expose, hexpose, h⟩ := h
  rw [← Option.some.inj h, List.mem_append, List.mem_append] at hx
  rcases hx with (hx | hx) | hx
  · obtain ⟨p, -, hp⟩ := exists_of_mem_mapM halt hx
    simp only [altTag, Option.bind_eq_bind, Option.bind_eq_some_iff] at hp
    obtain ⟨yname, -, hp⟩ := hp
    rw [htag hp]
    decide
  · obtain ⟨p, -, hp⟩ := exists_of_mem_mapM hdrop hx
    rw [htag hp]
    decide
  · obtain ⟨p, -, hp⟩ := exists_of_mem_mapM hexpose hx
    rw [htag hp]
    decide

theorem idText_inj {value : Text} {k k' : ℕ} (h : idText value k = idText value k') : k = k' := by
  have hdigits := List.append_cancel_left h
  rw [List.cons_inj_right] at hdigits
  exact Decimal.toDigits_injective hdigits

theorem exists_owner_of_idTag {nsPrefix : Option Item} {x : List ℕ × ℕ}
    {y : List ℕ × Piece Item} (h : idTag base nsPrefix x = some y) :
    ∃ z, owner base x.1 none = some z ∧
      y = (z.1, newMdStmt (idText (idValue nsPrefix) x.2) z.2) := by
  rw [idTag] at h
  rcases hvalue : nsPrefix.bind (attr "value") with - | value
  · rw [hvalue] at h
    exact absurd h nofun
  · rw [hvalue] at h
    obtain ⟨z, howner, rfl⟩ := Option.map_eq_some_iff.mp h
    exact ⟨z, howner, by rw [idValue, hvalue]; rfl⟩

theorem filter_idTags {nsPrefix : Option Item} {ps : List (List ℕ)} {n k : ℕ}
    (h : (ps.zipIdx n).mapM (idTag base nsPrefix) = some l) (hk : n ≤ k) {p : List ℕ}
    (hp : ps[k - n]? = some p) : ∃ x, owner base p none = some x ∧
      (l.filter fun y ↦ mdOf y.2 = idText (idValue nsPrefix) k) =
        [(x.1, newMdStmt (idText (idValue nsPrefix) k) x.2)] := by
  induction ps generalizing l n with
  | nil => exact absurd hp nofun
  | cons q ps ih =>
    rw [List.zipIdx_cons, List.mapM_cons] at h
    simp only [Option.bind_eq_bind, Option.bind_eq_some_iff] at h
    obtain ⟨y, hy, l', hl', h⟩ := h
    obtain rfl : y :: l' = l := Option.some.inj h
    obtain ⟨z, howner, rfl⟩ := exists_owner_of_idTag hy
    rcases hk.eq_or_lt with rfl | hlt
    · -- the numbers behind are greater
      have hrest : (l'.filter fun y ↦ mdOf y.2 = idText (idValue nsPrefix) n) = [] := by
        refine List.filter_eq_nil_iff.mpr fun y hy heq ↦ ?_
        obtain ⟨x, hx, hxy⟩ := exists_of_mem_mapM hl' hy
        obtain ⟨z', -, rfl⟩ := exists_owner_of_idTag hxy
        have hnum := idText_inj (of_decide_eq_true heq)
        have hle := (List.mem_zipIdx hx).1
        omega
      obtain rfl : q = p := by simpa using hp
      rw [List.filter_cons_of_pos (by simp), hrest]
      exact ⟨z, howner, rfl⟩
    · obtain ⟨j, rfl⟩ := Nat.exists_eq_add_of_lt hlt
      have hne : mdOf (newMdStmt (idText (idValue nsPrefix) n) z.2) ≠
          idText (idValue nsPrefix) (n + j + 1) := by
        rw [mdOf_newMdStmt]
        intro heq
        have := idText_inj heq
        omega
      rw [List.filter_cons_of_neg (by simpa only [decide_eq_true_eq] using hne)]
      refine ih hl' hlt ?_
      have hsub : n + j + 1 - n = (n + j + 1 - (n + 1)) + 1 := by omega
      rwa [hsub, List.getElem?_cons_succ] at hp

/-- **Every number leads to one statement.** Before its words are changed back, the document is the
masked module without the tags that the module had itself, and with new tags: every statement has
one number, a number is in one tag, at the owner that `append_md` finds for the statement, and there
are no other numbers. -/
theorem ids_of_tailfInfoPath {yinContent yinSoup : Xml}
    (h : tailfInfoPath yinContent = some yinSoup) :
    let base := untagged yinContent
    let value := idValue (prefixOf yinContent)
    yinSoup.cut (named "tailf_prefix_meta-data") = base ∧
      (numbered base).Nodup ∧
      (∀ k p, (numbered base)[k]? = some p → ∃ x, owner base p none = some x ∧
        ((metaDataIn yinSoup).filter fun y ↦ mdOf y.2 = idText value k) =
          [(x.1, newMdStmt (idText value k) x.2)]) ∧
      ∀ y ∈ metaDataIn yinSoup, "ID ".toList <+: mdOf y.2 →
        ∃ k < (numbered base).length, mdOf y.2 = idText value k := by
  intro base value
  rw [tailfInfoPath_eq, tagsOf] at h
  simp only [Option.bind_eq_bind, Option.map_eq_some_iff, Option.bind_eq_some_iff] at h
  obtain ⟨l, ⟨exts, hexts, ids, hids, hl⟩, rfl⟩ := h
  obtain rfl : exts ++ ids = l := Option.some.inj hl
  have htags : AreTags base (exts ++ ids) :=
    (areTags_extensionTags hexts).append (areTags_idTags hids)
  have hperm := perm_metaDataIn htags
  refine ⟨?_, nodup_numbered base, fun k p hp ↦ ?_, fun y hy hid ↦ ?_⟩
  · have hcut : ∀ p, (behind (exts ++ ids) p).cut (named "tailf_prefix_meta-data") = .nil := by
      refine cut_behind fun x hx ↦ ?_
      obtain ⟨-, md, mv, htag⟩ := htags x hx
      rw [htag]
      rfl
    rw [cut_adorn hcut, cut_eq_self (untagged_has_metaData yinContent)]
  · obtain ⟨x, howner, hfilter⟩ := filter_idTags hids (Nat.zero_le k) hp
    refine ⟨x, howner, ?_⟩
    -- the tags of extensions have no number
    have hnone : (exts.filter fun y ↦ mdOf y.2 = idText value k) = [] := by
      refine List.filter_eq_nil_iff.mpr fun y hy heq ↦ ?_
      have hname := mdOf_extensionTags hexts hy
      rw [of_decide_eq_true heq] at hname
      exact absurd hname (by rw [idText]; simp)
    have hall := hperm.filter fun y ↦ mdOf y.2 = idText value k
    rw [List.filter_append, hnone, List.nil_append, hfilter] at hall
    exact List.perm_singleton.mp hall
  · rcases List.mem_append.mp (hperm.mem_iff.mp hy) with hy | hy
    · have hname := mdOf_extensionTags hexts hy
      exact absurd (List.prefix_or_prefix_of_prefix hid hname) (by decide)
    · obtain ⟨x, hx, hxy⟩ := exists_of_mem_mapM hids hy
      obtain ⟨z, -, rfl⟩ := exists_owner_of_idTag hxy
      have hlt := (List.mem_zipIdx hx).2.1
      rw [Nat.zero_add] at hlt
      exact ⟨x.2, hlt, rfl⟩

/-- A presence container with a list in it. The name of the last leaf is a part of a key, so that
the leaf is taken for one. -/
def ccModule : Xml :=
  let stmt (keyword name : String) (c : List Xml) : Xml :=
    element keyword [("name".toList, name.toList)] (concat c)
  let value (keyword value : String) : Xml :=
    element keyword [("value".toList, value.toList)] .nil
  stmt "module" "cc" [value "prefix" "cc", stmt "container" "aaa" [value "presence" "",
    stmt "list" "criteria" [value "key" "policy test",
      stmt "leaf" "policy" [stmt "tailf:alt-name" "alt-policy" []],
      stmt "leaf" "changes" [], stmt "leaf" "test" [], stmt "leaf" "tes" []]]]

/-- The tag for the key `test` is in the list. -/
theorem ids_of_tailfInfoPath_ccModule :
    ∃ yinSoup, tailfInfoPath ccModule = some yinSoup ∧
      ((metaDataIn yinSoup).filter fun y ↦ mdOf y.2 = "ID cc:2".toList) =
        [([1, 1, 0], newMdStmt "ID cc:2".toList (some "test".toList))] := by
  have hsome : (tailfInfoPath ccModule).isSome = true := by decide +kernel
  obtain ⟨yinSoup, h⟩ := Option.isSome_iff_exists.mp hsome
  have hthird : (numbered (untagged ccModule))[2]? = some [3, 1, 1, 0] := by decide +kernel
  have hvalue : idText (idValue (prefixOf ccModule)) 2 = "ID cc:2".toList := by decide +kernel
  have howner : owner (untagged ccModule) [3, 1, 1, 0] none =
      some ([1, 1, 0], some "test".toList) := by decide +kernel
  obtain ⟨-, -, hnumbers, -⟩ := ids_of_tailfInfoPath h
  obtain ⟨x, hx, hfilter⟩ := hnumbers 2 [3, 1, 1, 0] hthird
  obtain rfl : ([1, 1, 0], some "test".toList) = x := Option.some.inj (howner.symm.trans hx)
  rw [hvalue] at hfilter
  exact ⟨yinSoup, h, hfilter⟩

end ConfdDemos.CmdPath
