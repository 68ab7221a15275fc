import ConfdDemos.Foundation.Delimited
import ConfdDemos.Foundation.Forest
import ConfdDemos.Gnmi.Addressing

/-!
# Moving statements to an annotation module

The script takes statements out of a YANG module and puts them into a second module that annotates
the first one. It works on the YIN form of the module. Every flag is a pass over the document: the
statements of one kind are copied, each wrapped into annotations that say where it was, and then
removed. Whether the second module is written at all is decided at the end, by what is left in the
loop variables of some of the passes.

## Substitutions

Before the document is parsed and after it has been printed, the script replaces words in the text,
because the parser treats some names specially. The words contain no blank, quote or angle bracket,
so what is replaced is inside of an element name, a value or a text, or it is an attribute name with
the equals sign behind it. `Item.substitute` replaces there.

## What is left out

`pyang`, which translates between YANG and YIN, and the parser and printer of the document are taken
to lose nothing. The white space between elements is not modelled.
-/

namespace ConfdDemos.AnnStmt

abbrev Text := List Char

abbrev Attrs := List (Text × Text)

/-! ## Documents -/

inductive Item
  | text (t : Text)
  | element (name : Text) (attrs : Attrs)
  deriving DecidableEq

abbrev Xml := Forest Item

/-- The element `name` alone, with `attrs` and what is below it. -/
def element (name : String) (attrs : Attrs) (children : Xml) : Xml :=
  .node (.element name.toList attrs) children .nil

def concat (l : List Xml) : Xml := l.foldr Forest.append .nil

namespace Item

def name : Item → Text
  | text _ => []
  | element name _ => name

def attrs : Item → Attrs
  | text _ => []
  | element _ attrs => attrs

/-- An attribute name is replaced with its equals sign. -/
def substituteName (f : Text → Text) (k : Text) : Text := (f (k ++ ['='])).dropLast

def substitute (f : Text → Text) : Item → Item
  | text t => text (f t)
  | element name attrs => element (f name) (attrs.map fun kv ↦ (substituteName f kv.1, f kv.2))

end Item

/-! ## Substitutions -/

/-- The replacement of `old` from some place on; `skip` letters of an occurrence are still to be
passed over. -/
def replaceFrom (old new : Text) : ℕ → Text → Text
  | _, [] => []
  | skip + 1, _ :: t => replaceFrom old new skip t
  | 0, c :: t =>
    if old.isPrefixOf (c :: t) then new ++ replaceFrom old new (old.length - 1) t
    else c :: replaceFrom old new 0 t

def replace (t : Text) (old new : String) : Text := replaceFrom old.toList new.toList 0 t

theorem replaceFrom_eq_self {old new t : Text} {c : Char} (hc : c ∈ old) (ht : c ∉ t) :
    replaceFrom old new 0 t = t := by
  induction t with
  | nil => rfl
  | cons d t ih =>
    have hold : ¬ old.isPrefixOf (d :: t) = true := by
      rw [List.isPrefixOf_iff_prefix]
      exact fun hpre ↦ ht (hpre.subset hc)
    rw [replaceFrom, if_neg hold, ih fun hmem ↦ ht (List.mem_cons_of_mem _ hmem)]

/-- No occurrence reaches over a letter that `old` does not have. -/
theorem replaceFrom_append {old new t u : Text} {skip : ℕ}
    (hu : ∀ c ∈ u.head?, c ∉ old) (hskip : skip ≤ t.length) :
    replaceFrom old new skip (t ++ u) = replaceFrom old new skip t ++ replaceFrom old new 0 u := by
  induction t generalizing skip with
  | nil =>
    obtain rfl : skip = 0 := Nat.le_zero.mp hskip
    rfl
  | cons c t ih =>
    rcases skip with - | skip
    · have hpre : old <+: c :: t ++ u ↔ old <+: c :: t := prefix_append_iff_of_notMem hu
      simp only [List.cons_append] at hpre ⊢
      simp only [replaceFrom, List.isPrefixOf_iff_prefix]
      by_cases hocc : old <+: c :: t
      · have hlen : old.length - 1 ≤ t.length := by
          have := hocc.length_le
          rw [List.length_cons] at this
          omega
        rw [if_pos hocc, if_pos (hpre.mpr hocc), ih hlen, List.append_assoc]
      · rw [if_neg hocc, if_neg fun h ↦ hocc (hpre.mp h), ih (Nat.zero_le _), List.cons_append]
    · exact ih (Nat.le_of_succ_le_succ hskip)

/-- A replacement by nothing has no letters of its own. -/
theorem replaceFrom_nil_subset {old t : Text} {skip : ℕ} : replaceFrom old [] skip t ⊆ t := by
  induction t generalizing skip with
  | nil => exact List.Subset.refl _
  | cons c t ih =>
    rcases skip with - | skip
    · rw [replaceFrom]
      split_ifs
      · exact List.subset_cons_of_subset c ih
      · exact List.cons_subset_cons c ih
    · exact List.subset_cons_of_subset c ih

/-- What is done to the YIN form before it is parsed. -/
def yinIn (t : Text) : Text :=
  let t := replace t "tailf:" "tailf_prefix_"
  let t := replace t "name=" "yname="
  let t := replace t "target-node=" "target_node="
  replace t "xmlns:" "xmlns_"

/-- What is done to the rewritten module after it has been printed. -/
def yinOut (t : Text) : Text :=
  let t := replace t "tailf_prefix_" "tailf:"
  let t := replace t "yname=" "name="
  let t := replace t "target_node=" "target-node="
  replace t "xmlns_" "xmlns:"

/-- What is done to the annotation module after it has been printed. -/
def annOut (t : Text) : Text :=
  let t := replace t "tailf_prefix_" "tailf:"
  let t := replace t "annotate_module" "annotate-module"
  let t := replace t "module_name=" "module-name="
  let t := replace t "statement_path=" "statement-path="
  let t := replace t "yname=" "name="
  let t := replace t "target_node=" "target-node="
  replace t "xmlns_" "xmlns:"

/-! ## Passes -/

inductive Kind
  | must | when | minElements | maxElements | mandatory | unique | pattern
  | tailf | callpoint | validate
  deriving DecidableEq

namespace Kind

/-- The word that a pass looks for in the names of elements. -/
def keyword : Kind → Text
  | must => "must".toList
  | when => "when".toList
  | minElements => "min-elements".toList
  | maxElements => "max-elements".toList
  | mandatory => "mandatory".toList
  | unique => "unique".toList
  | pattern => "pattern".toList
  | tailf => "tailf_prefix_".toList
  | callpoint => "tailf_prefix_callpoint".toList
  | validate => "tailf_prefix_validate".toList

/-- The name of an element is the word, or contains it in the pass for extensions. -/
def hits (k : Kind) (name : Text) : Bool :=
  if k = .tailf then decide (k.keyword <:+: name) else name == k.keyword

/-- The passes whose loop variables decide whether the annotation module is written. -/
def isNoted : Kind → Bool
  | must => true
  | when => true
  | tailf => true
  | callpoint => true
  | validate => true
  | _ => false

def finds (k : Kind) : Item → Bool
  | .text _ => false
  | .element name _ => k.hits name

/-- A statement found below an element named `parent` is moved, in the pass for extensions only if
it is not below another extension. -/
def takes (k : Kind) (parent : Text) (a : Item) : Bool :=
  k.finds a && (k != .tailf || !"tailf_prefix_".toList.isPrefixOf parent)

/-- The document after a pass. A statement inside of one that has been moved is not found again. -/
def remaining (k : Kind) : Text → Xml → Xml
  | _, .nil => .nil
  | parent, .node a c r =>
    if k.takes parent a then remaining k parent r
    else .node a (remaining k a.name c) (remaining k parent r)

end Kind

/-! ## Annotations -/

def augmentTarget (attrs : Attrs) : Text := (attrs.lookup "target_node".toList).getD []

/-- The step to an element in a statement path; `seen` are the targets of the augments before it. -/
def pathStep (seen : List Text) (name : Text) (attrs : Attrs) : Text :=
  if name = "augment".toList then
    let target := augmentTarget attrs
    if seen.contains target then
      name ++ "[".toList ++ (toString (seen.length + 1)).toList ++ "]".toList
    else name ++ "[name='".toList ++ target ++ "']".toList
  else
    match attrs with
    | [] => name
    | (k, v) :: _ => name ++ "[".toList ++ k ++ "='".toList ++ v ++ "']".toList

/-- The annotations around a statement, for the steps from it up to the module. -/
def addStmt : List Text → Xml → Xml
  | [], annNode => annNode
  | step :: path, annNode =>
    addStmt path (element "tailf:annotate-statement" [("statement_path".toList, step)] annNode)

/-- The annotated copies of the statements a pass moves, in document order, with the targets of the
augments met on the way. -/
def Kind.annotated (k : Kind) : Text → List Text → List Text → Xml → List Xml × List Text
  | _, _, seen, .nil => ([], seen)
  | parent, path, seen, .node a c r =>
    if k.takes parent a then
      let (anns, seen) := annotated k parent path seen r
      (addStmt path (.node a c .nil) :: anns, seen)
    else
      let step := pathStep seen a.name a.attrs
      let seen := if a.name = "augment".toList then seen ++ [augmentTarget a.attrs] else seen
      let (anns, seen) := annotated k a.name (step :: path) seen c
      let (anns', seen) := annotated k parent path seen r
      (anns ++ anns', seen)

/-! ## The script -/

/-- The document below its root, the annotations so far, and whether one of the loop variables that
are asked for at the end has been set. -/
structure Soup where
  yin : Xml
  anns : List Xml
  noted : Bool

def Soup.pass (root : Text) (s : Soup) (k : Kind) : Soup where
  yin := k.remaining root s.yin
  anns := s.anns ++ (k.annotated root [] [] s.yin).1
  noted := s.noted || (k.isNoted && s.yin.has k.finds)

/-- The passes that come first. -/
def earlyKinds : List Kind := [.must, .when]

/-- The passes whose loop variables nobody asks for. -/
def quietKinds : List Kind := [.minElements, .maxElements, .mandatory, .unique, .pattern]

/-- The passes for extensions. The last two are not made with the flag for leafrefs. -/
def lateKinds (leafref : Bool) : List Kind :=
  if leafref then [.tailf] else [.tailf, .callpoint, .validate]

def passes (flags : Kind → Bool) (leafref : Bool) : List Kind :=
  (earlyKinds ++ quietKinds ++ lateKinds leafref).filter flags

def setAttr (attrs : Attrs) (k v : Text) : Attrs :=
  if (attrs.map Prod.fst).contains k then attrs.map fun kv ↦ if kv.1 = k then (k, v) else kv
  else attrs ++ [(k, v)]

/-- The elements that satisfy `p` become references to the type `string`. -/
def retype (p : Item → Bool) : Xml → Xml
  | .nil => .nil
  | .node a c r =>
    if p a then
      .node (.element a.name (setAttr a.attrs "yname".toList "string".toList)) .nil (retype p r)
    else .node a (retype p c) (retype p r)

/-- The document without the first element that satisfies `p`. -/
def dropFirst (p : Item → Bool) : Xml → Xml
  | .nil => .nil
  | .node a c r =>
    if p a then r else if c.has p then .node a (dropFirst p c) r else .node a c (dropFirst p r)

def isLeafref (a : Item) : Bool := a.attrs.lookup "yname".toList == some "leafref".toList

def isImport (a : Item) : Bool := a.name == "import".toList

def isTailfImport (a : Item) : Bool :=
  isImport a && a.attrs.lookup "module".toList == some "tailf-common".toList

def isTailfType (a : Item) : Bool :=
  a.name == "type".toList &&
    (a.attrs.lookup "yname".toList).any fun v ↦ decide ("tailf_prefix".toList <:+: v)

/-- Without extensions the import of their module goes, and the types of that module with it. -/
def dropTailfImport (yin : Xml) : Xml :=
  if yin.has Kind.tailf.finds then yin
  else if yin.has isTailfImport then retype isTailfType (dropFirst isTailfImport yin)
  else yin

/-- The imports right below the root, but for the one of the extensions. -/
def topImports : Xml → List Xml
  | .nil => []
  | .node a c r =>
    if isImport a && !isTailfImport a then .node a c .nil :: topImports r else topImports r

def findFirst (name : String) : Xml → Option Item
  | .nil => none
  | .node a c r =>
    if a.name = name.toList then some a else (findFirst name c).or (findFirst name r)

/-- The children of the annotation module. -/
def genAnnModule (today name ns pfx : Text) (imports anns : List Xml) : Xml :=
  concat <|
    [element "namespace" [("uri".toList, ns ++ "-ann".toList)] .nil,
      element "prefix" [("value".toList, pfx ++ "-ann".toList)] .nil] ++ imports ++
    [element "import" [("module".toList, "tailf-common".toList)]
        (element "prefix" [("value".toList, "tailf".toList)] .nil),
      element "revision" [("date".toList, today)]
        (element "description" []
          (element "text" [] (.node (.text "Initial revision".toList) .nil .nil))),
      element "tailf_prefix_annotate_module" [("module_name".toList, name)] (concat anns)]

/-- A module or a submodule in YIN form. -/
structure YinModule where
  isSubmodule : Bool
  attrs : Attrs
  body : Xml

namespace YinModule

def rootName (m : YinModule) : Text :=
  if m.isSubmodule then "submodule".toList else "module".toList

def root (m : YinModule) : Item := .element m.rootName m.attrs

end YinModule

/-- The namespace and the prefix of a module, from its parsed form. The namespace of a submodule is
declared for the prefix of the module it belongs to. -/
def YinModule.header (m : YinModule) (root : Item) (yin : Xml) : Option (Text × Text) := do
  let pfx ← (findFirst "prefix" yin).bind (·.attrs.lookup "value".toList)
  let ns ← if m.isSubmodule then root.attrs.lookup ("xmlns_".toList ++ pfx)
    else (findFirst "namespace" yin).bind (·.attrs.lookup "uri".toList)
  some (ns, pfx)

/-- The YIN forms that are handed back to `pyang`, and written to files from there. -/
structure Output where
  module_ : Xml
  annotation : Option Xml

/-- The script, for a module in the file `name`. A module without the header that a YANG module has
makes it fail. -/
def tailfAnnStmt (flags : Kind → Bool) (sanitize leafref : Bool) (today name : Text)
    (m : YinModule) : Option Output := do
  let root := m.root.substitute yinIn
  let yin := m.body.map (Item.substitute yinIn)
  let (ns, pfx) ← m.header root yin
  let yname ← root.attrs.lookup "yname".toList
  let soup := (passes flags leafref).foldl (Soup.pass m.rootName)
    { yin := yin, anns := [], noted := false }
  let yin := dropTailfImport (if leafref then retype isLeafref soup.yin else soup.yin)
  let annAttrs := setAttr root.attrs "yname".toList (yname ++ "-ann".toList)
  let ann := Forest.node (.element "module".toList annAttrs)
    (genAnnModule today name ns pfx (topImports yin) soup.anns) .nil
  some
    { module_ := (Forest.node root yin .nil).map (Item.substitute yinOut)
      annotation := if sanitize || !soup.noted then none
        else some (ann.map (Item.substitute annOut)) }

end ConfdDemos.AnnStmt
