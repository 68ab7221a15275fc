import Mathlib.Data.List.TakeWhile
import ConfdDemos.Gnmi.Addressing
import ConfdDemos.Foundation.Quoted

/-!
# Tree keys of the web UI

The configuration tree of the web UI identifies a node by one string, its tree key, and every
request about the node takes the keypath out of that string again. Below the root a key starts with
the namespace and a bar, and `treeKeyToKeypath` cuts at the first bar; an entry of a list starts
anew with the keypath of the list. A choice has a key of its own, and what its selected case
contains is put back next to the choice by cutting the key of the choice at its last slash.

Key values are written between quotes as they are.

## Results

An `Address` says how a node was generated: by which names, list keys, choices and cases. What ConfD
knows of it is the data path, without choices and cases. `Generated.shaped` follows the generators:
a tree key is the namespace, a bar and the text of the data path, or only that text inside of a
list, unless a bar in a key value has cut it. `exists_append_of_spell` is the way back from texts to
paths.
-/

namespace ConfdDemos.Webui

abbrev Text := List Char

/-! ## Schemas and tree nodes -/

inductive Kind
  | root | container | list | listEntry | choice | case | leaf | leafList
  deriving DecidableEq

/-- What the generators read of a schema node; `hasKey` is the test for a `key` property. -/
inductive Schema
  | mk (kind : Kind) (name qname : Text) (hasKey : Bool) (children cases : List Schema)

namespace Schema

def kind : Schema → Kind
  | mk kind _ _ _ _ _ => kind

def name : Schema → Text
  | mk _ name _ _ _ _ => name

def qname : Schema → Text
  | mk _ _ qname _ _ _ => qname

def hasKey : Schema → Bool
  | mk _ _ _ hasKey _ _ => hasKey

def children : Schema → List Schema
  | mk _ _ _ _ children _ => children

def cases : Schema → List Schema
  | mk _ _ _ _ _ cases => cases

def cloneSansChildren : Schema → Schema
  | mk kind name qname hasKey _ cases => mk kind name qname hasKey [] cases

/-- Right below a schema node there are nodes with YANG names, and of no kind that the web UI adds
to those of YANG. -/
def Named (s : Schema) : Prop := ∀ child ∈ s.children,
  Gnmi.isYangName child.qname = true ∧ child.kind ≠ .root ∧ child.kind ≠ .listEntry

end Schema

/-- A node of the tree. `parent` is the tree key of the node it was generated from. -/
structure TreeNode where
  key : Text
  kind : Kind
  schema : Schema
  parent : Text

/-! ## Keys and keypaths -/

/-- The namespace and the keypath in a tree key. Without a bar the namespace is empty. -/
def treeKeyToKeypath (key : Text) : Text × Text :=
  if '|' ∈ key then (key.takeWhile (· != '|'), (key.dropWhile (· != '|')).tail) else ([], key)

def nodeKeypath (node : TreeNode) : Text := (treeKeyToKeypath node.key).2

/-- The part before the last slash, and the name behind it without what comes before a colon. -/
def splitChoiceKeypath (dirtyKp : Text) : Text × Text :=
  let choiceQName := (dirtyKp.reverse.takeWhile (· != '/')).reverse
  let keypath := (dirtyKp.reverse.dropWhile (· != '/')).tail.reverse
  let choiceName :=
    if ':' ∈ choiceQName then (choiceQName.dropWhile (· != ':')).tail else choiceQName
  (keypath, choiceName)

/-! ## Generators -/

/-- The node made for one child of a schema node. -/
def lazyDescendant (path : Text) (nodeSchemaArg child : Schema) : TreeNode where
  key :=
    let fixedKey := if nodeSchemaArg.kind = .case then (splitChoiceKeypath path).1 else path
    fixedKey ++ '/' :: child.qname
  kind := child.kind
  schema := child.cloneSansChildren
  parent := path

def generateLazyDescendants (path : Text) (nodeSchemaArg : Schema) : List TreeNode :=
  nodeSchemaArg.children.map (lazyDescendant path nodeSchemaArg)

/-- The root of a module tree with the nodes right below it. -/
def generateToplevelNode (ns : Text) (data : Schema) : TreeNode × List TreeNode :=
  ({ key := ns ++ ['|'], kind := .root, schema := data.cloneSansChildren, parent := [] },
    generateLazyDescendants (ns ++ ['|']) data)

def quoteKey (x : Text) : Text := '"' :: x ++ ['"']

def keys2keypath (keysArray : List Text) (isListKeyless : Bool) : Text :=
  if isListKeyless then
    '[' :: quoteKey (keysArray.headD "undefined".toList) ++ [']']
  else
    '{' :: [' '].intercalate (keysArray.map quoteKey) ++ ['}']

def isListKeyless (listNode : TreeNode) : Bool := !listNode.schema.hasKey

def generateListEntry (listNode : TreeNode) (keyArr : List Text) : TreeNode where
  key := nodeKeypath listNode ++ keys2keypath keyArr (isListKeyless listNode)
  kind := .listEntry
  schema := .mk .listEntry [] [] false [] []
  parent := listNode.key

def generateListEntries (listNode : TreeNode) (keysJson : List (List Text)) : List TreeNode :=
  keysJson.map (generateListEntry listNode)

/-! ## Addresses -/

/-- A step from a node to one generated from it. What a choice contains is reached by the name of
the choice and the name of a case in one step. -/
inductive Step
  | child (qname : Text)
  | via (choice case : Text)
  | keys (keys : List Text)
  | pseudo (key : Text)
  deriving DecidableEq

abbrev Address := List Step

namespace Step

/-- Choices and cases are not part of the data. -/
def isData : Step → Bool
  | via _ _ => false
  | _ => true

/-- A step into an entry of a list. -/
def isEntry : Step → Bool
  | keys _ => true
  | pseudo _ => true
  | _ => false

def keyValues : Step → List Text
  | keys ks => ks
  | pseudo k => [k]
  | _ => []

/-- The step as the generators write it. -/
def text : Step → Text
  | child q => '/' :: q
  | via _ _ => []
  | keys ks => keys2keypath ks false
  | pseudo k => keys2keypath [k] true

/-- Names are YANG names, and a list with keys has one at least. -/
def WellFormed : Step → Prop
  | child q => Gnmi.isYangName q = true
  | via _ _ => False
  | keys ks => ks ≠ []
  | pseudo _ => True

end Step

namespace Address

/-- The steps that ConfD knows. -/
def dataPath (a : Address) : List Step := a.filter Step.isData

end Address

/-- The text of a data path. -/
def spell (p : List Step) : Text := p.flatMap Step.text

/-- The path enters a list. -/
def inEntry (p : List Step) : Bool := p.any Step.isEntry

/-- The namespace of a module. Neither a bar nor a quote may stand in a URI. -/
structure Namespace where
  uri : Text
  bar_notMem : '|' ∉ uri
  quote_notMem : '"' ∉ uri

/-- `Generated ns node a`: `node` is a node of the tree of the module with namespace `ns`, made by
the generators along `a` for some schema and some list keys. -/
inductive Generated (ns : Namespace) : TreeNode → Address → Prop
  | top (data : Schema) : Generated ns (generateToplevelNode ns.uri data).1 []
  | descendant {node : TreeNode} {a : Address} {s child : Schema} (h : Generated ns node a)
      (hkind : node.kind = .root ∨ node.kind = .container ∨ node.kind = .listEntry)
      (hs : s.kind ≠ .case) (hnamed : s.Named) (hchild : child ∈ s.children) :
      Generated ns (lazyDescendant node.key s child) (a ++ [.child child.qname])
  | selected {node : TreeNode} {a : Address} {choice : Text} {s child : Schema}
      (h : Generated ns node (a ++ [.child choice])) (hkind : node.kind = .choice)
      (hcase : s ∈ node.schema.cases) (hs : s.kind = .case) (hnamed : s.Named)
      (hchild : child ∈ s.children) :
      Generated ns (lazyDescendant node.key s child)
        (a ++ [.via choice s.name, .child child.qname])
  | entry {node : TreeNode} {a : Address} {ks : List Text} (h : Generated ns node a)
      (hkind : node.kind = .list) (hkeyed : isListKeyless node = false) (hks : ks ≠ []) :
      Generated ns (generateListEntry node ks) (a ++ [.keys ks])
  | keyless {node : TreeNode} {a : Address} {k : Text} {ks : List Text} (h : Generated ns node a)
      (hkind : node.kind = .list) (hkeyless : isListKeyless node = true) :
      Generated ns (generateListEntry node (k :: ks)) (a ++ [.pseudo k])

/-- Nodes that stand for data. -/
def TreeNode.isData (node : TreeNode) : Bool := node.kind != .root && node.kind != .choice

/-! ## The shape of a tree key -/

section Shape

variable {ns : Namespace} {key : Text} {p : List Step}

theorem treeKeyToKeypath_of_notMem (h : '|' ∉ key) : treeKeyToKeypath key = ([], key) :=
  if_neg h

theorem treeKeyToKeypath_append {front path : Text} (h : '|' ∉ front) :
    treeKeyToKeypath (front ++ '|' :: path) = (front, path) := by
  have hne : ∀ c ∈ front, (c != '|') = true := by
    intro c hc
    rw [bne_iff_ne]
    exact ne_of_mem_of_not_mem hc h
  rw [treeKeyToKeypath, if_pos (by simp), List.takeWhile_append_of_pos hne,
    List.dropWhile_append_of_pos hne]
  simp

/-- Cutting a key at a bar loses a bar. -/
theorem count_treeKeyToKeypath_lt (h : '|' ∈ key) :
    (treeKeyToKeypath key).2.count '|' < key.count '|' := by
  obtain ⟨front, path, rfl, hfront⟩ := List.eq_append_cons_of_mem h
  rw [treeKeyToKeypath_append hfront, List.count_append, List.count_cons_self]
  exact Nat.lt_of_lt_of_le (Nat.lt_succ_self _) (Nat.le_add_left _ _)

theorem splitChoiceKeypath_append {q : Text} (h : '/' ∉ q) :
    (splitChoiceKeypath (key ++ '/' :: q)).1 = key := by
  have hne : ∀ c ∈ q.reverse, (c != '/') = true := by
    intro c hc
    rw [bne_iff_ne]
    exact ne_of_mem_of_not_mem (List.mem_reverse.mp hc) h
  simp only [splitChoiceKeypath, List.reverse_append, List.reverse_cons, List.append_assoc,
    List.dropWhile_append_of_pos hne]
  simp

theorem spell_append (p q : List Step) : spell (p ++ q) = spell p ++ spell q :=
  List.flatMap_append

theorem spell_concat (p : List Step) (s : Step) : spell (p ++ [s]) = spell p ++ s.text := by
  rw [spell_append, spell, spell, List.flatMap_singleton]

theorem inEntry_concat (p : List Step) (s : Step) :
    inEntry (p ++ [s]) = (inEntry p || s.isEntry) := by
  rw [inEntry, List.any_append, inEntry, List.any_cons, List.any_nil, Bool.or_false]

/-- A character that no name contains is not in a path outside of all lists. -/
theorem notMem_spell_of_outside {c : Char} (hc : Gnmi.isIdentifierChar c = false)
    (hcolon : c ≠ ':') (hslash : c ≠ '/') (hp : ∀ s ∈ p, s.WellFormed) (h : inEntry p = false) :
    c ∉ spell p := by
  intro hmem
  obtain ⟨s, hs, hcs⟩ := List.mem_flatMap.mp hmem
  have hs' : s.isEntry = false := by
    rw [inEntry, List.any_eq_false] at h
    simpa using h s hs
  cases s with
  | child q =>
    rcases List.mem_cons.mp hcs with rfl | hcq
    · exact hslash rfl
    · exact Gnmi.notMem_of_isYangName (hp _ hs) hc hcolon hcq
  | via choice case => exact List.not_mem_nil hcs
  | keys ks => exact absurd hs' (by simp [Step.isEntry])
  | pseudo k => exact absurd hs' (by simp [Step.isEntry])

/-- A key that was made along the data path `p`. Outside of all lists it is the namespace, a bar and
the path; in an entry of a list it is the path, unless a bar in a key value has cost it a part of
the path. -/
structure KeyAt (ns : Namespace) (key : Text) (p : List Step) : Prop where
  outside : inEntry p = false → key = ns.uri ++ '|' :: spell p
  inside : inEntry p = true → '|' ∉ spell p → key = spell p
  count_le : inEntry p = true → key.count '|' ≤ (spell p).count '|'

namespace KeyAt

/-- Without bars the keypath is the path. -/
theorem keypath_eq (h : KeyAt ns key p) (hbar : '|' ∉ spell p) :
    (treeKeyToKeypath key).2 = spell p := by
  cases hin : inEntry p with
  | false => rw [h.outside hin, treeKeyToKeypath_append ns.bar_notMem]
  | true =>
    rw [h.inside hin hbar]
    rw [treeKeyToKeypath_of_notMem hbar]

/-- With a bar the keypath has fewer of them than the path. -/
theorem count_keypath_lt (h : KeyAt ns key p) (hp : ∀ s ∈ p, s.WellFormed)
    (hbar : '|' ∈ spell p) : (treeKeyToKeypath key).2.count '|' < (spell p).count '|' := by
  have hin : inEntry p = true := by
    rw [← Bool.not_eq_false]
    intro hout
    exact notMem_spell_of_outside (by decide) (by decide) (by decide) hp hout hbar
  by_cases hkey : '|' ∈ key
  · exact (count_treeKeyToKeypath_lt hkey).trans_le (h.count_le hin)
  · rw [treeKeyToKeypath_of_notMem hkey, List.count_eq_zero.mpr hkey]
    exact List.count_pos_iff.mpr hbar

theorem count_keypath_le (h : KeyAt ns key p) (hp : ∀ s ∈ p, s.WellFormed) :
    (treeKeyToKeypath key).2.count '|' ≤ (spell p).count '|' := by
  by_cases hbar : '|' ∈ spell p
  · exact (h.count_keypath_lt hp hbar).le
  · exact (congrArg (List.count '|') (h.keypath_eq hbar)).le

theorem child (h : KeyAt ns key p) {q : Text} :
    KeyAt ns (key ++ '/' :: q) (p ++ [.child q]) := by
  have hin : inEntry (p ++ [.child q]) = inEntry p :=
    (inEntry_concat p _).trans (Bool.or_false _)
  have hspell : spell (p ++ [.child q]) = spell p ++ '/' :: q := spell_concat p _
  refine ⟨fun hout ↦ ?_, fun hin' hbar ↦ ?_, fun hin' ↦ ?_⟩
  · rw [h.outside (hin ▸ hout), hspell, List.append_assoc, List.cons_append]
  · rw [hspell] at hbar ⊢
    rw [h.inside (hin ▸ hin') (fun hmem ↦ hbar (List.mem_append_left _ hmem))]
  · rw [hspell, List.count_append, List.count_append]
    exact Nat.add_le_add_right (h.count_le (hin ▸ hin')) _

theorem entry (h : KeyAt ns key p) (hp : ∀ s ∈ p, s.WellFormed) {s : Step}
    (hs : s.isEntry = true) : KeyAt ns ((treeKeyToKeypath key).2 ++ s.text) (p ++ [s]) := by
  have hin : inEntry (p ++ [s]) = true := by rw [inEntry_concat, hs, Bool.or_true]
  refine ⟨fun hout ↦ absurd (hin.symm.trans hout) (by simp), fun _ hbar ↦ ?_, fun _ ↦ ?_⟩
  · rw [spell_concat] at hbar ⊢
    rw [h.keypath_eq fun hmem ↦ hbar (List.mem_append_left _ hmem)]
  · rw [spell_concat, List.count_append, List.count_append]
    exact Nat.add_le_add_right (h.count_keypath_le hp) _

end KeyAt

theorem Address.dataPath_concat (a : Address) (s : Step) (hs : s.isData = true) :
    Address.dataPath (a ++ [s]) = a.dataPath ++ [s] := by
  rw [dataPath, List.filter_append, List.filter_cons_of_pos hs, List.filter_nil, dataPath]

theorem Address.dataPath_via (a : Address) (choice case : Text) :
    Address.dataPath (a ++ [.via choice case]) = a.dataPath := by
  rw [dataPath, List.filter_append, List.filter_cons_of_neg (by simp [Step.isData]),
    List.filter_nil, List.append_nil, dataPath]

/-- What is known of a generated node: its key was made along its data path, and the key of a node
that was reached by a name ends in that name. -/
structure Shaped (ns : Namespace) (node : TreeNode) (a : Address) : Prop where
  keyAt : KeyAt ns node.key a.dataPath
  wellFormed : ∀ s ∈ a.dataPath, s.WellFormed
  named : ∀ (b : Address) (q : Text), a = b ++ [.child q] →
    ∃ base, KeyAt ns base b.dataPath ∧ node.key = base ++ '/' :: q

theorem Shaped.wellFormed_concat {q : List Step} (hq : ∀ s ∈ q, s.WellFormed) {s : Step}
    (hs : s.WellFormed) : ∀ t ∈ q ++ [s], t.WellFormed := by
  intro t ht
  rcases List.mem_append.mp ht with ht | ht
  · exact hq t ht
  · rw [List.mem_singleton.mp ht]
    exact hs

/-- A node generated by a name from something with a key. -/
theorem Shaped.of_child {node : TreeNode} {a : Address} (base : Text) {q : Text}
    (hbase : KeyAt ns base a.dataPath) (hwf : ∀ s ∈ a.dataPath, s.WellFormed)
    (hq : Gnmi.isYangName q = true) (hkey : node.key = base ++ '/' :: q) :
    Shaped ns node (a ++ [.child q]) := by
  have hpath : Address.dataPath (a ++ [.child q]) = a.dataPath ++ [.child q] :=
    a.dataPath_concat _ rfl
  refine ⟨?_, ?_, fun b q' heq ↦ ?_⟩
  · rw [hpath, hkey]
    exact hbase.child
  · rw [hpath]
    exact Shaped.wellFormed_concat hwf hq
  · obtain ⟨rfl, hlast⟩ := List.append_inj' heq rfl
    obtain rfl : q = q' := by simpa using hlast
    exact ⟨base, hbase, hkey⟩

/-- An entry generated from a list. -/
theorem Shaped.of_entry {list node : TreeNode} {a : Address} {s : Step} (h : Shaped ns list a)
    (hs : s.isEntry = true) (hwf : s.WellFormed) (hkey : node.key = nodeKeypath list ++ s.text) :
    Shaped ns node (a ++ [s]) := by
  have hpath : Address.dataPath (a ++ [s]) = a.dataPath ++ [s] := by
    refine a.dataPath_concat _ ?_
    cases s <;> simp_all [Step.isEntry, Step.isData]
  refine ⟨?_, ?_, fun b q heq ↦ ?_⟩
  · rw [hpath, hkey]
    exact h.keyAt.entry h.wellFormed hs
  · rw [hpath]
    exact Shaped.wellFormed_concat h.wellFormed hwf
  · obtain ⟨-, hlast⟩ := List.append_inj' heq rfl
    obtain rfl : s = .child q := by simpa using hlast
    exact absurd hs (by simp [Step.isEntry])

/-- Every generator keeps the shape of the keys. -/
theorem Generated.shaped {node : TreeNode} {a : Address} (h : Generated ns node a) :
    Shaped ns node a := by
  induction h with
  | top data =>
    refine ⟨⟨fun _ ↦ rfl, fun hin ↦ ?_, fun hin ↦ ?_⟩, ?_, fun b q heq ↦ ?_⟩
    · exact absurd hin (by simp [inEntry, Address.dataPath])
    · exact absurd hin (by simp [inEntry, Address.dataPath])
    · simp [Address.dataPath]
    · exact absurd heq (by simp)
  | descendant h hkind hs hnamed hchild ih =>
    refine Shaped.of_child _ ih.keyAt ih.wellFormed (hnamed _ hchild).1 ?_
    rw [lazyDescendant, if_neg hs]
  | @selected node a choice s child h hkind hcase hs hnamed hchild ih =>
    -- the key of the choice is cut back to the key it was made from
    obtain ⟨base, hbase, hkey⟩ := ih.named a choice rfl
    have hwf : ∀ t ∈ a.dataPath, t.WellFormed := by
      intro t ht
      refine ih.wellFormed t ?_
      rw [a.dataPath_concat _ rfl]
      exact List.mem_append_left _ ht
    have hslash : '/' ∉ choice := by
      have hchoice : Gnmi.isYangName choice = true := by
        refine ih.wellFormed (.child choice) ?_
        rw [a.dataPath_concat _ rfl]
        exact List.mem_append_right _ List.mem_cons_self
      exact Gnmi.notMem_of_isYangName hchoice (by decide) (by decide)
    have hshape : Shaped ns (lazyDescendant node.key s child)
        ((a ++ [.via choice s.name]) ++ [.child child.qname]) := by
      refine Shaped.of_child base ?_ ?_ (hnamed _ hchild).1 ?_
      · rw [a.dataPath_via]
        exact hbase
      · rw [a.dataPath_via]
        exact hwf
      · rw [lazyDescendant, if_pos hs, hkey, splitChoiceKeypath_append hslash]
    simpa using hshape
  | entry h hkind hkeyed hks ih =>
    refine ih.of_entry rfl hks ?_
    rw [generateListEntry, hkeyed, Step.text]
  | keyless h hkind hkeyless ih =>
    refine ih.of_entry rfl trivial ?_
    rw [generateListEntry, hkeyless, Step.text]
    rfl

end Shape

/-! ## Paths and their texts -/

/-- No key value on the path contains `c`. -/
def Free (c : Char) (p : List Step) : Prop := ∀ s ∈ p, ∀ k ∈ s.keyValues, c ∉ k

instance (c : Char) (p : List Step) : Decidable (Free c p) :=
  inferInstanceAs (Decidable (∀ s ∈ p, ∀ k ∈ s.keyValues, c ∉ k))

/-- What a step may be followed by: nothing or another step. -/
def Boundary (t : Text) : Prop := ∀ c ∈ t.head?, c = '/' ∨ c = '{' ∨ c = '['

/-- The quoted keys behind the first one. -/
def keysTail (ks : List Text) : Text := ks.flatMap fun k ↦ ' ' :: quoteKey k

section Texts

theorem keysTail_cons (k : Text) (ks : List Text) :
    keysTail (k :: ks) = ' ' :: (quoteKey k ++ keysTail ks) := rfl

theorem intercalate_quoteKey (k : Text) (ks : List Text) :
    [' '].intercalate ((k :: ks).map quoteKey) = quoteKey k ++ keysTail ks := by
  induction ks generalizing k with
  | nil => rw [List.map_singleton, List.intercalate_singleton, keysTail, List.flatMap_nil,
      List.append_nil]
  | cons k' ks ih =>
    rw [List.map_cons, List.map_cons, List.intercalate_cons_cons, ← List.map_cons, ih,
      keysTail_cons, List.append_assoc, List.singleton_append]

theorem text_keys_cons (k : Text) (ks : List Text) :
    (Step.keys (k :: ks)).text = '{' :: (quoteKey k ++ (keysTail ks ++ ['}'])) := by
  rw [Step.text, keys2keypath, if_neg (by simp), intercalate_quoteKey, List.cons_append,
    List.append_assoc]

theorem text_pseudo (k : Text) : (Step.pseudo k).text = '[' :: (quoteKey k ++ [']']) := rfl

variable {k k' y y' : Text}

theorem quoteKey_append_inj (hk : '"' ∉ k) (hk' : '"' ∉ k')
    (h : quoteKey k ++ y = quoteKey k' ++ y') : k = k' ∧ y = y' := by
  have hstop : k ++ '"' :: y = k' ++ '"' :: y' := by
    simpa [quoteKey] using h
  have hne : ∀ x : Text, '"' ∉ x → ∀ c ∈ x, ¬ c = '"' := fun x hx c hc ↦
    ne_of_mem_of_not_mem hc hx
  obtain ⟨rfl, hy⟩ := append_inj_of_stop (hne k hk) (hne k' hk') (by simp) (by simp) hstop
  exact ⟨rfl, (List.cons.inj hy).2⟩

theorem keysTail_append_inj {ks ks' : List Text} (hks : ∀ k ∈ ks, '"' ∉ k)
    (hks' : ∀ k ∈ ks', '"' ∉ k) (h : keysTail ks ++ '}' :: y = keysTail ks' ++ '}' :: y') :
    ks = ks' ∧ y = y' := by
  induction ks generalizing ks' with
  | nil =>
    cases ks' with
    | nil => exact ⟨rfl, (List.cons.inj h).2⟩
    | cons k' ks' => exact absurd (List.cons.inj h).1 (by decide)
  | cons k ks ih =>
    cases ks' with
    | nil => exact absurd (List.cons.inj h).1 (by decide)
    | cons k' ks' =>
      rw [keysTail_cons, keysTail_cons, List.cons_append, List.cons_append, List.append_assoc,
        List.append_assoc] at h
      obtain ⟨rfl, hrest⟩ := quoteKey_append_inj (hks k List.mem_cons_self)
        (hks' k' List.mem_cons_self) (List.cons.inj h).2
      obtain ⟨rfl, hy⟩ := ih (fun x hx ↦ hks x (List.mem_cons_of_mem _ hx))
        (fun x hx ↦ hks' x (List.mem_cons_of_mem _ hx)) hrest
      exact ⟨rfl, hy⟩

/-- A name ends where the next step begins. -/
theorem name_append_inj {q q' : Text} (hq : Gnmi.isYangName q = true)
    (hq' : Gnmi.isYangName q' = true) (hy : Boundary y) (hy' : Boundary y')
    (h : q ++ y = q' ++ y') : q = q' ∧ y = y' := by
  have hname : ∀ r, Gnmi.isYangName r = true → ∀ c ∈ r, ¬ (c = '/' ∨ c = '{' ∨ c = '[') := by
    rintro r hr c hc (rfl | rfl | rfl)
    · exact Gnmi.notMem_of_isYangName hr (by decide) (by decide) hc
    · exact Gnmi.notMem_of_isYangName hr (by decide) (by decide) hc
    · exact Gnmi.notMem_of_isYangName hr (by decide) (by decide) hc
  exact append_inj_of_stop (hname q hq) (hname q' hq') hy hy' h

/-- The first step of a text. -/
theorem text_append_inj {s s' : Step} (hs : s.WellFormed) (hs' : s'.WellFormed)
    (hfree : ∀ k ∈ s.keyValues, '"' ∉ k) (hfree' : ∀ k ∈ s'.keyValues, '"' ∉ k)
    (hy : Boundary y) (hy' : Boundary y') (h : s.text ++ y = s'.text ++ y') :
    s = s' ∧ y = y' := by
  cases s with
  | via choice case => exact hs.elim
  | child q =>
    cases s' with
    | via choice case => exact hs'.elim
    | child q' =>
      -- a name ends where something begins that is not part of a name
      obtain ⟨rfl, hrest⟩ := name_append_inj hs hs' hy hy' (List.cons.inj h).2
      exact ⟨rfl, hrest⟩
    | keys ks' => exact absurd (List.cons.inj h).1 (by decide)
    | pseudo k' => exact absurd (List.cons.inj h).1 (by decide)
  | keys ks =>
    cases s' with
    | via choice case => exact hs'.elim
    | child q' => exact absurd (List.cons.inj h).1 (by decide)
    | keys ks' =>
      -- keys are read one by one, each up to its quote
      obtain ⟨k, ks, rfl⟩ := List.exists_cons_of_ne_nil hs
      obtain ⟨k', ks', rfl⟩ := List.exists_cons_of_ne_nil hs'
      simp only [text_keys_cons, List.cons_append, List.append_assoc, List.cons.injEq, true_and,
        List.nil_append] at h
      obtain ⟨rfl, hrest⟩ := quoteKey_append_inj (hfree k List.mem_cons_self)
        (hfree' k' List.mem_cons_self) h
      obtain ⟨rfl, hafter⟩ := keysTail_append_inj (fun x hx ↦ hfree x (List.mem_cons_of_mem _ hx))
        (fun x hx ↦ hfree' x (List.mem_cons_of_mem _ hx)) hrest
      exact ⟨rfl, hafter⟩
    | pseudo k' => exact absurd (List.cons.inj h).1 (by decide)
  | pseudo k =>
    cases s' with
    | via choice case => exact hs'.elim
    | child q' => exact absurd (List.cons.inj h).1 (by decide)
    | keys ks' => exact absurd (List.cons.inj h).1 (by decide)
    | pseudo k' =>
      simp only [text_pseudo, List.cons_append, List.append_assoc, List.cons.injEq, true_and,
        List.nil_append] at h
      obtain ⟨rfl, hrest⟩ := quoteKey_append_inj (hfree k List.mem_cons_self)
        (hfree' k' List.mem_cons_self) h
      exact ⟨rfl, (List.cons.inj hrest).2⟩

/-- Every step begins with a letter that ends a name. -/
theorem boundary_text_append {s : Step} (hs : s.WellFormed) : Boundary (s.text ++ y) := by
  cases s with
  | via choice case => exact hs.elim
  | child q => simp [Step.text, Boundary]
  | keys ks => simp [Step.text, keys2keypath, Boundary]
  | pseudo k => simp [Step.text, keys2keypath, Boundary]

theorem boundary_spell {p : List Step} (hp : ∀ s ∈ p, s.WellFormed) : Boundary (spell p) := by
  cases p with
  | nil => simp [spell, Boundary]
  | cons s p =>
    rw [spell, List.flatMap_cons]
    exact boundary_text_append (hp s List.mem_cons_self)

/-- **Texts are prefix faithful**: where key values have no quotes, a path whose text continues
another one, up to the end of a step, continues that path. -/
theorem exists_append_of_spell {p q : List Step} (hp : ∀ s ∈ p, s.WellFormed)
    (hq : ∀ s ∈ q, s.WellFormed) (hfree : Free '"' p) (hfree' : Free '"' q) (hy : Boundary y)
    (h : spell p ++ y = spell q) : ∃ r, q = p ++ r ∧ y = spell r := by
  induction p generalizing q with
  | nil => exact ⟨q, rfl, h⟩
  | cons s p ih =>
    cases q with
    | nil =>
      -- a step has some text
      have htext : s.text = [] := by
        rw [spell, spell, List.flatMap_cons, List.flatMap_nil, List.append_assoc] at h
        exact (List.append_eq_nil_iff.mp h).1
      have hs := hp s List.mem_cons_self
      cases s with
      | via choice case => exact hs.elim
      | child q => exact absurd htext (by simp [Step.text])
      | keys ks => exact absurd htext (by simp [Step.text, keys2keypath])
      | pseudo k => exact absurd htext (by simp [Step.text, keys2keypath])
    | cons s' q =>
      have hp' : ∀ t ∈ p, t.WellFormed := fun t ht ↦ hp t (List.mem_cons_of_mem _ ht)
      have hq' : ∀ t ∈ q, t.WellFormed := fun t ht ↦ hq t (List.mem_cons_of_mem _ ht)
      -- what follows the first step begins with a slash or a bracket
      have hrest : Boundary (spell p ++ y) := by
        cases p with
        | nil => exact hy
        | cons t p =>
          rw [spell, List.flatMap_cons, List.append_assoc]
          exact boundary_text_append (hp' t List.mem_cons_self)
      rw [spell, spell, List.flatMap_cons, List.flatMap_cons, List.append_assoc] at h
      obtain ⟨rfl, htail⟩ := text_append_inj (hp s List.mem_cons_self) (hq s' List.mem_cons_self)
        (hfree s List.mem_cons_self) (hfree' s' List.mem_cons_self) hrest (boundary_spell hq') h
      obtain ⟨r, rfl, hr⟩ := ih hp' hq' (fun t ht ↦ hfree t (List.mem_cons_of_mem _ ht))
        (fun t ht ↦ hfree' t (List.mem_cons_of_mem _ ht)) htail
      exact ⟨r, rfl, hr⟩

theorem spell_injective {p q : List Step} (hp : ∀ s ∈ p, s.WellFormed)
    (hq : ∀ s ∈ q, s.WellFormed) (hfree : Free '"' p) (hfree' : Free '"' q)
    (h : spell p = spell q) : p = q := by
  obtain ⟨r, rfl, hr⟩ := exists_append_of_spell hp hq hfree hfree' (by simp [Boundary])
    ((List.append_nil _).trans h)
  obtain ⟨r', hr', -⟩ := exists_append_of_spell (fun s hs ↦ hq s (List.mem_append_right _ hs))
    (fun s hs ↦ absurd hs List.not_mem_nil) (fun s hs ↦ hfree' s (List.mem_append_right _ hs))
    (fun s hs ↦ absurd hs List.not_mem_nil) (by simp [Boundary]) ((List.append_nil _).trans hr.symm)
  rw [(List.append_eq_nil_iff.mp hr'.symm).1, List.append_nil]

end Texts

end ConfdDemos.Webui
