import Mathlib.Logic.Function.Basic
import ConfdDemos.Webui.Keypaths

/-!
# What removing a node leaves behind

The web UI keeps two objects by tree key: the state, with the values shown, and `tree.lazy`, with
what has been loaded. When a list entry, a list or a container is removed, or another case of a
choice is selected, `dropPrefixProps` is to delete what belongs to the removed nodes. It goes by the
text of the keys: what is the key itself, or the key followed by a slash.

## Results

Where key values contain no quotes and bars, `Shaped.prefixMatches_iff` says which nodes
that is: those whose data path continues the one of the removed node by a name, as long as not one
of the two is in a list entry and the other is outside of all lists. From there
`Op.cleansExactly_iff` says for each of the four operations when exactly the removed subtree is
cleaned. Removing a list entry always does it. Removing a list or selecting a case leaves all of
the removed subtree, and removing a container leaves its values and what has been loaded in lists.
-/

namespace ConfdDemos.Webui

/-! ## State -/

structure ListMeta where
  total : ℤ
  position : ℤ
  chunk_size : ℤ
  lh : ℤ
  deriving DecidableEq

inductive Scalar
  | null | undefined | bool (b : Bool) | number (n : ℤ) | text (t : Text)
  deriving DecidableEq

inductive StateEntry
  | scalar (v : Scalar)
  | leafList (vs : List Scalar)
  | list (m : ListMeta)

inductive LazyMark
  | loading | loaded

/-- An object with tree keys as property names. -/
abbrev Props (β : Type*) := Text → Option β

structure Context where
  state : Props StateEntry
  lazy : Props LazyMark

def unsetDropdown : Text := "<< not-set >>".toList

def isValueUnset (value : Scalar) : Bool :=
  value = .null || value = .undefined || value = .text unsetDropdown

def getState (state : Props StateEntry) (node : TreeNode) : Option StateEntry := state node.key

def initListData (state : Props StateEntry) (node : TreeNode) : Props StateEntry :=
  let chunkSize := 10
  Function.update state node.key
    (some (.list { total := 0, position := -chunkSize, chunk_size := chunkSize, lh := -1 }))

/-! ## Operations -/

def prefixMatches (pfx candidate : Text) : Bool :=
  if !pfx.isPrefixOf candidate then false
  else if pfx.length = candidate.length then true
  else candidate[pfx.length]? == some '/'

def dropPrefixProps {β : Type*} (obj : Props β) (pfx : Text) : Props β := fun key ↦
  if prefixMatches pfx key = true ∨ key = pfx then none else obj key

def updateSimple (state : Props StateEntry) (node : TreeNode) (value : Scalar) :
    Props StateEntry :=
  if isValueUnset value then Function.update state node.key none
  else Function.update state node.key (some (.scalar value))

def updateContainer (context : Context) (node : TreeNode) (value : Scalar) : Context :=
  let state := updateSimple context.state node value
  if value = .bool true then { context with state }
  else { state, lazy := dropPrefixProps context.lazy node.key }

def updateChoice (context : Context) (node : TreeNode) (value : Scalar) : Context where
  lazy := dropPrefixProps context.lazy node.key
  state := Function.update (dropPrefixProps context.state node.key) node.key (some (.scalar value))

/-- Deletes an entry of a list with the loaded entries `children`. Without the data of the list
there is nothing to set the counter in, and the assignment throws. -/
def deleteListEntry (context : Context) (children : List TreeNode) (node : TreeNode) :
    Option Context :=
  let siblings := children.filter fun el ↦ el.key ≠ node.key
  match context.state node.parent with
  | some (.list listData) =>
    let listData := { listData with total := siblings.length }
    let state := Function.update context.state node.parent (some (.list listData))
    some { state := dropPrefixProps state node.key, lazy := dropPrefixProps context.lazy node.key }
  | _ => none

def deleteList (context : Context) (node : TreeNode) : Option Context :=
  match getState context.state node with
  | some (.list listData) =>
    let state := Function.update context.state node.key (some (.list { listData with total := 0 }))
    some
      { state := initListData (dropPrefixProps state node.key) node
        lazy := dropPrefixProps context.lazy node.key }
  | _ => none

/-! ## Texts and subtrees -/

theorem prefixMatches_iff_exists {pfx candidate : Text} :
    prefixMatches pfx candidate = true ↔
      ∃ rest, candidate = pfx ++ rest ∧ (rest = [] ∨ ∃ t, rest = '/' :: t) := by
  rw [prefixMatches]
  constructor
  · intro h
    split_ifs at h with hpre hlen
    · rw [Bool.not_eq_true', Bool.not_eq_false, List.isPrefixOf_iff_prefix] at hpre
      obtain ⟨rest, rfl⟩ := hpre
      have hnil : rest = [] := by simpa using hlen
      exact ⟨rest, rfl, Or.inl hnil⟩
    · rw [Bool.not_eq_true', Bool.not_eq_false, List.isPrefixOf_iff_prefix] at hpre
      obtain ⟨rest, rfl⟩ := hpre
      refine ⟨rest, rfl, Or.inr ?_⟩
      cases rest with
      | nil => exact absurd h (by simp)
      | cons c t =>
        obtain rfl : c = '/' := by simpa using h
        exact ⟨t, rfl⟩
  · rintro ⟨rest, rfl, rfl | ⟨t, rfl⟩⟩
    · simp
    · simp

theorem prefixMatches_self (pfx : Text) : prefixMatches pfx pfx = true :=
  prefixMatches_iff_exists.mpr ⟨[], (List.append_nil _).symm, Or.inl rfl⟩

section Drop

variable {β : Type*} {obj : Props β} {pfx key : Text}

theorem dropPrefixProps_of_matches (h : prefixMatches pfx key = true) :
    dropPrefixProps obj pfx key = none :=
  if_pos (Or.inl h)

theorem dropPrefixProps_of_not (h : ¬ prefixMatches pfx key = true) :
    dropPrefixProps obj pfx key = obj key := by
  refine if_neg ?_
  rintro (hmatch | rfl)
  · exact h hmatch
  · exact h (prefixMatches_self key)

end Drop

section Matching

variable {ns : Namespace} {node node' : TreeNode} {a a' : Address}

/-- Key values without quotes and bars. -/
def Tidy (p : List Step) : Prop := Free '"' p ∧ Free '|' p

/-- A path into a list has a quote in its text. -/
theorem quote_mem_spell {p : List Step} (hp : ∀ s ∈ p, s.WellFormed) (h : inEntry p = true) :
    '"' ∈ spell p := by
  obtain ⟨s, hs, hentry⟩ := List.any_eq_true.mp h
  refine List.mem_flatMap.mpr ⟨s, hs, ?_⟩
  cases s with
  | child q => exact absurd hentry (by simp [Step.isEntry])
  | via choice case => exact absurd hentry (by simp [Step.isEntry])
  | keys ks =>
    obtain ⟨k, ks, rfl⟩ := List.exists_cons_of_ne_nil (hp _ hs)
    simp [text_keys_cons, quoteKey]
  | pseudo k => simp [text_pseudo, quoteKey]

/-- The text of a path begins with a slash exactly when the path begins with a name. -/
theorem spell_eq_slash_iff {r : List Step} (hr : ∀ s ∈ r, s.WellFormed) :
    (spell r = [] ∨ ∃ t, spell r = '/' :: t) ↔ r = [] ∨ ∃ q r', r = .child q :: r' := by
  cases r with
  | nil => simp [spell]
  | cons s r =>
    have hs := hr s List.mem_cons_self
    cases s with
    | via choice case => exact hs.elim
    | child q => simp [spell, Step.text]
    | keys ks => simp [spell, Step.text, keys2keypath]
    | pseudo k => simp [spell, Step.text, keys2keypath]

/-- One of two keys made along paths that are both in list entries, or both outside, continues the
other as the paths do. -/
theorem prefixMatches_spell_iff (front : Text) {p q : List Step} (hp : ∀ s ∈ p, s.WellFormed)
    (hq : ∀ s ∈ q, s.WellFormed) (hquote : Free '"' p) (hquote' : Free '"' q) :
    prefixMatches (front ++ spell p) (front ++ spell q) = true ↔
      ∃ r, q = p ++ r ∧ (r = [] ∨ ∃ n r', r = .child n :: r') := by
  rw [prefixMatches_iff_exists]
  constructor
  · rintro ⟨rest, heq, hrest⟩
    rw [List.append_assoc] at heq
    have hbound : Boundary rest := by
      rcases hrest with rfl | ⟨t, rfl⟩
      · simp [Boundary]
      · simp [Boundary]
    obtain ⟨r, rfl, rfl⟩ := exists_append_of_spell hp hq hquote hquote' hbound
      (List.append_cancel_left heq).symm
    exact ⟨r, rfl, (spell_eq_slash_iff fun s hs ↦ hq s (List.mem_append_right _ hs)).mp hrest⟩
  · rintro ⟨r, rfl, hr⟩
    refine ⟨spell r, ?_, (spell_eq_slash_iff fun s hs ↦ hq s (List.mem_append_right _ hs)).mpr hr⟩
    rw [spell_append, List.append_assoc]

/-- **What a key matches** in a tidy tree. -/
theorem Shaped.prefixMatches_iff (h : Shaped ns node a) (h' : Shaped ns node' a')
    (htidy : Tidy a.dataPath) (htidy' : Tidy a'.dataPath) :
    prefixMatches node.key node'.key = true ↔
      inEntry a.dataPath = inEntry a'.dataPath ∧
        ∃ r, a'.dataPath = a.dataPath ++ r ∧ (r = [] ∨ ∃ q r', r = .child q :: r') := by
  have hbar := (bar_notMem_spell_iff h.wellFormed).mpr htidy.2
  have hbar' := (bar_notMem_spell_iff h'.wellFormed).mpr htidy'.2
  have hiff := fun front ↦ prefixMatches_spell_iff front h.wellFormed h'.wellFormed
    htidy.1 htidy'.1
  cases hin : inEntry a.dataPath with
  | false =>
    rw [h.keyAt.outside hin]
    cases hin' : inEntry a'.dataPath with
    | false =>
      rw [h'.keyAt.outside hin']
      simpa using hiff (ns.uri ++ ['|'])
    | true =>
      -- the bar behind the namespace is not in the other key
      rw [h'.keyAt.inside hin' hbar', prefixMatches_iff_exists]
      refine iff_of_false ?_ (fun hand ↦ absurd hand.1 (by decide))
      rintro ⟨rest, heq, -⟩
      exact hbar' (by simp [heq])
  | true =>
    rw [h.keyAt.inside hin hbar]
    cases hin' : inEntry a'.dataPath with
    | false =>
      -- the quotes of a list entry are not in the other key
      rw [h'.keyAt.outside hin', prefixMatches_iff_exists]
      refine iff_of_false ?_ (fun hand ↦ absurd hand.1 (by decide))
      rintro ⟨rest, heq, -⟩
      have hmem : '"' ∈ ns.uri ++ '|' :: spell a'.dataPath := by
        rw [heq]
        exact List.mem_append_left _ (quote_mem_spell h.wellFormed hin)
      have hout := notMem_spell_of_outside (c := '"') (by decide) (by decide) (by decide)
        h'.wellFormed hin'
      simp [ns.quote_notMem, hout] at hmem
    | true =>
      rw [h'.keyAt.inside hin' hbar']
      simpa using hiff []

end Matching

/-! ## Trees and operations -/

/-- The tree of a module as far as it has been expanded, with what the schema says of data paths: a
path is of one kind, and entries are found in lists only. -/
structure ConfigTree extends ModuleTree where
  kindOf : List Step → Kind
  kind_eq : ∀ x ∈ nodes, x.1.isData = true → x.1.kind = kindOf x.2.dataPath
  list_of_entry : ∀ x ∈ nodes, ∀ p s r, x.2.dataPath = p ++ s :: r → s.isEntry = true →
    kindOf p = .list

/-- The operations that remove something, with what they are given besides the node. -/
inductive Op
  | deleteListEntry (children : List TreeNode)
  | deleteList
  | updateContainer (value : Scalar)
  | updateChoice (value : Scalar)

namespace Op

/-- The nodes an operation is offered for. A container is removed by any value but `true`. -/
def Applies : Op → TreeNode → Prop
  | deleteListEntry _, node => node.kind = .listEntry
  | deleteList, node => node.kind = .list
  | updateContainer value, node => node.kind = .container ∧ value ≠ .bool true
  | updateChoice _, node => node.kind = .choice

def run : Op → Context → TreeNode → Option Context
  | deleteListEntry children, context, node =>
    Webui.deleteListEntry context children node
  | deleteList, context, node => Webui.deleteList context node
  | updateContainer value, context, node => some (Webui.updateContainer context node value)
  | updateChoice value, context, node => some (Webui.updateChoice context node value)

/-- The proper data descendants of what an operation removes: `b` is an address of one when the
operation is applied at `a`. -/
def Removes : Op → Address → Address → Prop
  | deleteListEntry _, a, b => a.dataPath <+: b.dataPath ∧ a.dataPath ≠ b.dataPath
  | deleteList, a, b => ∃ s : Step, s.isEntry = true ∧ a.dataPath ++ [s] <+: b.dataPath ∧
      a.dataPath ++ [s] ≠ b.dataPath
  | updateContainer _, a, b => a.dataPath <+: b.dataPath ∧ a.dataPath ≠ b.dataPath
  | updateChoice value, a, b => ∃ (base : Address) (choice case : Text),
      a = base ++ [.child choice] ∧ value ≠ .text case ∧ base ++ [.via choice case] <+: b

/-- What an operation is about: the node itself and what is removed with it. -/
def Concerns : Op → Address → Address → Prop
  | updateChoice value, a, b => a = b ∨ (updateChoice value).Removes a b
  | _, a, b => a.dataPath <+: b.dataPath

/-- The key of the list whose counter an operation sets. -/
def counterKey : Op → TreeNode → Option Text
  | deleteListEntry _, node => some node.parent
  | _, _ => none

variable (T : ConfigTree) (op : Op) (x : TreeNode × Address)

/-- No key is left of the removed data nodes, and the keys of all nodes that the operation is not
about are unchanged, but for the counter of a list. -/
structure CleansExactly (before after : Context) : Prop where
  gone : ∀ y ∈ T.nodes, y.1.isData = true → op.Removes x.2 y.2 →
    after.state y.1.key = none ∧ after.lazy y.1.key = none
  kept : ∀ y ∈ T.nodes, ¬ op.Concerns x.2 y.2 →
    (after.state y.1.key).isSome = (before.state y.1.key).isSome ∧
      after.lazy y.1.key = before.lazy y.1.key ∧
      (op.counterKey x.1 ≠ some y.1.key → after.state y.1.key = before.state y.1.key)

/-- Nothing has been shown or loaded of what the operation forgets to clean. -/
def NothingLeft (before : Context) : Prop :=
  match op with
  | deleteListEntry _ => True
  | updateContainer _ => ∀ y ∈ T.nodes, y.1.isData = true → op.Removes x.2 y.2 →
      before.state y.1.key = none ∧
        (inEntry x.2.dataPath ≠ inEntry y.2.dataPath → before.lazy y.1.key = none)
  | _ => ∀ y ∈ T.nodes, y.1.isData = true → op.Removes x.2 y.2 →
      before.state y.1.key = none ∧ before.lazy y.1.key = none

/-- A choice does not share its name with a node next to it or in one of its cases. -/
def OwnName : Prop :=
  match op with
  | updateChoice _ => ∀ y ∈ T.nodes, y.2 ≠ x.2 → ¬ x.2.dataPath <+: y.2.dataPath
  | _ => True

end Op

/-- Key values have no quotes and bars: those of the node, those of what the operation removes and
those of the nodes whose key it matches. -/
structure Op.TidyKeys (op : Op) (T : ConfigTree) (x : TreeNode × Address) : Prop where
  self : Tidy x.2.dataPath
  removed : ∀ y ∈ T.nodes, op.Removes x.2 y.2 → Tidy y.2.dataPath
  matched : ∀ y ∈ T.nodes, prefixMatches x.1.key y.1.key = true → Tidy y.2.dataPath

section Cleaning

variable {T : ConfigTree} {x y : TreeNode × Address} {before after : Context} {op : Op}

/-- A key matches only what is below its node. -/
theorem Op.TidyKeys.prefix_of_matches (htidy : op.TidyKeys T x) (hx : x ∈ T.nodes)
    (hy : y ∈ T.nodes) (h : prefixMatches x.1.key y.1.key = true) :
    x.2.dataPath <+: y.2.dataPath := by
  obtain ⟨-, r, hr, -⟩ := ((T.generated x hx).shaped.prefixMatches_iff (T.generated y hy).shaped
    htidy.self (htidy.matched y hy h)).mp h
  exact ⟨r, hr.symm⟩

theorem Op.TidyKeys.key_ne (htidy : op.TidyKeys T x) (hx : x ∈ T.nodes) (hy : y ∈ T.nodes)
    (h : x.2.dataPath ≠ y.2.dataPath) : y.1.key ≠ x.1.key := by
  intro hkey
  have hy' : Tidy y.2.dataPath := htidy.matched y hy (hkey ▸ prefixMatches_self _)
  exact h ((T.generated x hx).shaped.dataPath_eq_of_key (T.generated y hy).shaped htidy.self.1
    hy'.1 htidy.self.2 hy'.2 hkey.symm)

/-- Below a data node that is not a list, paths go on with a name. -/
theorem ConfigTree.child_of_longer (hx : x ∈ T.nodes) (hy : y ∈ T.nodes)
    (hdata : x.1.isData = true) (hkind : x.1.kind ≠ .list) {s : Step} {r : List Step}
    (hpath : y.2.dataPath = x.2.dataPath ++ s :: r) : ∃ q, s = .child q := by
  have hwf : s.WellFormed := by
    refine (T.generated y hy).shaped.wellFormed s ?_
    rw [hpath]
    exact List.mem_append_right _ List.mem_cons_self
  have hentry : ¬ s.isEntry = true := by
    intro hs
    exact hkind ((T.kind_eq x hx hdata).trans (T.list_of_entry y hy _ _ _ hpath hs))
  cases s with
  | child q => exact ⟨q, rfl⟩
  | via choice case => exact hwf.elim
  | keys ks => exact absurd rfl hentry
  | pseudo k => exact absurd rfl hentry

/-- What is properly below a data node that is not a list is matched, unless only one of the two is
in a list entry. -/
theorem ConfigTree.matches_iff_of_removed (hx : x ∈ T.nodes) (hy : y ∈ T.nodes)
    (htidy : Tidy x.2.dataPath) (htidy' : Tidy y.2.dataPath) (hdata : x.1.isData = true)
    (hkind : x.1.kind ≠ .list) (hpre : x.2.dataPath <+: y.2.dataPath)
    (hne : x.2.dataPath ≠ y.2.dataPath) :
    prefixMatches x.1.key y.1.key = true ↔ inEntry x.2.dataPath = inEntry y.2.dataPath := by
  rw [(T.generated x hx).shaped.prefixMatches_iff (T.generated y hy).shaped htidy htidy']
  refine and_iff_left ?_
  obtain ⟨r, hr⟩ := hpre
  refine ⟨r, hr.symm, Or.inr ?_⟩
  cases r with
  | nil => exact absurd hr (by simpa using hne)
  | cons s r =>
    obtain ⟨q, rfl⟩ := ConfigTree.child_of_longer hx hy hdata hkind hr.symm
    exact ⟨q, r, rfl⟩

theorem inEntry_mono {p q : List Step} (h : p <+: q) (hp : inEntry p = true) :
    inEntry q = true := by
  obtain ⟨s, hs, hentry⟩ := List.any_eq_true.mp hp
  exact List.any_eq_true.mpr ⟨s, h.subset hs, hentry⟩

/-- Entries of lists are in lists. -/
theorem Generated.inEntry_of_listEntry {ns : Namespace} {node : TreeNode} {a : Address}
    (h : Generated ns node a) (hkind : node.kind = .listEntry) : inEntry a.dataPath = true := by
  cases h with
  | top data => exact absurd hkind (by simp [generateToplevelNode])
  | descendant h _ hs hnamed hchild => exact absurd hkind (hnamed _ hchild).2.2
  | selected h _ hcase hs hnamed hchild => exact absurd hkind (hnamed _ hchild).2.2
  | entry h _ hkeyed hks =>
    rw [Address.dataPath_concat _ _ rfl, inEntry_concat]
    exact Bool.or_true _
  | keyless h _ hkeyless =>
    rw [Address.dataPath_concat _ _ rfl, inEntry_concat]
    exact Bool.or_true _

/-! ## What the operations do to a key -/

theorem deleteListEntry_matched {children : List TreeNode} {node : TreeNode} {key : Text}
    (h : deleteListEntry before children node = some after)
    (hkey : prefixMatches node.key key = true) :
    after.state key = none ∧ after.lazy key = none := by
  rw [deleteListEntry] at h
  split at h
  · obtain rfl := Option.some.inj h
    exact ⟨dropPrefixProps_of_matches hkey, dropPrefixProps_of_matches hkey⟩
  · exact absurd h (by simp)

theorem deleteListEntry_unmatched {children : List TreeNode} {node : TreeNode} {key : Text}
    (h : deleteListEntry before children node = some after)
    (hkey : ¬ prefixMatches node.key key = true) :
    (after.state key).isSome = (before.state key).isSome ∧ after.lazy key = before.lazy key ∧
      (some node.parent ≠ some key → after.state key = before.state key) := by
  rw [deleteListEntry] at h
  split at h
  next listData hdata =>
    obtain rfl := Option.some.inj h
    refine ⟨?_, dropPrefixProps_of_not hkey, fun hne ↦ ?_⟩
    · simp only [dropPrefixProps_of_not hkey]
      by_cases hparent : key = node.parent
      · rw [hparent, Function.update_self, hdata, Option.isSome_some, Option.isSome_some]
      · rw [Function.update_of_ne hparent]
    · simp only [dropPrefixProps_of_not hkey]
      exact Function.update_of_ne (fun hparent ↦ hne (congrArg some hparent.symm)) _ _
  · exact absurd h (by simp)

theorem deleteList_unmatched {node : TreeNode} {key : Text}
    (h : deleteList before node = some after) (hkey : ¬ prefixMatches node.key key = true) :
    after.state key = before.state key ∧ after.lazy key = before.lazy key := by
  have hne : key ≠ node.key := by
    rintro rfl
    exact hkey (prefixMatches_self _)
  rw [deleteList] at h
  split at h
  · obtain rfl := Option.some.inj h
    refine ⟨?_, dropPrefixProps_of_not hkey⟩
    simp only [initListData]
    rw [Function.update_of_ne hne, dropPrefixProps_of_not hkey, Function.update_of_ne hne]
  · exact absurd h (by simp)

theorem updateChoice_unmatched {node : TreeNode} {key : Text} (value : Scalar)
    (hkey : ¬ prefixMatches node.key key = true) :
    (updateChoice before node value).state key = before.state key ∧
      (updateChoice before node value).lazy key = before.lazy key := by
  have hne : key ≠ node.key := by
    rintro rfl
    exact hkey (prefixMatches_self _)
  refine ⟨?_, dropPrefixProps_of_not hkey⟩
  simp only [updateChoice]
  rw [Function.update_of_ne hne, dropPrefixProps_of_not hkey]

theorem updateContainer_state {node : TreeNode} {key : Text} (value : Scalar)
    (hne : key ≠ node.key) : (updateContainer before node value).state key = before.state key := by
  have hsimple : updateSimple before.state node value key = before.state key := by
    rw [updateSimple]
    split_ifs
    · exact Function.update_of_ne hne _ _
    · exact Function.update_of_ne hne _ _
  rw [updateContainer]
  split_ifs
  · exact hsimple
  · exact hsimple

theorem updateContainer_lazy {node : TreeNode} {value : Scalar} (h : value ≠ .bool true) :
    (updateContainer before node value).lazy = dropPrefixProps before.lazy node.key := by
  rw [updateContainer, if_neg h]

/-! ## When exactly the removed subtree is cleaned -/

/-- Where an operation touches neither what it should remove nor what it should keep, it is right
when there was nothing to remove. -/
theorem Op.cleansExactly_iff_of_untouched {op : Op}
    (hgone : ∀ y ∈ T.nodes, y.1.isData = true → op.Removes x.2 y.2 →
      after.state y.1.key = before.state y.1.key ∧ after.lazy y.1.key = before.lazy y.1.key)
    (hkept : ∀ y ∈ T.nodes, ¬ op.Concerns x.2 y.2 →
      after.state y.1.key = before.state y.1.key ∧ after.lazy y.1.key = before.lazy y.1.key) :
    op.CleansExactly T x before after ↔
      ∀ y ∈ T.nodes, y.1.isData = true → op.Removes x.2 y.2 →
        before.state y.1.key = none ∧ before.lazy y.1.key = none := by
  constructor
  · intro h y hy hdata hrem
    obtain ⟨hstate, hlazy⟩ := hgone y hy hdata hrem
    rw [← hstate, ← hlazy]
    exact h.gone y hy hdata hrem
  · intro h
    refine ⟨fun y hy hdata hrem ↦ ?_, fun y hy hnot ↦ ?_⟩
    · obtain ⟨hstate, hlazy⟩ := hgone y hy hdata hrem
      rw [hstate, hlazy]
      exact h y hy hdata hrem
    · obtain ⟨hstate, hlazy⟩ := hkept y hy hnot
      exact ⟨congrArg Option.isSome hstate, hlazy, fun _ ↦ hstate⟩

theorem deleteListEntry_cleansExactly {children : List TreeNode}
    (htidy : (Op.deleteListEntry children).TidyKeys T x) (hx : x ∈ T.nodes)
    (hkind : x.1.kind = .listEntry)
    (hrun : deleteListEntry before children x.1 = some after) :
    (Op.deleteListEntry children).CleansExactly T x before after := by
  have hdata : x.1.isData = true := by simp [TreeNode.isData, hkind]
  have hlist : x.1.kind ≠ .list := by simp [hkind]
  have hin := (T.generated x hx).inEntry_of_listEntry hkind
  refine ⟨fun y hy _ hrem ↦ deleteListEntry_matched hrun ?_,
    fun y hy hnot ↦ deleteListEntry_unmatched hrun ?_⟩
  · rw [ConfigTree.matches_iff_of_removed hx hy htidy.self (htidy.removed y hy hrem) hdata hlist
      hrem.1 hrem.2, hin]
    exact (inEntry_mono hrem.1 hin).symm
  · exact fun hmatch ↦ hnot (htidy.prefix_of_matches hx hy hmatch)

theorem deleteList_cleansExactly_iff (htidy : Op.deleteList.TidyKeys T x) (hx : x ∈ T.nodes)
    (hrun : deleteList before x.1 = some after) :
    Op.deleteList.CleansExactly T x before after ↔ Op.deleteList.NothingLeft T x before := by
  refine Op.cleansExactly_iff_of_untouched (fun y hy _ hrem ↦ deleteList_unmatched hrun ?_)
    (fun y hy hnot ↦ deleteList_unmatched hrun ?_)
  · -- behind the key of a list the keys of its entries go on with a bracket
    obtain ⟨s, hs, ⟨t, ht⟩, -⟩ := hrem
    intro hmatch
    obtain ⟨-, r, hr, hhead⟩ := ((T.generated x hx).shaped.prefixMatches_iff
      (T.generated y hy).shaped htidy.self (htidy.matched y hy hmatch)).mp hmatch
    obtain rfl : s :: t = r := by
      rw [hr, List.append_assoc] at ht
      exact List.append_cancel_left ht
    rcases hhead with hnil | ⟨q, r', hcons⟩
    · exact absurd hnil (by simp)
    · obtain ⟨rfl, -⟩ := List.cons.inj hcons
      exact absurd hs (by simp [Step.isEntry])
  · exact fun hmatch ↦ hnot (htidy.prefix_of_matches hx hy hmatch)

theorem updateContainer_cleansExactly_iff {value : Scalar}
    (htidy : (Op.updateContainer value).TidyKeys T x) (hx : x ∈ T.nodes)
    (hkind : x.1.kind = .container) (hvalue : value ≠ .bool true) :
    (Op.updateContainer value).CleansExactly T x before (updateContainer before x.1 value) ↔
      (Op.updateContainer value).NothingLeft T x before := by
  have hdata : x.1.isData = true := by simp [TreeNode.isData, hkind]
  have hlist : x.1.kind ≠ .list := by simp [hkind]
  have hlazy : (updateContainer before x.1 value).lazy = dropPrefixProps before.lazy x.1.key :=
    updateContainer_lazy hvalue
  have hiff (y) (hy : y ∈ T.nodes) (hrem : (Op.updateContainer value).Removes x.2 y.2) :
      prefixMatches x.1.key y.1.key = true ↔ inEntry x.2.dataPath = inEntry y.2.dataPath :=
    ConfigTree.matches_iff_of_removed hx hy htidy.self (htidy.removed y hy hrem) hdata hlist
      hrem.1 hrem.2
  constructor
  · intro h y hy hydata hrem
    obtain ⟨hstate, hgone⟩ := h.gone y hy hydata hrem
    refine ⟨?_, fun hne ↦ ?_⟩
    · rwa [updateContainer_state value (htidy.key_ne hx hy hrem.2)] at hstate
    · rw [hlazy, dropPrefixProps_of_not] at hgone
      · exact hgone
      · rwa [hiff y hy hrem]
  · intro h
    refine ⟨fun y hy hydata hrem ↦ ?_, fun y hy hnot ↦ ?_⟩
    · obtain ⟨hstate, hloaded⟩ := h y hy hydata hrem
      refine ⟨?_, ?_⟩
      · rwa [updateContainer_state value (htidy.key_ne hx hy hrem.2)]
      · rw [hlazy]
        -- loaded data is dropped by its key, and other loaded data must not be there
        by_cases hmatch : prefixMatches x.1.key y.1.key = true
        · exact dropPrefixProps_of_matches hmatch
        · rw [dropPrefixProps_of_not hmatch]
          refine hloaded ?_
          rwa [hiff y hy hrem] at hmatch
    · have hne : x.2.dataPath ≠ y.2.dataPath := fun heq ↦ hnot ⟨[], by simpa using heq⟩
      have hstate : (updateContainer before x.1 value).state y.1.key = before.state y.1.key :=
        updateContainer_state value (htidy.key_ne hx hy hne)
      refine ⟨congrArg Option.isSome hstate, ?_, fun _ ↦ hstate⟩
      rw [hlazy]
      exact dropPrefixProps_of_not fun hmatch ↦
        hnot (htidy.prefix_of_matches hx hy hmatch)

theorem updateChoice_cleansExactly_iff {value : Scalar}
    (htidy : (Op.updateChoice value).TidyKeys T x) (hx : x ∈ T.nodes)
    (hname : (Op.updateChoice value).OwnName T x) :
    (Op.updateChoice value).CleansExactly T x before (updateChoice before x.1 value) ↔
      (Op.updateChoice value).NothingLeft T x before := by
  have hunmatched : ∀ y ∈ T.nodes, y.2 ≠ x.2 → ¬ prefixMatches x.1.key y.1.key = true :=
    fun y hy hne hmatch ↦ hname y hy hne (htidy.prefix_of_matches hx hy hmatch)
  refine Op.cleansExactly_iff_of_untouched
    (fun y hy _ hrem ↦ updateChoice_unmatched value (hunmatched y hy ?_))
    (fun y hy hnot ↦ updateChoice_unmatched value (hunmatched y hy ?_))
  · -- a node of a case is behind the choice, not at it
    obtain ⟨base, choice, case, hbase, -, ⟨r, hr⟩⟩ := hrem
    intro heq
    rw [← hr, hbase, List.append_assoc] at heq
    exact absurd (List.append_cancel_left heq) (by simp)
  · exact fun heq ↦ hnot (Or.inl heq.symm)

/-- **Removal cleans exactly the removed subtree**, without quotes and bars in the key values that
it compares, when nothing has been shown or loaded of what the operation forgets. -/
theorem Op.cleansExactly_iff (htidy : op.TidyKeys T x) (hx : x ∈ T.nodes)
    (happlies : op.Applies x.1) (hname : op.OwnName T x) (hrun : op.run before x.1 = some after) :
    op.CleansExactly T x before after ↔ op.NothingLeft T x before := by
  cases op with
  | deleteListEntry children =>
    exact iff_of_true (deleteListEntry_cleansExactly htidy hx happlies hrun) trivial
  | deleteList => exact deleteList_cleansExactly_iff htidy hx hrun
  | updateContainer value =>
    obtain rfl := Option.some.inj hrun
    exact updateContainer_cleansExactly_iff htidy hx happlies.1 happlies.2
  | updateChoice value =>
    obtain rfl := Option.some.inj hrun
    exact updateChoice_cleansExactly_iff htidy hx hname

end Cleaning

/-! ## A list with one entry

The value of a leaf in the only entry of a list is shown. Deleting the entry removes the value,
deleting the list does not. -/

def shownLeafSchema : Schema := .mk .leaf "v".toList "m:v".toList false [] []

def shownEntry : TreeNode := generateListEntry pairList ["a".toList]

def shownEntrySchema : Schema := .mk .list "l".toList "m:l".toList true [shownLeafSchema] []

def shownLeaf : TreeNode := lazyDescendant shownEntry.key shownEntrySchema shownLeafSchema

def shownListAddress : Address := [.child "m:l".toList]

def shownEntryAddress : Address := [.child "m:l".toList, .keys ["a".toList]]

def shownLeafAddress : Address :=
  [.child "m:l".toList, .keys ["a".toList], .child "m:v".toList]

theorem generated_shownLeaf : Generated pairNs shownLeaf shownLeafAddress := by
  have hnamed : shownEntrySchema.Named := by
    intro child hchild
    rw [List.mem_singleton.mp hchild]
    decide
  exact .descendant (generated_pairEntry (List.cons_ne_nil _ _)) (Or.inr (Or.inr rfl)) (by decide)
    hnamed List.mem_cons_self

/-- The kinds of the three nodes by the length of their paths. -/
def shownKindOf : List Step → Kind
  | [_] => .list
  | [_, _] => .listEntry
  | _ => .leaf

def shownTree : ConfigTree where
  ns := pairNs
  nodes := {x | x = (pairList, shownListAddress) ∨ x = (shownEntry, shownEntryAddress) ∨
    x = (shownLeaf, shownLeafAddress)}
  generated x hx := by
    rcases hx with rfl | rfl | rfl
    · exact generated_pairList
    · exact generated_pairEntry (List.cons_ne_nil _ _)
    · exact generated_shownLeaf
  kindOf := shownKindOf
  kind_eq x hx _ := by
    rcases hx with rfl | rfl | rfl
    · rfl
    · rfl
    · rfl
  list_of_entry x hx p s r hpath hs := by
    obtain ⟨t, ht⟩ : x.2.dataPath <+: shownLeafAddress := by
      rcases hx with rfl | rfl | rfl
      · exact ⟨_, rfl⟩
      · exact ⟨_, rfl⟩
      · exact ⟨[], rfl⟩
    rw [hpath, shownLeafAddress, List.append_assoc, List.cons_append] at ht
    -- the only step into an entry is the second one
    rcases p with _ | ⟨p₁, _ | ⟨p₂, _ | ⟨p₃, p⟩⟩⟩
    · obtain ⟨rfl, -⟩ := List.cons.inj ht
      exact absurd hs (by simp [Step.isEntry])
    · rfl
    · simp only [List.cons_append, List.nil_append, List.cons.injEq] at ht
      rw [ht.2.2.1] at hs
      exact absurd hs (by simp [Step.isEntry])
    · simp at ht

def shownContext : Context where
  state := fun key ↦
    if key = pairList.key then
      some (.list { total := 1, position := 0, chunk_size := 10, lh := -1 })
    else if key = shownLeaf.key then some (.scalar (.text "x".toList))
    else none
  lazy := fun _ ↦ none

theorem tidy_shownTree : ∀ x ∈ shownTree.nodes, Tidy x.2.dataPath := by
  rintro x (rfl | rfl | rfl)
  · exact ⟨by decide, by decide⟩
  · exact ⟨by decide, by decide⟩
  · exact ⟨by decide, by decide⟩

theorem shownEntry_cleansExactly :
    ∃ after, (Op.deleteListEntry [shownEntry]).run shownContext shownEntry = some after ∧
      (Op.deleteListEntry [shownEntry]).CleansExactly shownTree (shownEntry, shownEntryAddress)
        shownContext after := by
  have happlies : (Op.deleteListEntry [shownEntry]).Applies shownEntry := rfl
  have htidy : (Op.deleteListEntry [shownEntry]).TidyKeys shownTree
      (shownEntry, shownEntryAddress) :=
    ⟨tidy_shownTree _ (Or.inr (Or.inl rfl)), fun y hy _ ↦ tidy_shownTree y hy,
      fun y hy _ ↦ tidy_shownTree y hy⟩
  refine ⟨_, rfl, ?_⟩
  exact (Op.cleansExactly_iff htidy (Or.inr (Or.inl rfl)) happlies trivial rfl).mpr trivial

theorem shownList_value_left :
    ∃ after, Op.deleteList.run shownContext pairList = some after ∧
      ¬ Op.deleteList.CleansExactly shownTree (pairList, shownListAddress) shownContext after := by
  refine ⟨_, rfl, fun h ↦ ?_⟩
  have hgone := (h.gone (shownLeaf, shownLeafAddress) (Or.inr (Or.inr rfl)) rfl
    ⟨.keys ["a".toList], rfl, ⟨[.child "m:v".toList], rfl⟩, by decide⟩).1
  exact absurd (congrArg Option.isSome hgone) (by decide)

end ConfdDemos.Webui
