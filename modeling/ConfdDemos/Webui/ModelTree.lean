import ConfdDemos.Webui.TypeTree

/-!
# The tree of a module

The schema of a module is shown as a tree that is built in one go. A node of the schema has the
nodes right below it either as its `children` or, if it is a choice, as its `cases`; the tree makes
no difference between the two.

## Keys

The key of a node is the key of the node above it, a slash and the qualified name of the node, and
at the top there is nothing above. The key of the root is that of no other node, since it does not
start with a slash.

## Results

`generateModelNodes_mirrors`: the tree has the nodes of the schema in their order, and no two of
them have the same key.
-/

namespace ConfdDemos.Webui

variable {ω : Type*}

/-- A node of the schema; `other` is what the generator does not look at. -/
inductive YangSchemaNode (ω : Type*)
  | mk (name qname : Text) (other : ω) (children cases : Option (List (YangSchemaNode ω)))

namespace YangSchemaNode

def name : YangSchemaNode ω → Text
  | mk name _ _ _ _ => name

def qname : YangSchemaNode ω → Text
  | mk _ qname _ _ _ => qname

def children : YangSchemaNode ω → Option (List (YangSchemaNode ω))
  | mk _ _ _ children _ => children

def cases : YangSchemaNode ω → Option (List (YangSchemaNode ω))
  | mk _ _ _ _ cases => cases

/-- The same properties, except for `children`. -/
def cloneSansChildren : YangSchemaNode ω → YangSchemaNode ω
  | mk name qname other _ cases => mk name qname other none cases

/-- The nodes right below a node. -/
def nested (s : YangSchemaNode ω) : List (YangSchemaNode ω) :=
  s.children.getD [] ++ s.cases.getD []

end YangSchemaNode

/-- The schema of a module. -/
structure YangModuleSchema (ω : Type*) where
  children : Option (List (YangSchemaNode ω))

/-! ## The generator -/

mutual

def genTreeNode : YangSchemaNode ω → Text → ViewNode (YangSchemaNode ω)
  | .mk name qname other children cases, parentKey =>
    .mk (parentKey ++ '/' :: qname) name .default
      (some (YangSchemaNode.cloneSansChildren (.mk name qname other children cases)))
      (match children with
        | some nestedNode => genTreeNodes nestedNode (parentKey ++ '/' :: qname)
        | none => match cases with
          | some nestedNode => genTreeNodes nestedNode (parentKey ++ '/' :: qname)
          | none => [])

def genTreeNodes : List (YangSchemaNode ω) → Text → List (ViewNode (YangSchemaNode ω))
  | [], _ => []
  | node :: nodes, parentKey => genTreeNode node parentKey :: genTreeNodes nodes parentKey

end

def genModuleChildren (childrenSchema : List (YangSchemaNode ω)) :
    List (ViewNode (YangSchemaNode ω)) :=
  genTreeNodes childrenSchema []

def moduleRoot : Text := "module/".toList

def moduleKey (moduleName : Text) : Text := moduleRoot ++ moduleName

def generateModelNodes (moduleName : Text) (schema : YangModuleSchema ω) :
    List (ViewNode (YangSchemaNode ω)) :=
  let children := match schema.children with
    | some childrenSchema =>
      if 0 < childrenSchema.length then genModuleChildren childrenSchema else []
    | none => []
  [.mk (moduleKey moduleName) moduleName .root none children]

/-! ## What the tree has to be -/

/-- Below each node the names are different and without slashes, and no node has both children and
cases. -/
inductive WellNamed : List (YangSchemaNode ω) → Prop
  | mk {nodes : List (YangSchemaNode ω)} (hnodup : (nodes.map YangSchemaNode.qname).Nodup)
      (hslash : ∀ s ∈ nodes, '/' ∉ s.qname) (hone : ∀ s ∈ nodes, s.children = none ∨ s.cases = none)
      (hnested : ∀ s ∈ nodes, WellNamed s.nested) : WellNamed nodes

/-- The nodes of the tree, in the order of the schema and with the same nodes below. -/
inductive Mirrors : List (YangSchemaNode ω) → List (ViewNode (YangSchemaNode ω)) → Prop
  | nil : Mirrors [] []
  | cons {s : YangSchemaNode ω} {nodes : List (YangSchemaNode ω)} {t : ViewNode (YangSchemaNode ω)}
      {trees : List (ViewNode (YangSchemaNode ω))} (hlabel : t.label = s.name)
      (hschema : t.schema = some s.cloneSansChildren) (hbelow : Mirrors s.nested t.children)
      (hrest : Mirrors nodes trees) : Mirrors (s :: nodes) (t :: trees)

mutual

/-- The keys in a tree. -/
def ViewNode.keys {σ : Type*} : ViewNode σ → List Text
  | .mk key _ _ _ children => key :: keysBelow children

def keysBelow {σ : Type*} : List (ViewNode σ) → List Text
  | [] => []
  | t :: trees => t.keys ++ keysBelow trees

end

/-! ## The nodes -/

variable {s : YangSchemaNode ω} {nodes : List (YangSchemaNode ω)} {parentKey : Text}

/-- Whichever property the nodes below stand in, they are taken from there. -/
theorem genTreeNode_eq (h : s.children = none ∨ s.cases = none) (parentKey : Text) :
    genTreeNode s parentKey = .mk (parentKey ++ '/' :: s.qname) s.name .default
      (some s.cloneSansChildren) (genTreeNodes s.nested (parentKey ++ '/' :: s.qname)) := by
  rcases s with ⟨name, qname, other, - | children, cases⟩
  · rcases cases with - | cases
    · rfl
    · rfl
  · obtain rfl : cases = none := h.resolve_left (Option.some_ne_none children)
    rw [YangSchemaNode.nested]
    exact congrArg _ (congrArg (genTreeNodes · _) (List.append_nil children).symm)

theorem genTreeNodes_eq_map (nodes : List (YangSchemaNode ω)) (parentKey : Text) :
    genTreeNodes nodes parentKey = nodes.map (genTreeNode · parentKey) := by
  induction nodes with
  | nil => rw [genTreeNodes, List.map_nil]
  | cons s nodes ih => rw [genTreeNodes, List.map_cons, ih]

theorem mirrors_genTreeNodes (h : WellNamed nodes) (parentKey : Text) :
    Mirrors nodes (genTreeNodes nodes parentKey) := by
  induction h generalizing parentKey with
  | @mk nodes hnodup hslash hone hnested ih =>
    clear hnodup hslash hnested
    induction nodes with
    | nil =>
      rw [genTreeNodes]
      exact .nil
    | cons s nodes ihnodes =>
      rw [genTreeNodes, genTreeNode_eq (hone s List.mem_cons_self)]
      refine .cons rfl rfl (ih s List.mem_cons_self _) (ihnodes ?_ ?_)
      · exact fun s' hs' ↦ hone s' (List.mem_cons_of_mem _ hs')
      · exact fun s' hs' ↦ ih s' (List.mem_cons_of_mem _ hs')

/-! ## The keys -/

theorem keysBelow_eq_flatMap {σ : Type*} (trees : List (ViewNode σ)) :
    keysBelow trees = trees.flatMap ViewNode.keys := by
  induction trees with
  | nil => rw [keysBelow, List.flatMap_nil]
  | cons t trees ih => rw [keysBelow, List.flatMap_cons, ih]

/-- A key in the tree of a node, where `key` is that of the node itself. -/
def KeyIn (key k : Text) : Prop := k = key ∨ ∃ rest, k = key ++ '/' :: rest

theorem KeyIn.below {key name k : Text} (h : KeyIn (key ++ '/' :: name) k) :
    ∃ rest, k = key ++ '/' :: rest := by
  rcases h with rfl | ⟨rest, rfl⟩
  · exact ⟨name, rfl⟩
  · exact ⟨name ++ '/' :: rest, by rw [List.append_assoc, List.cons_append]⟩

/-- Different names without slashes have different keys below them. -/
theorem KeyIn.name_eq {key name name' k : Text} (h : KeyIn (key ++ '/' :: name) k)
    (h' : KeyIn (key ++ '/' :: name') k) (hname : '/' ∉ name) (hname' : '/' ∉ name') :
    name = name' := by
  have hcut : ∀ {name : Text}, '/' ∉ name → KeyIn (key ++ '/' :: name) k →
      (k.drop (key.length + 1)).takeWhile (· != '/') = name := by
    intro name hname h
    have hall : ∀ c ∈ name, (c != '/') = true := fun c hc ↦
      bne_iff_ne.mpr fun heq ↦ hname (heq ▸ hc)
    rcases h with rfl | ⟨rest, rfl⟩
    · rw [List.drop_append, List.drop_of_length_le (Nat.le_succ _), Nat.add_sub_cancel_left]
      simpa using hall
    · rw [List.append_assoc, List.drop_append, List.drop_of_length_le (Nat.le_succ _),
        Nat.add_sub_cancel_left]
      simp only [List.nil_append, List.cons_append, List.drop_succ_cons, List.drop_zero]
      rw [List.takeWhile_append_of_pos hall]
      simp
  exact (hcut hname h).symm.trans (hcut hname' h')

theorem keys_genTreeNode (h : s.children = none ∨ s.cases = none) (parentKey : Text) :
    (genTreeNode s parentKey).keys = (parentKey ++ '/' :: s.qname) ::
      keysBelow (genTreeNodes s.nested (parentKey ++ '/' :: s.qname)) := by
  rw [genTreeNode_eq h, ViewNode.keys]

/-- All keys below a node are prolonged from the key of the node. -/
theorem keyIn_of_mem_keysBelow (h : WellNamed nodes) {k : Text}
    (hk : k ∈ keysBelow (genTreeNodes nodes parentKey)) : ∃ rest, k = parentKey ++ '/' :: rest := by
  induction h generalizing parentKey with
  | mk hnodup hslash hone hnested ih =>
    rw [keysBelow_eq_flatMap, genTreeNodes_eq_map, List.flatMap_map, List.mem_flatMap] at hk
    obtain ⟨s, hs, hk⟩ := hk
    rw [keys_genTreeNode (hone s hs), List.mem_cons] at hk
    exact KeyIn.below (hk.imp_right (ih s hs))

theorem nodup_keysBelow (h : WellNamed nodes) (parentKey : Text) :
    (keysBelow (genTreeNodes nodes parentKey)).Nodup := by
  induction h generalizing parentKey with
  | @mk nodes hnodup hslash hone hnested ih =>
    have hkeyIn : ∀ s ∈ nodes, ∀ k ∈ (genTreeNode s parentKey).keys,
        KeyIn (parentKey ++ '/' :: s.qname) k := by
      intro s hs k hk
      rw [keys_genTreeNode (hone s hs), List.mem_cons] at hk
      exact hk.imp_right (keyIn_of_mem_keysBelow (hnested s hs))
    rw [keysBelow_eq_flatMap, genTreeNodes_eq_map, List.flatMap_map, List.nodup_flatMap]
    refine ⟨fun s hs ↦ ?_, ?_⟩
    · rw [keys_genTreeNode (hone s hs), List.nodup_cons]
      refine ⟨fun hmem ↦ ?_, ih s hs _⟩
      obtain ⟨rest, hrest⟩ := keyIn_of_mem_keysBelow (hnested s hs) hmem
      exact absurd (List.self_eq_append_right.mp hrest) (List.cons_ne_nil _ _)
    · refine ((List.pairwise_map.mp hnodup).imp_of_mem fun hs hs' hne ↦ ?_)
      intro k hk hk'
      exact hne ((hkeyIn _ hs k hk).name_eq (hkeyIn _ hs' k hk') (hslash _ hs) (hslash _ hs'))

/-- The tree of a module has one node for each node of its schema, with the same nodes below it in
the same order, and the keys are all different. -/
theorem generateModelNodes_mirrors (moduleName : Text) (schema : YangModuleSchema ω)
    (h : WellNamed (schema.children.getD [])) :
    ∃ root, generateModelNodes moduleName schema = [root] ∧ root.label = moduleName ∧
      Mirrors (schema.children.getD []) root.children ∧ root.keys.Nodup := by
  have hroot : generateModelNodes moduleName schema =
      [.mk (moduleKey moduleName) moduleName .root none
        (genTreeNodes (schema.children.getD []) [])] := by
    rcases schema with ⟨- | ⟨- | ⟨s, nodes⟩⟩⟩
    · rw [Option.getD_none, genTreeNodes]
      rfl
    · rw [Option.getD_some, genTreeNodes]
      rfl
    · rfl
  refine ⟨_, hroot, rfl, mirrors_genTreeNodes h [], ?_⟩
  rw [ViewNode.keys, List.nodup_cons]
  refine ⟨fun hmem ↦ ?_, nodup_keysBelow h []⟩
  obtain ⟨rest, hrest⟩ := keyIn_of_mem_keysBelow h hmem
  have hhead := congrArg List.head? hrest
  have hm : List.head? moduleRoot = some 'm' := rfl
  rw [moduleKey, List.head?_append, hm, Option.some_or] at hhead
  exact absurd (Option.some.inj hhead) (by decide)

/-- A module with a container, a leaf in it, and a choice with two cases. -/
def sampleModule : YangModuleSchema Unit where
  children := some
    [.mk "c".toList "c".toList () (some [.mk "l".toList "l".toList () none none]) none,
      .mk "o".toList "o".toList () none
        (some [.mk "a".toList "a".toList () none none, .mk "b".toList "b".toList () none none])]

theorem wellNamed_nil : WellNamed ([] : List (YangSchemaNode ω)) :=
  .mk List.nodup_nil (by simp) (by simp) (by simp)

theorem sampleModule_wellNamed : WellNamed (sampleModule.children.getD []) := by
  refine .mk (by decide) ?_ ?_ ?_
  all_goals
    simp only [sampleModule, Option.getD_some, List.forall_mem_cons]
  · exact ⟨by decide, by decide, by simp⟩
  · exact ⟨.inr rfl, .inl rfl, by simp⟩
  · refine ⟨.mk (by decide) ?_ ?_ ?_, .mk (by decide) ?_ ?_ ?_, by simp⟩
    all_goals
      simp only [YangSchemaNode.nested, YangSchemaNode.children, YangSchemaNode.cases,
        Option.getD_some, Option.getD_none, List.append_nil, List.nil_append, List.forall_mem_cons]
    · exact ⟨by decide, by simp⟩
    · simp
    · exact ⟨wellNamed_nil, by simp⟩
    · exact ⟨by decide, by decide, by simp⟩
    · simp
    · exact ⟨wellNamed_nil, wellNamed_nil, by simp⟩

theorem generateModelNodes_sampleModule :
    ∃ root, generateModelNodes "m".toList sampleModule = [root] ∧ root.label = "m".toList ∧
      Mirrors (sampleModule.children.getD []) root.children ∧ root.keys.Nodup :=
  generateModelNodes_mirrors _ sampleModule sampleModule_wellNamed

end ConfdDemos.Webui
