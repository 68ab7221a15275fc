import ConfdDemos.Webui.Removal

/-!
# Selecting another case

Selecting a case of a choice deletes the data of the other cases. `updateChoice` goes through their
schema: a node that is not a choice is deleted by its path, and a choice among them is gone through
in the same way, with all of its cases. The path is put together from the tree key of the choice,
cut at its last slash, and the name of the node.

## Paths and tree keys

A tree key is not a path. Outside of lists it begins with the namespace and a bar, and `nodeKeypath`
takes these away; here nothing does. `choiceNodes` are the nodes that the generators would make for
the cases of a choice. What is deleted are the tree keys of these nodes (`deleteCasesExcept_eq`),
so it is their paths exactly when the keys are without a bar, or when there are no such nodes.
-/

namespace ConfdDemos.Webui

/-! ## The paths that are deleted -/

mutual

/-- `deleteCase`, as the paths passed to `deletePath`. -/
def deleteCase (choiceKey : Text) : Schema → List Text
  | .mk _ _ _ _ children _ => deleteChildren choiceKey children

/-- The loop of `deleteCase`. -/
def deleteChildren (choiceKey : Text) : List Schema → List Text
  | [] => []
  | .mk kind _ qname _ _ cases :: rest =>
    let keypath := (splitChoiceKeypath choiceKey).1 ++ '/' :: qname
    (if kind = .choice then deleteCasesExcept keypath .null cases else [keypath])
      ++ deleteChildren choiceKey rest

def deleteCasesExcept (choiceTreeKey : Text) (newCase : Scalar) : List Schema → List Text
  | [] => []
  | caseSchema :: rest =>
    (if .text caseSchema.name ≠ newCase then deleteCase choiceTreeKey caseSchema else [])
      ++ deleteCasesExcept choiceTreeKey newCase rest

end

/-- What `updateChoice` passes to `deletePath`. -/
def updateChoiceDeletes (node : TreeNode) (value : Scalar) : List Text :=
  deleteCasesExcept node.key value node.schema.cases

/-! ## The nodes of a choice -/

mutual

/-- The nodes other than choices that the generators make for a case, and for the choices in it. -/
def caseNodes (choiceKey : Text) : Schema → List TreeNode
  | .mk kind name qname hasKey children cases =>
    childNodes choiceKey (.mk kind name qname hasKey children cases) children

def childNodes (choiceKey : Text) (caseSchema : Schema) : List Schema → List TreeNode
  | [] => []
  | .mk kind name qname hasKey children cases :: rest =>
    let node := lazyDescendant choiceKey caseSchema (.mk kind name qname hasKey children cases)
    (if kind = .choice then choiceNodes node.key cases else [node])
      ++ childNodes choiceKey caseSchema rest

def choiceNodes (choiceKey : Text) : List Schema → List TreeNode
  | [] => []
  | caseSchema :: rest => caseNodes choiceKey caseSchema ++ choiceNodes choiceKey rest

end

/-- The nodes of the cases that are not selected. -/
def droppedNodes (node : TreeNode) (value : Scalar) : List TreeNode :=
  choiceNodes node.key (node.schema.cases.filter fun s ↦ .text s.name ≠ value)

/-- The nodes of the case that is selected. -/
def keptNodes (node : TreeNode) (value : Scalar) : List TreeNode :=
  choiceNodes node.key (node.schema.cases.filter fun s ↦ .text s.name = value)

/-- Exactly the paths of the nodes of the other cases are deleted, each once, and no path of the
selected case. -/
structure DeletesExactly (node : TreeNode) (value : Scalar) : Prop where
  perm : (updateChoiceDeletes node value).Perm ((droppedNodes node value).map nodeKeypath)
  nodup : (updateChoiceDeletes node value).Nodup
  kept : ∀ d ∈ keptNodes node value, nodeKeypath d ∉ updateChoiceDeletes node value

mutual

/-- A case has nodes with YANG names, and so have the choices among them. -/
def Schema.CaseNamed : Schema → Prop
  | .mk kind _ _ _ children _ => kind = .case ∧ Schema.ChildrenNamed children

def Schema.ChildrenNamed : List Schema → Prop
  | [] => True
  | .mk _ _ qname _ _ cases :: rest =>
    Gnmi.isYangName qname = true ∧ Schema.CasesNamed cases ∧ Schema.ChildrenNamed rest

def Schema.CasesNamed : List Schema → Prop
  | [] => True
  | caseSchema :: rest => caseSchema.CaseNamed ∧ Schema.CasesNamed rest

end

section Keys

variable {base : Text}

/-- The key of a node of a case is made from the key of the choice. -/
theorem key_lazyDescendant (base : Text) {q : Text} (hq : '/' ∉ q) {caseSchema : Schema}
    (hcase : caseSchema.kind = .case) (child : Schema) :
    (lazyDescendant (base ++ '/' :: q) caseSchema child).key = base ++ '/' :: child.qname := by
  rw [lazyDescendant, if_pos hcase, splitChoiceKeypath_append hq]

theorem slash_notMem_of_isYangName {q : Text} (h : Gnmi.isYangName q = true) : '/' ∉ q :=
  Gnmi.notMem_of_isYangName h (by decide) (by decide)

mutual

theorem deleteCase_eq {q : Text} (hq : '/' ∉ q) :
    ∀ s : Schema, s.CaseNamed →
      deleteCase (base ++ '/' :: q) s = (caseNodes (base ++ '/' :: q) s).map TreeNode.key
  | .mk kind name qname hasKey children cases, hnamed => by
    rw [deleteCase, caseNodes]
    refine deleteChildren_eq hq _ ?_ children hnamed.2
    exact hnamed.1

theorem deleteChildren_eq {q : Text} (hq : '/' ∉ q) (caseSchema : Schema)
    (hcase : caseSchema.kind = .case) :
    ∀ children : List Schema, Schema.ChildrenNamed children →
      deleteChildren (base ++ '/' :: q) children
        = (childNodes (base ++ '/' :: q) caseSchema children).map TreeNode.key
  | [], _ => by rw [deleteChildren, childNodes, List.map_nil]
  | .mk kind name qname hasKey children cases :: rest, hnamed => by
    obtain ⟨hname, hcases, hrest⟩ := hnamed
    simp only [deleteChildren, childNodes, List.map_append]
    rw [deleteChildren_eq hq caseSchema hcase rest hrest, splitChoiceKeypath_append hq]
    congr 1
    have hkey := key_lazyDescendant base hq hcase
      (.mk kind name qname hasKey children cases)
    split_ifs
    · rw [hkey]
      exact deleteCases_eq (slash_notMem_of_isYangName hname) cases hcases
    · rw [List.map_singleton, hkey]
      rfl

/-- All cases of a choice that is itself in an unselected case. -/
theorem deleteCases_eq {q : Text} (hq : '/' ∉ q) :
    ∀ cases : List Schema, Schema.CasesNamed cases →
      deleteCasesExcept (base ++ '/' :: q) .null cases
        = (choiceNodes (base ++ '/' :: q) cases).map TreeNode.key
  | [], _ => by rw [deleteCasesExcept, choiceNodes, List.map_nil]
  | caseSchema :: rest, hnamed => by
    rw [deleteCasesExcept, choiceNodes, List.map_append, if_pos (by simp),
      deleteCase_eq hq caseSchema hnamed.1, deleteCases_eq hq rest hnamed.2]

end

mutual

theorem key_of_mem_caseNodes {q : Text} (hq : '/' ∉ q) {d : TreeNode} :
    ∀ s : Schema, s.CaseNamed → d ∈ caseNodes (base ++ '/' :: q) s →
      ∃ n, Gnmi.isYangName n = true ∧ d.key = base ++ '/' :: n
  | .mk kind name qname hasKey children cases, hnamed, hd => by
    rw [caseNodes] at hd
    refine key_of_mem_childNodes hq _ ?_ children hnamed.2 hd
    exact hnamed.1

theorem key_of_mem_childNodes {q : Text} (hq : '/' ∉ q) (caseSchema : Schema)
    (hcase : caseSchema.kind = .case) {d : TreeNode} :
    ∀ children : List Schema, Schema.ChildrenNamed children →
      d ∈ childNodes (base ++ '/' :: q) caseSchema children →
      ∃ n, Gnmi.isYangName n = true ∧ d.key = base ++ '/' :: n
  | [], _, hd => by
    rw [childNodes] at hd
    exact absurd hd List.not_mem_nil
  | .mk kind name qname hasKey children cases :: rest, hnamed, hd => by
    obtain ⟨hname, hcases, hrest⟩ := hnamed
    simp only [childNodes, List.mem_append] at hd
    rcases hd with hd | hd
    · have hkey := key_lazyDescendant base hq hcase
        (.mk kind name qname hasKey children cases)
      split_ifs at hd
      · rw [hkey] at hd
        exact key_of_mem_choiceNodes (slash_notMem_of_isYangName hname) cases hcases hd
      · rw [List.mem_singleton.mp hd]
        exact ⟨qname, hname, hkey⟩
    · exact key_of_mem_childNodes hq caseSchema hcase rest hrest hd

theorem key_of_mem_choiceNodes {q : Text} (hq : '/' ∉ q) {d : TreeNode} :
    ∀ cases : List Schema, Schema.CasesNamed cases →
      d ∈ choiceNodes (base ++ '/' :: q) cases →
      ∃ n, Gnmi.isYangName n = true ∧ d.key = base ++ '/' :: n
  | [], _, hd => by
    rw [choiceNodes] at hd
    exact absurd hd List.not_mem_nil
  | caseSchema :: rest, hnamed, hd => by
    rw [choiceNodes, List.mem_append] at hd
    rcases hd with hd | hd
    · exact key_of_mem_caseNodes hq caseSchema hnamed.1 hd
    · exact key_of_mem_choiceNodes hq rest hnamed.2 hd

end

end Keys

/-! ## The case switch -/

section Switch

variable {ns : Namespace} {node : TreeNode} {a : Address} {value : Scalar}

theorem choiceNodes_eq_flatMap (choiceKey : Text) (cases : List Schema) :
    choiceNodes choiceKey cases = cases.flatMap (caseNodes choiceKey) := by
  induction cases with
  | nil => rw [choiceNodes, List.flatMap_nil]
  | cons caseSchema cases ih => rw [choiceNodes, ih, List.flatMap_cons]

theorem Schema.CasesNamed.filter {cases : List Schema} (h : Schema.CasesNamed cases)
    (p : Schema → Bool) : Schema.CasesNamed (cases.filter p) := by
  induction cases with
  | nil => exact h
  | cons caseSchema cases ih =>
    rw [List.filter_cons]
    split_ifs
    · exact ⟨h.1, ih h.2⟩
    · exact ih h.2

/-- What is deleted for a choice are the keys of the nodes of the other cases. -/
theorem deleteCasesExcept_eq {base q : Text} (hq : '/' ∉ q) {cases : List Schema}
    (hnamed : Schema.CasesNamed cases) :
    deleteCasesExcept (base ++ '/' :: q) value cases
      = (choiceNodes (base ++ '/' :: q) (cases.filter fun s ↦ .text s.name ≠ value)).map
          TreeNode.key := by
  induction cases with
  | nil => rw [deleteCasesExcept, List.filter_nil, choiceNodes, List.map_nil]
  | cons caseSchema cases ih =>
    rw [deleteCasesExcept, ih hnamed.2, List.filter_cons]
    by_cases hne : .text caseSchema.name ≠ value
    · rw [if_pos hne, if_pos (by simpa using hne), choiceNodes, List.map_append,
        deleteCase_eq hq caseSchema hnamed.1]
    · rw [if_neg hne, if_neg (by simpa using hne), List.nil_append]

/-- The key of a choice ends in its name. -/
theorem Generated.exists_choice_key (h : Generated ns node a) (hkind : node.kind = .choice) :
    ∃ base q, Gnmi.isYangName q = true ∧ node.key = base ++ '/' :: q := by
  cases h with
  | top data => exact absurd hkind (by simp [generateToplevelNode])
  | descendant h _ hs hnamed hchild => exact ⟨_, _, (hnamed _ hchild).1, rfl⟩
  | selected h _ hcase hs hnamed hchild => exact ⟨_, _, (hnamed _ hchild).1, rfl⟩
  | entry h _ _ _ => exact absurd hkind (by simp [generateListEntry])
  | keyless h _ _ => exact absurd hkind (by simp [generateListEntry])

theorem count_key {base n : Text} (hn : Gnmi.isYangName n = true) :
    (base ++ '/' :: n).count '|' = base.count '|' := by
  have hbar : '|' ∉ n := Gnmi.notMem_of_isYangName hn (by decide) (by decide)
  rw [List.count_append, List.count_cons_of_ne (by decide), List.count_eq_zero.mpr hbar,
    Nat.add_zero]

/-- The keys of the nodes of a choice have as many bars as its own. -/
theorem count_of_mem_choiceNodes (h : Generated ns node a) (hkind : node.kind = .choice)
    {cases : List Schema} (hnamed : Schema.CasesNamed cases) {d : TreeNode}
    (hd : d ∈ choiceNodes node.key cases) : d.key.count '|' = node.key.count '|' := by
  obtain ⟨base, q, hq, hkey⟩ := h.exists_choice_key hkind
  rw [hkey] at hd ⊢
  obtain ⟨n, hn, hdkey⟩ := key_of_mem_choiceNodes (slash_notMem_of_isYangName hq) cases hnamed hd
  rw [hdkey, count_key hn, count_key hq]

/-- Without a bar in its own key, the nodes of a choice have their paths as keys. -/
theorem nodeKeypath_of_mem_choiceNodes (h : Generated ns node a) (hkind : node.kind = .choice)
    (hbar : '|' ∉ node.key) {cases : List Schema} (hnamed : Schema.CasesNamed cases)
    {d : TreeNode} (hd : d ∈ choiceNodes node.key cases) : nodeKeypath d = d.key := by
  rw [nodeKeypath, treeKeyToKeypath_of_notMem]
  rw [← List.count_eq_zero, count_of_mem_choiceNodes h hkind hnamed hd]
  exact List.count_eq_zero.mpr hbar

/-- The nodes of a choice are those of the selected case and those of the others. -/
theorem choiceNodes_perm (node : TreeNode) (value : Scalar) :
    (choiceNodes node.key node.schema.cases).Perm
      (keptNodes node value ++ droppedNodes node value) := by
  rw [keptNodes, droppedNodes, choiceNodes_eq_flatMap, choiceNodes_eq_flatMap,
    choiceNodes_eq_flatMap, ← List.flatMap_append]
  refine List.Perm.flatMap_right _ ?_
  have hperm := List.filter_append_perm (fun s ↦ decide (Scalar.text s.name = value))
    node.schema.cases
  simpa using hperm.symm

/-- **Case switch.** The paths deleted are right exactly when the tree key of the choice is without
a bar, or when the other cases have no nodes. -/
theorem updateChoice_deletesExactly_iff (h : Generated ns node a) (hkind : node.kind = .choice)
    (hnamed : Schema.CasesNamed node.schema.cases)
    (hdistinct : ((choiceNodes node.key node.schema.cases).map TreeNode.key).Nodup) :
    DeletesExactly node value ↔ '|' ∉ node.key ∨ droppedNodes node value = [] := by
  have hdel : updateChoiceDeletes node value = (droppedNodes node value).map TreeNode.key := by
    obtain ⟨base, q, hq, hkey⟩ := h.exists_choice_key hkind
    rw [updateChoiceDeletes, droppedNodes, hkey]
    exact deleteCasesExcept_eq (slash_notMem_of_isYangName hq) hnamed
  have hcount : ∀ d ∈ droppedNodes node value, d.key.count '|' = node.key.count '|' := fun d ↦
    count_of_mem_choiceNodes h hkind (hnamed.filter _)
  constructor
  · rintro ⟨hperm, -, -⟩
    by_contra hnot
    obtain ⟨hbar, hne⟩ := not_or.mp hnot
    obtain ⟨d, rest, hdrop⟩ := List.exists_cons_of_ne_nil hne
    have hd : d ∈ droppedNodes node value := hdrop ▸ List.mem_cons_self
    -- the key of this node would be the path of some node, which has fewer bars
    have hmem := hperm.mem_iff.mp (hdel ▸ List.mem_map_of_mem hd)
    obtain ⟨d', hd', hpath⟩ := List.mem_map.mp hmem
    have heq := hcount d hd
    have heq' := hcount d' hd'
    have hpos : 0 < node.key.count '|' := List.count_pos_iff.mpr (not_not.mp hbar)
    have hlt := count_treeKeyToKeypath_lt (List.count_pos_iff.mp (heq' ▸ hpos))
    rw [nodeKeypath] at hpath
    rw [hpath] at hlt
    omega
  · rintro (hbar | hnil)
    · have hall := ((choiceNodes_perm node value).map TreeNode.key).nodup_iff.mp hdistinct
      rw [List.map_append, List.nodup_append] at hall
      obtain ⟨-, hdropped, hdisjoint⟩ := hall
      have hpath : ∀ d ∈ droppedNodes node value, nodeKeypath d = d.key := fun d ↦
        nodeKeypath_of_mem_choiceNodes h hkind hbar (hnamed.filter _)
      refine ⟨?_, hdel ▸ hdropped, fun d hd ↦ ?_⟩
      · rw [hdel, List.map_congr_left hpath]
      · rw [hdel, nodeKeypath_of_mem_choiceNodes h hkind hbar (hnamed.filter _) hd]
        exact fun hmem ↦ hdisjoint _ (List.mem_map_of_mem hd) _ hmem rfl
    · rw [hnil, List.map_nil] at hdel
      refine ⟨?_, ?_, fun d _ ↦ ?_⟩
      · rw [hdel, hnil, List.map_nil]
      · rw [hdel]
        exact List.nodup_nil
      · rw [hdel]
        exact List.not_mem_nil

end Switch

/-! ## A choice outside and inside of a list -/

def leafSchema (name : String) : Schema := .mk .leaf name.toList name.toList false [] []

/-- A choice between two cases, one of which contains another choice. -/
def transportSchema : Schema :=
  .mk .choice "transport".toList "m:transport".toList false []
    [.mk .case "tcp".toList [] false [leafSchema "m:port"] [],
      .mk .case "udp".toList [] false
        [leafSchema "m:size",
          .mk .choice "mode".toList "m:mode".toList false []
            [.mk .case "plain".toList [] false [leafSchema "m:retry"] []]] []]

/-- The choice in something with the tree key `path`. -/
def transportNode (path : Text) : TreeNode :=
  lazyDescendant path (.mk .container [] [] false [transportSchema] []) transportSchema

theorem casesNamed_transport (path : Text) :
    Schema.CasesNamed (transportNode path).schema.cases := by
  refine ⟨⟨rfl, by decide, trivial, trivial⟩, ⟨rfl, by decide, trivial, by decide, ?_, trivial⟩,
    trivial⟩
  exact ⟨⟨rfl, by decide, trivial, trivial⟩, trivial⟩

theorem generated_transport {parent : TreeNode} {a : Address} (h : Generated pairNs parent a)
    (hkind : parent.kind = .root ∨ parent.kind = .container ∨ parent.kind = .listEntry) :
    Generated pairNs (transportNode parent.key) (a ++ [.child "m:transport".toList]) := by
  refine .descendant h hkind (by decide) ?_ List.mem_cons_self
  intro child hchild
  rw [List.mem_singleton.mp hchild]
  decide

/-- In an entry of a list the paths are right. -/
theorem deletesExactly_inEntry :
    let node := transportNode (generateListEntry pairList ["a".toList]).key
    updateChoiceDeletes node (.text "tcp".toList)
        = ["/m:l\x7b\"a\"\x7d/m:size".toList, "/m:l\x7b\"a\"\x7d/m:retry".toList] ∧
      DeletesExactly node (.text "tcp".toList) := by
  refine ⟨by decide, ?_⟩
  refine (updateChoice_deletesExactly_iff
    (generated_transport (generated_pairEntry (List.cons_ne_nil _ _)) (Or.inr (Or.inr rfl))) rfl
    (casesNamed_transport _) (by decide)).mpr (Or.inl (by decide))

/-- Right below the root of the module, the namespace is in front of the path. -/
theorem not_deletesExactly_toplevel :
    let node := transportNode (generateToplevelNode pairNs.uri pairData).1.key
    Generated pairNs node [.child "m:transport".toList] ∧
      updateChoiceDeletes node (.text "udp".toList) = ["urn:m|/m:port".toList] ∧
      (droppedNodes node (.text "udp".toList)).map nodeKeypath = ["/m:port".toList] ∧
      ¬ DeletesExactly node (.text "udp".toList) := by
  refine ⟨generated_transport (.top pairData) (Or.inl rfl), by decide, by decide, ?_⟩
  rintro ⟨hperm, -, -⟩
  exact absurd (hperm.mem_iff.mp (show "urn:m|/m:port".toList ∈ _ by decide)) (by decide)

end ConfdDemos.Webui
