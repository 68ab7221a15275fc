import ConfdDemos.AnnStmt.Extraction

/-!
# Converting annotations

Annotations come in two forms. `tailf:annotate` names a node of the compiled schema by a path, and
`tailf:annotate-statement` names statements of the module, one inside of the other. The script
converts the first form to the second. It looks in the YIN form of the module for all statements
with the name at the end of the path, and then climbs from these, step by step of the path: a
candidate whose parent does not have the right name is given up, and the others get the annotation
of the parent around them.

## Candidates

There are two lists, of the statements reached so far and of the annotations made for them. A loop
goes over copies of them and edits the lists themselves at an index, which it counts up by hand.
`Search` is the state of these loops. Where the script would raise an exception the result is
`none`.

## What is left out

Reading and writing the files is not modelled, nor is what is done at the end to the marks that are
left around choices.
-/

namespace ConfdDemos.Ann2Ann

open AnnStmt

/-! ## Documents -/

/-- An element of a document, with the elements above it up to the root. The document itself has
none. -/
structure Tag where
  chain : List Item
  deriving DecidableEq

namespace Tag

def name (t : Tag) : Text :=
  match t.chain with
  | [] => "[document]".toList
  | a :: _ => a.name

def attr (t : Tag) (key : String) : Option Text :=
  match t.chain with
  | [] => none
  | a :: _ => a.attrs.lookup key.toList

/-- The document is never asked for what is above it. -/
def parent (t : Tag) : Tag := ⟨t.chain.tail⟩

end Tag

/-- The elements of a document below those in `up`, in document order. -/
def tags : List Item → Xml → List Tag
  | _, .nil => []
  | up, .node (.text _) _ r => tags up r
  | up, .node (.element name attrs) c r =>
    ⟨.element name attrs :: up⟩ :: (tags (.element name attrs :: up) c ++ tags up r)

/-- What is done to the files before they are parsed. -/
def trimIn (t : Text) : Text := replace (replace t "name=" "yname=") "target-node=" "target_node="

/-- The module as it is parsed. -/
def document (m : YinModule) : Xml :=
  (Forest.node m.root m.body .nil).map (Item.substitute trimIn)

def moduleSoup (m : YinModule) : List Tag := tags [] (document m)

/-- A search for no name finds the elements without one. -/
def hasName (name : Text) (t : Tag) : Bool :=
  match t.attr "yname" with
  | none => name == []
  | some value => value == name

/-! ## Paths -/

def lastName (pathTag : Text) : Text := (pathTag.splitOn ':').getLastD []

def firstName (pathTag : Text) : Text := (pathTag.splitOn ':').headD []

/-- The name at the end of the target of an augment. -/
def targetName (target : Text) : Text := lastName ((target.splitOn '/').getLastD [])

/-- The slash in front of a path makes a first tag that is empty. -/
def splitPath (path : Text) : List Text :=
  match path.splitOn '/' with
  | [] :: pathTags => pathTags
  | pathTags => pathTags

/-! ## Annotations -/

def statementPath (keyword value : Text) : Text :=
  keyword ++ "[name='".toList ++ value ++ "']".toList

def annotateStatement (statementPath : Text) (content : Xml) : Xml :=
  element "tailf:annotate-statement" [("statement_path".toList, statementPath)] content

/-- The choice that is left out of a path stays marked. -/
def removeNextNode (extraChoiceNode : Text) (content : Xml) : Xml :=
  element "remove_next_node" [("extra_choice_node".toList, extraChoiceNode)] content

/-- What comes out of a search: the one annotation, or all of them as conflicts, or a mark that the
path was skipped. -/
def present (target : Text) (annNodes : List Xml) : Xml :=
  match annNodes with
  | [] => element "skipped" [("target".toList, target)] .nil
  | [annNode] => annNode
  | _ => concat (annNodes.zipIdx.map fun x ↦
      element "conflict" [("number".toList, (toString (x.2 + 1)).toList ++ " of ".toList ++
        (toString annNodes.length).toList)] x.1)

/-! ## Climbing -/

structure Search where
  pathTags : List Text
  pathTagName : Text
  moduleNodes : List Tag
  annNodes : List Xml
  tmpNodes : List Xml
  index : ℕ
  deriving DecidableEq

namespace Search

/-- The candidate at the index becomes another one. -/
def put (s : Search) (moduleNode : Tag) (annNode : Xml) : Search :=
  { s with
    moduleNodes := s.moduleNodes.set s.index moduleNode
    annNodes := s.annNodes.set s.index annNode
    index := s.index + 1 }

/-- The candidate at the index is deleted, and the index stays. -/
def del (s : Search) : Search :=
  { s with
    moduleNodes := s.moduleNodes.eraseIdx s.index
    annNodes := s.annNodes.eraseIdx s.index }

/-- A candidate for the annotations that are set aside. -/
def aside (s : Search) (annNode : Xml) : Search := { s with tmpNodes := s.tmpNodes ++ [annNode] }

@[simp]
theorem put_pathTags (s : Search) (t : Tag) (x : Xml) : (s.put t x).pathTags = s.pathTags := rfl

@[simp]
theorem del_pathTags (s : Search) : s.del.pathTags = s.pathTags := rfl

@[simp]
theorem aside_pathTags (s : Search) (x : Xml) : (s.aside x).pathTags = s.pathTags := rfl

end Search

/-- An element has a keyword and a name. It is asked for the name only if it has the keyword. -/
def isNamed (t : Tag) (keyword : String) (name : Text) : Option Bool :=
  if t.name = keyword.toList then (t.attr "yname").map (· == name) else some false

/-- A choice without a case, between a candidate and the element the path goes on with. -/
def skipsCase (s : Search) (moduleNode : Tag) : Option Bool := do
  let above ← isNamed moduleNode.parent "choice" s.pathTagName
  let here ← if above then some true else isNamed moduleNode "choice" s.pathTagName
  let next ← if here then some true else
    match s.pathTags.getLast? with
    | none => some false
    | some pathTag => isNamed moduleNode.parent "choice" (lastName pathTag)
  some (next && moduleNode.name != "case".toList)

/-- A grouping is not used at all, or it is used where the path goes on, or that cannot be told. -/
def isUsed (soup : List Tag) (usesName pathTagName : Text) : Bool :=
  let usesNodes := soup.filter fun t ↦ t.name == "uses".toList && hasName usesName t
  usesNodes.isEmpty || usesNodes.any fun t ↦
    match t.parent.attr "yname", t.parent.attr "target_node" with
    | some name, some target =>
      if t.parent.name = "grouping".toList then targetName target == pathTagName
      else name == pathTagName
    | some name, none => t.parent.name = "grouping".toList || name == pathTagName
    | none, some target => targetName target == pathTagName
    | none, none => true

/-- A candidate is compared with the path, as long as that is in the module. -/
def climb (soup : List Tag) (s : Search) (moduleNode : Tag) : Option Search := do
  let annNode ← s.annNodes[s.index]?
  if ← skipsCase s moduleNode then
    let parentName ← moduleNode.parent.attr "yname"
    let path := statementPath moduleNode.parent.name parentName
    if moduleNode.parent.name = "choice".toList ∧ parentName = s.pathTagName then
      let name ← moduleNode.attr "yname"
      some (s.put moduleNode.parent (annotateStatement path (removeNextNode name annNode)))
    else
      let pathTag ← s.pathTags.getLast?
      let s := { s with pathTags := s.pathTags.dropLast, pathTagName := lastName pathTag }
      some (s.put moduleNode.parent (annotateStatement path annNode))
  else if moduleNode.parent.attr "yname" = some s.pathTagName then
    let path := statementPath moduleNode.parent.name s.pathTagName
    some (s.put moduleNode.parent (annotateStatement path annNode))
  else if moduleNode.parent.name = "grouping".toList then
    let usesName ← moduleNode.parent.attr "yname"
    let path := statementPath moduleNode.parent.name usesName
    if isUsed soup usesName s.pathTagName then
      some (s.aside (annotateStatement path annNode)).del
    else some s.del
  else if moduleNode.parent.name = "augment".toList then
    let target ← moduleNode.parent.attr "target_node"
    let path := statementPath moduleNode.parent.name target
    if targetName target = s.pathTagName then
      some (s.aside (annotateStatement path annNode)).del
    else some s.del
  else some s.del

/-- A candidate at the border of the module, where the path goes on in another one. -/
def leave (s : Search) (moduleNode : Tag) : Option Search := do
  let annNode ← s.annNodes[s.index]?
  if (moduleNode.attr "yname").isSome ∧ moduleNode.name ≠ "grouping".toList then
    if moduleNode.parent.name = "grouping".toList ∨ moduleNode.parent.name = "augment".toList then
      let name ← (moduleNode.parent.attr "target_node").or (moduleNode.parent.attr "yname")
      let path := statementPath moduleNode.parent.name name
      some (s.put moduleNode (annotateStatement path annNode))
    else if moduleNode.parent.name ≠ "module".toList then some s.del
    else some (s.put moduleNode annNode)
  else some (s.put moduleNode annNode)

/-- A loop over the candidates there are when it starts. -/
def Search.forEach (body : Search → Tag → Option Search) (s : Search) : Option Search :=
  (s.moduleNodes.zip s.annNodes).foldlM (fun s x ↦ body s x.1) { s with index := 0 }

/-- The loop over the path, which ends when there are no more tags. -/
def whileTags (soup : List Tag) (modulePrefix : Text) : ℕ → Search → Option Search
  | 0, s => some s
  | n + 1, s =>
    match s.pathTags.getLast? with
    | none => some s
    | some pathTag =>
      let s := { s with pathTags := s.pathTags.dropLast }
      if firstName pathTag = modulePrefix then do
        let s ← { s with pathTagName := lastName pathTag }.forEach (climb soup)
        whileTags soup modulePrefix n s
      else if s.pathTags = [] then whileTags soup modulePrefix n s
      else do
        let s ← s.forEach leave
        whileTags soup modulePrefix n { s with pathTags := [] }

/-! ## The end of the path

No loop over candidates puts tags back, so there are no more tags after as many rounds as there were
tags. -/

theorem length_pathTags_climb {soup : List Tag} {s s' : Search} {t : Tag}
    (h : climb soup s t = some s') : s'.pathTags.length ≤ s.pathTags.length := by
  unfold climb at h
  simp only [Option.bind_eq_bind, Option.bind_eq_some_iff] at h
  obtain ⟨annNode, -, skips, -, h⟩ := h
  split_ifs at h
  · obtain ⟨parentName, -, h⟩ := Option.bind_eq_some_iff.mp h
    split_ifs at h
    · obtain ⟨name, -, h⟩ := Option.bind_eq_some_iff.mp h
      obtain rfl := Option.some.inj h
      exact Nat.le_refl _
    · obtain ⟨pathTag, -, h⟩ := Option.bind_eq_some_iff.mp h
      obtain rfl := Option.some.inj h
      rw [Search.put_pathTags, List.length_dropLast]
      exact Nat.sub_le _ _
  · obtain rfl := Option.some.inj h
    exact Nat.le_refl _
  · obtain ⟨usesName, -, h⟩ := Option.bind_eq_some_iff.mp h
    split_ifs at h
    · obtain rfl := Option.some.inj h
      exact Nat.le_refl _
    · obtain rfl := Option.some.inj h
      exact Nat.le_refl _
  · obtain ⟨target, -, h⟩ := Option.bind_eq_some_iff.mp h
    split_ifs at h
    · obtain rfl := Option.some.inj h
      exact Nat.le_refl _
    · obtain rfl := Option.some.inj h
      exact Nat.le_refl _
  · obtain rfl := Option.some.inj h
    exact Nat.le_refl _

theorem length_pathTags_forEach {soup : List Tag} {s s' : Search}
    (h : s.forEach (climb soup) = some s') : s'.pathTags.length ≤ s.pathTags.length := by
  have hloop : ∀ (l : List (Tag × Xml)) (s s' : Search),
      l.foldlM (fun s x ↦ climb soup s x.1) s = some s' →
        s'.pathTags.length ≤ s.pathTags.length := by
    intro l
    induction l with
    | nil =>
      intro s s' h
      obtain rfl := Option.some.inj h
      exact Nat.le_refl _
    | cons x l ih =>
      intro s s' h
      rw [List.foldlM_cons] at h
      obtain ⟨s₁, hfirst, hrest⟩ := Option.bind_eq_some_iff.mp h
      exact (ih s₁ s' hrest).trans (length_pathTags_climb hfirst)
  exact hloop _ { s with index := 0 } s' h

/-- The loop over the path ends because there are no more tags. -/
theorem pathTags_whileTags {soup : List Tag} {modulePrefix : Text} {n : ℕ} {s s' : Search}
    (hn : s.pathTags.length ≤ n) (h : whileTags soup modulePrefix n s = some s') :
    s'.pathTags = [] := by
  induction n generalizing s with
  | zero =>
    obtain rfl := Option.some.inj h
    exact List.eq_nil_of_length_eq_zero (Nat.le_zero.mp hn)
  | succ n ih =>
    rw [whileTags] at h
    rcases hlast : s.pathTags.getLast? with - | pathTag
    · rw [hlast] at h
      obtain rfl := Option.some.inj h
      exact List.getLast?_eq_none_iff.mp hlast
    · have hlen : s.pathTags.dropLast.length ≤ n := by
        rw [List.length_dropLast]
        omega
      simp only [hlast] at h
      split_ifs at h
      · obtain ⟨s₁, hloop, hrest⟩ := Option.bind_eq_some_iff.mp h
        exact ih ((length_pathTags_forEach hloop).trans hlen) hrest
      · exact ih hlen h
      · obtain ⟨s₁, -, hrest⟩ := Option.bind_eq_some_iff.mp h
        exact ih (Nat.zero_le _) hrest

/-! ## The script -/

/-- What is annotated at the first candidate, and what is annotated at the others, with the
candidates. -/
def annotateCandidates (first : Option Xml) (others : Xml) : List Tag → Option (List Xml)
  | [] => some []
  | t :: ts => do
    let content ← first
    let name ← t.attr "yname"
    let rest ← ts.mapM fun t ↦ do
      let name ← t.attr "yname"
      some (annotateStatement (statementPath t.name name) others)
    some (annotateStatement (statementPath t.name name) content :: rest)

def convert (soup : List Tag) (modulePrefix target : Text) (first : Option Xml) (others : Xml) :
    Option Xml := do
  let pathTags := splitPath target
  let pathTag ← pathTags.getLast?
  let moduleNodes := soup.filter (hasName (lastName pathTag))
  let annNodes ← annotateCandidates first others moduleNodes
  let s ← whileTags soup modulePrefix pathTags.dropLast.length
    { pathTags := pathTags.dropLast
      pathTagName := lastName pathTag
      moduleNodes := moduleNodes
      annNodes := annNodes
      tmpNodes := []
      index := 0 }
  some (present target (s.annNodes ++ s.tmpNodes))

def isAnnotate (name : Text) : Bool := name == "annotate".toList || name == "tailf:annotate".toList

/-- What is annotated, without nested annotations. -/
def plainContent : Xml → Xml
  | .nil => .nil
  | .node (.text _) _ r => plainContent r
  | .node (.element name attrs) c r =>
    if isAnnotate name then plainContent r else .node (.element name attrs) c (plainContent r)

/-- What is annotated. The nested annotations are converted, and removed by that, so that they are
found at the first candidate only. -/
def convertContent (soup : List Tag) (modulePrefix : Text) : Xml → Option Xml
  | .nil => some .nil
  | .node (.text _) _ r => convertContent soup modulePrefix r
  | .node (.element name attrs) c r =>
    if isAnnotate name then do
      let target ← attrs.lookup "target".toList
      let nested ← convert soup modulePrefix target (convertContent soup modulePrefix c)
        (plainContent c)
      let rest ← convertContent soup modulePrefix r
      some (nested.append rest)
    else do
      let rest ← convertContent soup modulePrefix r
      some (.node (.element name attrs) c rest)

/-- What is appended to the annotation module for an annotation. -/
def handleAnnotateNode (soup : List Tag) (modulePrefix : Text) (attrs : Attrs) (content : Xml) :
    Option Xml := do
  let target ← attrs.lookup "target".toList
  convert soup modulePrefix target (convertContent soup modulePrefix content) (plainContent content)

end ConfdDemos.Ann2Ann
