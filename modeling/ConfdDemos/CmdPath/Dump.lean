import ConfdDemos.AnnStmt.Extraction
import ConfdDemos.Foundation.Adorn
import ConfdDemos.Foundation.Hoist

/-!
# The dump of the commands

The second script walks over the schema that ConfD has loaded and makes an element for every node
whose meta-data has a number: with the command line that leads to the node, its path and its
parameters. The elements of the nodes below a container or list come into the element of that node.

The command line is handed down as a text. Every node puts its name behind it, and the meta-data of
the node may then replace the name, or remove it: for that the last occurrence of the name in the
text is looked for, which is the one at the end as long as nothing has been done to it before. Below
a list the text starts anew.

## What is left out

The schema of ConfD is a document of nodes, with the meta-data of a node in the order in which the
script gets it. The printing of the result, and the replacement of `yname=` in the printed text.
-/

namespace ConfdDemos.CmdPath

open AnnStmt Forest

/-! ## The script -/

inductive NodeKind
  | container
  | list
  | leafList
  | leaf
  | case
  | other
  deriving DecidableEq

/-- A node of the schema. -/
structure CsNode where
  kind : NodeKind
  nsPrefix : Text
  tag : Text
  shallowType : ℕ
  metaData : List (Text × Option Text)
  deriving DecidableEq

/-- The texts of `type2str`. -/
def typeNames : List (ℕ × String) :=
  [(1, "end marker"), (2, "presence container"), (3, "not yet used"), (4, "NUL-terminated strings"),
    (5, "string"), (6, "int8"), (7, "int16"), (8, "int32"), (9, "int64"), (10, "uint8"),
    (11, "uint16"), (12, "uint32"), (13, "uint64"), (14, "xs:float,xs:double"),
    (15, "inet:ipv4-address"), (16, "inet:ipv6-address"), (17, "boolean"), (18, "xs:QName"),
    (19, "yang:date-and-time"), (20, "xs:date"), (23, "xs:time"), (27, "enumeration"),
    (29, "bits size 32"), (30, "bits size 64"), (31, "leaf-list"),
    (32, "start of container or ist entry"), (33, "end of container or list entry"),
    (34, "instance-identifier"), (35, "union"), (36, "see cdb_get_values in confd_lib_cdb(3)"),
    (37, "list with CDB instance index"), (38, "yang:object-identifier"), (39, "binary"),
    (40, "inet:ipv4-prefix"), (41, "inet:ipv6-prefix"), (42, "default value indicator"),
    (43, "decimal64"), (44, "identityref"), (45, "deleted list entry"), (46, "yang:dotted-quad"),
    (47, "yang:hex-string"), (48, "tailf:ipv4-address-and-prefix-length"),
    (49, "tailf:ipv6-address-and-prefix-length"), (50, "bits size larger than 64"),
    (51, "OBU list entry moved or inserted first"), (52, "OBU list entry moved after")]

def type2str (shallowType : ℕ) : Option Text := (typeNames.lookup shallowType).map String.toList

def altNameTag : Text := "tailf:alt-name".toList

def dropTag : Text := "tailf:cli-drop-node-name".toList

def exposeTag : Text := "tailf:cli-expose-key-name".toList

/-- `md.startswith("ID ")`. -/
def isNumber (md : Text × Option Text) : Bool := "ID ".toList.isPrefixOf md.1

/-- Where the last occurrence of a word begins. -/
def rindex (word : Text) : Text → Option ℕ
  | [] => if word = [] then some 0 else none
  | c :: t => ((rindex word t).map (· + 1)).or (if word <+: c :: t then some 0 else none)

/-- The child with a name. -/
def csNodeCd (children : Forest CsNode) (name : Text) : Option CsNode :=
  (children.tops.find? fun x ↦ x.1.tag = name).map Prod.fst

namespace CsNode

def isData (n : CsNode) : Bool :=
  n.kind = .container || n.kind = .list || n.kind = .leafList || n.kind = .leaf

def isOther (n : CsNode) : Bool := n.kind = .other

end CsNode

/-- The element of a command. -/
structure Command where
  name : Text
  xpath : Text
  source : Text
  params : List (Option Text × Text)
  deriving DecidableEq

/-- The local variables of the loop over the meta-data. -/
structure Locals where
  newCmdPath : Text
  newCmdTag : Option Command
  exposeKeyName : Option Text
  altKeyName : Option Text
  dropNode : Bool

/-- The name of the parameter, if it is shown, and its type. -/
def param (x : Piece CsNode) (exposeKeyName altKeyName : Option Text) :
    Option Text → Option (Option Text × Text)
  | some mv => do
    let keyCsNode ← csNodeCd x.2 mv
    let type ← type2str keyCsNode.shallowType
    some (if exposeKeyName = some mv then some (altKeyName.getD mv) else none, type)
  | none => (type2str x.1.shallowType).map fun type ↦ (none, type)

/-- The name of a node is taken off the text again. -/
def withoutName (tag newCmdPath : Text) : Option Text :=
  (rindex tag newCmdPath).map fun k ↦ newCmdPath.take k

/-- The body of the loop over the meta-data. -/
def mdStep (x : Piece CsNode) (newPath : Text) (st : Locals) (md : Text × Option Text) :
    Option Locals :=
  if md.1 = altNameTag then
    md.2.bind fun altName ↦
      if ':' ∈ altName then
        some { st with altKeyName := some (altName.dropWhile (· ≠ ':')).tail }
      else
        (withoutName x.1.tag st.newCmdPath).map fun p ↦
          { st with newCmdPath := p ++ altName ++ [' '] }
  else if md.1 = dropTag then
    (withoutName x.1.tag st.newCmdPath).map fun p ↦ { st with newCmdPath := p, dropNode := true }
  else if md.1 = exposeTag then some { st with exposeKeyName := md.2 }
  else if isNumber md ∧ st.dropNode = false then
    let cmd := st.newCmdTag.getD ⟨st.newCmdPath.dropLast, newPath, md.1, []⟩
    (param x st.exposeKeyName st.altKeyName md.2).map fun p ↦
      { st with newCmdTag := some { cmd with params := cmd.params ++ [p] } }
  else some st

/-- The variables before the loop. -/
def Locals.start (newCmdPath : Text) : Locals := ⟨newCmdPath, none, none, none, false⟩

def textElement (name : String) (t : Text) : Xml := element name [] (.node (.text t) .nil .nil)

def paramElement (p : Option Text × Text) : Xml :=
  element "param" (p.1.map ("yname".toList, ·)).toList (textElement "type" p.2)

def Command.toXml (cmd : Command) (below : Xml) : Xml :=
  element "cmd" [("yname".toList, cmd.name)] (concat [textElement "xpath" cmd.xpath,
    textElement "source" cmd.source, element "params" [] (concat (cmd.params.map paramElement)),
    below])

/-- The elements for a node: those from below it come into its own one, if it is no leaf. -/
def appended (kind : NodeKind) (below : Xml) : Option Command → Xml
  | none => below
  | some cmd =>
    if kind = .container ∨ kind = .list then cmd.toXml below else (cmd.toXml .nil).append below

/-- The elements that are appended to the element which the script is in. -/
def traverseCsNodes : Forest CsNode → Text → Text → Option Xml
  | .nil, _, _ => some .nil
  | .node csNode children siblings, path, cmdPath => do
    let own :=
      if csNode.isData then do
        let newPath := path ++ '/' :: (csNode.nsPrefix ++ ':' :: csNode.tag)
        let st ← csNode.metaData.foldlM (mdStep (csNode, children) newPath)
          (.start (cmdPath ++ csNode.tag ++ [' ']))
        let below ← traverseCsNodes children newPath
          (if csNode.kind = .list then [] else st.newCmdPath)
        some (appended csNode.kind below st.newCmdTag)
      else if csNode.kind = .case then traverseCsNodes children path cmdPath
      else some .nil
    some ((← own).append (← traverseCsNodes siblings path cmdPath))

/-- The document, for the node that the dump is made of and those behind it. -/
def cliDump (rootCsNode : Forest CsNode) : Option Xml :=
  (traverseCsNodes rootCsNode [] []).map (element "cmds" [])

/-! ## The commands of a schema -/

section Meta

variable (metaData : List (Text × Option Text))

/-- A name for the node itself. One for a key has the key in front. -/
def altName : Option Text := (metaData.lookup altNameTag).join.filter (':' ∉ ·)

def altKeyName : Option Text :=
  ((metaData.lookup altNameTag).join.filter (':' ∈ ·)).map fun t ↦ (t.dropWhile (· ≠ ':')).tail

def exposedKey : Option Text := (metaData.lookup exposeTag).join

def drops : Bool := (metaData.lookup dropTag).isSome

/-- What a node with the name `tag` adds to the command line. -/
def ownWords (tag : Text) : List Text :=
  if drops metaData then [] else [(altName metaData).getD tag]

end Meta

def numbers (x : Piece CsNode) : List (Text × Option Text) := x.1.metaData.filter isNumber

def nodeWords (x : Piece CsNode) : List Text :=
  if x.1.isData then ownWords x.1.metaData x.1.tag else []

/-- The command line above a node, from the nodes up to the next list. -/
def words : List (Piece CsNode) → List Text
  | [] => []
  | x :: up => if x.1.kind = .list then [] else words up ++ nodeWords x

/-- The names of the data nodes on the way to a node. -/
def names (l : List (Piece CsNode)) : List (Text × Text) :=
  (l.reverse.filter (·.1.isData)).map fun x ↦ (x.1.nsPrefix, x.1.tag)

def pathText (l : List (Text × Text)) : Text := l.flatMap fun s ↦ '/' :: (s.1 ++ ':' :: s.2)

def parameter (x : Piece CsNode) : Option Text → Option (Option Text × Text) :=
  param x (exposedKey x.1.metaData) (altKeyName x.1.metaData)

/-- The command for a node, with the nodes above it. -/
def command : List (Piece CsNode) → Option Command
  | [] => none
  | x :: up =>
    if x.1.isData ∧ drops x.1.metaData = false then do
      let first ← (numbers x).head?
      let params ← (numbers x).mapM fun md ↦ parameter x md.2
      some ⟨[' '].intercalate (words up ++ nodeWords x), pathText (names (x :: up)), first.1,
        params⟩
    else none

/-- The nodes that the script comes to, in the order of the schema, with the nodes above each. -/
def nodes (cs : Forest CsNode) : List (List (Piece CsNode)) :=
  (lineages CsNode.isOther [] cs).labels

/-- There is an element for the node. -/
def listed (x : Piece CsNode) : Bool :=
  x.1.isData && !drops x.1.metaData && !(numbers x).isEmpty

/-- The elements of commands. -/
def toXml : Forest Command → Xml
  | .nil => .nil
  | .node cmd children siblings => (cmd.toXml (toXml children)).append (toXml siblings)

/-- What the first script makes of a node. The meta-data is a dictionary, and has the numbers behind
the names of the extensions. -/
structure Tagged (x : Piece CsNode) : Prop where
  tag : x.1.tag ≠ [] ∧ ' ' ∉ x.1.tag
  order : x.1.metaData = x.1.metaData.filter (!isNumber ·) ++ numbers x
  nodup : (x.1.metaData.map Prod.fst).Nodup
  alt : (altNameTag, none) ∉ x.1.metaData
  once : altName x.1.metaData = none ∨ drops x.1.metaData = false
  types : ∀ md ∈ numbers x, (parameter x md.2).isSome = true
  leaf : x.1.kind ≠ .container → x.1.kind ≠ .list → x.2 = .nil

instance (x : Piece CsNode) : Decidable (Tagged x) :=
  decidable_of_iff ((x.1.tag ≠ [] ∧ ' ' ∉ x.1.tag) ∧
    x.1.metaData = x.1.metaData.filter (!isNumber ·) ++ numbers x ∧
    (x.1.metaData.map Prod.fst).Nodup ∧ (altNameTag, none) ∉ x.1.metaData ∧
    (altName x.1.metaData = none ∨ drops x.1.metaData = false) ∧
    (∀ md ∈ numbers x, (parameter x md.2).isSome = true) ∧
    (x.1.kind = .container ∨ x.1.kind = .list ∨ x.2 = .nil))
  ⟨fun ⟨h₁, h₂, h₃, h₄, h₅, h₆, h₇⟩ ↦ ⟨h₁, h₂, h₃, h₄, h₅, h₆, fun hc hl ↦
      (h₇.resolve_left hc).resolve_left hl⟩,
    fun ⟨h₁, h₂, h₃, h₄, h₅, h₆, h₇⟩ ↦ ⟨h₁, h₂, h₃, h₄, h₅, h₆,
      or_iff_not_imp_left.mpr fun hc ↦ or_iff_not_imp_left.mpr fun hl ↦ h₇ hc hl⟩⟩

/-! ### The last occurrence -/

theorem rindex_eq_none_iff {word t : Text} : rindex word t = none ↔ ¬word <:+: t := by
  induction t with
  | nil =>
    rw [rindex, List.infix_nil]
    split_ifs with h <;> simp [h]
  | cons c t ih =>
    rw [rindex, Option.or_eq_none_iff, Option.map_eq_none_iff, ih, List.infix_cons_iff, not_or,
      and_comm]
    refine and_congr_left fun _ ↦ ?_
    split_ifs with h <;> simp [h]

theorem rindex_append {word t : Text} {k : ℕ} (h : rindex word t = some k) (p : Text) :
    rindex word (p ++ t) = some (p.length + k) := by
  induction p with
  | nil => rw [List.nil_append, h, List.length_nil, Nat.zero_add]
  | cons c p ih =>
    rw [List.cons_append, rindex, ih, Option.map_some, Option.some_or, List.length_cons,
      Nat.add_right_comm]

/-- A name with a blank behind it is found at the end of the text. -/
theorem withoutName_append {tag : Text} (htag : tag ≠ [] ∧ ' ' ∉ tag) (p : Text) :
    withoutName tag (p ++ tag ++ [' ']) = some p := by
  have hlast : rindex tag (tag ++ [' ']) = some 0 := by
    obtain ⟨c, t, rfl⟩ := List.exists_cons_of_ne_nil htag.1
    -- another one would have the blank in it
    have hnone : rindex (c :: t) (t ++ [' ']) = none := by
      refine rindex_eq_none_iff.mpr fun hsub ↦ htag.2 ?_
      rw [hsub.eq_of_length (by rw [List.length_append]; rfl)]
      exact List.mem_append_right _ List.mem_cons_self
    rw [List.cons_append, rindex, hnone, if_pos]
    · rfl
    · rw [← List.cons_append]
      exact List.prefix_append _ _
  rw [withoutName, List.append_assoc, rindex_append hlast, Option.map_some, Nat.add_zero,
    List.take_left]

/-! ### The meta-data of a node -/

section Loop

variable {x : Piece CsNode} {cmdPath newPath : Text} {metaData : List (Text × Option Text)}
  {md : Text × Option Text}

/-- The variables behind meta-data without numbers. -/
def behindNames (cmdPath tag : Text) (metaData : List (Text × Option Text)) : Locals where
  newCmdPath := cmdPath ++ (ownWords metaData tag).flatMap (· ++ [' '])
  newCmdTag := none
  exposeKeyName := exposedKey metaData
  altKeyName := altKeyName metaData
  dropNode := drops metaData

theorem lookup_of_notMem {key : Text} (h : key ∉ metaData.map Prod.fst) :
    metaData.lookup key = none :=
  List.lookup_eq_none_iff.mpr fun p hp ↦ bne_iff_ne.mpr fun heq ↦
    h (List.mem_map.mpr ⟨p, hp, heq.symm⟩)

theorem lookup_concat {key : Text} (h : md.1 ∉ metaData.map Prod.fst) :
    (metaData ++ [md]).lookup key = if md.1 = key then some md.2 else metaData.lookup key := by
  rw [List.lookup_append, List.lookup_cons, List.lookup_nil]
  by_cases hkey : md.1 = key
  · rw [lookup_of_notMem (hkey ▸ h), if_pos hkey, hkey, beq_self_eq_true]
    rfl
  · rw [if_neg hkey, beq_false_of_ne (Ne.symm hkey)]
    exact Option.or_none

/-- One step through the names of extensions. -/
theorem mdStep_behindNames (htag : x.1.tag ≠ [] ∧ ' ' ∉ x.1.tag) (hmd : isNumber md = false)
    (hnew : md.1 ∉ metaData.map Prod.fst) (halt : md ≠ (altNameTag, none))
    (honce : altName (metaData ++ [md]) = none ∨ drops (metaData ++ [md]) = false) :
    mdStep x newPath (behindNames cmdPath x.1.tag metaData) md =
      some (behindNames cmdPath x.1.tag (metaData ++ [md])) := by
  have hlookup (key : Text) : (metaData ++ [md]).lookup key =
      if md.1 = key then some md.2 else metaData.lookup key := lookup_concat hnew
  rw [altName, drops, hlookup, hlookup] at honce
  rw [mdStep]
  simp only [behindNames, ownWords, altName, altKeyName, exposedKey, drops, hlookup]
  obtain ⟨key, mv⟩ := md
  have hown (p : Text) : withoutName x.1.tag (p ++ [x.1.tag].flatMap (· ++ [' '])) = some p := by
    rw [List.flatMap_cons, List.flatMap_nil, List.append_nil, ← List.append_assoc]
    exact withoutName_append htag p
  by_cases haltName : key = altNameTag
  · subst haltName
    have hdrop : altNameTag ≠ dropTag := by decide
    have hexpose : altNameTag ≠ exposeTag := by decide
    rcases mv with - | t
    · exact (halt rfl).elim
    · simp only [if_pos, if_neg hdrop, if_neg hexpose, lookup_of_notMem hnew, Option.bind_some,
        Option.join_some, Option.join_none, Option.filter_none, Option.filter_some] at honce ⊢
      by_cases ht : ':' ∈ t
      · simp [ht]
      · -- the name is not dropped yet, so it is still at the end
        have hnone : metaData.lookup dropTag = none := by simpa [ht] using honce
        rw [hnone, if_neg ht, Option.isSome_none, if_neg Bool.false_ne_true, Option.getD_none, hown,
          if_neg Bool.false_ne_true]
        simp [ht]
  · by_cases hdropTag : key = dropTag
    · subst hdropTag
      have hexpose : dropTag ≠ exposeTag := by decide
      have hnone := lookup_of_notMem hnew
      simp only [if_pos, if_neg haltName, if_neg hexpose, Option.isSome_some, Bool.true_eq_false,
        or_false] at honce ⊢
      simp only [hnone, Option.isSome_none, Bool.false_eq_true, if_false, honce, Option.getD_none,
        hown]
      simp
    · simp only [if_neg haltName, if_neg hdropTag]
      by_cases hexpose : key = exposeTag
      · simp only [if_pos hexpose, Option.join_some]
        rfl
      · simp only [if_neg hexpose, hmd, Bool.false_eq_true, false_and, if_false]
        rfl

theorem once_of_concat (hnew : md.1 ∉ metaData.map Prod.fst)
    (h : altName (metaData ++ [md]) = none ∨ drops (metaData ++ [md]) = false) :
    altName metaData = none ∨ drops metaData = false := by
  rw [altName, drops, lookup_concat hnew, lookup_concat hnew] at h
  rw [altName, drops]
  refine h.imp (fun h ↦ ?_) fun h ↦ ?_
  · split_ifs at h with halt
    · rw [lookup_of_notMem (halt ▸ hnew)]
      rfl
    · exact h
  · split_ifs at h with hdrop
    · rw [lookup_of_notMem (hdrop ▸ hnew)]
      rfl
    · exact h

theorem foldlM_names (htag : x.1.tag ≠ [] ∧ ' ' ∉ x.1.tag)
    (hnames : ∀ md ∈ metaData, isNumber md = false) (hnodup : (metaData.map Prod.fst).Nodup)
    (halt : (altNameTag, none) ∉ metaData)
    (honce : altName metaData = none ∨ drops metaData = false) :
    metaData.foldlM (mdStep x newPath) (.start (cmdPath ++ x.1.tag ++ [' '])) =
      some (behindNames cmdPath x.1.tag metaData) := by
  induction metaData using List.reverseRecOn with
  | nil =>
    rw [List.append_assoc]
    exact congrArg (fun t ↦ some (Locals.start (cmdPath ++ t))) (List.append_nil _).symm
  | append_singleton metaData md ih =>
    rw [List.map_append, List.map_singleton, List.nodup_append] at hnodup
    have hnew : md.1 ∉ metaData.map Prod.fst := fun hmem ↦
      hnodup.2.2 _ hmem _ List.mem_cons_self rfl
    rw [List.foldlM_append, ih (fun md hmd ↦ hnames md (List.mem_append_left _ hmd)) hnodup.1
      (fun hmem ↦ halt (List.mem_append_left _ hmem)) (once_of_concat hnew honce)]
    have hstep : mdStep x newPath (behindNames cmdPath x.1.tag metaData) md =
        some (behindNames cmdPath x.1.tag (metaData ++ [md])) := mdStep_behindNames htag
      (hnames md (List.mem_append_right _ List.mem_cons_self)) hnew
      (fun heq ↦ halt (heq ▸ List.mem_append_right _ List.mem_cons_self)) honce
    rw [Option.bind_eq_bind, Option.bind_some, List.foldlM_cons, hstep]
    rfl

theorem ne_of_isNumber (h : isNumber md = true) :
    md.1 ≠ altNameTag ∧ md.1 ≠ dropTag ∧ md.1 ≠ exposeTag := by
  rw [isNumber] at h
  refine ⟨?_, ?_, ?_⟩
  all_goals
    intro heq
    rw [heq] at h
    exact absurd h (by decide)

/-- One step through the numbers. -/
theorem mdStep_number (h : isNumber md = true) (st : Locals) :
    mdStep x newPath st md =
      if st.dropNode = false then
        let cmd := st.newCmdTag.getD ⟨st.newCmdPath.dropLast, newPath, md.1, []⟩
        (param x st.exposeKeyName st.altKeyName md.2).map fun p ↦
          { st with newCmdTag := some { cmd with params := cmd.params ++ [p] } }
      else some st := by
  obtain ⟨halt, hdrop, hexpose⟩ := ne_of_isNumber h
  rw [mdStep, if_neg halt, if_neg hdrop, if_neg hexpose]
  simp only [h, true_and]

theorem foldlM_numbers_of_drops {st : Locals} (hnumbers : ∀ md ∈ metaData, isNumber md = true)
    (hdrop : st.dropNode = true) : metaData.foldlM (mdStep x newPath) st = some st := by
  induction metaData with
  | nil => rfl
  | cons md metaData ih =>
    rw [List.forall_mem_cons] at hnumbers
    rw [List.foldlM_cons, mdStep_number hnumbers.1, hdrop, if_neg Bool.true_eq_false.mp]
    exact ih hnumbers.2

theorem foldlM_numbers {st : Locals} {cmd : Command} {ps : List (Option Text × Text)}
    (hnumbers : ∀ md ∈ metaData, isNumber md = true) (hdrop : st.dropNode = false)
    (hps : metaData.mapM (fun md ↦ param x st.exposeKeyName st.altKeyName md.2) = some ps) :
    metaData.foldlM (mdStep x newPath) { st with newCmdTag := some cmd } =
      some { st with newCmdTag := some { cmd with params := cmd.params ++ ps } } := by
  induction metaData generalizing cmd ps with
  | nil =>
    obtain rfl := Option.some_inj.mp hps
    rw [List.reverse_nil, List.append_nil]
    rfl
  | cons md metaData ih =>
    rw [List.forall_mem_cons] at hnumbers
    rw [List.mapM_cons, Option.bind_eq_bind, Option.bind_eq_some_iff] at hps
    obtain ⟨p, hp, hps⟩ := hps
    rw [Option.bind_eq_bind, Option.bind_eq_some_iff] at hps
    obtain ⟨ps, hps, heq⟩ := hps
    obtain rfl := Option.some_inj.mp heq
    rw [List.foldlM_cons, mdStep_number hnumbers.1]
    simp only [hdrop, if_true, hp, Option.map_some, Option.getD_some, Option.bind_eq_bind,
      Option.bind_some]
    rw [← hdrop, ih hnumbers.2 hps, List.append_assoc, List.singleton_append]

theorem exists_mapM_eq_some {α β : Type*} {f : α → Option β} {l : List α}
    (h : ∀ a ∈ l, (f a).isSome = true) : ∃ bs, l.mapM f = some bs := by
  induction l with
  | nil => exact ⟨_, rfl⟩
  | cons a l ih =>
    rw [List.forall_mem_cons] at h
    obtain ⟨b, hb⟩ := Option.isSome_iff_exists.mp h.1
    obtain ⟨bs, hbs⟩ := ih h.2
    exact ⟨b :: bs, by rw [List.mapM_cons, hb, hbs]; rfl⟩

/-- The numbers make the command. -/
theorem foldlM_numbers_of_none {st : Locals} (hnumbers : ∀ md ∈ metaData, isNumber md = true)
    (hdrop : st.dropNode = false) (hnone : st.newCmdTag = none)
    (htypes : ∀ md ∈ metaData, (param x st.exposeKeyName st.altKeyName md.2).isSome = true) :
    metaData.foldlM (mdStep x newPath) st =
      some { st with newCmdTag := do
        let first ← metaData.head?
        let params ← metaData.mapM fun md ↦ param x st.exposeKeyName st.altKeyName md.2
        some ⟨st.newCmdPath.dropLast, newPath, first.1, params⟩ } := by
  cases metaData with
  | nil =>
    obtain ⟨newCmdPath, newCmdTag, exposeKeyName, altKeyName, dropNode⟩ := st
    obtain rfl : newCmdTag = none := hnone
    rfl
  | cons md metaData =>
    rw [List.forall_mem_cons] at hnumbers htypes
    obtain ⟨p, hp⟩ := Option.isSome_iff_exists.mp htypes.1
    obtain ⟨ps, hps⟩ := exists_mapM_eq_some htypes.2
    rw [List.foldlM_cons, mdStep_number hnumbers.1, if_pos hdrop, hnone, hp, Option.getD_none,
      Option.map_some, Option.bind_eq_bind, Option.bind_some, foldlM_numbers hnumbers.2 hdrop hps,
      List.mapM_cons, hp, hps]
    rfl

theorem dropLast_flatMap_blank {ws : List Text} (h : ws ≠ []) :
    (ws.flatMap (· ++ [' '])).dropLast = [' '].intercalate ws := by
  induction ws with
  | nil => exact absurd rfl h
  | cons w ws ih =>
    rcases ws with - | ⟨w', ws⟩
    · rw [List.flatMap_cons, List.flatMap_nil, List.append_nil, List.dropLast_concat,
        List.intercalate_singleton]
    · have hne : (w' :: ws).flatMap (· ++ [' ']) ≠ [] := by simp
      rw [List.flatMap_cons, List.dropLast_append_of_ne_nil hne, ih (List.cons_ne_nil _ _),
        List.intercalate_cons_cons, List.append_assoc]

theorem lookup_filter {key : Text} (hkey : "ID ".toList.isPrefixOf key = false) :
    (metaData.filter (!isNumber ·)).lookup key = metaData.lookup key := by
  induction metaData with
  | nil => rfl
  | cons md metaData ih =>
    rcases hmd : isNumber md with - | -
    · rw [List.filter_cons_of_pos (by rw [hmd]; rfl), List.lookup_cons, List.lookup_cons, ih]
    · have hne : (key == md.1) = false := beq_false_of_ne fun heq ↦ by
        rw [heq] at hkey
        exact Bool.false_ne_true (hkey.symm.trans hmd)
      rw [List.filter_cons_of_neg (by rw [hmd]; exact Bool.false_ne_true), List.lookup_cons, hne,
        ih]

theorem altName_filter : altName (metaData.filter (!isNumber ·)) = altName metaData := by
  rw [altName, altName, lookup_filter (by decide)]

theorem altKeyName_filter : altKeyName (metaData.filter (!isNumber ·)) = altKeyName metaData := by
  rw [altKeyName, altKeyName, lookup_filter (by decide)]

theorem exposedKey_filter : exposedKey (metaData.filter (!isNumber ·)) = exposedKey metaData := by
  rw [exposedKey, exposedKey, lookup_filter (by decide)]

theorem drops_filter : drops (metaData.filter (!isNumber ·)) = drops metaData := by
  rw [drops, drops, lookup_filter (by decide)]

theorem behindNames_filter (cmdPath tag : Text) :
    behindNames cmdPath tag (metaData.filter (!isNumber ·)) = behindNames cmdPath tag metaData := by
  rw [behindNames, ownWords, altName_filter, altKeyName_filter, exposedKey_filter, drops_filter]
  rfl

theorem foldlM_metaData_eq (hx : Tagged x) :
    x.1.metaData.foldlM (mdStep x newPath) (.start (cmdPath ++ x.1.tag ++ [' '])) =
      (numbers x).foldlM (mdStep x newPath) (behindNames cmdPath x.1.tag x.1.metaData) := by
  have hnames : (x.1.metaData.filter (!isNumber ·)).foldlM (mdStep x newPath)
        (.start (cmdPath ++ x.1.tag ++ [' '])) =
      some (behindNames cmdPath x.1.tag (x.1.metaData.filter (!isNumber ·))) := by
    refine foldlM_names hx.tag ?_ (hx.nodup.sublist (List.filter_sublist.map _)) ?_ ?_
    · exact fun md hmd ↦ by simpa using (List.mem_filter.mp hmd).2
    · exact fun hmem ↦ hx.alt (List.mem_filter.mp hmem).1
    · rw [altName_filter, drops_filter]
      exact hx.once
  conv_lhs => rw [hx.order]
  rw [List.foldlM_append, hnames, behindNames_filter, Option.bind_eq_bind, Option.bind_some]

/-- **The meta-data of a node.** Behind the loop, the text ends with the words of the node, and the
command is there. -/
theorem foldlM_metaData (hx : Tagged x) (hdata : x.1.isData = true) (up : List (Piece CsNode)) :
    ∃ st, x.1.metaData.foldlM (mdStep x (pathText (names (x :: up))))
        (.start ((words up).flatMap (· ++ [' ']) ++ x.1.tag ++ [' '])) = some st ∧
      st.newCmdPath = (words up ++ nodeWords x).flatMap (· ++ [' ']) ∧
      st.newCmdTag = command (x :: up) := by
  have hwords : nodeWords x = ownWords x.1.metaData x.1.tag := if_pos hdata
  have hnumbers : ∀ md ∈ numbers x, isNumber md = true := fun md hmd ↦ (List.mem_filter.mp hmd).2
  rw [foldlM_metaData_eq hx, hwords, List.flatMap_append]
  rcases hdrop : drops x.1.metaData with - | -
  · refine ⟨_, foldlM_numbers_of_none hnumbers hdrop rfl hx.types, rfl, ?_⟩
    have hne : words up ++ ownWords x.1.metaData x.1.tag ≠ [] := by
      rw [ownWords, hdrop]
      exact List.append_ne_nil_of_right_ne_nil _ (List.cons_ne_nil _ _)
    rw [command, if_pos ⟨hdata, hdrop⟩, hwords, ← dropLast_flatMap_blank hne, List.flatMap_append]
    rfl
  · refine ⟨_, foldlM_numbers_of_drops hnumbers hdrop, rfl, ?_⟩
    rw [command, if_neg fun h ↦ Bool.false_ne_true (h.2.symm.trans hdrop)]
    rfl

end Loop

/-! ### The walk -/

theorem toXml_append (f g : Forest Command) : toXml (f.append g) = (toXml f).append (toXml g) := by
  induction f with
  | nil => rfl
  | node cmd c r _ ihr => rw [append, toXml, toXml, ihr, append_assoc]

theorem names_cons {x : Piece CsNode} (hdata : x.1.isData = true) (up : List (Piece CsNode)) :
    names (x :: up) = names up ++ [(x.1.nsPrefix, x.1.tag)] := by
  rw [names, List.reverse_cons, List.filter_append, List.map_append, List.filter_singleton, hdata]
  rfl

theorem pathText_names_cons {x : Piece CsNode} (hdata : x.1.isData = true)
    (up : List (Piece CsNode)) : pathText (names (x :: up)) =
      pathText (names up) ++ '/' :: (x.1.nsPrefix ++ ':' :: x.1.tag) := by
  rw [names_cons hdata, pathText, pathText, List.flatMap_append, List.flatMap_singleton]

theorem isOther_of_isData {n : CsNode} (h : n.isData = true) : n.isOther = false := by
  obtain ⟨kind, _, _, _, _⟩ := n
  cases kind
  case other => exact h.symm
  all_goals rfl

theorem command_of_not_isData {x : Piece CsNode} (hdata : x.1.isData = false)
    (up : List (Piece CsNode)) : command (x :: up) = none := by
  rw [command, if_neg]
  rw [hdata]
  exact fun h ↦ Bool.false_ne_true h.1

theorem appended_eq {x : Piece CsNode} {up : List (Piece CsNode)} (hx : Tagged x)
    (rest : Forest (List (Piece CsNode))) :
    (appended x.1.kind (toXml (hoist command (lineages CsNode.isOther (x :: up) x.2)))
      (command (x :: up))).append (toXml (hoist command rest)) =
    toXml (hoist command (.node (x :: up) (lineages CsNode.isOther (x :: up) x.2) rest)) := by
  cases hcmd : command (x :: up) with
  | none => rw [hoist_none hcmd, appended, toXml_append]
  | some cmd =>
    rw [hoist_some hcmd, appended, toXml]
    by_cases hkind : x.1.kind = .container ∨ x.1.kind = .list
    · rw [if_pos hkind]
    · rw [if_neg hkind]
      rw [not_or] at hkind
      -- there is nothing below
      rw [hx.leaf hkind.1 hkind.2, lineages, hoist, toXml, append_nil]

/-- **The walk.** Below some nodes, the text and the path that are handed down are theirs. -/
theorem traverseCsNodes_eq {cs : Forest CsNode} {up : List (Piece CsNode)}
    (h : ∀ l ∈ (lineages CsNode.isOther up cs).labels, ∀ x ∈ l.head?,
      x.1.isData = true → Tagged x) :
    traverseCsNodes cs (pathText (names up)) ((words up).flatMap (· ++ [' '])) =
      some (toXml (hoist command (lineages CsNode.isOther up cs))) := by
  induction cs generalizing up with
  | nil => rfl
  | node n c r ihc ihr =>
    rw [traverseCsNodes]
    rw [lineages] at h ⊢
    cases hdata : n.isData with
    | true =>
      rw [isOther_of_isData hdata, if_neg Bool.false_ne_true] at h ⊢
      rw [labels, List.forall_mem_cons, List.forall_mem_append] at h
      have hx : Tagged (n, c) := h.1 (n, c) rfl hdata
      obtain ⟨st, hst, hpath, htag⟩ := foldlM_metaData hx hdata up
      have hcmdPath : (if n.kind = .list then [] else st.newCmdPath) =
          (words ((n, c) :: up)).flatMap (· ++ [' ']) := by
        rw [words, hpath]
        split_ifs <;> rfl
      simp only [if_true, ← pathText_names_cons (x := (n, c)) hdata, hst, hcmdPath, ihc h.2.1,
        ihr h.2.2, Option.bind_eq_bind, Option.bind_some, htag]
      exact congrArg some (appended_eq hx _)
    | false =>
      rw [if_neg Bool.false_ne_true]
      by_cases hcase : n.kind = .case
      · have hother : n.isOther = false := by
          rw [CsNode.isOther, hcase]
          rfl
        rw [hother, if_neg Bool.false_ne_true] at h ⊢
        rw [labels, List.forall_mem_cons, List.forall_mem_append] at h
        have hnames : names ((n, c) :: up) = names up := by
          rw [names, List.reverse_cons, List.filter_append, List.filter_singleton, hdata]
          exact congrArg _ (List.append_nil _)
        have hwords : words ((n, c) :: up) = words up := by
          rw [words, hcase, if_neg (by decide), nodeWords, hdata]
          exact List.append_nil _
        have hc := ihc h.2.1
        rw [hnames, hwords] at hc
        rw [if_pos hcase, hoist_none (command_of_not_isData hdata up), toXml_append, hc, ihr h.2.2]
        rfl
      · have hother : n.isOther = true := by
          obtain ⟨kind, _, _, _, _⟩ := n
          cases kind
          case other => rfl
          case case => exact absurd rfl hcase
          all_goals exact absurd hdata Bool.true_eq_false.mp
        rw [if_neg hcase, ihr]
        · rw [hother]
          rfl
        · rwa [hother, if_pos rfl] at h

theorem isSome_command {x : Piece CsNode} (hx : x.1.isData = true → Tagged x)
    (up : List (Piece CsNode)) : (command (x :: up)).isSome = listed x := by
  rw [command, listed]
  cases hdata : x.1.isData with
  | false => rfl
  | true =>
    obtain ⟨ps, hps⟩ := exists_mapM_eq_some (hx hdata).types
    cases drops x.1.metaData with
    | true => rfl
    | false =>
      rw [if_pos ⟨rfl, rfl⟩, hps]
      cases numbers x <;> rfl

/-- **What the dump says.** There is an element for every node with a number whose name is not
dropped, in the order of the schema, and it is in those of the nodes above. -/
theorem commands_of_cliDump {cs : Forest CsNode}
    (h : ∀ l ∈ nodes cs, ∀ x ∈ l.head?, x.1.isData = true → Tagged x) :
    ∃ cmds, cliDump cs = some (element "cmds" [] (toXml cmds)) ∧
      chains [] cmds = ((nodes cs).filter fun l ↦ l.head?.any listed).map fun l ↦
        l.tails.dropLast.filterMap command := by
  refine ⟨hoist command (lineages CsNode.isOther [] cs), ?_, ?_⟩
  · rw [cliDump]
    exact congrArg (Option.map _) (@traverseCsNodes_eq cs [] h)
  · rw [chains_hoist_lineages, nodes]
    refine congrArg (List.map _) (List.filter_congr fun l hl ↦ ?_)
    obtain ⟨x, up, rfl⟩ := exists_cons_of_mem_lineages hl
    exact isSome_command (h _ hl x rfl) up

/-- The schema of the tagged example. -/
def native : Forest CsNode :=
  let node (kind : NodeKind) (tag : String) (shallowType : ℕ) (metaData : List (String × String))
      (children rest : Forest CsNode) : Forest CsNode :=
    .node ⟨kind, "cc".toList, tag.toList, shallowType, metaData.map fun md ↦
      (md.1.toList, if md.2 = "" then none else some md.2.toList)⟩ children rest
  node .container "native" 32 [("tailf:cli-drop-node-name", "")]
    (node .container "aaa" 2 [("tailf:alt-name", "alt-aaa"), ("ID cc:3", "")]
      (node .list "common-criteria" 37 [("tailf:alt-name", "policy:alt-policy"),
          ("tailf:cli-expose-key-name", "policy"), ("ID cc:0", "policy"), ("ID cc:1", "test")]
        (node .leaf "policy" 5 [] .nil (node .leaf "test" 5 [] .nil
          (node .leaf "char-changes" 10 [("ID cc:2", "")] .nil .nil))) .nil) .nil) .nil

/-- The name of the key that is exposed is the other one, and what is below the list starts anew. -/
theorem commands_of_cliDump_native :
    ∃ cmds, cliDump native = some (element "cmds" [] (toXml cmds)) ∧
      ((chains [] cmds).filterMap List.head?).map (fun cmd ↦ (String.ofList cmd.name, cmd.params)) =
        [("alt-aaa", [(none, "presence container".toList)]),
          ("alt-aaa common-criteria",
            [(some "alt-policy".toList, "string".toList), (none, "string".toList)]),
          ("char-changes", [(none, "uint8".toList)])] := by
  have htagged : ∀ l ∈ nodes native, ∀ x ∈ l.head?, x.1.isData = true → Tagged x := by
    decide +kernel
  obtain ⟨cmds, hdump, hchains⟩ := commands_of_cliDump htagged
  refine ⟨cmds, hdump, ?_⟩
  rw [hchains]
  decide +kernel

/-- The name is looked for in the text behind the change, so a name that has been replaced may stay
in part. -/
example : let metaData := [(altNameTag, some "alt-aaa".toList), (dropTag, none)]
    let aaa : CsNode := ⟨.container, "cc".toList, "aaa".toList, 32, metaData⟩
    (metaData.foldlM (mdStep (aaa, .nil) []) (.start "aaa ".toList)).map Locals.newCmdPath =
      some "alt-".toList := by
  decide +kernel

end ConfdDemos.CmdPath
