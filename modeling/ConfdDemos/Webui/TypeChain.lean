import ConfdDemos.Webui.Removal

/-!
# The type of a leaf

ConfD describes the type of a leaf by a type node and, for a type defined in a module, by the chain
of its typedefs in the table of the module. The web UI asks this description three things about an
enumeration. `isLeafEnum` looks at the node of the leaf and at every element of the chain,
`getPrimitiveType` takes the first element of the chain that says anything, and
`enumOptionsFromSchema` takes the labels from the first element whatever it is.

`viewsAgree_iff` says when the three agree. A property that is missing reads as `undefined`, and
using that as an object throws, which is no result here.
-/

namespace ConfdDemos.Webui

/-- What is read of a type node. Of an enumeration that are the labels; of the properties
`primitive` and `union` it is whether they are there. -/
structure TypeNode where
  namespace_ : Option Text
  name : Text
  primitive : Bool
  union : Bool
  enumeration : Option (List Text)
  deriving DecidableEq

/-- What is read of the schema of a leaf; `mandatory` is the test for `true`. -/
structure LeafSchema where
  type : TypeNode
  hasDefault : Bool
  mandatory : Bool
  deriving DecidableEq

/-- The table of types of a module. -/
abbrev ModuleTypes := Text → Option (List TypeNode)

def getTypeNode (leafSchema : LeafSchema) : TypeNode := leafSchema.type

/-- A namespace that is missing is printed as `undefined`. -/
def chainTypeName (type : TypeNode) : Text :=
  type.namespace_.getD "undefined".toList ++ ':' :: type.name

def getTypeChain (leafSchema : LeafSchema) (moduleTypes : ModuleTypes) : Option (List TypeNode) :=
  moduleTypes (chainTypeName (getTypeNode leafSchema))

def isLeafEnum (leafSchema : LeafSchema) (moduleTypes : ModuleTypes) : Bool :=
  if (getTypeNode leafSchema).enumeration.isSome then true
  else match getTypeChain leafSchema moduleTypes with
    | some typeChain => typeChain.any fun subType ↦ subType.enumeration.isSome
    | none => false

def isTypeUnion (leafSchema : LeafSchema) (moduleTypes : ModuleTypes) : Bool :=
  if (getTypeNode leafSchema).primitive then false
  else match getTypeChain leafSchema moduleTypes with
    | some typeChain => typeChain.any TypeNode.union
    | none => false

/-- The options of a leaf before the labels. -/
def unsetOption (leafSchema : LeafSchema) : List Text :=
  if !leafSchema.hasDefault && !leafSchema.mandatory then [unsetDropdown] else []

def enumOptionsFromSchema (leafSchema : LeafSchema) (moduleTypes : ModuleTypes) :
    Option (List Text) := do
  let typeChain ← getTypeChain leafSchema moduleTypes
  let schema ← typeChain[0]?
  let enumsArray ← schema.enumeration
  some (unsetOption leafSchema ++ enumsArray)

/-- The loop of `getPrimitiveType`; `none` is the result it starts with. -/
def primitiveLoop : List TypeNode → Option Text
  | [] => none
  | subType :: typeChain =>
    if subType.enumeration.isSome then some "enumeration".toList
    else if subType.primitive then some subType.name
    else primitiveLoop typeChain

def getPrimitiveType (leafSchema : LeafSchema) (moduleTypesSchema : ModuleTypes) : Option Text :=
  let typeSchema := getTypeNode leafSchema
  if typeSchema.primitive then some typeSchema.name
  else if isTypeUnion leafSchema moduleTypesSchema then some "string".toList
  else do
    let typeChain ← getTypeChain leafSchema moduleTypesSchema
    match primitiveLoop typeChain with
    | some result => some result
    | none => (typeChain.getLast?).map TypeNode.name

/-! ## Agreement -/

/-- The labels of the enumeration of a leaf: of the one in its own type, or of the first one in the
chain. -/
def enumLabels (leafSchema : LeafSchema) (moduleTypes : ModuleTypes) : Option (List Text) :=
  (getTypeNode leafSchema).enumeration.or
    ((getTypeChain leafSchema moduleTypes).bind fun typeChain ↦
      typeChain.findSome? TypeNode.enumeration)

/-- The leaf is shown as an enumeration with its own labels. -/
def ViewsAgree (leafSchema : LeafSchema) (moduleTypes : ModuleTypes) : Prop :=
  isLeafEnum leafSchema moduleTypes = true ∧
    getPrimitiveType leafSchema moduleTypes = some "enumeration".toList ∧
    ∃ labels, enumLabels leafSchema moduleTypes = some labels ∧
      enumOptionsFromSchema leafSchema moduleTypes = some (unsetOption leafSchema ++ labels)

/-- The chain begins with an enumeration, with the one in the type of the leaf if there is one, and
a type that is marked as primitive is called an enumeration. -/
structure EnumFirst (leafSchema : LeafSchema) (moduleTypes : ModuleTypes) : Prop where
  chain : ∃ first rest labels, getTypeChain leafSchema moduleTypes = some (first :: rest) ∧
    first.enumeration = some labels ∧
    ∀ own, leafSchema.type.enumeration = some own → own = labels
  primitive : leafSchema.type.primitive = true → leafSchema.type.name = "enumeration".toList

section Agreement

variable {leafSchema : LeafSchema} {moduleTypes : ModuleTypes}

/-- The options are the labels of the first element of the chain. -/
theorem enumOptionsFromSchema_eq_some {options : List Text} :
    enumOptionsFromSchema leafSchema moduleTypes = some options ↔
      ∃ first rest labels, getTypeChain leafSchema moduleTypes = some (first :: rest) ∧
        first.enumeration = some labels ∧ options = unsetOption leafSchema ++ labels := by
  simp only [enumOptionsFromSchema, Option.bind_eq_bind, Option.bind_eq_some_iff, Option.some_inj]
  constructor
  · rintro ⟨typeChain, hchain, first, hfirst, labels, hlabels, rfl⟩
    cases typeChain with
    | nil => exact absurd hfirst (by simp)
    | cons t rest =>
      obtain rfl : t = first := by simpa using hfirst
      exact ⟨t, rest, labels, hchain, hlabels, rfl⟩
  · rintro ⟨first, rest, labels, hchain, hlabels, rfl⟩
    exact ⟨first :: rest, hchain, first, rfl, labels, hlabels, rfl⟩

/-- With an enumeration in front of the chain, the labels of the leaf are its labels unless the type
of the leaf has others. -/
theorem enumLabels_of_first {first : TypeNode} {rest : List TypeNode} {labels : List Text}
    (hchain : getTypeChain leafSchema moduleTypes = some (first :: rest))
    (hfirst : first.enumeration = some labels) :
    enumLabels leafSchema moduleTypes = some labels ↔
      ∀ own, leafSchema.type.enumeration = some own → own = labels := by
  have hfind : (first :: rest).findSome? TypeNode.enumeration = some labels := by
    rw [List.findSome?_cons, hfirst]
  rw [enumLabels, getTypeNode, hchain, Option.bind_some, hfind]
  cases leafSchema.type.enumeration with
  | none => simp
  | some own => simp

theorem getPrimitiveType_of_first {first : TypeNode} {rest : List TypeNode} {labels : List Text}
    (hunion : isTypeUnion leafSchema moduleTypes = false)
    (hchain : getTypeChain leafSchema moduleTypes = some (first :: rest))
    (hfirst : first.enumeration = some labels) :
    getPrimitiveType leafSchema moduleTypes = some "enumeration".toList ↔
      (leafSchema.type.primitive = true → leafSchema.type.name = "enumeration".toList) := by
  rw [getPrimitiveType, getTypeNode, hunion]
  by_cases hprim : leafSchema.type.primitive = true
  · simp [hprim]
  · simp [hprim, hchain, primitiveLoop, hfirst]

/-- **Three views of an enumeration.** They agree exactly when the enumeration comes first. -/
theorem viewsAgree_iff (henum : isLeafEnum leafSchema moduleTypes = true)
    (hunion : isTypeUnion leafSchema moduleTypes = false) :
    ViewsAgree leafSchema moduleTypes ↔ EnumFirst leafSchema moduleTypes := by
  constructor
  · rintro ⟨-, hprim, labels, hlabels, hoptions⟩
    obtain ⟨first, rest, labels', hchain, hfirst, heq⟩ := enumOptionsFromSchema_eq_some.mp hoptions
    obtain rfl : labels = labels' := List.append_cancel_left heq
    exact ⟨⟨first, rest, labels, hchain, hfirst, (enumLabels_of_first hchain hfirst).mp hlabels⟩,
      (getPrimitiveType_of_first hunion hchain hfirst).mp hprim⟩
  · rintro ⟨⟨first, rest, labels, hchain, hfirst, hown⟩, hprim⟩
    refine ⟨henum, (getPrimitiveType_of_first hunion hchain hfirst).mpr hprim, labels,
      (enumLabels_of_first hchain hfirst).mpr hown, ?_⟩
    exact enumOptionsFromSchema_eq_some.mpr ⟨first, rest, labels, hchain, hfirst, rfl⟩

end Agreement

/-- A leaf of the type `colour` of some module. -/
def colourLeaf : LeafSchema where
  type := ⟨some "urn:paint".toList, "colour".toList, false, false, none⟩
  hasDefault := false
  mandatory := false

/-- The enumeration that `colour` is, and the same as a type of its own. -/
def colourEnum (name : String) : TypeNode :=
  ⟨some "urn:paint".toList, name.toList, false, false, some ["red".toList, "blue".toList]⟩

/-- A table with one chain, for `colour`. -/
def colourTypes (chain : List TypeNode) : ModuleTypes := fun name ↦
  if name = "urn:paint:colour".toList then some chain else none

/-- An enumeration defined as `colour`. -/
theorem viewsAgree_colour :
    isLeafEnum colourLeaf (colourTypes [colourEnum "colour"]) = true ∧
      isTypeUnion colourLeaf (colourTypes [colourEnum "colour"]) = false ∧
      ViewsAgree colourLeaf (colourTypes [colourEnum "colour"]) := by
  refine ⟨by decide, by decide, (viewsAgree_iff (by decide) (by decide)).mpr ⟨?_, by decide⟩⟩
  exact ⟨colourEnum "colour", [], _, rfl, rfl, fun _ h ↦ absurd h (by simp [colourLeaf])⟩

/-- With `colour` defined as `basic-colour`, which is the enumeration, there are no options. -/
theorem not_viewsAgree_derived :
    let types := colourTypes
      [⟨some "urn:paint".toList, "colour".toList, false, false, none⟩, colourEnum "basic-colour"]
    isLeafEnum colourLeaf types = true ∧ isTypeUnion colourLeaf types = false ∧
      getPrimitiveType colourLeaf types = some "enumeration".toList ∧
      enumOptionsFromSchema colourLeaf types = none ∧ ¬ ViewsAgree colourLeaf types := by
  refine ⟨by decide, by decide, by decide, by decide, ?_⟩
  rintro ⟨-, -, labels, -, hoptions⟩
  exact absurd hoptions (by simp [enumOptionsFromSchema, getTypeChain, colourTypes, colourLeaf,
    getTypeNode, chainTypeName])

end ConfdDemos.Webui
