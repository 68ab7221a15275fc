import Mathlib.Data.List.TakeWhile
import Mathlib.Data.List.Nodup
import Mathlib.Data.List.Perm.Basic
import ConfdDemos.Foundation.Dict
import ConfdDemos.Webui.TreeKeys

/-!
# The tree of types

The web UI shows the types of a module by namespace. The table of types has one property for each
type, named by namespace and type, and `genNamespaceNodes` regroups it: a helper map has one map of
types for each namespace.

## The helper map

Before a type is put into the map of its namespace, that map is made. The test for whether it is
there already asks for the property `namespace`, not for the namespace, so the map of a namespace is
made anew for every type of it, and only the last one stays. Once there is a namespace that is
itself called `namespace`, no map is made any more, and the first type of another namespace throws.

## Results

`typeTree_complete_iff` says when the tree has all types all the same.

The helper map is an ordinary dictionary here. What every JavaScript object inherits is not
modelled, and neither is the order of properties that are written like numbers.
-/

namespace ConfdDemos.Webui

/-! ## Nodes of the trees of a module -/

inductive Header
  | root | namespace_ | type | default
  deriving DecidableEq

/-- A node of a tree that is built in one go. `header` is what the node is shown as. -/
inductive ViewNode (σ : Type*)
  | mk (key label : Text) (header : Header) (schema : Option σ) (children : List (ViewNode σ))

namespace ViewNode

variable {σ : Type*}

def key : ViewNode σ → Text
  | mk key _ _ _ _ => key

def label : ViewNode σ → Text
  | mk _ label _ _ _ => label

def schema : ViewNode σ → Option σ
  | mk _ _ _ schema _ => schema

def children : ViewNode σ → List (ViewNode σ)
  | mk _ _ _ _ children => children

end ViewNode

/-! ## The generator -/

section Types

variable {σ : Type*}

/-- The schemas in the tree: that of the root is the whole table. -/
inductive TypeSchema (σ : Type*)
  | table (moduleTypesSchema : List (Text × σ))
  | type (schema : σ)

/-- The part before the last colon and the part behind it. -/
def splitNamespaceTypeName (jointName : Text) : Text × Text :=
  if ':' ∈ jointName then
    ((jointName.reverse.dropWhile (· != ':')).tail.reverse,
      (jointName.reverse.takeWhile (· != ':')).reverse)
  else ([], jointName)

def namespaceOf (e : Text × σ) : Text := (splitNamespaceTypeName e.1).1

def typeOf (e : Text × σ) : Text × σ := ((splitNamespaceTypeName e.1).2, e.2)

/-- The types by namespace. -/
abbrev HelperMap (σ : Type*) := List (Text × List (Text × σ))

/-- The property that is asked for. -/
def askedFor : Text := "namespace".toList

/-- The body of the first loop. A map of types that is not there throws. -/
def addType (helperMap : HelperMap σ) (e : Text × σ) : Option (HelperMap σ) :=
  let helperMap := if (Dict.get? askedFor helperMap).isSome then helperMap
    else Dict.set (namespaceOf e) [] helperMap
  (Dict.get? (namespaceOf e) helperMap).map fun types ↦
    Dict.set (namespaceOf e) (Dict.set (typeOf e).1 (typeOf e).2 types) helperMap

def genTypeNodes (ns : Text) (types : List (Text × σ)) : List (ViewNode (TypeSchema σ)) :=
  types.map fun t ↦ .mk (ns ++ '/' :: t.1) t.1 .type (some (.type t.2)) []

def genNamespaceNodes (moduleTypesSchema : List (Text × σ)) :
    Option (List (ViewNode (TypeSchema σ))) :=
  (moduleTypesSchema.foldlM addType []).map fun helperMap ↦
    helperMap.map fun n ↦ .mk n.1 n.1 .namespace_ none (genTypeNodes n.1 n.2)

def generateTypeNodes (moduleName : Text) (moduleTypesSchema : List (Text × σ)) :
    Option (List (ViewNode (TypeSchema σ))) :=
  (genNamespaceNodes moduleTypesSchema).map fun namespaceNodes ↦
    [.mk ("types/".toList ++ moduleName) moduleName .root (some (.table moduleTypesSchema))
      namespaceNodes]

/-! ## What the tree has to show -/

/-- The properties of an object are different, and those of the table are named by namespace and
type. -/
structure TypeTable (σ : Type*) where
  entries : List (Text × σ)
  nodup : (entries.map Prod.fst).Nodup
  named : ∀ e ∈ entries, ':' ∈ e.1

/-- One node for each namespace, and below it one for each type of the namespace. -/
structure ShowsTypes (entries : List (Text × σ)) (nodes : List (ViewNode (TypeSchema σ))) :
    Prop where
  nodup : (nodes.map ViewNode.label).Nodup
  namespaces : ∀ ns, ns ∈ nodes.map ViewNode.label ↔ ns ∈ entries.map namespaceOf
  types : ∀ node ∈ nodes, (node.children.map fun t ↦ (t.label, t.schema)).Perm
    ((entries.filter fun e ↦ namespaceOf e = node.label).map fun e ↦
      ((typeOf e).1, some (.type (typeOf e).2)))

/-- The entries before the first one of the namespace that is asked for. -/
def early (entries : List (Text × σ)) : List (Text × σ) :=
  entries.takeWhile fun e ↦ namespaceOf e != askedFor

def late (entries : List (Text × σ)) : List (Text × σ) :=
  entries.dropWhile fun e ↦ namespaceOf e != askedFor

/-- Up to the first entry of the namespace that is asked for no namespace is repeated, and after it
there are no new ones. -/
structure Ungrouped (entries : List (Text × σ)) : Prop where
  once : ((early entries).map namespaceOf).Nodup
  known : ∀ e ∈ late entries,
    namespaceOf e = askedFor ∨ namespaceOf e ∈ (early entries).map namespaceOf

/-! ## The helper map while it is filled -/

/-- The types of a namespace. -/
def typesOf (ns : Text) (entries : List (Text × σ)) : List (Text × σ) :=
  (entries.filter fun e ↦ namespaceOf e = ns).map typeOf

theorem typesOf_cons (ns : Text) (e : Text × σ) (entries : List (Text × σ)) :
    typesOf ns (e :: entries) =
      if namespaceOf e = ns then typeOf e :: typesOf ns entries else typesOf ns entries := by
  rw [typesOf, List.filter_cons]
  by_cases hns : namespaceOf e = ns
  · simp [hns, typesOf]
  · simp [hns, typesOf]

variable {helperMap : HelperMap σ} {entries : List (Text × σ)} {e : Text × σ}

/-- As long as nothing has the name that is asked for, the map of a namespace is made anew. -/
theorem addType_of_notMem (h : askedFor ∉ helperMap.map Prod.fst) (e : Text × σ) :
    addType helperMap e = some (Dict.set (namespaceOf e) [typeOf e]
      (Dict.set (namespaceOf e) [] helperMap)) := by
  simp only [addType, if_neg (mt Dict.get?_isSome.mp h), Dict.get?_set, if_true, Option.map_some,
    Dict.set]

theorem keys_set_set (k : Text) (v v' : List (Text × σ)) :
    (Dict.set k v (Dict.set k v' helperMap)).map Prod.fst =
      (Dict.set k v' helperMap).map Prod.fst := by
  have hmem : k ∈ (Dict.set k v' helperMap).map Prod.fst := by
    rw [← Dict.get?_isSome, Dict.get?_set, if_pos rfl]
    rfl
  rw [Dict.keys_set, if_pos hmem]

theorem mem_keys_set {k k' : Text} {v : List (Text × σ)} :
    k' ∈ (Dict.set k v helperMap).map Prod.fst ↔ k' = k ∨ k' ∈ helperMap.map Prod.fst := by
  rw [← Dict.get?_isSome, Dict.get?_set, ← Dict.get?_isSome]
  by_cases hk : k = k'
  · simp [hk]
  · simp [hk, Ne.symm hk]

theorem nodup_keys_set {k : Text} {v : List (Text × σ)} (h : (helperMap.map Prod.fst).Nodup) :
    ((Dict.set k v helperMap).map Prod.fst).Nodup := by
  rw [Dict.keys_set]
  split_ifs with hk
  · exact h
  · exact List.nodup_append.mpr ⟨h, List.nodup_singleton k, fun a ha b hb heq ↦
      hk (List.mem_singleton.mp hb ▸ heq ▸ ha)⟩

/-- The first phase: of every namespace the last type is there. -/
theorem foldlM_early (hentries : ∀ e ∈ entries, namespaceOf e ≠ askedFor)
    (hasked : askedFor ∉ helperMap.map Prod.fst) (hnodup : (helperMap.map Prod.fst).Nodup) :
    ∃ helperMap', entries.foldlM addType helperMap = some helperMap' ∧
      (helperMap'.map Prod.fst).Nodup ∧ askedFor ∉ helperMap'.map Prod.fst ∧
      ∀ ns, Dict.get? ns helperMap' = ((typesOf ns entries).getLast?.map fun t ↦ [t]).or
        (Dict.get? ns helperMap) := by
  induction entries generalizing helperMap with
  | nil => exact ⟨helperMap, rfl, hnodup, hasked, fun ns ↦ rfl⟩
  | cons e entries ih =>
    have hne := hentries e List.mem_cons_self
    let next := Dict.set (namespaceOf e) [typeOf e] (Dict.set (namespaceOf e) [] helperMap)
    have hnext : askedFor ∉ next.map Prod.fst := by
      rw [keys_set_set, mem_keys_set, not_or]
      exact ⟨Ne.symm hne, hasked⟩
    obtain ⟨helperMap', hfold, hnodup', hasked', hget⟩ :=
      ih (fun x hx ↦ hentries x (List.mem_cons_of_mem _ hx)) hnext
        (nodup_keys_set (nodup_keys_set hnodup))
    refine ⟨helperMap', ?_, hnodup', hasked', fun ns ↦ ?_⟩
    · rw [List.foldlM_cons, addType_of_notMem hasked, Option.bind_eq_bind, Option.bind_some, hfold]
    · rw [hget, typesOf_cons, Dict.get?_set, Dict.get?_set]
      by_cases hns : namespaceOf e = ns
      · rw [if_pos hns, if_pos hns]
        rcases hlast : (typesOf ns entries).getLast? with - | t
        · rw [List.getLast?_cons, List.getLast?_eq_none_iff.mp hlast]
          rfl
        · rw [List.getLast?_cons, hlast]
          rfl
      · rw [if_neg hns, if_neg hns, if_neg hns]

theorem addType_of_mem (h : askedFor ∈ helperMap.map Prod.fst) (e : Text × σ) :
    addType helperMap e = (Dict.get? (namespaceOf e) helperMap).map fun types ↦
      Dict.set (namespaceOf e) (Dict.set (typeOf e).1 (typeOf e).2 types) helperMap := by
  simp only [addType, if_pos (Dict.get?_isSome.mpr h)]

theorem keys_addType_of_mem {helperMap' : HelperMap σ} (h : askedFor ∈ helperMap.map Prod.fst)
    (hadd : addType helperMap e = some helperMap') :
    namespaceOf e ∈ helperMap.map Prod.fst ∧
      helperMap'.map Prod.fst = helperMap.map Prod.fst := by
  rw [addType_of_mem h] at hadd
  obtain ⟨types, htypes, rfl⟩ := Option.map_eq_some_iff.mp hadd
  have hmem : namespaceOf e ∈ helperMap.map Prod.fst := by
    rw [← Dict.get?_isSome, htypes]
    rfl
  exact ⟨hmem, by rw [Dict.keys_set, if_pos hmem]⟩

/-- In the second phase a namespace has to be there. -/
theorem known_of_foldlM {helperMap' : HelperMap σ} (h : askedFor ∈ helperMap.map Prod.fst)
    (hfold : entries.foldlM addType helperMap = some helperMap') :
    ∀ e ∈ entries, namespaceOf e ∈ helperMap.map Prod.fst := by
  induction entries generalizing helperMap with
  | nil => exact fun e he ↦ absurd he List.not_mem_nil
  | cons e entries ih =>
    rw [List.foldlM_cons] at hfold
    obtain ⟨next, hnext, hrest⟩ := Option.bind_eq_some_iff.mp hfold
    obtain ⟨hmem, hkeys⟩ := keys_addType_of_mem h hnext
    have hih := ih (hkeys ▸ h) hrest
    rw [hkeys] at hih
    intro x hx
    rcases List.mem_cons.mp hx with rfl | hx
    · exact hmem
    · exact hih x hx

/-- The second phase: all types are added. -/
theorem foldlM_late (h : askedFor ∈ helperMap.map Prod.fst)
    (hknown : ∀ e ∈ entries, namespaceOf e ∈ helperMap.map Prod.fst)
    (hnew : ∀ ns types, Dict.get? ns helperMap = some types →
      ((types ++ typesOf ns entries).map Prod.fst).Nodup) :
    ∃ helperMap', entries.foldlM addType helperMap = some helperMap' ∧
      helperMap'.map Prod.fst = helperMap.map Prod.fst ∧
      ∀ ns, Dict.get? ns helperMap' =
        (Dict.get? ns helperMap).map fun types ↦ types ++ typesOf ns entries := by
  induction entries generalizing helperMap with
  | nil =>
    refine ⟨helperMap, rfl, rfl, fun ns ↦ ?_⟩
    simp [typesOf]
  | cons e entries ih =>
    obtain ⟨types, htypes⟩ := Option.isSome_iff_exists.mp
      (Dict.get?_isSome.mpr (hknown e List.mem_cons_self))
    -- a type that is added has no name that is there already
    have hfresh : (typeOf e).1 ∉ types.map Prod.fst := by
      have hnodup := hnew _ types htypes
      rw [typesOf_cons, if_pos rfl, List.map_append, List.map_cons] at hnodup
      exact fun hmem ↦ (List.nodup_append.mp hnodup).2.2 _ hmem _ List.mem_cons_self rfl
    have hadd : addType helperMap e =
        some (Dict.set (namespaceOf e) (types ++ [typeOf e]) helperMap) := by
      rw [addType_of_mem h, htypes, Option.map_some, Dict.set_of_notMem hfresh]
    obtain ⟨-, hkeys⟩ := keys_addType_of_mem h hadd
    -- one type is added to its namespace, and the others are as before
    have hget : ∀ ns, Dict.get? ns (Dict.set (namespaceOf e) (types ++ [typeOf e]) helperMap) =
        (Dict.get? ns helperMap).map fun types ↦
          if namespaceOf e = ns then types ++ [typeOf e] else types := by
      intro ns
      rw [Dict.get?_set]
      by_cases hns : namespaceOf e = ns
      · simp [← hns, htypes]
      · simp [hns]
    have hnew' : ∀ ns types', Dict.get? ns
        (Dict.set (namespaceOf e) (types ++ [typeOf e]) helperMap) = some types' →
          ((types' ++ typesOf ns entries).map Prod.fst).Nodup := by
      intro ns types' htypes'
      rw [hget] at htypes'
      obtain ⟨old, hold, rfl⟩ := Option.map_eq_some_iff.mp htypes'
      have hnodup := hnew ns old hold
      rw [typesOf_cons] at hnodup
      by_cases hns : namespaceOf e = ns
      · rw [if_pos hns] at hnodup ⊢
        rwa [List.append_assoc, List.singleton_append]
      · rwa [if_neg hns] at hnodup ⊢
    obtain ⟨helperMap', hfold, hkeys', hget'⟩ := ih (by rwa [hkeys])
      (by rw [hkeys]; exact fun x hx ↦ hknown x (List.mem_cons_of_mem _ hx)) hnew'
    refine ⟨helperMap', ?_, hkeys'.trans hkeys, fun ns ↦ ?_⟩
    · rw [List.foldlM_cons, hadd, Option.bind_eq_bind, Option.bind_some, hfold]
    · rw [hget', hget, Option.map_map, typesOf_cons]
      by_cases hns : namespaceOf e = ns
      · simp [hns, Function.comp_def]
      · simp [hns, Function.comp_def]

/-! ## When the tree is complete -/

theorem typesOf_append (ns : Text) (entries entries' : List (Text × σ)) :
    typesOf ns (entries ++ entries') = typesOf ns entries ++ typesOf ns entries' := by
  rw [typesOf, List.filter_append, List.map_append, typesOf, typesOf]

theorem early_append_late (entries : List (Text × σ)) : early entries ++ late entries = entries :=
  List.takeWhile_append_dropWhile

theorem count_map_namespaceOf (ns : Text) (entries : List (Text × σ)) :
    (entries.map namespaceOf).count ns = (typesOf ns entries).length := by
  induction entries with
  | nil => rfl
  | cons e entries ih =>
    rw [List.map_cons, List.count_cons, ih, typesOf_cons]
    by_cases hns : namespaceOf e = ns
    · simp [hns]
    · simp [hns]

theorem typesOf_eq_nil_iff {ns : Text} :
    typesOf ns entries = [] ↔ ns ∉ entries.map namespaceOf := by
  rw [← List.length_eq_zero_iff, ← count_map_namespaceOf, List.count_eq_zero]

/-- A property name is put together again from its namespace and its type. -/
theorem split_append (he : ':' ∈ e.1) : namespaceOf e ++ ':' :: (typeOf e).1 = e.1 := by
  have hmem : ':' ∈ e.1.reverse := List.mem_reverse.mpr he
  obtain ⟨rest, hrest⟩ : ∃ rest, e.1.reverse.dropWhile (· != ':') = ':' :: rest := by
    have hne : e.1.reverse.dropWhile (· != ':') ≠ [] := by
      rw [Ne, List.dropWhile_eq_nil_iff]
      exact fun h ↦ absurd (h ':' hmem) (by decide)
    have hhead := List.head_dropWhile_not (· != ':') hne
    obtain ⟨c, rest, hc⟩ := List.exists_cons_of_ne_nil hne
    refine ⟨rest, ?_⟩
    simp only [hc, List.head_cons, bne_eq_false_iff_eq] at hhead
    rw [hc, hhead]
  have hjoin := List.takeWhile_append_dropWhile (p := (· != ':')) (l := e.1.reverse)
  rw [hrest] at hjoin
  have hreverse := congrArg List.reverse hjoin
  rw [List.reverse_append, List.reverse_cons, List.append_assoc, List.reverse_reverse] at hreverse
  rw [namespaceOf, typeOf, splitNamespaceTypeName, if_pos he, hrest]
  exact hreverse

theorem TypeTable.nodup_typesOf (table : TypeTable σ) (ns : Text) :
    ((typesOf ns table.entries).map Prod.fst).Nodup := by
  rw [typesOf, List.map_map]
  refine List.Nodup.map_on ?_ (table.nodup.of_map.filter _)
  intro e he e' he' hname
  rw [List.mem_filter, decide_eq_true_eq] at he he'
  refine List.inj_on_of_nodup_map table.nodup he.1 he'.1 ?_
  have hname' : (typeOf e).1 = (typeOf e').1 := hname
  rw [← split_append (table.named e he.1), ← split_append (table.named e' he'.1), he.2, he'.2,
    hname']

/-- What stays of a namespace. -/
def kept (ns : Text) (entries : List (Text × σ)) : List (Text × σ) :=
  (typesOf ns (early entries)).getLast?.toList ++ typesOf ns (late entries)

theorem namespaceOf_early (he : e ∈ early entries) : namespaceOf e ≠ askedFor := by
  simpa using List.mem_takeWhile_imp he

theorem head_late {first : Text × σ} {rest : List (Text × σ)} (h : late entries = first :: rest) :
    namespaceOf first = askedFor := by
  have hne : late entries ≠ [] := by
    rw [h]
    exact List.cons_ne_nil first rest
  have hhead := List.head_dropWhile_not (fun e : Text × σ ↦ namespaceOf e != askedFor) hne
  change (fun e ↦ namespaceOf e != askedFor) ((late entries).head hne) = false at hhead
  simpa [h] using hhead

/-- After the first phase the map has the namespaces of the early entries. -/
theorem foldlM_early_nil (entries : List (Text × σ)) :
    ∃ helperMap, (early entries).foldlM addType [] = some helperMap ∧
      (helperMap.map Prod.fst).Nodup ∧ askedFor ∉ helperMap.map Prod.fst ∧
      (∀ ns, ns ∈ helperMap.map Prod.fst ↔ ns ∈ (early entries).map namespaceOf) ∧
      ∀ ns, Dict.get? ns helperMap = (typesOf ns (early entries)).getLast?.map fun t ↦ [t] := by
  obtain ⟨helperMap, hfold, hnodup, hasked, hget⟩ := @foldlM_early σ [] (early entries)
    (fun e he ↦ namespaceOf_early he) List.not_mem_nil List.nodup_nil
  have hget' : ∀ ns, Dict.get? ns helperMap =
      (typesOf ns (early entries)).getLast?.map fun t ↦ [t] := by
    intro ns
    rw [hget]
    exact Option.or_none
  refine ⟨helperMap, hfold, hnodup, hasked, fun ns ↦ ?_, hget'⟩
  rw [← Dict.get?_isSome, hget', Option.isSome_map, List.getLast?_isSome, ← not_iff_not, not_not]
  exact typesOf_eq_nil_iff

/-- The map with the first entry of the namespace that is asked for. -/
theorem addType_first {first : Text × σ} (hfirst : namespaceOf first = askedFor)
    (hnodup : (helperMap.map Prod.fst).Nodup) (hasked : askedFor ∉ helperMap.map Prod.fst) :
    ∃ helperMap', addType helperMap first = some helperMap' ∧ (helperMap'.map Prod.fst).Nodup ∧
      (∀ ns, ns ∈ helperMap'.map Prod.fst ↔ ns = askedFor ∨ ns ∈ helperMap.map Prod.fst) ∧
      ∀ ns, Dict.get? ns helperMap' =
        if askedFor = ns then some [typeOf first] else Dict.get? ns helperMap := by
  refine ⟨_, addType_of_notMem hasked first, nodup_keys_set (nodup_keys_set hnodup), ?_, ?_⟩
  · intro ns
    rw [keys_set_set, mem_keys_set, hfirst]
  · intro ns
    rw [Dict.get?_set, Dict.get?_set, hfirst]
    by_cases hns : askedFor = ns
    · rw [if_pos hns, if_pos hns]
    · rw [if_neg hns, if_neg hns, if_neg hns]

/-- The tree is not built at all when a new namespace comes too late. -/
theorem known_of_foldlM_nil (hfold : entries.foldlM addType [] = some helperMap) :
    ∀ e ∈ late entries,
      namespaceOf e = askedFor ∨ namespaceOf e ∈ (early entries).map namespaceOf := by
  obtain ⟨earlyMap, hearly, hnodup, hasked, hkeys, -⟩ := foldlM_early_nil entries
  rw [← early_append_late entries, List.foldlM_append, hearly] at hfold
  rcases hlate : late entries with - | ⟨first, rest⟩
  · exact fun e he ↦ absurd he List.not_mem_nil
  · obtain ⟨firstMap, hadd, -, hkeys', -⟩ := addType_first (head_late hlate) hnodup hasked
    rw [Option.bind_eq_bind, Option.bind_some, hlate, List.foldlM_cons, hadd] at hfold
    have hknown := known_of_foldlM ((hkeys' askedFor).mpr (.inl rfl)) hfold
    intro e he
    rcases List.mem_cons.mp he with rfl | he
    · exact .inl (head_late hlate)
    · have hmem := (hkeys' _).mp (hknown e he)
      rwa [hkeys] at hmem

theorem TypeTable.nodup_kept (table : TypeTable σ) (ns : Text) :
    ((kept ns table.entries).map Prod.fst).Nodup := by
  have hnodup := table.nodup_typesOf ns
  rw [← early_append_late table.entries, typesOf_append] at hnodup
  refine hnodup.sublist (List.Sublist.map _ (List.Sublist.append_right ?_ _))
  rcases hlast : (typesOf ns (early table.entries)).getLast? with - | t
  · exact List.nil_sublist _
  · exact List.singleton_sublist.mpr (List.mem_of_getLast? hlast)

/-- The helper map of a whole table. -/
theorem TypeTable.foldlM_addType (table : TypeTable σ)
    (hknown : ∀ e ∈ late table.entries,
      namespaceOf e = askedFor ∨ namespaceOf e ∈ (early table.entries).map namespaceOf) :
    ∃ helperMap, table.entries.foldlM addType [] = some helperMap ∧
      (helperMap.map Prod.fst).Nodup ∧
      (∀ ns, ns ∈ helperMap.map Prod.fst ↔ ns ∈ table.entries.map namespaceOf) ∧
      ∀ n ∈ helperMap, n.2 = kept n.1 table.entries := by
  -- it is enough to look up what stays of each namespace
  suffices hlook : ∃ helperMap, table.entries.foldlM addType [] = some helperMap ∧
      (helperMap.map Prod.fst).Nodup ∧
      (∀ ns, ns ∈ helperMap.map Prod.fst ↔ ns ∈ table.entries.map namespaceOf) ∧
      ∀ ns ∈ helperMap.map Prod.fst,
        Dict.get? ns helperMap = some (kept ns table.entries) by
    obtain ⟨helperMap, hfold, hnodup, hkeys, hget⟩ := hlook
    refine ⟨helperMap, hfold, hnodup, hkeys, fun n hn ↦ ?_⟩
    have hn' : Dict.get? n.1 helperMap = some n.2 := Dict.get?_eq_some_of_mem hn fun q hq hkey ↦
      List.inj_on_of_nodup_map hnodup hq hn hkey
    rw [hget n.1 (List.mem_map_of_mem hn)] at hn'
    exact (Option.some.inj hn').symm
  obtain ⟨earlyMap, hearly, hnodup, hasked, hkeys, hget⟩ := foldlM_early_nil table.entries
  have hmapped : ∀ ns, ns ∈ table.entries.map namespaceOf ↔
      ns ∈ (early table.entries).map namespaceOf ∨ ns ∈ (late table.entries).map namespaceOf := by
    intro ns
    rw [← List.mem_append, ← List.map_append, early_append_late]
  have hentries := early_append_late table.entries
  rcases hlate : late table.entries with - | ⟨first, rest⟩
  · refine ⟨earlyMap, ?_, hnodup, fun ns ↦ ?_, fun ns hns ↦ ?_⟩
    · rw [← hentries, hlate, List.append_nil, hearly]
    · rw [hkeys, hmapped, hlate]
      simp
    · rw [hkeys, ← not_iff_not.mpr typesOf_eq_nil_iff |>.trans not_not] at hns
      obtain ⟨t, ht⟩ := Option.isSome_iff_exists.mp (List.getLast?_isSome.mpr hns)
      rw [hget, kept, hlate, ht]
      rfl
  · have hfirst := head_late hlate
    obtain ⟨firstMap, hadd, hnodup', hkeys', hget'⟩ := addType_first hfirst hnodup hasked
    have hall : ∀ ns, ns ∈ firstMap.map Prod.fst ↔ ns ∈ table.entries.map namespaceOf := by
      intro ns
      rw [hkeys', hkeys, hmapped, or_comm, hlate]
      refine or_congr_right' fun hns ↦ ⟨?_, ?_⟩
      · rintro rfl
        exact List.mem_map.mpr ⟨first, List.mem_cons_self, hfirst⟩
      · intro hmem
        obtain ⟨e, he, rfl⟩ := List.mem_map.mp hmem
        exact (hknown e (hlate ▸ he)).resolve_right hns
    have hlook : ∀ ns types, Dict.get? ns firstMap = some types →
        types ++ typesOf ns rest = kept ns table.entries := by
      intro ns types htypes
      rw [hget', hget] at htypes
      rw [kept, hlate, typesOf_cons, hfirst]
      by_cases hns : askedFor = ns
      · have hnil : typesOf ns (early table.entries) = [] := by
          rw [typesOf_eq_nil_iff, ← hkeys, ← hns]
          exact hasked
        rw [if_pos hns] at htypes ⊢
        rw [hnil, ← Option.some.inj htypes]
        rfl
      · rw [if_neg hns] at htypes ⊢
        obtain ⟨t, ht, rfl⟩ := Option.map_eq_some_iff.mp htypes
        rw [ht]
        rfl
    obtain ⟨helperMap, hfold, hsame, hget''⟩ := foldlM_late ((hkeys' askedFor).mpr (.inl rfl))
      (fun e he ↦ (hall _).mpr (List.mem_map_of_mem (by
        rw [← hentries, hlate]
        exact List.mem_append_right _ (List.mem_cons_of_mem _ he))))
      (fun ns types htypes ↦ by
        rw [hlook ns types htypes]
        exact table.nodup_kept ns)
    refine ⟨helperMap, ?_, hsame ▸ hnodup', fun ns ↦ hsame ▸ hall ns, fun ns hns ↦ ?_⟩
    · rw [← hentries, List.foldlM_append, hearly, Option.bind_eq_bind, Option.bind_some, hlate,
        List.foldlM_cons, hadd, Option.bind_eq_bind, Option.bind_some, hfold]
    · rw [hsame] at hns
      obtain ⟨types, htypes⟩ := Option.isSome_iff_exists.mp (Dict.get?_isSome.mpr hns)
      rw [hget'', htypes, Option.map_some, hlook ns types htypes]

theorem map_children_genTypeNodes (ns : Text) (types : List (Text × σ)) :
    ((genTypeNodes ns types).map fun t ↦ (t.label, t.schema)) =
      types.map fun t ↦ (t.1, some (.type t.2)) := by
  rw [genTypeNodes, List.map_map]
  rfl

/-- What stays of a namespace is all of it, as long as its map is made only once. -/
theorem kept_eq_typesOf {ns : Text} (h : (typesOf ns (early entries)).length ≤ 1) :
    kept ns entries = typesOf ns entries := by
  have hlast : (typesOf ns (early entries)).getLast?.toList = typesOf ns (early entries) := by
    rcases htypes : typesOf ns (early entries) with - | ⟨t, - | ⟨t', types⟩⟩
    · rfl
    · rfl
    · rw [htypes] at h
      simp at h
  rw [kept, hlast, ← typesOf_append, early_append_late]

theorem length_kept_lt {ns : Text} (h : 1 < (typesOf ns (early entries)).length) :
    (kept ns entries).length < (typesOf ns entries).length := by
  have hlast : (typesOf ns (early entries)).getLast?.toList.length ≤ 1 := by
    rcases (typesOf ns (early entries)).getLast? with - | t
    · exact Nat.zero_le 1
    · exact le_rfl
  have happend := congrArg List.length (typesOf_append ns (early entries) (late entries))
  rw [early_append_late, List.length_append] at happend
  rw [kept, List.length_append, happend]
  omega

/-- The tree has one node for each namespace and below it one for each of its types if and only if
no namespace has two types, up to the first type of the namespace `namespace`, and all namespaces
that come after that one have come before it. -/
theorem typeTree_complete_iff (moduleName : Text) (table : TypeTable σ) :
    (∃ root, generateTypeNodes moduleName table.entries = some [root] ∧
      ShowsTypes table.entries root.children) ↔ Ungrouped table.entries := by
  constructor
  · rintro ⟨root, hroot, hshows⟩
    obtain ⟨nodes, hnodes, hlist⟩ := Option.map_eq_some_iff.mp hroot
    obtain rfl := List.singleton_inj.mp hlist
    obtain ⟨built, hbuilt, rfl⟩ := Option.map_eq_some_iff.mp hnodes
    have hknown := known_of_foldlM_nil hbuilt
    obtain ⟨helperMap, hfold, -, hkeys, hkept⟩ := table.foldlM_addType hknown
    obtain rfl : built = helperMap := Option.some.inj (hbuilt.symm.trans hfold)
    refine ⟨List.nodup_iff_count_le_one.mpr fun ns ↦ ?_, hknown⟩
    -- a namespace that comes twice in the early part has lost types
    by_contra hcount
    rw [count_map_namespaceOf, not_le] at hcount
    have hmem : ns ∈ table.entries.map namespaceOf := by
      rw [← early_append_late table.entries, List.map_append, List.mem_append]
      refine .inl (List.count_pos_iff.mp ?_)
      rw [count_map_namespaceOf]
      exact (Nat.zero_lt_one).trans hcount
    obtain ⟨n, hn, rfl⟩ := List.mem_map.mp ((hkeys ns).mpr hmem)
    have hperm : (n.2.map fun t ↦ (t.1, some (TypeSchema.type t.2))).Perm
        ((typesOf n.1 table.entries).map fun t ↦ (t.1, some (.type t.2))) := by
      rw [← map_children_genTypeNodes n.1, typesOf, List.map_map]
      exact hshows.types _ (List.mem_map_of_mem hn)
    have hlength : n.2.length = (typesOf n.1 table.entries).length := by
      simpa using hperm.length_eq
    have hlt := length_kept_lt hcount
    rw [← hkept n hn] at hlt
    exact hlt.ne hlength
  · intro h
    obtain ⟨helperMap, hfold, hnodup, hkeys, hkept⟩ := table.foldlM_addType h.known
    have hbuilt := congrArg (Option.map fun helperMap ↦ helperMap.map fun n ↦
      ViewNode.mk n.1 n.1 .namespace_ none (genTypeNodes n.1 n.2)) hfold
    refine ⟨_, congrArg (Option.map _) hbuilt, ?_, ?_, ?_⟩
    · rw [ViewNode.children, List.map_map]
      exact hnodup
    · intro ns
      rw [ViewNode.children, List.map_map]
      exact hkeys ns
    · intro node hnode
      obtain ⟨n, hn, rfl⟩ := List.mem_map.mp hnode
      -- a namespace that comes once keeps all of its types
      have honce := List.nodup_iff_count_le_one.mp h.once n.1
      rw [count_map_namespaceOf] at honce
      have hall : n.2 = typesOf n.1 table.entries := (hkept n hn).trans (kept_eq_typesOf honce)
      refine List.Perm.of_eq ((map_children_genTypeNodes n.1 n.2).trans ?_)
      rw [hall, typesOf, List.map_map]
      rfl

end Types

/-- Two types of one namespace. -/
def twoTypes : TypeTable Nat where
  entries := [("n:a".toList, 1), ("n:b".toList, 2)]
  nodup := by decide
  named := by decide

/-- Only the second of the two types is shown. -/
theorem typeTree_loses_first : ¬ ∃ root,
    generateTypeNodes "m".toList twoTypes.entries = some [root] ∧
      ShowsTypes twoTypes.entries root.children := by
  rintro ⟨root, hroot, hshows⟩
  have hbuilt : generateTypeNodes "m".toList twoTypes.entries =
      some [.mk "types/m".toList "m".toList .root (some (.table twoTypes.entries))
        [.mk "n".toList "n".toList .namespace_ none
          [.mk "n/b".toList "b".toList .type (some (.type 2)) []]]] := rfl
  obtain rfl := List.singleton_inj.mp (Option.some.inj (hroot.symm.trans hbuilt))
  have hlength := (hshows.types _ List.mem_cons_self).length_eq
  exact absurd hlength (by decide)

end ConfdDemos.Webui
