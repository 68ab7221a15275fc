import Mathlib.Algebra.Ring.Int.Defs
import ConfdDemos.Gnmi.RoundTrip

/-!
# From a ConfD keypath to a gNMI path

ConfD names a data node by a keypath: a sequence of tags, with the tuple of key values behind the
tag of each list, in reverse order. `make_gnmi_keypath_elems` follows the parents of the schema node
to the root, and walks that chain from the root with an index that runs down the keypath. A name is
qualified by its module where the namespace changes.

## The alignment

A data node is a sequence of steps from the root, one for each schema node, and a step of a list has
one value for each key. While the loop is at some step, the index points at the first tag of that
step, because what the keypath has before it belongs to the steps that are left. So the loop ends at
`-1`, and `canonicalFrom` is the path it yields.
-/

namespace ConfdDemos.Gnmi

/-! ## Schema nodes and keypaths -/

/-- What `node.info()` tells of a schema node. -/
structure CsInfo where
  tag : ℕ
  ns : ℕ
  /-- `CS_NODE_IS_LIST` is set. -/
  isList : Bool
  /-- The tags of the keys, in schema order. -/
  keys : List ℕ
  deriving DecidableEq, Repr

/-- A schema node with its parents. -/
inductive CsNode where
  | root (info : CsInfo)
  | child (parent : CsNode) (info : CsInfo)
  deriving DecidableEq, Repr

/-- `csnode_list`: the node, its parent, and so on to the root. -/
def CsNode.csnodeList : CsNode → List CsInfo
  | root info => [info]
  | child parent info => info :: parent.csnodeList

/-- One position of a keypath. -/
inductive KeypathElem (V : Type) where
  | tag (tag ns : ℕ)
  | keys (vals : List V)
  deriving DecidableEq, Repr

inductive KeypathError where
  /-- One of the two assertions of the loop fails. -/
  | assertion
  /-- A tuple has no `tag`. -/
  | attribute
  /-- The namespace is not in `ns_to_module`. -/
  | unknownNs
  /-- The index is outside the keypath. -/
  | index
  deriving DecidableEq, Repr

/-- `keypath[i]`, behind the assertion that the index is not negative. -/
def keypathAt {V : Type} (keypath : List (KeypathElem V)) (i : ℤ) :
    Except KeypathError (KeypathElem V) :=
  if i < 0 then .error .assertion
  else match keypath[i.toNat]? with
    | some e => .ok e
    | none => .error .index

/-- A dictionary comprehension over pairs of a key and a value. -/
def dictOf (ps : List (List Char × List Char)) : List (List Char × List Char) :=
  ps.foldl (fun d q ↦ setKey d q.1 q.2) []

theorem foldl_setKey {ps d : List (List Char × List Char)}
    (h : ((d ++ ps).map Prod.fst).Nodup) :
    ps.foldl (fun d q ↦ setKey d q.1 q.2) d = d ++ ps := by
  induction ps generalizing d with
  | nil => simp
  | cons q ps ih =>
    have hnot : q.1 ∉ d.map Prod.fst := by
      rw [List.map_append, List.map_cons] at h
      intro hmem
      exact (List.nodup_append.1 h).2.2 q.1 hmem q.1 List.mem_cons_self rfl
    rw [List.foldl_cons, setKey_of_notMem hnot, ih (by simpa using h)]
    simp

/-- With distinct keys the dictionary holds the pairs as they are. -/
theorem dictOf_of_nodup {ps : List (List Char × List Char)} (h : (ps.map Prod.fst).Nodup) :
    dictOf ps = ps :=
  foldl_setKey (by simpa using h)

/-- What the adapter knows of the names: ConfD's `hash2str`, the dictionary `ns_to_module` it builds
from `get_nslist`, and the text of a value. -/
structure Names (V : Type) where
  hash2str : ℕ → List Char
  nsToModule : ℕ → Option (List Char)
  str : V → List Char

namespace Names

variable {V : Type} (N : Names V)

/-- The keys of a list element. -/
def keysOf (node : CsInfo) (vals : List V) : List (List Char × List Char) :=
  dictOf ((node.keys.zip vals).map fun q ↦ (N.hash2str q.1, N.str q.2))

/-- The name of an element, given the namespace of the element before it. -/
def nameOf (ns tag tagNs : ℕ) : Except KeypathError (List Char) :=
  if tagNs ≠ ns then
    match N.nsToModule tagNs with
    | some module => .ok (module ++ ':' :: N.hash2str tag)
    | none => .error .unknownNs
  else .ok (N.hash2str tag)

/-- One round of the loop of `make_gnmi_keypath_elems`: the element it yields, and the index and the
namespace after it. -/
def keypathStep (keypath : List (KeypathElem V)) (i : ℤ) (ns : ℕ) (node : CsInfo) :
    Except KeypathError (PathElem × ℤ × ℕ) := do
  match ← keypathAt keypath i with
  | .keys _ => throw .attribute
  | .tag tag tagNs =>
    let name ← N.nameOf ns tag tagNs
    let i := i - 1
    if node.isList then
      match ← keypathAt keypath i with
      -- the position behind the tag of a list is a tuple
      | .tag _ _ => throw .assertion
      | .keys vals => return (⟨name, N.keysOf node vals⟩, i - 1, tagNs)
    else
      return (⟨name, []⟩, i, tagNs)

/-- The loop of `make_gnmi_keypath_elems`, with the index it ends at. -/
def keypathLoop (keypath : List (KeypathElem V)) (i : ℤ) (ns : ℕ) :
    List CsInfo → Except KeypathError (List PathElem × ℤ)
  | [] => .ok ([], i)
  | node :: nodes => do
    let (e, i, ns) ← N.keypathStep keypath i ns node
    let (es, i) ← keypathLoop keypath i ns nodes
    return (e :: es, i)

/-- `make_gnmi_keypath_elems`. -/
def makeGnmiKeypathElems (keypath : List (KeypathElem V)) (csnode : CsNode) :
    Except KeypathError (List PathElem × ℤ) :=
  N.keypathLoop keypath ((keypath.length : ℤ) - 1) 0 csnode.csnodeList.reverse

/-- `make_gnmi_keypath`, for the schema node of the keypath. -/
def makeGnmiKeypath (keypath : List (KeypathElem V)) (csnode : CsNode) :
    Except KeypathError Path := do
  let (elems, _) ← N.makeGnmiKeypathElems keypath csnode
  return ⟨elems⟩

end Names

/-! ## Data nodes -/

/-- A step to a data node: a schema node, with one value for each key if it is a list. -/
structure Step (V : Type) where
  node : CsInfo
  vals : List V
  aligned : vals.length = if node.isList then node.keys.length else 0

variable {V : Type}

/-- The tag of a step, and the key tuple of a list. -/
def Step.parts (s : Step V) : List (KeypathElem V) :=
  .tag s.node.tag s.node.ns :: if s.node.isList then [.keys s.vals] else []

/-- The keypath of a data node. -/
def keypathOf (steps : List (Step V)) : List (KeypathElem V) := (steps.flatMap Step.parts).reverse

namespace Names

variable (N : Names V)

/-- The name of a step as `make_gnmi_keypath_elems` spells it behind a step in the namespace
`ns`. -/
def canonicalName (ns : ℕ) (s : Step V) : List Char :=
  if s.node.ns ≠ ns then (N.nsToModule s.node.ns).getD [] ++ ':' :: N.hash2str s.node.tag
  else N.hash2str s.node.tag

/-- The keys of a step, paired with their values in schema order. -/
def canonicalKeys (s : Step V) : List (List Char × List Char) :=
  (s.node.keys.zip s.vals).map fun q ↦ (N.hash2str q.1, N.str q.2)

/-- The path of a data node, behind a step in the namespace `ns`. -/
def canonicalFrom (ns : ℕ) : List (Step V) → List PathElem
  | [] => []
  | s :: steps => ⟨N.canonicalName ns s, N.canonicalKeys s⟩ :: canonicalFrom s.node.ns steps

/-- The names that ConfD gives: every namespace has a module, and the keys of a list have distinct
names. -/
structure Knows (steps : List (Step V)) : Prop where
  module : ∀ s ∈ steps, N.nsToModule s.node.ns ≠ none
  distinct : ∀ s ∈ steps, (s.node.keys.map N.hash2str).Nodup

variable {N}

theorem Knows.tail {s : Step V} {steps : List (Step V)} (h : N.Knows (s :: steps)) :
    N.Knows steps where
  module t ht := h.module t (List.mem_cons_of_mem s ht)
  distinct t ht := h.distinct t (List.mem_cons_of_mem s ht)

/-- The keys of a list are all there, in schema order. -/
theorem map_fst_canonicalKeys {s : Step V} (h : s.node.isList = true) :
    (N.canonicalKeys s).map Prod.fst = s.node.keys.map N.hash2str := by
  have hlen : s.node.keys.length ≤ s.vals.length := by
    rw [s.aligned, h, if_pos rfl]
  have hfst : (N.canonicalKeys s).map Prod.fst =
      ((s.node.keys.zip s.vals).map Prod.fst).map N.hash2str := by
    simp [canonicalKeys, Function.comp_def]
  rw [hfst, List.map_fst_zip hlen]

theorem canonicalKeys_of_not_isList {s : Step V} (h : s.node.isList = false) :
    N.canonicalKeys s = [] := by
  have hvals : s.vals = [] := by
    have := s.aligned
    rw [h] at this
    exact List.eq_nil_of_length_eq_zero this
  rw [canonicalKeys, hvals, List.zip_nil_right, List.map_nil]

theorem keysOf_eq {s : Step V} (hlist : s.node.isList = true)
    (h : (s.node.keys.map N.hash2str).Nodup) : N.keysOf s.node s.vals = N.canonicalKeys s :=
  dictOf_of_nodup (by rwa [← map_fst_canonicalKeys hlist] at h)

theorem nameOf_eq {s : Step V} (ns : ℕ) (h : N.nsToModule s.node.ns ≠ none) :
    N.nameOf ns s.node.tag s.node.ns = .ok (N.canonicalName ns s) := by
  obtain ⟨module, hmodule⟩ := Option.ne_none_iff_exists'.1 h
  rw [nameOf, canonicalName]
  split_ifs with hns
  · rw [hmodule]
    rfl
  · rfl

/-! ## One round -/

/-- The position behind `front` of a keypath. -/
theorem keypathAt_append (front : List (KeypathElem V)) (e : KeypathElem V)
    (back : List (KeypathElem V)) : keypathAt (front ++ e :: back) (front.length : ℤ) = .ok e := by
  have hpos : ¬ (front.length : ℤ) < 0 := by omega
  rw [keypathAt, if_neg hpos, Int.toNat_natCast, List.getElem?_append_right (Nat.le_refl _),
    Nat.sub_self]
  rfl

/-- **One round reads one step**: with the index at the tag of the step, it yields the element of
the step and leaves the index just before what is left of the keypath. -/
theorem keypathStep_eq (ns : ℕ) (s : Step V) (hmod : N.nsToModule s.node.ns ≠ none)
    (hkeys : (s.node.keys.map N.hash2str).Nodup) (left back : List (KeypathElem V)) :
    N.keypathStep (left ++ (s.parts.reverse ++ back)) ((left.length + s.parts.length : ℕ) - 1) ns
      s.node =
    .ok (⟨N.canonicalName ns s, N.canonicalKeys s⟩, (left.length : ℤ) - 1, s.node.ns) := by
  cases hlist : s.node.isList with
  | false =>
    have hparts : s.parts = [.tag s.node.tag s.node.ns] := by simp [Step.parts, hlist]
    have hi : ((left.length + s.parts.length : ℕ) : ℤ) - 1 = left.length := by simp [hparts]
    rw [hi, hparts, keypathStep, canonicalKeys_of_not_isList hlist]
    simp only [List.reverse_singleton, List.singleton_append, keypathAt_append, nameOf_eq ns hmod,
      hlist, bind, Except.bind]
    rfl
  | true =>
    have hparts : s.parts = [.tag s.node.tag s.node.ns, .keys s.vals] := by
      simp [Step.parts, hlist]
    have hi : ((left.length + s.parts.length : ℕ) : ℤ) - 1 =
        ((left ++ [.keys s.vals] : List (KeypathElem V)).length : ℤ) := by
      rw [hparts, List.length_append]
      simp only [List.length_cons, List.length_nil]
      omega
    -- the keypath is read from its end, so the keys stand before the tag of the list
    have hsplit : left ++ (s.parts.reverse ++ back) =
        (left ++ [.keys s.vals]) ++ .tag s.node.tag s.node.ns :: back := by
      simp [hparts]
    have hread : (left ++ [KeypathElem.keys s.vals]) ++ .tag s.node.tag s.node.ns :: back =
        left ++ .keys s.vals :: (.tag s.node.tag s.node.ns :: back) := by
      simp
    have hnext : ((left ++ [.keys s.vals] : List (KeypathElem V)).length : ℤ) - 1 =
        left.length := by
      simp
    rw [hi, hsplit, keypathStep, ← keysOf_eq hlist hkeys]
    simp only [keypathAt_append, nameOf_eq ns hmod, hlist, hnext, bind, Except.bind]
    rw [hread, keypathAt_append]
    rfl

/-- **The loop reads the whole keypath** of a data node, and yields its canonical path. -/
theorem keypathLoop_eq {steps : List (Step V)} (h : N.Knows steps) (ns : ℕ)
    (back : List (KeypathElem V)) :
    N.keypathLoop (keypathOf steps ++ back) (((keypathOf steps).length : ℤ) - 1) ns
      (steps.map Step.node) = .ok (N.canonicalFrom ns steps, -1) := by
  induction steps generalizing ns back with
  | nil => rfl
  | cons s steps ih =>
    have hsplit : keypathOf (s :: steps) = keypathOf steps ++ s.parts.reverse := by
      simp [keypathOf]
    have hlen : ((keypathOf (s :: steps)).length : ℤ) - 1 =
        ((keypathOf steps).length + s.parts.length : ℕ) - 1 := by
      rw [hsplit, List.length_append, List.length_reverse]
    rw [hlen, hsplit, List.append_assoc, List.map_cons, keypathLoop,
      keypathStep_eq ns s (h.module s List.mem_cons_self) (h.distinct s List.mem_cons_self)]
    simp only [bind, Except.bind]
    rw [ih h.tail]
    rfl

/-! ## The path -/

theorem makeGnmiKeypathElems_eq {csnode : CsNode} {steps : List (Step V)} (h : N.Knows steps)
    (hchain : csnode.csnodeList.reverse = steps.map Step.node) :
    N.makeGnmiKeypathElems (keypathOf steps) csnode = .ok (N.canonicalFrom 0 steps, -1) := by
  have hloop := keypathLoop_eq h 0 []
  rw [List.append_nil] at hloop
  rw [makeGnmiKeypathElems, hchain, hloop]

theorem makeGnmiKeypath_eq {csnode : CsNode} {steps : List (Step V)} (h : N.Knows steps)
    (hchain : csnode.csnodeList.reverse = steps.map Step.node) :
    N.makeGnmiKeypath (keypathOf steps) csnode = .ok ⟨N.canonicalFrom 0 steps⟩ := by
  rw [makeGnmiKeypath, makeGnmiKeypathElems_eq h hchain]
  rfl

theorem length_canonicalFrom (ns : ℕ) (steps : List (Step V)) :
    (N.canonicalFrom ns steps).length = steps.length := by
  induction steps generalizing ns with
  | nil => rfl
  | cons s steps ih => rw [canonicalFrom, List.length_cons, ih, List.length_cons]

end Names

/-- The namespace that the loop carries when it comes to a position. -/
def prevNs (ns : ℕ) (steps : List (Step V)) (j : ℕ) : ℕ :=
  ((ns :: steps.map fun s ↦ s.node.ns)[j]?).getD 0

/-- The namespace of a step differs from that of the step before it, or it is the first step. -/
def NsChanges (steps : List (Step V)) (j : ℕ) : Prop :=
  j = 0 ∨ (steps[j - 1]?).map (fun s ↦ s.node.ns) ≠ (steps[j]?).map fun s ↦ s.node.ns

instance (steps : List (Step V)) (j : ℕ) : Decidable (NsChanges steps j) :=
  inferInstanceAs (Decidable (_ ∨ _))

/-- No namespace is `0`, so the loop sees a change of namespace at the first step. -/
theorem nsChanges_iff {steps : List (Step V)} (hroot : ∀ s, steps.head? = some s → s.node.ns ≠ 0)
    {j : ℕ} {s : Step V} (hs : steps[j]? = some s) :
    NsChanges steps j ↔ s.node.ns ≠ prevNs 0 steps j := by
  cases j with
  | zero =>
    have hne : s.node.ns ≠ 0 := hroot s (by rw [List.head?_eq_getElem?, hs])
    exact iff_of_true (Or.inl rfl) hne
  | succ j =>
    have hj : j + 1 < steps.length := (List.getElem?_eq_some_iff.1 hs).1
    have hprev : prevNs 0 steps (j + 1) = (steps[j]).node.ns := by
      simp [prevNs, List.getElem?_eq_getElem (Nat.lt_of_succ_lt hj)]
    rw [NsChanges, hs, hprev, Nat.add_sub_cancel, List.getElem?_eq_getElem (Nat.lt_of_succ_lt hj)]
    simp [eq_comm]

namespace Names

variable {N : Names V}

theorem getElem?_canonicalFrom (ns : ℕ) (steps : List (Step V)) (j : ℕ) :
    (N.canonicalFrom ns steps)[j]? =
      (steps[j]?).map fun s ↦ ⟨N.canonicalName (prevNs ns steps j) s, N.canonicalKeys s⟩ := by
  induction steps generalizing ns j with
  | nil => rfl
  | cons s steps ih =>
    cases j with
    | zero => rfl
    | succ j =>
      rw [canonicalFrom, List.getElem?_cons_succ, ih, List.getElem?_cons_succ]
      rfl

/-- The keys of a step, as the names of its keys next to the texts of its values. -/
theorem canonicalKeys_eq_zip (s : Step V) :
    N.canonicalKeys s = (s.node.keys.map N.hash2str).zip (s.vals.map N.str) := by
  rw [canonicalKeys, List.zip_map]
  rfl

/-- **A keypath becomes the path of its data node**: no assertion fails, the index ends before the
first position, and every schema node gets one element. A list has its keys with their values in
schema order, other nodes have none, and a name has its module where the namespace changes. -/
theorem makeGnmiKeypathElems_keypathOf {csnode : CsNode} {steps : List (Step V)}
    (hchain : csnode.csnodeList.reverse = steps.map Step.node)
    (hroot : ∀ s, steps.head? = some s → s.node.ns ≠ 0) (hknows : N.Knows steps) :
    ∃ elems, N.makeGnmiKeypathElems (keypathOf steps) csnode = .ok (elems, -1) ∧
      elems.length = csnode.csnodeList.length ∧
      ∀ (j : ℕ) (s : Step V), steps[j]? = some s → ∃ e, elems[j]? = some e ∧
        e.key = (if s.node.isList then (s.node.keys.map N.hash2str).zip (s.vals.map N.str)
          else []) ∧
        (NsChanges steps j → ∃ module, N.nsToModule s.node.ns = some module ∧
          e.name = module ++ ':' :: N.hash2str s.node.tag) ∧
        (¬ NsChanges steps j → e.name = N.hash2str s.node.tag) := by
  refine ⟨N.canonicalFrom 0 steps, makeGnmiKeypathElems_eq hknows hchain, ?_, fun j s hs ↦ ?_⟩
  · rw [length_canonicalFrom, ← List.length_map Step.node, ← hchain, List.length_reverse]
  · -- the module is named exactly where the namespace changes
    have hname : N.canonicalName (prevNs 0 steps j) s = if NsChanges steps j
        then (N.nsToModule s.node.ns).getD [] ++ ':' :: N.hash2str s.node.tag
        else N.hash2str s.node.tag := by
      rw [canonicalName]
      simp only [nsChanges_iff hroot hs]
    refine ⟨⟨N.canonicalName (prevNs 0 steps j) s, N.canonicalKeys s⟩, ?_, ?_, ?_, ?_⟩
    · rw [getElem?_canonicalFrom, hs]
      rfl
    · cases hlist : s.node.isList with
      | false => exact canonicalKeys_of_not_isList hlist
      | true => exact canonicalKeys_eq_zip s
    · intro hchange
      obtain ⟨module, hmodule⟩ :=
        Option.ne_none_iff_exists'.1 (hknows.module s (List.mem_of_getElem? hs))
      refine ⟨module, hmodule, ?_⟩
      rw [hname, if_pos hchange, hmodule]
      rfl
    · intro hsame
      rw [hname, if_neg hsame]

/-! ## An interface and its addresses -/

/-- The names of `ietf-interfaces`, with `ietf-ip` in a namespace of its own. -/
def ipNames : Names (List Char) where
  hash2str
    | 1 => "interfaces".toList
    | 2 => "interface".toList
    | 3 => "name".toList
    | _ => "ipv4".toList
  nsToModule
    | 10 => some "ietf-interfaces".toList
    | 20 => some "ietf-ip".toList
    | _ => none
  str v := v

def interfacesInfo : CsInfo := ⟨1, 10, false, []⟩

def interfaceInfo : CsInfo := ⟨2, 10, true, [3]⟩

def ipv4Info : CsInfo := ⟨4, 20, false, []⟩

def ipv4Node : CsNode := .child (.child (.root interfacesInfo) interfaceInfo) ipv4Info

/-- The steps to the addresses of an interface. -/
def ipv4Steps (name : List Char) : List (Step (List Char)) :=
  [⟨interfacesInfo, [], rfl⟩, ⟨interfaceInfo, [name], rfl⟩, ⟨ipv4Info, [], rfl⟩]

theorem knows_ipv4Steps (name : List Char) : ipNames.Knows (ipv4Steps name) where
  module := by simp [ipv4Steps, ipNames, interfacesInfo, interfaceInfo, ipv4Info]
  distinct := by simp [ipv4Steps, interfacesInfo, interfaceInfo, ipv4Info]

theorem makeGnmiKeypathElems_eth0 : ∃ elems,
    ipNames.makeGnmiKeypathElems (keypathOf (ipv4Steps "eth0".toList)) ipv4Node =
      .ok (elems, -1) ∧ elems.length = 3 := by
  have hchain : ipv4Node.csnodeList.reverse = (ipv4Steps "eth0".toList).map Step.node := rfl
  have hroot : ∀ s, (ipv4Steps "eth0".toList).head? = some s → s.node.ns ≠ 0 := by
    intro s hs
    cases hs
    decide
  obtain ⟨elems, hok, hlen, -⟩ :=
    makeGnmiKeypathElems_keypathOf hchain hroot (knows_ipv4Steps "eth0".toList)
  exact ⟨elems, hok, hlen⟩

end Names

end ConfdDemos.Gnmi
