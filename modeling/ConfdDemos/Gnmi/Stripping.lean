import Mathlib.Data.List.Nodup
import ConfdDemos.Gnmi.Keypath

/-!
# Stripping the prefix of a path

An update is sent relative to a prefix: the one of the request, or the path of the subscription
point for a change. The full path of the update comes from `make_gnmi_keypath`, and
`remove_path_prefix` asserts that it starts with the elements of the prefix.

## Two spellings

The prefix is spelled by the client. An element of it may carry its module or not, and may leave
out keys of a list, and ConfD resolves it all the same. The path of the update has one spelling,
`Names.canonicalFrom`. The assertion compares the two element by element, the keys as maps, so it
holds exactly when the client has chosen the canonical spelling: `Names.Canonical`.
-/

namespace ConfdDemos.Gnmi

/-! ## Adding and removing a prefix -/

instance (a b : PathElem) : Decidable (a.Same b) :=
  inferInstanceAs (Decidable (_ ∧ _))

inductive AdapterError where
  /-- The assertion of `remove_path_prefix`. -/
  | assertion
  /-- The assertion that there are changes. -/
  | noChanges
  /-- The subscription point is not in `subpoint_paths`. -/
  | unknownPoint
  /-- `make_gnmi_keypath` raises. -/
  | keypath (e : KeypathError)
  deriving DecidableEq, Repr

/-- `add_path_prefix`. -/
def addPathPrefix (path gnmiPrefix : Path) : Path := ⟨gnmiPrefix.elem ++ path.elem⟩

/-- The comparison of `remove_path_prefix`: messages are equal when their maps are. -/
def StartsWith (path gnmiPrefix : Path) : Prop :=
  List.Forall₂ PathElem.Same (path.elem.take gnmiPrefix.elem.length) gnmiPrefix.elem

instance (path gnmiPrefix : Path) : Decidable (StartsWith path gnmiPrefix) :=
  inferInstanceAs (Decidable (List.Forall₂ _ _ _))

/-- `remove_path_prefix`. -/
def removePathPrefix (path gnmiPrefix : Path) : Except AdapterError Path :=
  if StartsWith path gnmiPrefix then .ok ⟨path.elem.drop gnmiPrefix.elem.length⟩
  else .error .assertion

variable {V W : Type}

/-- The updates of a notification, each with its path stripped. -/
def stripUpdates (gnmiPrefix : Path) :
    List (Path × W) → Except AdapterError (List (Path × W))
  | [] => .ok []
  | (path, val) :: updates => do
    let path ← removePathPrefix path gnmiPrefix
    let rest ← stripUpdates gnmiPrefix updates
    return (path, val) :: rest

/-- Stripping fails only by the assertion, at a path that does not start with the prefix. -/
theorem stripUpdates_cases (gnmiPrefix : Path) (updates : List (Path × W)) :
    (∃ r, stripUpdates gnmiPrefix updates = .ok r) ∧ (∀ u ∈ updates, StartsWith u.1 gnmiPrefix) ∨
      stripUpdates gnmiPrefix updates = .error .assertion ∧
        ¬ ∀ u ∈ updates, StartsWith u.1 gnmiPrefix := by
  induction updates with
  | nil => exact Or.inl ⟨⟨[], rfl⟩, by simp⟩
  | cons u updates ih =>
    rw [stripUpdates, removePathPrefix, List.forall_mem_cons]
    split_ifs with hu
    · obtain ⟨⟨r, hr⟩, hall⟩ | ⟨herr, hnot⟩ := ih
      · rw [hr]
        exact Or.inl ⟨⟨_, rfl⟩, hu, hall⟩
      · rw [herr]
        exact Or.inr ⟨rfl, fun h ↦ hnot h.2⟩
    · exact Or.inr ⟨rfl, fun h ↦ hu h.1⟩

/-! ## Spellings of a data node -/

namespace Names

variable (N : Names V)

/-- The name of the element carries the module of the step. -/
def Qualified (e : PathElem) (s : Step V) : Prop :=
  ∃ module, N.nsToModule s.node.ns = some module ∧ e.name = module ++ ':' :: N.hash2str s.node.tag

/-- An element of a request for which ConfD takes the step: the name with or without its module, and
some of the keys, each in a text that ConfD reads as the value. -/
structure Spells (reads : V → List Char → Prop) (e : PathElem) (s : Step V) : Prop where
  name : e.name = N.hash2str s.node.tag ∨ N.Qualified e s
  keyed : (e.key.map Prod.fst).Nodup
  key : ∀ q ∈ e.key, ∃ r ∈ s.node.keys.zip s.vals, q.1 = N.hash2str r.1 ∧ reads r.2 q.2

/-- The data node lies at the path or below it. -/
def Under (reads : V → List Char → Prop) (path : Path) (steps : List (Step V)) : Prop :=
  List.Forall₂ (N.Spells reads) path.elem (steps.take path.elem.length)

/-- The spelling of `make_gnmi_keypath`: modules exactly where the namespace changes, and every key,
in the text that ConfD prints. -/
structure Canonical (path : Path) (steps : List (Step V)) : Prop where
  qualified : ∀ (j : ℕ) (e : PathElem) (s : Step V), path.elem[j]? = some e →
    steps[j]? = some s → (N.Qualified e s ↔ NsChanges steps j)
  complete : ∀ (j : ℕ) (e : PathElem) (s : Step V), path.elem[j]? = some e →
    steps[j]? = some s → ∀ q ∈ s.node.keys.zip s.vals, (N.hash2str q.1, N.str q.2) ∈ e.key

variable {N} {reads : V → List Char → Prop}

theorem not_qualified {e : PathElem} {s : Step V} (h : e.name = N.hash2str s.node.tag) :
    ¬ N.Qualified e s := by
  rintro ⟨module, -, hname⟩
  have hlen := congrArg List.length (h.symm.trans hname)
  rw [List.length_append, List.length_cons] at hlen
  omega

theorem canonicalName_eq_iff {ns : ℕ} {e : PathElem} {s : Step V} (h : N.Spells reads e s)
    (hmod : N.nsToModule s.node.ns ≠ none) :
    N.canonicalName ns s = e.name ↔ (N.Qualified e s ↔ s.node.ns ≠ ns) := by
  obtain ⟨module, hmodule⟩ := Option.ne_none_iff_exists'.1 hmod
  rw [canonicalName, hmodule, Option.getD_some]
  obtain hbare | hqual := h.name
  · have hnot := not_qualified hbare
    split_ifs with hns
    · refine iff_of_false (fun heq ↦ hnot ⟨module, hmodule, heq.symm⟩) fun hiff ↦ ?_
      exact hnot (hiff.2 hns)
    · exact iff_of_true hbare.symm (iff_of_false hnot hns)
  · split_ifs with hns
    · obtain ⟨module', hmodule', hname⟩ := hqual
      obtain rfl : module' = module := Option.some.inj (hmodule'.symm.trans hmodule)
      exact iff_of_true hname.symm (iff_of_true ⟨module', hmodule', hname⟩ hns)
    · refine iff_of_false (fun heq ↦ not_qualified heq.symm hqual) fun hiff ↦ ?_
      exact hns (hiff.1 hqual)

/-- The keys of an element are among those of the list, so as maps they are equal when every key is
there. -/
theorem canonicalKeys_perm_iff {e : PathElem} {s : Step V} (h : N.Spells reads e s)
    (hdistinct : (s.node.keys.map N.hash2str).Nodup) :
    (N.canonicalKeys s).Perm e.key ↔
      ∀ q ∈ s.node.keys.zip s.vals, (N.hash2str q.1, N.str q.2) ∈ e.key := by
  constructor
  · intro hperm q hq
    exact hperm.mem_iff.1 (List.mem_map_of_mem hq)
  · intro hall
    have hcanon : (N.canonicalKeys s).Nodup := by
      cases hlist : s.node.isList with
      | false => simp [canonicalKeys_of_not_isList hlist]
      | true =>
        rw [← map_fst_canonicalKeys hlist] at hdistinct
        exact List.Nodup.of_map _ hdistinct
    refine (List.perm_ext_iff_of_nodup hcanon (List.Nodup.of_map _ h.keyed)).2 fun q ↦ ⟨?_, ?_⟩
    · intro hq
      obtain ⟨r, hr, rfl⟩ := List.mem_map.1 hq
      exact hall r hr
    · intro hq
      obtain ⟨r, hr, hname, -⟩ := h.key q hq
      -- the canonical pair of this key is there as well, and a map has one value for a key
      have heq : q = (N.hash2str r.1, N.str r.2) :=
        List.inj_on_of_nodup_map h.keyed hq (hall r hr) hname
      rw [heq]
      exact List.mem_map_of_mem hr

/-- The steps of a data node as ConfD has them. -/
structure IsNode (N : Names V) (steps : List (Step V)) : Prop extends N.Knows steps where
  root : ∀ s, steps.head? = some s → s.node.ns ≠ 0

theorem Under.length_le {path : Path} {steps : List (Step V)} (h : N.Under reads path steps) :
    path.elem.length ≤ steps.length := by
  have hlen := List.Forall₂.length_eq h
  rw [List.length_take] at hlen
  omega

theorem Under.spells {path : Path} {steps : List (Step V)} (h : N.Under reads path steps) {j : ℕ}
    {e : PathElem} {s : Step V} (he : path.elem[j]? = some e) (hs : steps[j]? = some s) :
    N.Spells reads e s := by
  obtain ⟨hj, rfl⟩ := List.getElem?_eq_some_iff.1 he
  obtain ⟨hj', rfl⟩ := List.getElem?_eq_some_iff.1 hs
  have hspell := (List.forall₂_iff_get.1 h).2 j hj (by rw [List.length_take]; omega)
  simpa using hspell

/-- The comparison, position by position. -/
theorem startsWith_iff {path gnmiPrefix : Path}
    (hlen : gnmiPrefix.elem.length ≤ path.elem.length) :
    StartsWith path gnmiPrefix ↔ ∀ (j : ℕ) (a b : PathElem), path.elem[j]? = some a →
      gnmiPrefix.elem[j]? = some b → a.Same b := by
  rw [StartsWith, List.forall₂_iff_get]
  constructor
  · rintro ⟨-, h⟩ j a b ha hb
    obtain ⟨hj, rfl⟩ := List.getElem?_eq_some_iff.1 ha
    obtain ⟨hj', rfl⟩ := List.getElem?_eq_some_iff.1 hb
    have hsame := h j (by rw [List.length_take]; omega) hj'
    simpa using hsame
  · intro h
    refine ⟨by rw [List.length_take]; omega, fun j hj hj' ↦ ?_⟩
    refine h j _ _ ?_ (List.getElem?_eq_getElem hj')
    rw [List.get_eq_getElem, List.getElem_take, List.getElem?_eq_getElem]

/-- **The assertion holds for the canonical spelling only.** -/
theorem startsWith_canonicalFrom_iff {gnmiPrefix : Path} {steps : List (Step V)}
    (hnode : N.IsNode steps) (h : N.Under reads gnmiPrefix steps) :
    StartsWith ⟨N.canonicalFrom 0 steps⟩ gnmiPrefix ↔ N.Canonical gnmiPrefix steps := by
  have hpoint : ∀ (j : ℕ) (e : PathElem) (s : Step V), gnmiPrefix.elem[j]? = some e →
      steps[j]? = some s →
      (PathElem.Same ⟨N.canonicalName (prevNs 0 steps j) s, N.canonicalKeys s⟩ e ↔
        (N.Qualified e s ↔ NsChanges steps j) ∧
        ∀ q ∈ s.node.keys.zip s.vals, (N.hash2str q.1, N.str q.2) ∈ e.key) := by
    intro j e s he hs
    have hmem := List.mem_of_getElem? hs
    have hspell := h.spells he hs
    rw [nsChanges_iff hnode.root hs]
    exact and_congr (canonicalName_eq_iff hspell (hnode.module s hmem))
      (canonicalKeys_perm_iff hspell (hnode.distinct s hmem))
  rw [startsWith_iff (by rw [length_canonicalFrom]; exact h.length_le)]
  constructor
  · intro hall
    have hsame : ∀ (j : ℕ) (e : PathElem) (s : Step V), gnmiPrefix.elem[j]? = some e →
        steps[j]? = some s →
        PathElem.Same ⟨N.canonicalName (prevNs 0 steps j) s, N.canonicalKeys s⟩ e := by
      intro j e s he hs
      refine hall j _ e ?_ he
      rw [getElem?_canonicalFrom, hs]
      rfl
    exact ⟨fun j e s he hs ↦ ((hpoint j e s he hs).1 (hsame j e s he hs)).1,
      fun j e s he hs ↦ ((hpoint j e s he hs).1 (hsame j e s he hs)).2⟩
  · intro hcanon j a e ha he
    rw [getElem?_canonicalFrom] at ha
    obtain ⟨s, hs, rfl⟩ := Option.map_eq_some_iff.1 ha
    exact (hpoint j e s he hs).2 ⟨hcanon.qualified j e s he hs, hcanon.complete j e s he hs⟩

end Names

/-! ## The callers -/

/-- The schema node itself, the first of its chain. -/
def CsNode.info : CsNode → CsInfo
  | root info => info
  | child _ info => info

/-- The operations of a CDB diff. Only `valueSet` is turned into a change. -/
inductive Mop where
  | created | valueSet | deleted | modified
  deriving DecidableEq, Repr

/-- What ConfD answers to the adapter. Values are of type `V`, and the data of an update of type
`W`. -/
structure Confd (V W : Type) where
  names : Names V
  prefixes : Prefixes
  /-- `cs_node_cd` of a path. -/
  csNodeCd : List Char → Option CsNode
  /-- `cs_node_cd` of a keypath. -/
  csNodeOf : List (KeypathElem V) → CsNode
  /-- The data nodes for which `xpath_eval` calls back, each with what `save_config` gives for it,
  if that is anything; there is no result when one of the calls raises. -/
  evaluate : List Char → Option (List (List (Step V) × Option W))
  /-- `CS_NODE_IS_CDB` is set. -/
  isCdb : CsInfo → Bool
  /-- The texts that ConfD reads as a value. -/
  reads : V → List Char → Prop

namespace Confd

variable (C : Confd V W)

/-- The callbacks `add_update_json` of `get_updates`. -/
def addUpdates (csnode : CsNode) :
    List (List (Step V) × Option W) → Except KeypathError (List (Path × W))
  | [] => .ok []
  | (_, none) :: nodes => addUpdates csnode nodes
  | (steps, some val) :: nodes => do
    let path ← C.names.makeGnmiKeypath (keypathOf steps) csnode
    let updates ← addUpdates csnode nodes
    return (path, val) :: updates

/-- `get_updates_with_maapi_save`. An exception leaves no updates. -/
def getUpdatesWithMaapiSave (path : List Char) : List (Path × W) :=
  let pfxPath := C.prefixes.fixPathPrefixes path
  match C.csNodeCd pfxPath, C.evaluate pfxPath with
  | some csnode, some nodes =>
    match C.addUpdates csnode nodes with
    | .ok updates => updates
    | .error _ => []
  | _, _ => []

/-- `get`, up to the notification around the updates. -/
def get (gnmiPrefix : Path) (paths : List Path) : Except AdapterError (List (Path × W)) :=
  stripUpdates gnmiPrefix (paths.flatMap fun path ↦
    C.getUpdatesWithMaapiSave (makeXpathPath (some path) (some gnmiPrefix) true))

/-- `get_sample`. -/
def getSample (path gnmiPrefix : Path) : Except AdapterError (List (Path × W)) :=
  stripUpdates gnmiPrefix
    (C.getUpdatesWithMaapiSave (makeXpathPath (some path) (some gnmiPrefix) true))

/-- The path of a subscription point: a list without keys is left out. There is no result for a
list at an empty path. -/
def subpointPath (info : CsInfo) (path : Path) : Option Path :=
  if info.isList then
    path.elem.getLast?.map fun e ↦ if e.key = [] then ⟨path.elem.dropLast⟩ else path
  else some path

/-- `subscribe_monitored_paths_cdb`, for the monitored paths with the numbers that `subscribe2`
gives them. -/
def subscribeMonitoredPathsCdb :
    List (Path × ℕ) → (ℕ → Option Path) → Option (ℕ → Option Path)
  | [], subpointPaths => some subpointPaths
  | (path, spoint) :: rest, subpointPaths => do
    let pathStr := C.prefixes.fixPathPrefixes (makeFormattedPath path none false)
    let csnode ← C.csNodeCd pathStr
    let sub ← subpointPath csnode.info path
    if C.isCdb csnode.info then
      subscribeMonitoredPathsCdb rest fun n ↦ if n = spoint then some sub else subpointPaths n
    else subscribeMonitoredPathsCdb rest subpointPaths

/-- `cdb_iter` over a diff: the changes of `process_subscription`. -/
def processSubscription :
    List (List (Step V) × Mop × W) → Except AdapterError (List (Path × W))
  | [] => .ok []
  | (steps, op, newv) :: diff =>
    match op with
    | .valueSet => do
      let path ← (C.names.makeGnmiKeypath (keypathOf steps) (C.csNodeOf (keypathOf steps))).mapError
        AdapterError.keypath
      let changes ← processSubscription diff
      return (path, newv) :: changes
    | _ => processSubscription diff

/-- The subscription points that changed, each appended to `change_db` with its changes. -/
def appendChanges :
    List (ℕ × List (List (Step V) × Mop × W)) → Except AdapterError (List (ℕ × List (Path × W)))
  | [] => .ok []
  | (spoint, diff) :: rest => do
    let changes ← C.processSubscription diff
    let changeDb ← appendChanges rest
    return (spoint, changes) :: changeDb

end Confd

/-- The loop of `_get_subscription_notifications`. -/
def changeUpdates (subpointPaths : ℕ → Option Path) :
    List (ℕ × List (Path × W)) → Except AdapterError (List (Path × List (Path × W)))
  | [] => .ok []
  | (spoint, changes) :: changeDb =>
    match subpointPaths spoint with
    | none => .error .unknownPoint
    | some gnmiPrefix => do
      let updates ← stripUpdates gnmiPrefix changes
      let rest ← changeUpdates subpointPaths changeDb
      return (gnmiPrefix, updates) :: rest

/-- `_get_subscription_notifications`. -/
def getSubscriptionNotifications (subpointPaths : ℕ → Option Path)
    (changeDb : List (ℕ × List (Path × W))) :
    Except AdapterError (List (Path × List (Path × W))) :=
  if changeDb = [] then .error .noChanges else changeUpdates subpointPaths changeDb

/-! ## What the callers strip -/

theorem Names.Under.of_append {N : Names V} {reads : V → List Char → Prop} {es fs : List PathElem}
    {steps : List (Step V)} (h : N.Under reads ⟨es ++ fs⟩ steps) : N.Under reads ⟨es⟩ steps := by
  have htake := List.forall₂_take es.length h
  rw [Under]
  simpa [List.take_take] using htake

namespace Confd

/-- The path that `make_gnmi_keypath` gives a data node. -/
def canonicalPath (C : Confd V W) (steps : List (Step V)) : Path := ⟨C.names.canonicalFrom 0 steps⟩

/-- ConfD reports a data node under the path, and knows its schema node. -/
structure Reports (C : Confd V W) (csnode : CsNode) (path : Path) (steps : List (Step V)) :
    Prop where
  isNode : C.names.IsNode steps
  chain : csnode.csnodeList.reverse = steps.map Step.node
  under : C.names.Under C.reads path steps

variable {C : Confd V W}

theorem Reports.makeGnmiKeypath {csnode : CsNode} {path : Path} {steps : List (Step V)}
    (h : C.Reports csnode path steps) :
    C.names.makeGnmiKeypath (keypathOf steps) csnode = .ok (C.canonicalPath steps) :=
  Names.makeGnmiKeypath_eq h.isNode.toKnows h.chain

theorem Reports.startsWith_iff {csnode : CsNode} {path : Path} {steps : List (Step V)}
    (h : C.Reports csnode path steps) {gnmiPrefix : Path} {es : List PathElem}
    (hpath : path.elem = gnmiPrefix.elem ++ es) :
    StartsWith (C.canonicalPath steps) gnmiPrefix ↔ C.names.Canonical gnmiPrefix steps := by
  obtain ⟨elem⟩ := path
  obtain rfl : elem = gnmiPrefix.elem ++ es := hpath
  exact Names.startsWith_canonicalFrom_iff h.isNode h.under.of_append

theorem addUpdates_eq {csnode : CsNode} {path : Path} {nodes : List (List (Step V) × Option W)}
    (h : ∀ q ∈ nodes, C.Reports csnode path q.1) :
    C.addUpdates csnode nodes =
      .ok (nodes.filterMap fun q ↦ q.2.map fun val ↦ (C.canonicalPath q.1, val)) := by
  induction nodes with
  | nil => rfl
  | cons q nodes ih =>
    obtain ⟨hq, hnodes⟩ := List.forall_mem_cons.1 h
    obtain ⟨steps, _ | val⟩ := q
    · rw [addUpdates, ih hnodes]
      rfl
    · rw [addUpdates, hq.makeGnmiKeypath, ih hnodes]
      rfl

variable (C) in
/-- The string by which a request asks ConfD. -/
def requestString (gnmiPrefix path : Path) : List Char :=
  C.prefixes.fixPathPrefixes (makeXpathPath (some path) (some gnmiPrefix) true)

variable (C) in
/-- Every data node that ConfD reports for a request lies under its path. -/
def Resolves (gnmiPrefix path : Path) : Prop :=
  ∀ csnode nodes, C.csNodeCd (C.requestString gnmiPrefix path) = some csnode →
    C.evaluate (C.requestString gnmiPrefix path) = some nodes →
    ∀ q ∈ nodes, C.Reports csnode (addPathPrefix path gnmiPrefix) q.1

variable (C) in
/-- The data nodes that a request gets an update for. -/
def reported (gnmiPrefix path : Path) : List (List (Step V)) :=
  match C.csNodeCd (C.requestString gnmiPrefix path),
    C.evaluate (C.requestString gnmiPrefix path) with
  | some _, some nodes => nodes.filterMap fun q ↦ q.2.map fun _ ↦ q.1
  | _, _ => []

/-- **A request gets the canonical path of every node that is reported for it.** -/
theorem map_fst_getUpdatesWithMaapiSave {gnmiPrefix path : Path} (h : C.Resolves gnmiPrefix path) :
    (C.getUpdatesWithMaapiSave (makeXpathPath (some path) (some gnmiPrefix) true)).map Prod.fst =
      (C.reported gnmiPrefix path).map C.canonicalPath := by
  rw [getUpdatesWithMaapiSave, reported, ← requestString]
  cases hnode : C.csNodeCd (C.requestString gnmiPrefix path) with
  | none => rfl
  | some csnode =>
    cases heval : C.evaluate (C.requestString gnmiPrefix path) with
    | none => rfl
    | some nodes =>
      simp only [addUpdates_eq (h csnode nodes hnode heval), List.map_filterMap, Option.map_map]
      rfl

theorem reported_startsWith_iff {gnmiPrefix path : Path} (h : C.Resolves gnmiPrefix path)
    {steps : List (Step V)} (hsteps : steps ∈ C.reported gnmiPrefix path) :
    StartsWith (C.canonicalPath steps) gnmiPrefix ↔ C.names.Canonical gnmiPrefix steps := by
  rw [reported] at hsteps
  split at hsteps
  · rename_i csnode nodes hnode heval
    obtain ⟨q, hq, hval⟩ := List.mem_filterMap.1 hsteps
    obtain ⟨-, -, rfl⟩ := Option.map_eq_some_iff.1 hval
    exact (h csnode nodes hnode heval q hq).startsWith_iff rfl
  · exact absurd hsteps List.not_mem_nil

end Confd

theorem stripUpdates_ne_iff (gnmiPrefix : Path) (updates : List (Path × W)) :
    stripUpdates gnmiPrefix updates ≠ .error .assertion ↔
      ∀ path ∈ updates.map Prod.fst, StartsWith path gnmiPrefix := by
  rw [List.forall_mem_map]
  obtain ⟨⟨r, hr⟩, hall⟩ | ⟨herr, hnot⟩ := stripUpdates_cases gnmiPrefix updates
  · rw [hr]
    exact iff_of_true (by simp) hall
  · rw [herr]
    exact iff_of_false (by simp) hnot

namespace Confd

variable {C : Confd V W}

theorem get_ne_iff {gnmiPrefix : Path} {paths : List Path}
    (h : ∀ path ∈ paths, C.Resolves gnmiPrefix path) :
    C.get gnmiPrefix paths ≠ .error .assertion ↔
      ∀ path ∈ paths, ∀ steps ∈ C.reported gnmiPrefix path,
        C.names.Canonical gnmiPrefix steps := by
  rw [get, stripUpdates_ne_iff, List.map_flatMap]
  constructor
  · intro hall path hpath steps hsteps
    rw [← reported_startsWith_iff (h path hpath) hsteps]
    refine hall _ (List.mem_flatMap.2 ⟨path, hpath, ?_⟩)
    rw [map_fst_getUpdatesWithMaapiSave (h path hpath)]
    exact List.mem_map_of_mem hsteps
  · intro hall full hfull
    obtain ⟨path, hpath, hmem⟩ := List.mem_flatMap.1 hfull
    rw [map_fst_getUpdatesWithMaapiSave (h path hpath)] at hmem
    obtain ⟨steps, hsteps, rfl⟩ := List.mem_map.1 hmem
    exact (reported_startsWith_iff (h path hpath) hsteps).2 (hall path hpath steps hsteps)

/-- A sample is what `get` answers for one path. -/
theorem getSample_eq (path gnmiPrefix : Path) :
    C.getSample path gnmiPrefix = C.get gnmiPrefix [path] := by
  rw [getSample, get, List.flatMap_cons, List.flatMap_nil, List.append_nil]

/-! ## Changes -/

variable (C) in
/-- A monitored path with its subscription point and the path registered for it. -/
structure Monitors (subs : List (Path × ℕ)) (spoint : ℕ) (path sub : Path) : Prop where
  mem : (path, spoint) ∈ subs
  registered : ∃ csnode,
    C.csNodeCd (C.prefixes.fixPathPrefixes (makeFormattedPath path none false)) = some csnode ∧
      C.isCdb csnode.info = true ∧ subpointPath csnode.info path = some sub

/-- The path of a subscription point is the monitored one, or leaves its last element out. -/
theorem subpointPath_append {info : CsInfo} {path sub : Path}
    (h : subpointPath info path = some sub) : ∃ es, path.elem = sub.elem ++ es := by
  rw [subpointPath] at h
  split_ifs at h
  · obtain ⟨e, he, rfl⟩ := Option.map_eq_some_iff.1 h
    split_ifs
    · exact ⟨[e], (List.dropLast_append_getLast? e he).symm⟩
    · exact ⟨[], (List.append_nil _).symm⟩
  · obtain rfl := Option.some.inj h
    exact ⟨[], (List.append_nil _).symm⟩

/-- One round of `subscribe_monitored_paths_cdb`. -/
theorem subscribeMonitoredPathsCdb_cons {path : Path} {spoint : ℕ} {rest : List (Path × ℕ)}
    {d₀ d : ℕ → Option Path}
    (h : C.subscribeMonitoredPathsCdb ((path, spoint) :: rest) d₀ = some d) :
    ∃ csnode sub,
      C.csNodeCd (C.prefixes.fixPathPrefixes (makeFormattedPath path none false)) = some csnode ∧
      subpointPath csnode.info path = some sub ∧
      C.subscribeMonitoredPathsCdb rest (if C.isCdb csnode.info then
        fun n ↦ if n = spoint then some sub else d₀ n else d₀) = some d := by
  rw [subscribeMonitoredPathsCdb] at h
  obtain ⟨csnode, hnode, h⟩ := Option.bind_eq_some_iff.1 h
  obtain ⟨sub, hsub, h⟩ := Option.bind_eq_some_iff.1 h
  refine ⟨csnode, sub, hnode, hsub, ?_⟩
  split_ifs at h ⊢
  · exact h
  · exact h

/-- A subscription point that is not given out keeps its path. -/
theorem subscribeMonitoredPathsCdb_of_notMem {subs : List (Path × ℕ)} {d₀ d : ℕ → Option Path}
    (h : C.subscribeMonitoredPathsCdb subs d₀ = some d) {n : ℕ} (hn : n ∉ subs.map Prod.snd) :
    d n = d₀ n := by
  induction subs generalizing d₀ with
  | nil =>
    obtain rfl := Option.some.inj h
    rfl
  | cons q subs ih =>
    obtain ⟨csnode, sub, -, -, hrest⟩ := subscribeMonitoredPathsCdb_cons h
    rw [List.map_cons, List.mem_cons, not_or] at hn
    rw [ih hrest hn.2]
    split_ifs
    · exact if_neg hn.1
    · rfl

/-- **Every monitored path is registered** under its subscription point. -/
theorem subscribeMonitoredPathsCdb_monitors {subs : List (Path × ℕ)} {d₀ d : ℕ → Option Path}
    (h : C.subscribeMonitoredPathsCdb subs d₀ = some d) (hpoints : (subs.map Prod.snd).Nodup)
    {spoint : ℕ} {path sub : Path} (hmon : C.Monitors subs spoint path sub) :
    d spoint = some sub := by
  induction subs generalizing d₀ with
  | nil => exact absurd hmon.mem List.not_mem_nil
  | cons q subs ih =>
    obtain ⟨csnode, sub', hnode, hsub, hrest⟩ := subscribeMonitoredPathsCdb_cons h
    rw [List.map_cons, List.nodup_cons] at hpoints
    obtain hhead | htail := List.mem_cons.1 hmon.mem
    · obtain rfl := hhead
      obtain ⟨csnode', hnode', hcdb, hsub'⟩ := hmon.registered
      obtain rfl : csnode' = csnode := Option.some.inj (hnode'.symm.trans hnode)
      rw [if_pos hcdb] at hrest
      rw [subscribeMonitoredPathsCdb_of_notMem hrest hpoints.1, ← hsub', hsub]
      exact if_pos rfl
    · exact ih hrest hpoints.2 ⟨htail, hmon.registered⟩

variable (C) in
/-- The changes that a diff leads to. -/
def changesOf (diff : List (List (Step V) × Mop × W)) : List (Path × W) :=
  (diff.filter fun q ↦ q.2.1 = .valueSet).map fun q ↦ (C.canonicalPath q.1, q.2.2)

theorem processSubscription_eq {path : Path} {diff : List (List (Step V) × Mop × W)}
    (h : ∀ q ∈ diff, C.Reports (C.csNodeOf (keypathOf q.1)) path q.1) :
    C.processSubscription diff = .ok (C.changesOf diff) := by
  induction diff with
  | nil => rfl
  | cons q diff ih =>
    obtain ⟨hq, hdiff⟩ := List.forall_mem_cons.1 h
    obtain ⟨steps, op, newv⟩ := q
    cases op with
    | valueSet =>
      rw [processSubscription, hq.makeGnmiKeypath, ih hdiff]
      rfl
    | created | deleted | modified =>
      rw [processSubscription, ih hdiff]
      · rfl
      · simp

theorem appendChanges_eq {diffs : List (ℕ × List (List (Step V) × Mop × W))}
    (h : ∀ c ∈ diffs, ∃ path, ∀ q ∈ c.2, C.Reports (C.csNodeOf (keypathOf q.1)) path q.1) :
    C.appendChanges diffs = .ok (diffs.map fun c ↦ (c.1, C.changesOf c.2)) := by
  induction diffs with
  | nil => rfl
  | cons c diffs ih =>
    obtain ⟨⟨path, hc⟩, hdiffs⟩ := List.forall_mem_cons.1 h
    rw [appendChanges, processSubscription_eq hc, ih hdiffs]
    rfl

end Confd

theorem changeUpdates_ne_iff {subpointPaths : ℕ → Option Path}
    {changeDb : List (ℕ × List (Path × W))} (h : ∀ c ∈ changeDb, subpointPaths c.1 ≠ none) :
    changeUpdates subpointPaths changeDb ≠ .error .assertion ↔
      ∀ c ∈ changeDb, ∀ sub, subpointPaths c.1 = some sub →
        ∀ path ∈ c.2.map Prod.fst, StartsWith path sub := by
  induction changeDb with
  | nil => simp [changeUpdates]
  | cons c changeDb ih =>
    obtain ⟨hc, hrest⟩ := List.forall_mem_cons.1 h
    obtain ⟨sub, hsub⟩ := Option.ne_none_iff_exists'.1 hc
    have hhead : (∀ sub, subpointPaths c.1 = some sub →
        ∀ path ∈ c.2.map Prod.fst, StartsWith path sub) ↔
        ∀ path ∈ c.2.map Prod.fst, StartsWith path sub := by
      simp [hsub]
    rw [List.forall_mem_cons, hhead, ← stripUpdates_ne_iff, ← ih hrest, changeUpdates, hsub]
    obtain ⟨⟨r, hr⟩, -⟩ | ⟨herr, -⟩ := stripUpdates_cases sub c.2
    · simp only [hr, bind, Except.bind]
      cases changeUpdates subpointPaths changeDb <;> simp [pure, Except.pure]
    · simp [herr, bind, Except.bind]

namespace Confd

variable (C : Confd V W)

/-- The notifications for the diffs of some subscription points. -/
def changeNotifications (subpointPaths : ℕ → Option Path)
    (diffs : List (ℕ × List (List (Step V) × Mop × W))) :
    Except AdapterError (List (Path × List (Path × W))) := do
  let changeDb ← C.appendChanges diffs
  getSubscriptionNotifications subpointPaths changeDb

/-- Every subscription point that changed belongs to a monitored path, and ConfD reports its changes
under that path. -/
def ReportsChanges (subs : List (Path × ℕ))
    (diffs : List (ℕ × List (List (Step V) × Mop × W))) : Prop :=
  ∀ c ∈ diffs, ∃ path sub, C.Monitors subs c.1 path sub ∧
    ∀ q ∈ c.2, C.Reports (C.csNodeOf (keypathOf q.1)) path q.1

variable {C}

theorem changeNotifications_ne_iff {subs : List (Path × ℕ)} {subpointPaths : ℕ → Option Path}
    (hsubs : C.subscribeMonitoredPathsCdb subs (fun _ ↦ none) = some subpointPaths)
    (hpoints : (subs.map Prod.snd).Nodup) {diffs : List (ℕ × List (List (Step V) × Mop × W))}
    (h : C.ReportsChanges subs diffs) :
    C.changeNotifications subpointPaths diffs ≠ .error .assertion ↔
      ∀ c ∈ diffs, ∀ sub, subpointPaths c.1 = some sub →
        ∀ q ∈ c.2, q.2.1 = .valueSet → C.names.Canonical sub q.1 := by
  have happend : C.appendChanges diffs = .ok (diffs.map fun c ↦ (c.1, C.changesOf c.2)) := by
    refine appendChanges_eq fun c hc ↦ ?_
    obtain ⟨path, -, -, hreports⟩ := h c hc
    exact ⟨path, hreports⟩
  have hknown : ∀ c ∈ diffs.map (fun c ↦ (c.1, C.changesOf c.2)), subpointPaths c.1 ≠ none := by
    rw [List.forall_mem_map]
    intro c hc
    obtain ⟨path, sub, hmon, -⟩ := h c hc
    simp [subscribeMonitoredPathsCdb_monitors hsubs hpoints hmon]
  -- an empty database fails by an assertion of its own
  have hdb : C.changeNotifications subpointPaths diffs ≠ .error .assertion ↔
      changeUpdates subpointPaths (diffs.map fun c ↦ (c.1, C.changesOf c.2)) ≠
        .error .assertion := by
    rw [changeNotifications, happend]
    simp only [bind, Except.bind, getSubscriptionNotifications]
    split_ifs with hnil
    · rw [hnil]
      simp [changeUpdates]
    · rfl
  rw [hdb, changeUpdates_ne_iff hknown, List.forall_mem_map]
  refine forall₂_congr fun c hc ↦ forall₂_congr fun sub hsub ↦ ?_
  obtain ⟨path, sub', hmon, hreports⟩ := h c hc
  obtain rfl : sub' = sub := by
    have hreg := subscribeMonitoredPathsCdb_monitors hsubs hpoints hmon
    exact Option.some.inj (hreg.symm.trans hsub)
  obtain ⟨csnode, -, -, hsubpath⟩ := hmon.registered
  obtain ⟨es, hes⟩ := subpointPath_append hsubpath
  have hiff := fun q (hq : q ∈ c.2) ↦ (hreports q hq).startsWith_iff hes
  simp only [changesOf, List.map_map, List.forall_mem_map, List.mem_filter, decide_eq_true_eq,
    Function.comp_apply]
  constructor
  · intro hall q hq hset
    exact (hiff q hq).1 (hall q ⟨hq, hset⟩)
  · rintro hall q ⟨hq, hset⟩
    exact (hiff q hq).2 (hall q hq hset)

/-- **When the prefix is stripped.** In `get`, in `get_sample` and in the change notifications, the
assertion of `remove_path_prefix` holds if and only if the prefix of the request, or the path of the
subscription point, has the canonical spelling of every data node that is reported under it. -/
theorem removePathPrefix_holds_iff (C : Confd V W) :
    (∀ gnmiPrefix paths, (∀ path ∈ paths, C.Resolves gnmiPrefix path) →
      (C.get gnmiPrefix paths ≠ .error .assertion ↔
        ∀ path ∈ paths, ∀ steps ∈ C.reported gnmiPrefix path,
          C.names.Canonical gnmiPrefix steps)) ∧
    (∀ gnmiPrefix path, C.Resolves gnmiPrefix path →
      (C.getSample path gnmiPrefix ≠ .error .assertion ↔
        ∀ steps ∈ C.reported gnmiPrefix path, C.names.Canonical gnmiPrefix steps)) ∧
    ∀ subs subpointPaths diffs,
      C.subscribeMonitoredPathsCdb subs (fun _ ↦ none) = some subpointPaths →
      (subs.map Prod.snd).Nodup → C.ReportsChanges subs diffs →
      (C.changeNotifications subpointPaths diffs ≠ .error .assertion ↔
        ∀ c ∈ diffs, ∀ sub, subpointPaths c.1 = some sub →
          ∀ q ∈ c.2, q.2.1 = .valueSet → C.names.Canonical sub q.1) := by
  refine ⟨fun gnmiPrefix paths h ↦ get_ne_iff h, fun gnmiPrefix path h ↦ ?_,
    fun subs subpointPaths diffs hsubs hpoints h ↦ changeNotifications_ne_iff hsubs hpoints h⟩
  rw [getSample_eq, get_ne_iff (by simpa using h)]
  simp

/-! ## Two spellings of an interface -/

/-- The module and prefix of `ietf-interfaces` and of `ietf-ip`. -/
def ipPrefixes : Prefixes where
  moduleToPfx name :=
    if name = "ietf-interfaces".toList then some "if".toList
    else if name = "ietf-ip".toList then some "ip".toList else none
  identifier {name pfx} h := by
    split_ifs at h
    · obtain rfl := Option.some.inj h
      decide
    · obtain rfl := Option.some.inj h
      decide

def eth0 : PathElem := ⟨"interface".toList, [("name".toList, "eth0".toList)]⟩

/-- The interface, with its module where the namespace changes. -/
def plainPrefix : Path := ⟨[⟨"ietf-interfaces:interfaces".toList, []⟩, eth0]⟩

/-- The interface, with its module repeated. -/
def repeatedPrefix : Path :=
  ⟨[⟨"ietf-interfaces:interfaces".toList, []⟩,
    { eth0 with name := "ietf-interfaces:interface".toList }]⟩

def ipv4Path : Path := ⟨[⟨"ietf-ip:ipv4".toList, []⟩]⟩

/-- A ConfD with one interface, for which both spellings are the same node. -/
def ipConfd : Confd (List Char) Unit where
  names := Names.ipNames
  prefixes := ipPrefixes
  csNodeCd str :=
    if str = "/if:interfaces/interface[name=\"eth0\"]/ip:ipv4".toList ∨
      str = "/if:interfaces/if:interface[name=\"eth0\"]/ip:ipv4".toList then some Names.ipv4Node
    else if str = "/if:interfaces/interface\x7beth0\x7d".toList then
      some (.child (.root Names.interfacesInfo) Names.interfaceInfo)
    else none
  csNodeOf _ := Names.ipv4Node
  evaluate str :=
    if str = "/if:interfaces/interface[name=\"eth0\"]/ip:ipv4".toList ∨
      str = "/if:interfaces/if:interface[name=\"eth0\"]/ip:ipv4".toList then
      some [(Names.ipv4Steps "eth0".toList, some ())]
    else some []
  isCdb _ := true
  reads v text := text = v

theorem ipv4_isNode : ipConfd.names.IsNode (Names.ipv4Steps "eth0".toList) where
  toKnows := Names.knows_ipv4Steps _
  root s hs := by
    cases hs
    decide

theorem ipv4_spells (name : List Char) (h : name = "interface".toList ∨
    name = "ietf-interfaces:interface".toList) : List.Forall₂ (ipConfd.names.Spells ipConfd.reads)
      [⟨"ietf-interfaces:interfaces".toList, []⟩, { eth0 with name := name },
        ⟨"ietf-ip:ipv4".toList, []⟩] (Names.ipv4Steps "eth0".toList) := by
  have hinterfaces : "ietf-interfaces:interfaces".toList =
      "ietf-interfaces".toList ++ ':' :: "interfaces".toList := by decide
  have hinterface : "ietf-interfaces:interface".toList =
      "ietf-interfaces".toList ++ ':' :: "interface".toList := by decide
  have hipv4 : "ietf-ip:ipv4".toList = "ietf-ip".toList ++ ':' :: "ipv4".toList := by decide
  have hkeyless : ∀ (s : Step (List Char)) (name : List Char),
      ipConfd.names.Qualified ⟨name, []⟩ s → ipConfd.names.Spells ipConfd.reads ⟨name, []⟩ s :=
    fun s name hname ↦ ⟨.inr hname, List.nodup_nil, fun q hq ↦ absurd hq List.not_mem_nil⟩
  refine .cons (hkeyless _ _ ⟨_, rfl, hinterfaces⟩) (.cons ⟨?_, List.nodup_singleton _, ?_⟩
    (.cons (hkeyless _ _ ⟨_, rfl, hipv4⟩) .nil))
  · exact h.imp id fun h ↦ ⟨_, rfl, h.trans hinterface⟩
  · intro q hq
    obtain rfl := List.mem_singleton.1 hq
    exact ⟨(3, "eth0".toList), List.mem_singleton.2 rfl, rfl, rfl⟩

/-- The node is reported under either spelling of the interface. -/
theorem ipv4_reports (name : List Char) (h : name = "interface".toList ∨
    name = "ietf-interfaces:interface".toList) : ipConfd.Reports Names.ipv4Node
      (addPathPrefix ipv4Path
        ⟨[⟨"ietf-interfaces:interfaces".toList, []⟩, { eth0 with name := name }]⟩)
      (Names.ipv4Steps "eth0".toList) :=
  ⟨ipv4_isNode, rfl, ipv4_spells name h⟩

theorem resolves_of_spelling (name : List Char) (h : name = "interface".toList ∨
    name = "ietf-interfaces:interface".toList) : ipConfd.Resolves
      ⟨[⟨"ietf-interfaces:interfaces".toList, []⟩, { eth0 with name := name }]⟩ ipv4Path := by
  intro csnode nodes hnode heval q hq
  have hstr : ipConfd.requestString
      ⟨[⟨"ietf-interfaces:interfaces".toList, []⟩, { eth0 with name := name }]⟩ ipv4Path =
      "/if:interfaces/interface[name=\"eth0\"]/ip:ipv4".toList ∨ ipConfd.requestString
      ⟨[⟨"ietf-interfaces:interfaces".toList, []⟩, { eth0 with name := name }]⟩ ipv4Path =
      "/if:interfaces/if:interface[name=\"eth0\"]/ip:ipv4".toList := by
    obtain rfl | rfl := h
    · exact .inl (by decide)
    · exact .inr (by decide)
  obtain rfl : Names.ipv4Node = csnode := Option.some.inj ((if_pos hstr).symm.trans hnode)
  obtain rfl := Option.some.inj ((if_pos hstr).symm.trans heval)
  obtain rfl := List.mem_singleton.1 hq
  exact ipv4_reports name h

/-- A client that repeats the module of the interface gets an error, although ConfD resolves the
path. -/
theorem get_repeatedPrefix : ipConfd.Resolves repeatedPrefix ipv4Path ∧
    ipConfd.get repeatedPrefix [ipv4Path] = .error .assertion :=
  ⟨resolves_of_spelling _ (.inr rfl), by decide⟩

/-- The subscription points of a subscription to the interface. -/
def eth0Points (n : ℕ) : Option Path := if n = 7 then some plainPrefix else none

theorem subscribe_eth0 :
    ipConfd.subscribeMonitoredPathsCdb [(plainPrefix, 7)] (fun _ ↦ none) = some eth0Points := by
  have hnode : ipConfd.csNodeCd
      (ipConfd.prefixes.fixPathPrefixes (makeFormattedPath plainPrefix none false)) =
      some (.child (.root Names.interfacesInfo) Names.interfaceInfo) := by decide
  simp only [subscribeMonitoredPathsCdb, hnode]
  rfl

theorem reportsChanges_eth0 : ipConfd.ReportsChanges [(plainPrefix, 7)]
    [(7, [(Names.ipv4Steps "eth0".toList, .valueSet, ())])] := by
  intro c hc
  obtain rfl := List.mem_singleton.1 hc
  have hnode : ipConfd.csNodeCd
      (ipConfd.prefixes.fixPathPrefixes (makeFormattedPath plainPrefix none false)) =
      some (.child (.root Names.interfacesInfo) Names.interfaceInfo) := by decide
  refine ⟨plainPrefix, plainPrefix, ⟨List.mem_singleton.2 rfl, _, hnode, rfl, rfl⟩, ?_⟩
  intro q hq
  obtain rfl := List.mem_singleton.1 hq
  have hreports := ipv4_reports _ (.inl rfl)
  exact ⟨hreports.isNode, rfl, hreports.under.of_append⟩

theorem removePathPrefix_holds_eth0 :
    (∀ path ∈ [ipv4Path], ∀ steps ∈ ipConfd.reported plainPrefix path,
      ipConfd.names.Canonical plainPrefix steps) ∧
    (∀ steps ∈ ipConfd.reported plainPrefix ipv4Path,
      ipConfd.names.Canonical plainPrefix steps) ∧
    ∀ c ∈ [(7, [(Names.ipv4Steps "eth0".toList, Mop.valueSet, ())])], ∀ sub,
      eth0Points c.1 = some sub →
      ∀ q ∈ c.2, q.2.1 = .valueSet → ipConfd.names.Canonical sub q.1 := by
  obtain ⟨hget, hsample, hchanges⟩ := removePathPrefix_holds_iff ipConfd
  have hresolves : ipConfd.Resolves plainPrefix ipv4Path := resolves_of_spelling _ (.inl rfl)
  exact ⟨(hget plainPrefix [ipv4Path] (by simpa using hresolves)).1 (by decide),
    (hsample plainPrefix ipv4Path hresolves).1 (by decide),
    (hchanges _ _ _ subscribe_eth0 (by decide) reportsChanges_eth0).1 (by decide)⟩

end Confd

end ConfdDemos.Gnmi
