import ConfdDemos.Aasync.Startup

/-!
# The local member

`aasync_local_node` is a second pointer into the member list: startup sets it to the first cell it
allocates, and nothing sets it again. The walk over the modifications frees the cells of deleted
nodes, and it finds them by id, so it frees the local one when the local entry is deleted.

`StaysValid` follows the walk tag by tag: a cell is freed only if it is in the list and is not the
local one, and the local one is in the list after every tag. The list that startup leaves may name
a node twice (`startup_unique_iff`), but never the local one; `Anchored` is that part of it, and it
is all the walk needs.
-/

namespace ConfdDemos.Aasync

/-- At this tag the walk frees nothing, or a cell of the list other than `aasyncLocalNode`. -/
def FreesOther (aasyncLocalNode : Ref) (l : NodeList) (m : ModState) (tv : TagValue) : Prop :=
  tv.v = .xmlEnd → m.mod = some .delete →
    ∃ r, m.node = some r ∧ r ∈ l.refs ∧ r ≠ aasyncLocalNode

/-- The walk comes to its end, frees only other cells of the list, and keeps `aasyncLocalNode` in
it. -/
def StaysValid (aasyncLocalNode : Ref) (l : NodeList) (m : ModState) : List TagValue → Prop
  | [] => aasyncLocalNode ∈ l.refs
  | tv :: tvs => aasyncLocalNode ∈ l.refs ∧ FreesOther aasyncLocalNode l m tv ∧
    ∃ p, modStep l m tv = some p ∧ StaysValid aasyncLocalNode p.1 p.2 tvs

/-- The same for the walks over a sequence of committed arrays. -/
def StaysValidAll (aasyncLocalNode : Ref) (l : NodeList) : List (List TagValue) → Prop
  | [] => aasyncLocalNode ∈ l.refs
  | val :: vals => StaysValid aasyncLocalNode l ModState.init val ∧
    ∃ l', handleAaclusterModifications l val = some l' ∧ StaysValidAll aasyncLocalNode l' vals

/-- Every array of the sequence fits the node list it meets. -/
def Entry.Committed (c : ℤ → Option (ℕ × ℕ)) : List (List Entry) → Prop
  | [] => True
  | es :: ess => Entry.WellFormed c es ∧ Committed (Entry.applyAll c es) ess

instance Entry.decidableCommitted (c : ℤ → Option (ℕ × ℕ)) :
    ∀ ess, Decidable (Entry.Committed c ess)
  | [] => inferInstanceAs (Decidable True)
  | es :: ess =>
    have := Entry.decidableCommitted (Entry.applyAll c es) ess
    inferInstanceAs (Decidable (Entry.WellFormed c es ∧ Entry.Committed (Entry.applyAll c es) ess))

/-- `aasyncLocalNode` is the one cell with the local id. -/
structure NodeList.Anchored (l : NodeList) (localNodeid : ℤ) (aasyncLocalNode : Ref) : Prop where
  sound : l.Sound
  mem : aasyncLocalNode ∈ l.refs
  nodeid_iff : ∀ c ∈ l.cells, c.2.nodeid = localNodeid ↔ c.1 = aasyncLocalNode

/-- The list has a cell for each entry of the node list. -/
def NodeList.Covers (l : NodeList) (c : ℤ → Option (ℕ × ℕ)) : Prop :=
  ∀ x, (c x).isSome = true → x ∈ l.nodeids

section Anchored

variable {l : NodeList} {localNodeid x : ℤ} {aasyncLocalNode r : Ref} {n : Aanode}
  {as bs : List (Ref × Aanode)} {c : ℤ → Option (ℕ × ℕ)}

theorem NodeList.Anchored.mem_nodeids (h : l.Anchored localNodeid aasyncLocalNode) :
    localNodeid ∈ l.nodeids := by
  obtain ⟨d, hd, hr⟩ := List.mem_map.mp h.mem
  exact List.mem_map.mpr ⟨d, hd, (h.nodeid_iff d hd).mpr hr⟩

theorem NodeList.Anchored.join (h : l.Anchored localNodeid aasyncLocalNode) (n : Aanode)
    (hn : n.nodeid ≠ localNodeid) : (l.join n).Anchored localNodeid aasyncLocalNode := by
  refine ⟨h.sound.join n, List.mem_cons_of_mem _ h.mem, fun d hd ↦ ?_⟩
  rcases List.mem_cons.mp hd with rfl | hd'
  · exact iff_of_false hn (ne_of_gt (h.sound.lt_fresh _ h.mem))
  · exact h.nodeid_iff d hd'

theorem NodeList.Anchored.set (h : l.Anchored localNodeid aasyncLocalNode)
    (hcells : l.cells = as ++ (r, n) :: bs) {n' : Aanode} (hid : n'.nodeid = n.nodeid) :
    ({ l with cells := as ++ (r, n') :: bs } : NodeList).Anchored localNodeid aasyncLocalNode := by
  have hiff := h.nodeid_iff
  have hmem := h.mem
  rw [NodeList.refs, hcells] at hmem
  rw [hcells] at hiff
  refine ⟨h.sound.set hcells n', by simpa [NodeList.refs] using hmem, fun d hd ↦ ?_⟩
  rw [List.mem_append, List.mem_cons] at hd
  rcases hd with hd | rfl | hd
  · exact hiff d (List.mem_append_left _ hd)
  · rw [hid]
    exact hiff (r, n) (List.mem_append_right _ List.mem_cons_self)
  · exact hiff d (List.mem_append_right _ (List.mem_cons_of_mem _ hd))

theorem NodeList.Anchored.remove (h : l.Anchored localNodeid aasyncLocalNode)
    (hcells : l.cells = as ++ (r, n) :: bs) (hr : aasyncLocalNode ≠ r) :
    ({ l with cells := as ++ bs } : NodeList).Anchored localNodeid aasyncLocalNode := by
  have hiff := h.nodeid_iff
  have hmem := h.mem
  rw [NodeList.refs, hcells] at hmem
  rw [hcells] at hiff
  refine ⟨h.sound.remove hcells, by simpa [NodeList.refs, hr] using hmem, fun d hd ↦ hiff d ?_⟩
  rcases List.mem_append.mp hd with hd | hd
  · exact List.mem_append_left _ hd
  · exact List.mem_append_right _ (List.mem_cons_of_mem _ hd)

/-- The lookup finds the local cell for the local id, and no other. -/
theorem NodeList.Anchored.find_iff (h : l.Anchored localNodeid aasyncLocalNode)
    (hfind : l.find x = some r) : x = localNodeid ↔ r = aasyncLocalNode := by
  obtain ⟨as, n, bs, hcells, rfl, -⟩ := NodeList.exists_of_find hfind
  exact h.nodeid_iff (r, n) (hcells ▸ List.mem_append_right _ List.mem_cons_self)

theorem NodeList.Covers.find (h : l.Covers c) (hx : (c x).isSome = true) :
    ∃ r, l.find x = some r := by
  rw [← Option.ne_none_iff_exists', Ne, NodeList.find_eq_none_iff, not_not]
  exact h x hx

theorem NodeList.Covers.update {l' : NodeList} (h : l.Covers c) (hids : l.nodeids ⊆ l'.nodeids)
    (hx : x ∈ l'.nodeids) (a : Option (ℕ × ℕ)) : l'.Covers (Function.update c x a) := by
  intro y hy
  by_cases hxy : y = x
  · exact hxy ▸ hx
  · rw [Function.update_of_ne hxy] at hy
    exact hids (h y hy)

end Anchored

/-! ## One entry -/

section Entries

variable {l : NodeList} {m : ModState} {localNodeid x : ℤ} {aasyncLocalNode r : Ref}
  {c : ℤ → Option (ℕ × ℕ)} {xs ys : List TagValue}

theorem staysValid_append :
    StaysValid aasyncLocalNode l m (xs ++ ys) ↔ StaysValid aasyncLocalNode l m xs ∧
      ∃ p, modLoop l m xs = some p ∧ StaysValid aasyncLocalNode p.1 p.2 ys := by
  induction xs generalizing l m with
  | nil =>
    have hmem : StaysValid aasyncLocalNode l m ys → aasyncLocalNode ∈ l.refs := by
      cases ys with
      | nil => exact id
      | cons y ys => exact And.left
    simpa [StaysValid, modLoop] using hmem
  | cons x xs ih =>
    rw [List.cons_append, StaysValid, StaysValid, modLoop]
    cases modStep l m x with
    | none => simp
    | some p => simp [ih, and_assoc]

/-- Only the end tag of an entry changes the list, so an entry is followed up to there. -/
theorem staysValid_of_opening {tv : TagValue} (hxs : ∀ y ∈ xs, y.v ≠ .xmlEnd) :
    StaysValid aasyncLocalNode l m (xs ++ [tv]) ↔ aasyncLocalNode ∈ l.refs ∧
      ∃ m', modLoop l m xs = some (l, m') ∧ StaysValid aasyncLocalNode l m' [tv] := by
  induction xs generalizing m with
  | nil =>
    simp only [List.nil_append, modLoop, Option.some_inj, Prod.mk.injEq, true_and,
      exists_eq_left', StaysValid]
    tauto
  | cons x xs ih =>
    obtain ⟨m₁, hm₁⟩ : ∃ m₁, modStep l m x = some (l, m₁) := by
      have hx := hxs x List.mem_cons_self
      rw [modStep]
      cases hv : x.v <;> simp_all
    have hfrees : FreesOther aasyncLocalNode l m x := fun h ↦
      absurd h (hxs x List.mem_cons_self)
    have hih := ih (m := m₁) fun y hy ↦ hxs y (List.mem_cons_of_mem _ hy)
    rw [List.cons_append, StaysValid, modLoop, hm₁]
    simp only [Option.some_inj, exists_eq_left', Option.bind_some, hih, hfrees, true_and]
    tauto

theorem staysValid_tags {e : Entry} {m' : ModState}
    (h : modLoop l m e.opening = some (l, m')) :
    StaysValid aasyncLocalNode l m e.tags ↔ aasyncLocalNode ∈ l.refs ∧
      (m'.mod = some .delete → ∃ r, m'.node = some r ∧ r ∈ l.refs ∧ r ≠ aasyncLocalNode) ∧
      ∃ p, performModification l m' = some p ∧ aasyncLocalNode ∈ p.1.refs := by
  have hopen : ∀ tv ∈ e.opening, tv.v ≠ .xmlEnd := by
    intro tv htv
    cases e with
    | create x ip port =>
      simp only [Entry.opening, List.mem_cons, List.not_mem_nil, or_false] at htv
      rcases htv with rfl | rfl | rfl | rfl <;> simp
    | modify x ip port =>
      simp only [Entry.opening, List.mem_append, List.mem_map, List.mem_cons, List.not_mem_nil,
        or_false] at htv
      rcases htv with ((rfl | rfl) | ⟨a, -, rfl⟩) | ⟨a, -, rfl⟩ <;> simp
    | delete x =>
      simp only [Entry.opening, List.mem_cons, List.not_mem_nil, or_false] at htv
      rcases htv with rfl | rfl <;> simp
  rw [Entry.tags, staysValid_of_opening hopen, h]
  simp only [Option.some_inj, Prod.mk.injEq, true_and, exists_eq_left', StaysValid, FreesOther,
    modStep, forall_const]
  tauto

/-- An entry for a node that the list knows, and that is not deleted, changes no id. -/
theorem staysValid_change {e : Entry} {a b : ℕ} (hl : l.Anchored localNodeid aasyncLocalNode)
    (hfind : l.find x = some r)
    (hopen : modLoop l m e.opening = some (l, ⟨some .modify, some r, x, a, b⟩)) :
    StaysValid aasyncLocalNode l m e.tags ∧ ∃ l' m', modLoop l m e.tags = some (l', m') ∧
      l'.Anchored localNodeid aasyncLocalNode ∧ l'.nodeids = l.nodeids := by
  obtain ⟨as, n, bs, hcells, hid, -⟩ := NodeList.exists_of_find hfind
  obtain ⟨n', hsame, -, -, hwalk⟩ := performModification_modify hl.sound hcells hid a b
  have hl' := hl.set hcells hsame
  refine ⟨?_, _, _, (modLoop_tags hopen).trans hwalk, hl', NodeList.nodeids_set hcells hsame⟩
  rw [staysValid_tags hopen]
  exact ⟨hl.mem, by simp, _, hwalk, hl'.mem⟩

/-- Deleting another node frees its cell only. -/
theorem staysValid_delete (hl : l.Anchored localNodeid aasyncLocalNode)
    (hfind : l.find x = some r) (hx : x ≠ localNodeid) :
    StaysValid aasyncLocalNode l m (Entry.delete x).tags ∧
      ∃ l' m', modLoop l m (Entry.delete x).tags = some (l', m') ∧
        l'.Anchored localNodeid aasyncLocalNode ∧ ∀ y ∈ l.nodeids, y ≠ x → y ∈ l'.nodeids := by
  obtain ⟨as, n, bs, hcells, rfl, -⟩ := NodeList.exists_of_find hfind
  have hr : r ≠ aasyncLocalNode := fun h ↦ hx ((hl.find_iff hfind).mpr h)
  have hmem : r ∈ l.refs := by
    rw [NodeList.refs, hcells]
    exact List.mem_map.mpr ⟨(r, n), List.mem_append_right _ List.mem_cons_self, rfl⟩
  have hopen := modLoop_opening_delete (m := m) hfind
  have hwalk := performModification_delete (x := n.nodeid) hl.sound hcells m.sAddr m.sinPort
  have hl' := hl.remove hcells hr.symm
  refine ⟨?_, _, _, (modLoop_tags hopen).trans hwalk, hl', fun y hy hne ↦ ?_⟩
  · rw [staysValid_tags hopen]
    exact ⟨hl.mem, fun _ ↦ ⟨r, rfl, hmem, hr⟩, _, hwalk, hl'.mem⟩
  · rw [NodeList.nodeids, hcells] at hy
    simpa [NodeList.nodeids, hne] using hy

/-- An entry that does not delete the local node keeps it, and keeps the list fit for the next
entry. -/
theorem staysValid_entry {e : Entry} (hl : l.Anchored localNodeid aasyncLocalNode)
    (hc : l.Covers c) (he : e.Fits c) (hne : e ≠ .delete localNodeid) :
    StaysValid aasyncLocalNode l m e.tags ∧ ∃ l' m', modLoop l m e.tags = some (l', m') ∧
      l'.Anchored localNodeid aasyncLocalNode ∧ l'.Covers (e.apply c) := by
  cases e with
  | create x ip port =>
    cases hfind : l.find x with
    | none =>
      have hx : x ∉ l.nodeids := NodeList.find_eq_none_iff.mp hfind
      have hopen := modLoop_opening_create (m := m) ip port hfind
      have hxlocal : x ≠ localNodeid := fun h ↦ hx (h ▸ hl.mem_nodeids)
      have hl' := hl.join ⟨x, ip, port, 0, 0⟩ hxlocal
      refine ⟨?_, _, _, modLoop_tags hopen, hl',
        hc.update (List.subset_cons_self _ _) List.mem_cons_self _⟩
      rw [staysValid_tags hopen]
      exact ⟨hl.mem, by simp, _, rfl, hl'.mem⟩
    | some r =>
      -- the cell of a node that was a member twice is taken for the created entry
      have hopen : modLoop l m (Entry.create x ip port).opening = _ :=
        modLoop_opening_modify (some ip) (some port) hfind
      obtain ⟨hvalid, l', m', hwalk, hl', hids⟩ := staysValid_change hl hfind hopen
      have hx : x ∈ l.nodeids := by
        rw [← not_not (a := x ∈ l.nodeids), ← NodeList.find_eq_none_iff, hfind]
        simp
      exact ⟨hvalid, l', m', hwalk, hl', hc.update (hids ▸ List.Subset.refl _) (hids ▸ hx) _⟩
  | modify x ip port =>
    obtain ⟨r, hfind⟩ := hc.find he
    obtain ⟨hvalid, l', m', hwalk, hl', hids⟩ :=
      staysValid_change hl hfind (modLoop_opening_modify (m := m) ip port hfind)
    exact ⟨hvalid, l', m', hwalk, hl', hc.update (hids ▸ List.Subset.refl _) (hids ▸ hc x he) _⟩
  | delete x =>
    obtain ⟨r, hfind⟩ := hc.find he
    have hx : x ≠ localNodeid := fun h ↦ hne (h ▸ rfl)
    obtain ⟨hvalid, l', m', hwalk, hl', hids⟩ := staysValid_delete (m := m) hl hfind hx
    refine ⟨hvalid, l', m', hwalk, hl', fun y hy ↦ ?_⟩
    by_cases hxy : y = x
    · rw [hxy, Entry.apply, Function.update_self] at hy
      exact absurd hy (by simp)
    · rw [Entry.apply, Function.update_of_ne hxy] at hy
      exact hids y (hc y hy) hxy

/-- An entry that deletes it frees it. -/
theorem not_staysValid_delete (hl : l.Anchored localNodeid aasyncLocalNode)
    (hc : l.Covers c) (he : (Entry.delete localNodeid).Fits c) :
    ¬StaysValid aasyncLocalNode l m (Entry.delete localNodeid).tags := by
  obtain ⟨r, hfind⟩ := hc.find he
  rw [staysValid_tags (modLoop_opening_delete hfind)]
  rintro ⟨-, hfrees, -⟩
  obtain ⟨r', hr', -, hne⟩ := hfrees rfl
  exact hne (Option.some_inj.mp hr' ▸ (hl.find_iff hfind).mp rfl)

/-- A walk over an array keeps the local node just when no entry of the array deletes it. -/
theorem staysValid_array_iff {es : List Entry} (hl : l.Anchored localNodeid aasyncLocalNode)
    (hc : l.Covers c) (hes : Entry.WellFormed c es) :
    StaysValid aasyncLocalNode l m (Entry.array es) ↔ .delete localNodeid ∉ es := by
  induction es generalizing l m c with
  | nil => simpa [Entry.array, StaysValid] using hl.mem
  | cons e es ih =>
    have harray : Entry.array (e :: es) = e.tags ++ Entry.array es := List.flatMap_cons
    rw [harray, staysValid_append]
    by_cases hdel : e = .delete localNodeid
    · subst hdel
      have hfree := not_staysValid_delete (m := m) hl hc hes.1
      simp [hfree]
    · obtain ⟨hvalid, l', m', hwalk, hl', hc'⟩ := staysValid_entry (m := m) hl hc hes.1 hdel
      have hrest := ih (m := m') hl' hc' hes.2
      simp only [hvalid, hwalk, Option.some_inj, exists_eq_left', hrest, true_and, List.mem_cons,
        Ne.symm hdel, false_or]

/-- A walk that keeps the local node leaves a list fit for the next one. -/
theorem modLoop_anchored {es : List Entry} (hl : l.Anchored localNodeid aasyncLocalNode)
    (hc : l.Covers c) (hes : Entry.WellFormed c es) (hdel : .delete localNodeid ∉ es) :
    ∃ l' m', modLoop l m (Entry.array es) = some (l', m') ∧
      l'.Anchored localNodeid aasyncLocalNode ∧ l'.Covers (Entry.applyAll c es) := by
  induction es generalizing l m c with
  | nil => exact ⟨l, m, rfl, hl, hc⟩
  | cons e es ih =>
    rw [List.mem_cons, not_or] at hdel
    obtain ⟨-, l₁, m₁, hwalk₁, hl₁, hc₁⟩ :=
      staysValid_entry (m := m) hl hc hes.1 (Ne.symm hdel.1)
    obtain ⟨l', m', hwalk, hl', hc'⟩ := ih (m := m₁) hl₁ hc₁ hes.2 hdel.2
    refine ⟨l', m', ?_, hl', hc'⟩
    have harray : Entry.array (e :: es) = e.tags ++ Entry.array es := List.flatMap_cons
    rw [harray, modLoop_append, hwalk₁, Option.bind_some]
    exact hwalk

/-- The same for a sequence of commits. -/
theorem staysValidAll_iff {ess : List (List Entry)} (hl : l.Anchored localNodeid aasyncLocalNode)
    (hc : l.Covers c) (hess : Entry.Committed c ess) :
    StaysValidAll aasyncLocalNode l (ess.map Entry.array) ↔
      ∀ es ∈ ess, .delete localNodeid ∉ es := by
  induction ess generalizing l c with
  | nil => simpa [StaysValidAll] using hl.mem
  | cons es ess ih =>
    rw [List.map_cons, StaysValidAll, staysValid_array_iff hl hc hess.1, List.forall_mem_cons]
    refine and_congr_right fun hdel ↦ ?_
    obtain ⟨l', m', hwalk, hl', hc'⟩ :=
      modLoop_anchored (m := ModState.init) hl hc hess.1 hdel
    rw [handleAaclusterModifications, hwalk, Option.map_some]
    simp only [Option.some_inj, exists_eq_left', ih hl' hc' hess.2]

end Entries

/-! ## From startup on -/

section Startup

variable {skip : ℤ → Bool} {l : NodeList} {join : Bool} {localNodeid initNodeid : ℤ}
  {cdb remote : NodeConfig} {r : Ref} {s : Startup}

theorem NodeList.Anchored.joinEntries (hskip : skip localNodeid = true)
    (h : l.Anchored localNodeid r) (es : List ((_ : ℤ) × ℕ × ℕ)) :
    (joinEntries skip l es).Anchored localNodeid r := by
  induction es generalizing l with
  | nil => exact h
  | cons e es ih =>
    rw [Aasync.joinEntries, List.foldl_cons, ← Aasync.joinEntries]
    refine ih ?_
    by_cases he : skip e.1 = true
    · rw [if_pos he]
      exact h
    · rw [if_neg he]
      refine h.join _ fun heq ↦ he ?_
      exact (congrArg skip heq).trans hskip

/-- The pointer that startup sets to the first cell it allocates. -/
def aasyncLocalNode : Ref := 0

theorem anchored_initNodes (h : initNodes localNodeid cdb = some l) :
    l.Anchored localNodeid aasyncLocalNode := by
  rw [initNodes] at h
  split_ifs at h
  rw [← Option.some_inj.mp h]
  refine NodeList.Anchored.joinEntries (by simp) ⟨⟨?_, ?_⟩, ?_, ?_⟩ _
  all_goals simp [NodeList.refs, NodeList.join, localNode, aasyncLocalNode]

theorem anchored_startup (h : startup join localNodeid initNodeid cdb remote = some s) :
    s.nodes.Anchored localNodeid aasyncLocalNode := by
  obtain ⟨l, hl, rfl | ⟨-, -, hjoin⟩⟩ := startup_cases h
  · exact anchored_initNodes hl
  · rw [(joinCluster_eq hjoin).1]
    exact (anchored_initNodes hl).joinEntries (by simp) _

theorem covers_startup (h : startup join localNodeid initNodeid cdb remote = some s) :
    s.nodes.Covers fun x ↦ s.cdb.lookup x := by
  intro x hx
  rw [AList.lookup_isSome] at hx
  obtain ⟨l, hl, rfl | ⟨-, hinit, hjoin⟩⟩ := startup_cases h
  · exact (mem_initNodes hl).mpr (.inr hx)
  · rw [nodeids_joinCluster hjoin, List.mem_append, List.mem_reverse, List.mem_filter]
    rcases (mem_cdb_joinCluster hjoin).mp hx with hx | hx
    · exact .inr ((mem_initNodes hl).mpr (.inr hx))
    · by_cases hlocal : x = localNodeid
      · exact .inr ((mem_initNodes hl).mpr (.inl hlocal))
      · by_cases hx' : x = initNodeid
        · exact .inr (hx' ▸ hinit)
        · exact .inl ⟨hx, by simp [hlocal, hx']⟩

/-- **The local member.** From startup on, over any sequence of commits, the daemon frees only
elements of its member list other than the local one, and the local one stays in the list, just when
no commit deletes the local entry. -/
theorem localMember_iff (h : startup join localNodeid initNodeid cdb remote = some s)
    {ess : List (List Entry)} (hess : Entry.Committed (fun x ↦ s.cdb.lookup x) ess) :
    StaysValidAll aasyncLocalNode s.nodes (ess.map Entry.array) ↔
      ∀ es ∈ ess, .delete localNodeid ∉ es :=
  staysValidAll_iff (anchored_startup h) (covers_startup h) hess

end Startup

/-- Node 3 joins the cluster, node 1 leaves it and comes back at another port. -/
theorem localMember_rejoin :
    ∃ s, startup true 3 0 (clusterConfig [0, 3]) (clusterConfig [0, 1, 2, 3]) = some s ∧
      StaysValidAll aasyncLocalNode s.nodes
        ([[.delete 1], [.create 1 confdIp 4600]].map Entry.array) := by
  have hs : startup true 3 0 (clusterConfig [0, 3]) (clusterConfig [0, 1, 2, 3]) = some _ := rfl
  exact ⟨_, hs, (localMember_iff hs (by decide)).mpr (by decide)⟩

/-- Node 3 leaves the cluster the way the makefile has it, by deleting its own entry. -/
theorem not_localMember_leave :
    ∃ s, startup true 3 0 (clusterConfig [0, 3]) (clusterConfig [0, 1, 2, 3]) = some s ∧
      Entry.Committed (fun x ↦ s.cdb.lookup x) [[.delete 3]] ∧
      ¬StaysValidAll aasyncLocalNode s.nodes ([[.delete 3]].map Entry.array) := by
  have hs : startup true 3 0 (clusterConfig [0, 3]) (clusterConfig [0, 1, 2, 3]) = some _ := rfl
  refine ⟨_, hs, by decide, ?_⟩
  rw [staysValidAll_iff (anchored_startup hs) (covers_startup hs) (by decide)]
  decide

end ConfdDemos.Aasync
