import ConfdDemos.Aasync.Serving

/-!
# Agreement of the cluster

All nodes hold the same data whenever no transaction is in progress, as long as no operator's
transaction is prepared on a node whose flag still says that a peer is replicating to it.

## The invariant

Three things hold in every state of such a run. Each node is consistent with itself (`NodeInv`).
Every node holds for every initiator what the initiator's program point expects (`Allowed`). And
the *settled* data of all nodes, which is the data with the replicated transaction applied once its
initiator has committed, are equal. A call of an initiator moves one node from before to after its
own commit and does not change its settled data. -/

namespace ConfdDemos.Aasync

variable {D : Type*} {C : Confd D} {ids : List ℤ}

/-! ## Settled data -/

/-- The phases of a transaction that has been written. -/
def Phase.written {ν : Type*} : Phase ν → Bool
  | .committing _ _ _ => true
  | .settling => true
  | .committed => true
  | _ => false

/-- A peer's transaction that is not written yet, and whose it is. -/
def Node.pending (N : Node D) : Option (ℤ × List TagValue) :=
  match N.crit with
  | some ⟨.peer a, tvals, phase⟩ => if phase.written then none else some (a, tvals)
  | _ => none

/-- The transaction of the node is written. -/
def Node.committing (N : Node D) : Bool := N.crit.any fun t ↦ t.phase.written

/-- What will arrive at a node: a pending transaction whose initiator has committed. -/
def arriving (s : Cluster D) (n : ℤ) : Option (List TagValue) :=
  (s n).pending.bind fun q ↦ if (s q.1).committing then some q.2 else none

/-- The data of a node once it has arrived. -/
def settled (C : Confd D) (s : Cluster D) (n : ℤ) : D :=
  match arriving s n with
  | some tvals => C.setValues (s n).data tvals
  | none => (s n).data

/-- The invariant of a run. -/
structure ClusterInv (C : Confd D) (ids : List ℤ) (s : Cluster D) : Prop where
  node : ∀ n ∈ ids, NodeInv ids n (s n)
  allowed : ∀ a ∈ ids, ∀ p ∈ ids, p ≠ a → Allowed p (holding a (s p)) (s a).crit
  agree : ∀ n ∈ ids, ∀ m ∈ ids, settled C s n = settled C s m

section Settled

variable {s : Cluster D} {N N' : Node D} {x n a : ℤ} {tvals : List TagValue}

theorem pending_eq_some_iff :
    N.pending = some (a, tvals) ↔
      ∃ phase : Phase ℤ, phase.written = false ∧ holding a N = .trans tvals phase := by
  simp only [holding_eq_trans_iff]
  rw [Node.pending]
  split
  next b vs phase hc =>
    rw [hc]
    cases hw : phase.written
    · simp only [Bool.false_eq_true, if_false, Option.some_inj, Prod.mk.injEq, Trans.mk.injEq,
        Client.peer.injEq]
      constructor
      · rintro ⟨rfl, rfl⟩
        exact ⟨phase, hw, rfl, rfl, rfl⟩
      · rintro ⟨_, -, rfl, rfl, -⟩
        exact ⟨rfl, rfl⟩
    · simp only [if_true, Option.some_inj, Trans.mk.injEq, Client.peer.injEq]
      constructor
      · exact fun h ↦ absurd h (by simp)
      · rintro ⟨_, hw', -, -, rfl⟩
        rw [hw] at hw'
        exact absurd hw' (by simp)
  next hnot =>
    constructor
    · exact fun h ↦ absurd h (by simp)
    · rintro ⟨phase, -, hc⟩
      exact absurd hc (hnot a tvals phase)

theorem pending_ne_of_free (h : holding a N = .free) : N.pending ≠ some (a, tvals) := by
  rw [ne_eq, pending_eq_some_iff, h]
  simp

theorem arriving_eq_some_iff :
    arriving s n = some tvals ↔ ∃ a, (s n).pending = some (a, tvals) ∧ (s a).committing = true := by
  rw [arriving, Option.bind_eq_some_iff]
  constructor
  · rintro ⟨⟨a, v⟩, hpend, hcom⟩
    rw [Option.ite_none_right_eq_some, Option.some_inj] at hcom
    exact ⟨a, hcom.2 ▸ hpend, hcom.1⟩
  · rintro ⟨a, hpend, hcom⟩
    exact ⟨(a, tvals), hpend, by rw [hcom, if_pos rfl]⟩

theorem settled_of_pending_none (h : (s n).pending = none) : settled C s n = (s n).data := by
  simp [settled, arriving, h]

theorem settled_of_pending_some (h : (s n).pending = some (a, tvals)) :
    settled C s n = if (s a).committing then C.setValues (s n).data tvals else (s n).data := by
  cases hcom : (s a).committing <;> simp [settled, arriving, h, hcom]

/-- A node keeps its settled data when its own data and what will arrive there stay. -/
theorem settled_congr {s' : Cluster D} (hdata : (s' n).data = (s n).data)
    (harr : ∀ a v, (s' n).pending = some (a, v) ∧ (s' a).committing = true ↔
      (s n).pending = some (a, v) ∧ (s a).committing = true) :
    settled C s' n = settled C s n := by
  have heq : arriving s' n = arriving s n := by
    refine Option.ext fun v ↦ ?_
    rw [arriving_eq_some_iff, arriving_eq_some_iff]
    exact exists_congr fun a ↦ harr a v
  rw [settled, settled, heq, hdata]

/-- What is pending on a node is another node's. -/
theorem ne_of_pending (hN : NodeInv ids n N) (h : N.pending = some (a, tvals)) :
    a ∈ ids ∧ a ≠ n := by
  obtain ⟨phase, -, hhold⟩ := pending_eq_some_iff.mp h
  obtain ⟨ha, hne, -⟩ := hN.crit_peer _ _ _ (holding_eq_trans_iff.mp hhold)
  exact ⟨ha, hne⟩

theorem settled_update_of_ne (hn : n ≠ x)
    (hcom : ∀ v, (s n).pending = some (x, v) → N'.committing = (s x).committing) :
    settled C (Function.update s x N') n = settled C s n := by
  refine settled_congr (by rw [Function.update_of_ne hn]) fun a v ↦ ?_
  rw [Function.update_of_ne hn]
  refine and_congr_right fun h ↦ ?_
  by_cases hax : a = x
  · subst hax
    rw [Function.update_self, hcom v h]
  · rw [Function.update_of_ne hax]

theorem settled_update_self (hN : NodeInv ids x (s x)) (hdata : N'.data = (s x).data)
    (hpend : N'.pending = (s x).pending) :
    settled C (Function.update s x N') x = settled C s x := by
  refine settled_congr (by rw [Function.update_self, hdata]) fun a v ↦ ?_
  rw [Function.update_self, hpend]
  refine and_congr_right fun h ↦ ?_
  rw [Function.update_of_ne (ne_of_pending hN h).2]

end Settled

/-! ## Steps on one node -/

section Local

variable {s : Cluster D} {N' : Node D} {x : ℤ}

/-- A step that changes one node and moves the settled data of all nodes alike. -/
theorem ClusterInv.update (h : ClusterInv C ids s) (hnode : NodeInv ids x N')
    (hself : ∀ p ∈ ids, p ≠ x → Allowed p (holding x (s p)) N'.crit)
    (hothers : ∀ b ∈ ids, b ≠ x → Allowed x (holding b N') (s b).crit)
    (hagree : ∃ f : D → D, ∀ n ∈ ids,
      settled C (Function.update s x N') n = f (settled C s n)) :
    ClusterInv C ids (Function.update s x N') := by
  refine ⟨fun n hn ↦ ?_, fun a ha p hp hpa ↦ ?_, fun n hn m hm ↦ ?_⟩
  · by_cases hnx : n = x
    · subst hnx
      rwa [Function.update_self]
    · rw [Function.update_of_ne hnx]
      exact h.node n hn
  · by_cases hax : a = x
    · subst hax
      rw [Function.update_self, Function.update_of_ne hpa]
      exact hself p hp hpa
    · rw [Function.update_of_ne hax]
      by_cases hpx : p = x
      · subst hpx
        rw [Function.update_self]
        exact hothers a ha hax
      · rw [Function.update_of_ne hpx]
        exact h.allowed a ha p hp hpa
  · obtain ⟨f, hf⟩ := hagree
    rw [hf n hn, hf m hm, h.agree n hn m hm]

/-- A step after which no data has changed and every initiator is as far as it was. -/
theorem ClusterInv.settled_update (h : ClusterInv C ids s) (hdata : N'.data = (s x).data)
    (hpend : N'.pending = (s x).pending)
    (hcom : ∀ n ∈ ids, n ≠ x → ∀ v, (s n).pending = some (x, v) →
      N'.committing = (s x).committing) :
    ∃ f : D → D, ∀ n ∈ ids, settled C (Function.update s x N') n = f (settled C s n) := by
  refine ⟨id, fun n hn ↦ ?_⟩
  by_cases hnx : n = x
  · subst hnx
    exact settled_update_self (h.node n hn) hdata hpend
  · exact settled_update_of_ne hnx (hcom n hn hnx)

/-- While a node has no transaction of its own to replicate, nobody holds anything for it. -/
theorem ClusterInv.free_of_crit_none (h : ClusterInv C ids s) (hx : x ∈ ids)
    (hc : (s x).crit = none) : ∀ p ∈ ids, p ≠ x → holding x (s p) = .free := by
  intro p hp hpx
  have := h.allowed x hx p hp hpx
  rwa [hc, allowed_none] at this

theorem ClusterInv.expect (h : ClusterInv C ids s) (hx : x ∈ ids) {usid : ℕ} {username : List Char}
    {tvals : List TagValue} {phase : Phase ℤ}
    (hc : (s x).crit = some ⟨.operator usid username, tvals, phase⟩) :
    ∀ p ∈ ids, p ≠ x → Expect tvals p (holding x (s p)) phase := by
  intro p hp hpx
  have := h.allowed x hx p hp hpx
  rwa [hc] at this

/-- A step that leaves the transaction of the node alone. -/
theorem ClusterInv.update_lock (h : ClusterInv C ids s) (hx : x ∈ ids) (hnode : NodeInv ids x N')
    (hcrit : N'.crit = (s x).crit) (hdata : N'.data = (s x).data)
    (hold : ∀ b, holding b N' = holding b (s x)) :
    ClusterInv C ids (Function.update s x N') := by
  refine h.update hnode ?_ ?_ (h.settled_update hdata ?_ ?_)
  · intro p hp hpx
    rw [hcrit]
    exact h.allowed x hx p hp hpx
  · intro b hb hbx
    rw [hold]
    exact h.allowed b hb x hx (Ne.symm hbx)
  · rw [Node.pending, Node.pending, hcrit]
  · intro n _ _ v _
    rw [Node.committing, Node.committing, hcrit]

theorem clusterInv_opLock {usid : ℕ} {username : List Char} (h : ClusterInv C ids s)
    (hx : x ∈ ids) (hs : (s x).step C s (.opLock x usid username) = some N') :
    ClusterInv C ids (Function.update s x N') := by
  simp only [Node.step, Option.ite_none_right_eq_some, Option.some_inj] at hs
  obtain ⟨⟨hl, hc⟩, rfl⟩ := hs
  refine h.update_lock hx (nodeInv_of_crit_none hc ?_) rfl rfl fun b ↦ ?_
  · intro b hb
    simp [Node.grant] at hb
  · rw [holding_of_crit_none hc, holding_of_crit_none (show ((s x).grant x _).crit = none from hc),
      hl]
    simp [Node.grant]

theorem clusterInv_opUnlock (h : ClusterInv C ids s) (hx : x ∈ ids)
    (hs : (s x).step C s (.opUnlock x) = some N') :
    ClusterInv C ids (Function.update s x N') := by
  simp only [Node.step] at hs
  split at hs
  next usid username hl =>
    rw [Option.some_inj] at hs
    subst hs
    have hN := h.node x hx
    refine h.update_lock hx ⟨?_, ?_, hN.crit_operator⟩ rfl rfl fun b ↦ ?_
    · exact fun b hb ↦ absurd hb (by simp)
    · intro b vs phase hc
      obtain ⟨hb, hbx, -, hrest⟩ := hN.crit_peer b vs phase hc
      exact ⟨hb, hbx, rfl, hrest⟩
    · rw [holding, holding, hl]
      simp
  next => exact absurd hs (by simp)

theorem clusterInv_opValidate {usid : ℕ} {username : List Char} {tvals : List TagValue}
    (h : ClusterInv C ids s) (hx : x ∈ ids)
    (hs : (s x).step C s (.opValidate x usid username tvals) = some N') :
    ClusterInv C ids (Function.update s x N') := by
  simp only [Node.step, Option.ite_none_right_eq_some, Option.some_inj] at hs
  obtain ⟨⟨hc, hl⟩, rfl⟩ := hs
  have hlock : ∀ b, ((s x).enter x (.operator usid username) tvals).lock ≠ some (.peer b) := by
    intro b
    simp only [Node.enter, dropLock]
    rcases hl with hl | hl <;> rw [hl] <;> split_ifs <;> simp
  -- nobody holds anything of a node that was not in a transaction
  have hfree := h.free_of_crit_none hx hc
  have hcrit : ((s x).enter x (.operator usid username) tvals).crit
      = some ⟨.operator usid username, tvals, .validated⟩ := rfl
  refine h.update ⟨?_, ?_, ?_⟩ ?_ ?_ (h.settled_update rfl ?_ ?_)
  · exact fun b hb ↦ absurd hb (hlock b)
  · intro b vs phase hb
    rw [hcrit] at hb
    exact absurd hb (by simp)
  · intro usid' username' vs phase hb
    rw [hcrit, Option.some_inj, Trans.mk.injEq] at hb
    obtain ⟨-, -, rfl⟩ := hb
    exact ⟨loopCells_nil, by simp [Phase.voting], by simp⟩
  · intro p hp hpx
    rw [hcrit]
    exact hfree p hp hpx
  · intro b hb hbx
    have hbefore := h.allowed b hb x hx (Ne.symm hbx)
    have hnone : holding b (s x) = .free := by
      rw [holding_of_crit_none hc]
      rcases hl with hl | hl <;> simp [hl]
    rw [hnone] at hbefore
    rwa [holding_of_operator hcrit]
  · rw [Node.pending, Node.pending, hc, hcrit]
  · intro n hn hnx v hv
    exact absurd hv (pending_ne_of_free (hfree n hn hnx))

/-- A step inside an operator's transaction. -/
theorem ClusterInv.update_operator {usid : ℕ} {username : List Char} {tvals : List TagValue}
    {phase phase' : Phase ℤ} (h : ClusterInv C ids s) (hx : x ∈ ids)
    (hc : (s x).crit = some ⟨.operator usid username, tvals, phase⟩)
    (hc' : N'.crit = some ⟨.operator usid username, tvals, phase'⟩) (hlock : N'.lock = (s x).lock)
    (hop : OperatorInv ids x N'.aasyncUsr N'.nvals tvals phase')
    (hexp : ∀ p ∈ ids, p ≠ x → Expect tvals p (holding x (s p)) phase')
    (hagree : ∃ f : D → D, ∀ n ∈ ids,
      settled C (Function.update s x N') n = f (settled C s n)) :
    ClusterInv C ids (Function.update s x N') := by
  have hnolock : ∀ b, (s x).lock ≠ some (.peer b) := (h.node x hx).lock_ne_peer hc
  refine h.update ⟨?_, ?_, ?_⟩ ?_ ?_ hagree
  · intro b hb
    rw [hlock] at hb
    exact absurd hb (hnolock b)
  · intro b vs q hb
    rw [hc'] at hb
    exact absurd hb (by simp)
  · intro usid' username' vs q hb
    rw [hc', Option.some_inj, Trans.mk.injEq] at hb
    obtain ⟨-, rfl, rfl⟩ := hb
    exact hop
  · intro p hp hpx
    rw [hc']
    exact hexp p hp hpx
  · intro b hb hbx
    have := h.allowed b hb x hx (Ne.symm hbx)
    rw [holding_of_operator hc] at this
    rwa [holding_of_operator hc']

/-- A step inside a peer's transaction. -/
theorem ClusterInv.update_peer {a : ℤ} {tvals : List TagValue} {phase phase' : Phase ℤ}
    (h : ClusterInv C ids s) (hx : x ∈ ids) (hc : (s x).crit = some ⟨.peer a, tvals, phase⟩)
    (hc' : N'.crit = some ⟨.peer a, tvals, phase'⟩) (hlock : N'.lock = (s x).lock)
    (husr : N'.aasyncUsr = (s x).aasyncUsr) (hnvals : phase' = .prepared → N'.nvals = 0)
    (hcall : phase'.call = none) (hexp : Allowed x (.trans tvals phase') (s a).crit)
    (hagree : ∃ f : D → D, ∀ n ∈ ids,
      settled C (Function.update s x N') n = f (settled C s n)) :
    ClusterInv C ids (Function.update s x N') := by
  have hserves : Serves ids a x (s x) N' := 
    serves_phase (h.node x hx) hc hc' hlock husr hnvals hcall
  refine h.update hserves.node ?_ ?_ hagree
  · exact fun p hp hpx ↦ hserves.allowed _ _ (h.allowed x hx p hp hpx)
  · intro b hb hbx
    by_cases hba : b = a
    · subst hba
      rwa [holding_eq_trans_iff.mpr hc']
    · rw [hserves.frame b hba]
      exact h.allowed b hb x hx (Ne.symm hbx)

/-- Nothing is pending for a node whose transaction is a peer's. -/
theorem ClusterInv.free_of_crit_peer {a : ℤ} {tvals : List TagValue} {phase : Phase ℤ}
    (h : ClusterInv C ids s) (hx : x ∈ ids) (hc : (s x).crit = some ⟨.peer a, tvals, phase⟩) :
    ∀ p ∈ ids, p ≠ x → holding x (s p) = .free := by
  intro p hp hpx
  have := h.allowed x hx p hp hpx
  rwa [hc, allowed_peer] at this

theorem FullMesh.nodes (hmesh : FullMesh ids s) (hnodup : ids.Nodup) (hx : x ∈ ids) :
    (s x).nodes.nodeids.Nodup ∧ ∀ m ∈ (s x).nodes.nodeids, m ∈ ids :=
  ⟨(hmesh x hx).nodup_iff.mpr hnodup, fun _ hm ↦ (hmesh x hx).subset hm⟩

theorem FullMesh.mem (hmesh : FullMesh ids s) (hx : x ∈ ids) {p : ℤ} (hp : p ∈ ids) :
    p ∈ (s x).nodes.nodeids := (hmesh x hx).symm.subset hp

/-- `CDB_SUB_PREPARE` of an operator's transaction, with the flag down. -/
theorem clusterInv_subPrepare_operator {usid : ℕ} {username : List Char} {tvals : List TagValue}
    (h : ClusterInv C ids s) (hnodup : ids.Nodup) (hmesh : FullMesh ids s) (hx : x ∈ ids)
    (husr : (s x).aasyncUsr = false)
    (hc : (s x).crit = some ⟨.operator usid username, tvals, .validated⟩) :
    ClusterInv C ids (Function.update s x
      { s x with
        nvals := (subPrepare (· == x) (s x).nodes.nodeids (s x).aasyncUsr tvals).1
        crit := some ⟨.operator usid username, tvals,
          (subPrepare (· == x) (s x).nodes.nodeids (s x).aasyncUsr tvals).2⟩ }) := by
  have hexp := h.expect hx hc
  rw [husr]
  by_cases hnil : tvals = []
  · -- nothing to replicate: the handler accepts without calling anyone
    subst hnil
    refine h.update_operator hx hc rfl rfl
      ⟨loopCells_nil, fun _ ↦ ⟨husr, rfl⟩, by simp [subPrepare]⟩
      (fun p hp hpx ↦ hexp p hp hpx) (h.settled_update rfl ?_ ?_)
    · simp [Node.pending, hc]
    · intro n hn hnx v hv
      exact absurd hv (pending_ne_of_free (hexp n hn hnx))
  · have hphase : (subPrepare (· == x) (s x).nodes.nodeids false tvals).2
        = lockLoop (· == x) (s x).nodes.nodeids (s x).nodes.nodeids := by
      simp [subPrepare, hnil]
    rw [hphase]
    have hnodes := hmesh.nodes hnodup hx
    refine h.update_operator hx hc rfl rfl
      ⟨loopCells_lockLoop hnodes hnodes, fun _ ↦ ⟨husr, by simp [subPrepare]⟩, fun _ _ _ _ ↦ hnil⟩
      (fun p hp hpx ↦ ?_) (h.settled_update rfl ?_ ?_)
    · exact expect_lockLoop hnil (by simpa using hpx) (hmesh.mem hx hp)
        (fun _ ↦ hexp p hp hpx) fun hnot ↦ absurd (hmesh.mem hx hp) hnot
    · simp [Node.pending, hc]
    · intro n hn hnx v hv
      exact absurd hv (pending_ne_of_free (hexp n hn hnx))

theorem requested_peer {a : ℤ} {tvals : List TagValue} {phase : Phase ℤ}
    (h : requested s x ⟨.peer a, tvals, phase⟩ = true) :
    ∃ owner vs rest, (s a).crit = some ⟨owner, vs, .preparing .prepare x rest⟩ := by
  simp only [requested] at h
  split at h
  next owner vs n rest hca =>
    obtain rfl : n = x := by simpa using h
    exact ⟨owner, vs, rest, hca⟩
  next => exact absurd h (by simp)

/-- `CDB_SUB_PREPARE` of a peer's transaction, asked for by its initiator. -/
theorem clusterInv_subPrepare_peer {a : ℤ} {tvals : List TagValue} (h : ClusterInv C ids s)
    (hx : x ∈ ids) (hc : (s x).crit = some ⟨.peer a, tvals, .validated⟩)
    (hreq : requested s x ⟨.peer a, tvals, .validated⟩ = true) :
    ClusterInv C ids (Function.update s x
      { s x with
        nvals := (subPrepare (· == x) (s x).nodes.nodeids (s x).aasyncUsr tvals).1
        crit := some ⟨.peer a, tvals,
          (subPrepare (· == x) (s x).nodes.nodeids (s x).aasyncUsr tvals).2⟩ }) := by
  obtain ⟨ha, hax, -, husr, -⟩ := (h.node x hx).crit_peer _ _ _ hc
  rw [husr]
  refine h.update_peer hx hc rfl rfl rfl (fun _ ↦ rfl) rfl ?_ (h.settled_update rfl ?_ ?_)
  · have hall := h.allowed a ha x hx (Ne.symm hax)
    rw [holding_eq_trans_iff.mpr hc] at hall
    obtain ⟨owner, vs, rest, hca⟩ := requested_peer hreq
    rw [hca] at hall ⊢
    cases owner with
    | peer b => exact absurd hall (by simp [Allowed])
    | operator usid username =>
      -- the initiator asks for the values it has written here
      have hv : tvals = vs := by
        rcases hall.current rfl with hv | hv
        · exact (Holding.trans.inj hv).1
        · exact (Holding.trans.inj hv).1
      subst hv
      exact ⟨fun _ ↦ Or.inr rfl, fun hne ↦ absurd rfl hne, fun hne ↦ absurd rfl hne⟩
  · simp [Node.pending, hc, subPrepare, Phase.written]
  · intro n hn hnx v hv
    exact absurd hv (pending_ne_of_free (h.free_of_crit_peer hx hc n hn hnx))

theorem clusterInv_subPrepare (h : ClusterInv C ids s) (hnodup : ids.Nodup)
    (hmesh : FullMesh ids s) (hx : x ∈ ids)
    (hguard : ∀ t ∈ (s x).crit, t.isOperator = true → (s x).aasyncUsr = false)
    (hs : (s x).step C s (.subPrepare x) = some N') :
    ClusterInv C ids (Function.update s x N') := by
  simp only [Node.step] at hs
  split at hs
  next t hc =>
    rw [Option.ite_none_right_eq_some, Option.some_inj] at hs
    obtain ⟨⟨hphase, hreq⟩, rfl⟩ := hs
    obtain ⟨owner, tvals, phase⟩ := t
    obtain rfl : phase = .validated := hphase
    cases owner with
    | operator usid username =>
      exact clusterInv_subPrepare_operator h hnodup hmesh hx (hguard _ hc rfl) hc
    | peer a => exact clusterInv_subPrepare_peer h hx hc hreq
  next => exact absurd hs (by simp)

theorem allowed_committed_of_settling {p : ℤ} {tvals : List TagValue} {t : Option Trans}
    (h : Allowed p (.trans tvals .settling) t) : Allowed p (.trans tvals .committed) t := by
  match t with
  | none => exact absurd h (by simp [Allowed])
  | some ⟨.peer b, vs, phase⟩ => exact absurd h (by simp [Allowed])
  | some ⟨.operator usid username, vs, phase⟩ => exact expect_committed_of_settling h

theorem clusterInv_settle (h : ClusterInv C ids s) (hx : x ∈ ids)
    (hs : (s x).step C s (.settle x) = some N') :
    ClusterInv C ids (Function.update s x N') := by
  simp only [Node.step] at hs
  split at hs
  next t hc =>
    rw [Option.ite_none_right_eq_some, Option.map_eq_some_iff] at hs
    obtain ⟨hphase, nodes, -, rfl⟩ := hs
    obtain ⟨owner, tvals, phase⟩ := t
    obtain rfl : phase = .settling := hphase
    cases owner with
    | operator usid username =>
      have hexp := h.expect hx hc
      refine h.update_operator hx hc rfl rfl ⟨loopCells_nil, by simp [Phase.voting], by simp⟩
        (fun p hp hpx ↦ hexp p hp hpx) (h.settled_update rfl ?_ ?_)
      · simp [Node.pending, hc]
      · simp [Node.committing, hc, Phase.written]
    | peer a =>
      obtain ⟨ha, hax, -⟩ := (h.node x hx).crit_peer _ _ _ hc
      refine h.update_peer hx hc rfl rfl rfl (by simp) rfl ?_ (h.settled_update rfl ?_ ?_)
      · have hall := h.allowed a ha x hx (Ne.symm hax)
        rw [holding_eq_trans_iff.mpr hc] at hall
        exact allowed_committed_of_settling hall
      · simp [Node.pending, hc, Phase.written]
      · simp [Node.committing, hc, Phase.written]
  next => exact absurd hs (by simp)

theorem written_subCommit (isLocal : ℤ → Bool) (nodes : List ℤ) (aasyncUsr : Bool) (nvals : ℕ) :
    (subCommit isLocal nodes aasyncUsr nvals).written = true := by
  have hclose : ∀ l, (closeLoop isLocal l).written = true := fun l ↦
    loopFrom_rule (Q := fun p ↦ p.written = true) (fun _ _ _ ↦ rfl) fun _ ↦ rfl
  rw [subCommit]
  split_ifs
  · exact loopFrom_rule (Q := fun p ↦ p.written = true) (fun _ _ _ ↦ rfl) fun _ ↦ hclose nodes
  · rfl

theorem voting_of_written {phase : Phase ℤ} (h : phase.written = true) : phase.voting = false := by
  cases phase <;> first | rfl | exact absurd h (by simp [Phase.written])

/-- When an initiator commits, what is prepared everywhere else becomes settled everywhere. -/
theorem settled_update_commit {tvals : List TagValue}
    (hexp : ∀ p ∈ ids, p ≠ x →
      holding x (s p) = if tvals = [] then .free else .trans tvals .prepared)
    (hdata : N'.data = C.setValues (s x).data tvals) (hpend' : N'.pending = none)
    (hpend : (s x).pending = none) (hcom' : N'.committing = true)
    (hcom : (s x).committing = false) {n : ℤ} (hn : n ∈ ids) :
    settled C (Function.update s x N') n = C.setValues (settled C s n) tvals := by
  by_cases hnx : n = x
  · -- the initiator writes its own data in this step
    subst hnx
    rw [settled_of_pending_none hpend, settled_of_pending_none, Function.update_self, hdata]
    rw [Function.update_self, hpend']
  · -- a peer's prepared transaction counts as settled from now on
    have hhold := hexp n hn hnx
    by_cases hnil : tvals = []
    · subst hnil
      rw [if_pos rfl] at hhold
      rw [C.setValues_nil]
      exact settled_update_of_ne hnx fun v hv ↦ absurd hv (pending_ne_of_free hhold)
    · rw [if_neg hnil] at hhold
      have hpn : (s n).pending = some (x, tvals) := pending_eq_some_iff.mpr ⟨_, rfl, hhold⟩
      have hpn' : (Function.update s x N' n).pending = some (x, tvals) := by
        rw [Function.update_of_ne hnx, hpn]
      rw [settled_of_pending_some hpn, settled_of_pending_some hpn',
        Function.update_self, Function.update_of_ne hnx, hcom, hcom', if_pos rfl,
        if_neg (by simp)]

/-- **The operator's commit.** From this step on the settled data of every node include the
transaction: every other node holds it prepared, or there was nothing to replicate. -/
theorem clusterInv_opCommit (h : ClusterInv C ids s) (hnodup : ids.Nodup) (hmesh : FullMesh ids s)
    (hx : x ∈ ids) (hs : (s x).step C s (.opCommit x) = some N') :
    ClusterInv C ids (Function.update s x N') := by
  simp only [Node.step] at hs
  split at hs
  next usid username tvals hc =>
    rw [Option.some_inj] at hs
    subst hs
    have hexp : ∀ p ∈ ids, p ≠ x →
        holding x (s p) = if tvals = [] then .free else .trans tvals .prepared := h.expect hx hc
    obtain ⟨husr, hnvals⟩ := ((h.node x hx).crit_operator _ _ _ _ hc).voting rfl
    have hnodes := hmesh.nodes hnodup hx
    refine h.update_operator hx hc rfl rfl ⟨?_, ?_, ?_⟩ (fun p hp hpx ↦ ?_)
      ⟨fun d ↦ C.setValues d tvals, fun n hn ↦ ?_⟩
    · rw [subCommit]
      split_ifs
      · exact loopCells_commitLoop hnodes hnodes
      · exact loopCells_nil
    · intro hvote
      rw [voting_of_written (written_subCommit _ _ _ _)] at hvote
      exact absurd hvote (by simp)
    · intro step m rest heq
      have := written_subCommit (· == x) (s x).nodes.nodeids (s x).aasyncUsr (s x).nvals
      rw [heq] at this
      exact absurd this (by simp [Phase.written])
    · rw [subCommit, husr, hnvals]
      -- without values there is nothing to commit on the peers
      by_cases hnil : tvals = []
      · subst hnil
        exact hexp p hp hpx
      · have hlen : 0 < tvals.length := List.length_pos_iff.mpr hnil
        simp only [gt_iff_lt, hlen, decide_true, Bool.not_false, Bool.and_true, if_true]
        refine expect_commitLoop (by simpa using hpx) (fun _ ↦ ?_) fun hnot ↦
          absurd (hmesh.mem hx hp) hnot
        rw [hexp p hp hpx, if_neg hnil]
    · refine settled_update_commit hexp rfl ?_ ?_ ?_ ?_ hn
      · simp [Node.pending, Node.write]
      · simp [Node.pending, hc]
      · simp [Node.committing, Node.write, written_subCommit]
      · simp [Node.committing, hc, Phase.written]
  next => exact absurd hs (by simp)

theorem clusterInv_opAbort (h : ClusterInv C ids s) (hnodup : ids.Nodup) (hmesh : FullMesh ids s)
    (hx : x ∈ ids) (hs : (s x).step C s (.opAbort x) = some N') :
    ClusterInv C ids (Function.update s x N') := by
  simp only [Node.step] at hs
  split at hs
  next usid username tvals hc =>
    rw [Option.some_inj] at hs
    subst hs
    have hexp : ∀ p ∈ ids, p ≠ x →
        holding x (s p) = if tvals = [] then .free else .trans tvals .prepared := h.expect hx hc
    -- the cancelling loop neither votes nor has written anything
    have hloop : ∀ l, (cancelLoop (· == x) l).voting = false ∧
        (cancelLoop (· == x) l).written = false := fun l ↦
      loopFrom_rule (Q := fun p ↦ p.voting = false ∧ p.written = false) (fun _ _ _ ↦ ⟨rfl, rfl⟩)
        fun _ ↦ ⟨rfl, rfl⟩
    refine h.update_operator hx hc rfl rfl ⟨?_, ?_, ?_⟩ (fun p hp hpx ↦ ?_)
      (h.settled_update rfl ?_ ?_)
    · exact loopCells_loopFrom (fun _ _ ↦ rfl) (hmesh.nodes hnodup hx) loopCells_nil
    · intro hvote
      rw [subAbort, (hloop _).1] at hvote
      exact absurd hvote (by simp)
    · intro step m rest heq
      have := (hloop (s x).nodes.nodeids).1
      rw [← subAbort, heq] at this
      exact absurd this (by simp [Phase.voting])
    · refine expect_cancelLoop (by simpa using hpx) (fun _ ↦ ?_) fun hnot ↦
        absurd (hmesh.mem hx hp) hnot
      rw [hexp p hp hpx]
      split_ifs
      · exact Or.inl rfl
      · exact Or.inr rfl
    · simp [Node.pending, hc]
    · intro n _ _ v _
      rw [Node.committing, Node.committing, hc]
      exact (hloop _).2
  next => exact absurd hs (by simp)

theorem expect_free_of_over {tvals : List TagValue} {p : ℤ} {hold : Holding} {phase : Phase ℤ}
    (hover : phase.over = true) (hexp : Expect tvals p hold phase) : hold = .free := by
  cases phase <;> first | exact hexp | exact absurd hover (by simp [Phase.over])

theorem clusterInv_opFinish (h : ClusterInv C ids s) (hx : x ∈ ids)
    (hs : (s x).step C s (.opFinish x) = some N') :
    ClusterInv C ids (Function.update s x N') := by
  simp only [Node.step] at hs
  split at hs
  next usid username tvals phase hc =>
    rw [Option.ite_none_right_eq_some, Option.some_inj] at hs
    obtain ⟨hover, rfl⟩ := hs
    have hfree : ∀ p ∈ ids, p ≠ x → holding x (s p) = .free := fun p hp hpx ↦
      expect_free_of_over hover (h.expect hx hc p hp hpx)
    have hnolock : ∀ b, (s x).lock ≠ some (.peer b) := (h.node x hx).lock_ne_peer hc
    refine h.update (nodeInv_of_crit_none rfl fun b hb ↦ absurd hb (hnolock b)) ?_ ?_
      (h.settled_update rfl ?_ ?_)
    · exact fun p hp hpx ↦ hfree p hp hpx
    · intro b hb hbx
      have := h.allowed b hb x hx (Ne.symm hbx)
      rw [holding_of_operator hc] at this
      rwa [holding_of_crit_none rfl, if_neg]
      exact hnolock b
    · simp [Node.pending, hc, Node.endTrans]
    · intro n hn hnx v hv
      exact absurd hv (pending_ne_of_free (hfree n hn hnx))
  next => exact absurd hs (by simp)

end Local

/-! ## Calls between nodes -/

section Call

variable {s : Cluster D} {P' : Node D} {a p : ℤ} {usid : ℕ} {username : List Char}
  {tvals : List TagValue} {phase : Phase ℤ} {c : Call}

/-- An initiator is past its own commit exactly when it was before the call. -/
theorem written_next {isLocal : ℤ → Bool} {nodes : List ℤ} {ok : Bool} :
    (phase.next isLocal nodes ok).written = phase.written := by
  -- a loop of the handlers is on one side of the write from its first call to what follows it
  have hloop : ∀ (b : Bool) (body : ℤ → List ℤ → Phase ℤ) (after : Phase ℤ) (l : List ℤ),
      (∀ n rest, (body n rest).written = b) → after.written = b →
      (loopFrom isLocal body after l).written = b := fun b body after l hbody hafter ↦
    loopFrom_rule (Q := fun p ↦ p.written = b) (fun n rest _ ↦ hbody n rest) fun _ ↦ hafter
  have habort : ∀ l, (abortLoop isLocal l).written = false := fun l ↦
    hloop _ _ _ l (fun _ _ ↦ rfl) rfl
  have hprepare : ∀ l, (prepareLoop isLocal l).written = false := fun l ↦
    hloop _ _ _ l (fun _ _ ↦ rfl) rfl
  have hwrite : ∀ l, (writeLoop isLocal nodes l).written = false := fun l ↦
    hloop _ _ _ l (fun _ _ ↦ rfl) (hprepare nodes)
  have hlock : ∀ l, (lockLoop isLocal nodes l).written = false := fun l ↦
    hloop _ _ _ l (fun _ _ ↦ rfl) (hwrite nodes)
  have hclose : ∀ l, (closeLoop isLocal l).written = true := fun l ↦
    hloop _ _ _ l (fun _ _ ↦ rfl) rfl
  cases phase with
  | preparing step n rest =>
    cases ok with
    | true =>
      cases step with
      | lock i => exact hlock rest
      | validate => exact hwrite rest
      | prepare => exact hprepare rest
      | _ => rfl
    | false =>
      cases step with
      | lock i =>
        rw [Phase.next, if_neg (by simp), PrepareStep.onErr]
        split_ifs
        · exact habort nodes
        · rfl
      | _ => exact habort nodes
  | aborting n rest => exact habort rest
  | cancelling n rest => exact hloop _ _ _ rest (fun _ _ ↦ rfl) rfl
  | committing step n rest =>
    cases step with
    | commit => rfl
    | finish => exact hloop _ _ _ rest (fun _ _ ↦ rfl) (hclose nodes)
    | close => exact hclose rest
  | _ => rfl

/-- An initiator calls another member. -/
theorem ClusterInv.callee (h : ClusterInv C ids s) (ha : a ∈ ids)
    (hc : (s a).crit = some ⟨.operator usid username, tvals, phase⟩)
    (hcall : phase.call = some (c, p)) : p ∈ ids ∧ p ≠ a := by
  have hcells := ((h.node a ha).crit_operator _ _ _ _ hc).cells
  have hhead : phase.cells.head? = some p := by
    cases phase <;> simp_all [Phase.call, Phase.cells]
  refine ⟨hcells.mem p (List.mem_of_head? hhead), hcells.ne p hhead⟩

/-- A call that has to wait: the peer's transaction is written and its settled data stay. -/
theorem clusterInv_pending (h : ClusterInv C ids s) (ha : a ∈ ids)
    (hc : (s a).crit = some ⟨.operator usid username, tvals, phase⟩)
    (hcall : phase.call = some (c, p)) (hex : (s p).exec C a p tvals c = some (none, P')) :
    ClusterInv C ids (Function.update s p P') := by
  obtain ⟨hp, hpa⟩ := h.callee ha hc hcall
  obtain ⟨rfl, vs, hcp, rfl⟩ := exec_pending hex
  -- only the commit call waits
  obtain ⟨rest, rfl⟩ : ∃ rest, phase = .committing .commit p rest := by
    cases phase with
    | committing step n rest =>
      cases step <;> simp_all [Phase.call, CommitStep.call]
    | preparing step n rest => cases step <;> simp [Phase.call, PrepareStep.call] at hcall
    | _ => simp [Phase.call] at hcall
  have hexp := h.expect ha hc p hp hpa
  rw [holding_eq_trans_iff.mpr hcp] at hexp
  obtain rfl : vs = tvals := by
    rcases hexp.current rfl with hv | hv | hv
    · exact (Holding.trans.inj hv).1
    · exact absurd hv (by simp)
    · exact absurd hv (by simp)
  have hc' := crit_write_of_peer (C := C) (h.node p hp) hcp
  refine h.update_peer hp hcp hc' rfl rfl (by simp) rfl ?_ ⟨id, fun n hn ↦ ?_⟩
  · rw [hc]
    exact ⟨fun _ ↦ Or.inr (Or.inl rfl), fun hne ↦ absurd rfl hne, fun hne ↦ absurd rfl hne⟩
  · by_cases hnp : n = p
    · subst hnp
      have hpend : (s n).pending = some (a, vs) :=
        pending_eq_some_iff.mpr ⟨_, rfl, holding_eq_trans_iff.mpr hcp⟩
      rw [settled_of_pending_some hpend, settled_of_pending_none, Function.update_self]
      · simp [Node.committing, hc, Phase.written, Node.write]
      · rw [Function.update_self, Node.pending, hc']
        rfl
    · refine settled_update_of_ne hnp fun v hv ↦ ?_
      exact absurd hv (pending_ne_of_free (h.free_of_crit_peer hp hcp n hn hnp))

/-- The lock is the only call that can be refused: no node that votes for a peer is `refused`. -/
theorem eq_lock_of_not_ok {ok : Bool} {hold hold' : Holding} (hcall : phase.call = some (c, p))
    (hexp : Expect tvals p hold phase) (hserved : Served tvals ok hold hold' c) (hok : ok = false) :
    c = .lock := by
  subst hok
  cases c with
  | lock => rfl
  | prepare =>
    obtain ⟨-, w, hw⟩ := hserved
    cases phase with
    | preparing step n rest =>
      cases step with
      | prepare =>
        rw [Phase.call, Option.some_inj, Prod.mk.injEq] at hcall
        rcases hexp.current hcall.2.symm with hv | hv
        · rw [hv] at hw
          exact absurd hw (by simp)
        · rw [hv] at hw
          exact absurd hw (by simp)
      | _ => simp [Phase.call, PrepareStep.call] at hcall
    | committing step n rest => cases step <;> simp [Phase.call, CommitStep.call] at hcall
    | _ => simp [Phase.call] at hcall
  | _ => exact absurd hserved.1 (by simp)

/-- A node is validated only by an initiator that has locked it. -/
theorem isLocked_of_validate {hold : Holding} (hcall : phase.call = some (.validate, p))
    (hexp : Expect tvals p hold phase) : hold.IsLocked := by
  cases phase with
  | preparing step n rest =>
    cases step with
    | validate =>
      rw [Phase.call, Option.some_inj, Prod.mk.injEq] at hcall
      exact Holding.isLocked_iff.mpr ⟨_, hexp.current hcall.2.symm⟩
    | _ => simp [Phase.call, PrepareStep.call] at hcall
  | committing step n rest => cases step <;> simp [Phase.call, CommitStep.call] at hcall
  | _ => simp [Phase.call] at hcall

/-- Only `CDB_SUB_PREPARE` goes on to a phase in which the daemon votes. -/
theorem preparing_of_voting_next {isLocal : ℤ → Bool} {nodes : List ℤ} {ok : Bool}
    (hcall : phase.call = some (c, p)) (hvote : (phase.next isLocal nodes ok).voting = true) :
    ∃ step n rest, phase = .preparing step n rest := by
  cases phase with
  | preparing step n rest => exact ⟨step, n, rest, rfl⟩
  | committing step n rest =>
    have hw : ((Phase.committing step n rest).next isLocal nodes ok).written = true := written_next
    rw [voting_of_written hw] at hvote
    exact absurd hvote (by simp)
  | aborting n rest =>
    have : (abortLoop isLocal rest).voting = false :=
      loopFrom_rule (Q := fun q ↦ q.voting = false) (fun _ _ _ ↦ rfl) fun _ ↦ rfl
    exact absurd (this.symm.trans hvote) (by simp)
  | cancelling n rest =>
    have : (cancelLoop isLocal rest).voting = false :=
      loopFrom_rule (Q := fun q ↦ q.voting = false) (fun _ _ _ ↦ rfl) fun _ ↦ rfl
    exact absurd (this.symm.trans hvote) (by simp)
  | _ => simp [Phase.call] at hcall

theorem OperatorInv.next {ok aasyncUsr : Bool} {nvals : ℕ} {nodes : List ℤ}
    (hop : OperatorInv ids a aasyncUsr nvals tvals phase)
    (hnodes : nodes.Nodup ∧ ∀ m ∈ nodes, m ∈ ids) (hcall : phase.call = some (c, p)) :
    OperatorInv ids a aasyncUsr nvals tvals (phase.next (· == a) nodes ok) := by
  refine ⟨loopCells_next hnodes hop.cells, fun hvote ↦ ?_, fun step n rest heq ↦ ?_⟩
  · obtain ⟨step, n, rest, rfl⟩ := preparing_of_voting_next hcall hvote
    exact hop.voting rfl
  · have hvote : (phase.next (· == a) nodes ok).voting = true := by rw [heq]; rfl
    obtain ⟨step', n', rest', rfl⟩ := preparing_of_voting_next hcall hvote
    exact hop.ne_nil _ _ _ rfl

/-- What is pending for the callers other than `a` is not touched. -/
theorem Serves.pending_iff {N N' : Node D} (h : Serves ids a p N N') {b : ℤ} (hb : b ≠ a)
    {v : List TagValue} : N'.pending = some (b, v) ↔ N.pending = some (b, v) := by
  rw [pending_eq_some_iff, pending_eq_some_iff, h.frame b hb]

/-- After an initiator has committed, its calls leave what is pending for it alone. -/
theorem pending_iff_of_written {N N' : Node D} {ok : Bool} (hcall : phase.call = some (c, p))
    (hw : phase.written = true) (hexp : Expect tvals p (holding a N) phase)
    (hserved : Served tvals ok (holding a N) (holding a N') c) {v : List TagValue} :
    N'.pending = some (a, v) ↔ N.pending = some (a, v) := by
  have hnot : ∀ {M : Node D}, (holding a M = .free ∨ holding a M = .trans tvals .committed) →
      M.pending ≠ some (a, v) := by
    intro M hM hpend
    obtain ⟨q, hq, hhold⟩ := pending_eq_some_iff.mp hpend
    rcases hM with hM | hM
    · rw [hM] at hhold
      exact absurd hhold (by simp)
    · rw [hM] at hhold
      obtain ⟨-, rfl⟩ := Holding.trans.inj hhold
      exact absurd hq (by simp [Phase.written])
  cases phase with
  | committing step n rest =>
    rw [Phase.call, Option.some_inj, Prod.mk.injEq] at hcall
    obtain ⟨rfl, rfl⟩ := hcall
    cases step with
    | commit => rw [pending_eq_some_iff, pending_eq_some_iff, hserved.2.1]
    | finish =>
      exact iff_of_false (hnot (Or.inl hserved.2)) (hnot (Or.inr (hexp.current rfl)))
    | close => exact iff_of_false (hnot (Or.inl hserved.2)) (hnot (Or.inl hexp))
  | preparing step n rest => exact absurd hw (by simp [Phase.written])
  | _ => simp [Phase.call] at hcall <;> exact absurd hw (by simp [Phase.written])

variable {A' : Node D}

/-- What is pending somewhere belongs to a node with an operator's transaction. -/
theorem ClusterInv.operator_of_pending (h : ClusterInv C ids s) {n b : ℤ} {v : List TagValue}
    (hn : n ∈ ids) (hpend : (s n).pending = some (b, v)) :
    ∃ t, (s b).crit = some t ∧ t.isOperator = true := by
  obtain ⟨hb, hbn⟩ := ne_of_pending (h.node n hn) hpend
  obtain ⟨q, -, hhold⟩ := pending_eq_some_iff.mp hpend
  have hall := h.allowed b hb n hn (Ne.symm hbn)
  rw [hhold] at hall
  match hc : (s b).crit with
  | some ⟨.operator usid username, tvals, phase⟩ => exact ⟨_, rfl, rfl⟩
  | some ⟨.peer b', tvals, phase⟩ =>
    rw [hc] at hall
    exact absurd hall (by simp [Allowed])
  | none =>
    rw [hc] at hall
    exact absurd hall (by simp [Allowed])

/-- Serving a call that has returned keeps the settled data of every node: what becomes pending, or
stops being so, for an initiator that has not committed does not arrive. -/
theorem ClusterInv.settled_served (h : ClusterInv C ids s) (hp : p ∈ ids)
    (hserves : Serves ids a p (s p) P') (hdata : P'.data = (s p).data)
    (hpend : (s a).committing = true →
      ∀ v, P'.pending = some (a, v) ↔ (s p).pending = some (a, v)) {n : ℤ} (hn : n ∈ ids) :
    settled C (Function.update s p P') n = settled C s n := by
  by_cases hnp : n = p
  · subst hnp
    refine settled_congr (by rw [Function.update_self, hdata]) fun b v ↦ ?_
    rw [Function.update_self]
    by_cases hbn : b = n
    · subst hbn
      exact iff_of_false (fun hb ↦ (ne_of_pending hserves.node hb.1).2 rfl)
        fun hb ↦ (ne_of_pending (h.node _ hn) hb.1).2 rfl
    · rw [Function.update_of_ne hbn]
      refine and_congr_left fun hcom ↦ ?_
      by_cases hba : b = a
      · subst hba
        exact hpend hcom v
      · exact hserves.pending_iff hba
  · refine settled_update_of_ne hnp fun v hv ↦ ?_
    obtain ⟨t, hc, hop⟩ := h.operator_of_pending hn hv
    rw [Node.committing, Node.committing, hc, hserves.operator t hc hop]

/-- Neither the node that serves a call nor the initiator that goes on touches what others hold. -/
theorem holding_served {phase' : Phase ℤ} (hserves : Serves ids a p (s p) P')
    (hc : (s a).crit = some ⟨.operator usid username, tvals, phase⟩)
    (hcA : A'.crit = some ⟨.operator usid username, tvals, phase'⟩) {b : ℤ} (hba : b ≠ a) (q : ℤ) :
    holding b (Function.update (Function.update s p P') a A' q) = holding b (s q) := by
  by_cases hqa : q = a
  · subst hqa
    rw [Function.update_self, holding_of_operator hcA, holding_of_operator hc]
  · rw [Function.update_of_ne hqa]
    by_cases hqp : q = p
    · subst hqp
      rw [Function.update_self, hserves.frame b hba]
    · rw [Function.update_of_ne hqp]

/-- An initiator that goes on keeps the settled data of every node: it has committed after the call
if and only if it had before. -/
theorem settled_initiator {phase' : Phase ℤ} {n : ℤ} (hN : NodeInv ids a (s a))
    (hc : (s a).crit = some ⟨.operator usid username, tvals, phase⟩)
    (hcA : A'.crit = some ⟨.operator usid username, tvals, phase'⟩) (hdata : A'.data = (s a).data)
    (hw : phase'.written = phase.written) :
    settled C (Function.update s a A') n = settled C s n := by
  by_cases hna : n = a
  · subst hna
    refine settled_update_self hN hdata ?_
    rw [Node.pending, Node.pending, hcA, hc]
  · refine settled_update_of_ne hna fun v _ ↦ ?_
    rw [Node.committing, Node.committing, hcA, hc]
    exact hw

/-- The initiator's own invariant after one of its calls has returned. -/
theorem NodeInv.next {ok : Bool} {N : Node D} (hN : NodeInv ids a N)
    (hnodes : N.nodes.nodeids.Nodup ∧ ∀ m ∈ N.nodes.nodeids, m ∈ ids)
    (hc : N.crit = some ⟨.operator usid username, tvals, phase⟩)
    (hcall : phase.call = some (c, p)) :
    NodeInv ids a
      { N with
        crit := some ⟨.operator usid username, tvals,
          phase.next (· == a) N.nodes.nodeids ok⟩ } := by
  refine ⟨fun b hl ↦ absurd hl (hN.lock_ne_peer hc b), fun b vs q hq ↦ ?_,
    fun usid' username' vs q hq ↦ ?_⟩
  · exact absurd hq (by simp)
  · rw [Option.some_inj, Trans.mk.injEq] at hq
    obtain ⟨-, rfl, rfl⟩ := hq
    exact (hN.crit_operator _ _ _ _ hc).next hnodes hcall

/-- **A call that has returned.** First the peer serves the call, then the initiator goes on. -/
theorem clusterInv_returned {ok : Bool} (h : ClusterInv C ids s) (hnodup : ids.Nodup)
    (hmesh : FullMesh ids s) (ha : a ∈ ids)
    (hc : (s a).crit = some ⟨.operator usid username, tvals, phase⟩)
    (hcall : phase.call = some (c, p)) (hex : (s p).exec C a p tvals c = some (some ok, P')) :
    ClusterInv C ids (Function.update (Function.update s p P') a
      { s a with
        crit := some ⟨.operator usid username, tvals,
          phase.next (· == a) (s a).nodes.nodeids ok⟩ }) := by
  obtain ⟨hp, hpa⟩ := h.callee ha hc hcall
  have hexp := h.expect ha hc p hp hpa
  obtain ⟨hserves, hserved, hdata⟩ := exec_returned (h.node p hp) ha (Ne.symm hpa)
    (fun hval ↦ isLocked_of_validate (hval ▸ hcall) hexp) hex
  have hop := (h.node a ha).crit_operator _ _ _ _ hc
  have hs₁a : Function.update s p P' a = s a := Function.update_of_ne (Ne.symm hpa) _ _
  have hsettled : ∀ n ∈ ids, settled C (Function.update (Function.update s p P') a
      { s a with
        crit := some ⟨.operator usid username, tvals,
          phase.next (· == a) (s a).nodes.nodeids ok⟩ }) n = settled C s n := by
    intro n hn
    rw [settled_initiator (hs₁a ▸ h.node a ha) (hs₁a ▸ hc) rfl (by rw [hs₁a]) written_next]
    refine h.settled_served hp hserves hdata (fun hw v ↦ ?_) hn
    rw [Node.committing, hc] at hw
    exact pending_iff_of_written hcall hw hexp hserved
  refine ⟨fun n hn ↦ ?_, fun b hb q hq hqb ↦ ?_, fun n hn m hm ↦ ?_⟩
  · by_cases hna : n = a
    · subst hna
      rw [Function.update_self]
      exact (h.node n hn).next (hmesh.nodes hnodup hn) hc hcall
    · rw [Function.update_of_ne hna]
      by_cases hnp : n = p
      · subst hnp
        rw [Function.update_self]
        exact hserves.node
      · rw [Function.update_of_ne hnp]
        exact h.node n hn
  · by_cases hba : b = a
    · -- what the initiator expects of every node after the call
      subst hba
      rw [Function.update_self, Function.update_of_ne hqb]
      refine expect_next hcall (h.expect ha hc q hq hqb) hop.ne_nil hop.cells.nodup
        (by simpa using hqb) (hmesh.mem ha hq) (eq_lock_of_not_ok hcall hexp hserved) ?_ ?_
      · intro hqp
        rw [Function.update_of_ne hqp]
      · intro hqp
        subst hqp
        rw [Function.update_self]
        exact hserved
    · rw [holding_served hserves hc rfl hba q, Function.update_of_ne hba]
      by_cases hbp : b = p
      · subst hbp
        rw [Function.update_self]
        exact hserves.allowed _ _ (h.allowed b hb q hq hqb)
      · rw [Function.update_of_ne hbp]
        exact h.allowed b hb q hq hqb
  · rw [hsettled n hn, hsettled m hm]
    exact h.agree n hn m hm

theorem clusterInv_call {s' : Cluster D} (h : ClusterInv C ids s) (hnodup : ids.Nodup)
    (hmesh : FullMesh ids s) (ha : a ∈ ids) (hs : callStep C s a = some s') :
    ClusterInv C ids s' := by
  simp only [callStep] at hs
  split at hs
  next t hc =>
    obtain ⟨owner, tvals, phase⟩ := t
    split at hs
    next c p hcall =>
      rw [Option.map_eq_some_iff] at hs
      obtain ⟨⟨res, P'⟩, hex, rfl⟩ := hs
      cases owner with
      | peer b =>
        obtain ⟨-, -, -, -, -, hnocall⟩ := (h.node a ha).crit_peer _ _ _ hc
        exact absurd (hcall.symm.trans hnocall) (by simp)
      | operator usid username =>
        cases res with
        | none => exact clusterInv_pending h ha hc hcall hex
        | some ok => exact clusterInv_returned h hnodup hmesh ha hc hcall hex
    next => exact absurd hs (by simp)
  next => exact absurd hs (by simp)

end Call

/-! ## Runs -/

section Runs

variable {s s' : Cluster D} {e : ClusterEvent}

/-- **Every admitted step keeps the invariant.** -/
theorem clusterInv_step (hnodup : ids.Nodup) (h : ClusterInv C ids s) (hg : GuardDown ids s e)
    (hs : clusterStep C ids s e = some s') : ClusterInv C ids s' := by
  unfold clusterStep at hs
  obtain ⟨hx, hs⟩ := Option.ite_none_right_eq_some.mp hs
  obtain ⟨hmesh, hguard⟩ := hg
  cases e with
  | call n => exact clusterInv_call h hnodup hmesh hx hs
  | opLock n usid username =>
    obtain ⟨N', hN, rfl⟩ := Option.map_eq_some_iff.mp hs
    exact clusterInv_opLock h hx hN
  | opUnlock n =>
    obtain ⟨N', hN, rfl⟩ := Option.map_eq_some_iff.mp hs
    exact clusterInv_opUnlock h hx hN
  | opValidate n usid username tvals =>
    obtain ⟨N', hN, rfl⟩ := Option.map_eq_some_iff.mp hs
    exact clusterInv_opValidate h hx hN
  | subPrepare n =>
    obtain ⟨N', hN, rfl⟩ := Option.map_eq_some_iff.mp hs
    exact clusterInv_subPrepare h hnodup hmesh hx hguard hN
  | settle n =>
    obtain ⟨N', hN, rfl⟩ := Option.map_eq_some_iff.mp hs
    exact clusterInv_settle h hx hN
  | opCommit n =>
    obtain ⟨N', hN, rfl⟩ := Option.map_eq_some_iff.mp hs
    exact clusterInv_opCommit h hnodup hmesh hx hN
  | opAbort n =>
    obtain ⟨N', hN, rfl⟩ := Option.map_eq_some_iff.mp hs
    exact clusterInv_opAbort h hnodup hmesh hx hN
  | opFinish n =>
    obtain ⟨N', hN, rfl⟩ := Option.map_eq_some_iff.mp hs
    exact clusterInv_opFinish h hx hN

theorem clusterInv_init (h : ClusterInit ids s) : ClusterInv C ids s := by
  have hpend : ∀ n ∈ ids, settled C s n = (s n).data := fun n hn ↦
    settled_of_pending_none (by rw [Node.pending, h.crit n hn])
  refine ⟨fun n hn ↦ ?_, fun a ha p hp hpa ↦ ?_, fun n hn m hm ↦ ?_⟩
  · refine nodeInv_of_crit_none (h.crit n hn) fun b hb ↦ ?_
    rw [h.lock n hn] at hb
    exact absurd hb (by simp)
  · rw [h.crit a ha, allowed_none, holding_of_crit_none (h.crit p hp), h.lock p hp,
      if_neg (by simp)]
  · rw [hpend n hn, hpend m hm]
    exact h.data_eq n hn m hm

/-- **Agreement.** In every run of a full mesh in which no operator's transaction is prepared on a
node whose flag is up, all nodes hold the same data whenever no transaction is in progress. -/
theorem agreement_of_guardDown {s₀ : Cluster D} (h₀ : ClusterInit ids s₀)
    (hrun : (clusterMachine C ids).Reach (GuardDown ids) s₀ s) (hquiet : Quiet ids s) :
    ∀ n ∈ ids, ∀ m ∈ ids, (s n).data = (s m).data := by
  have hinv : ClusterInv C ids s := hrun.invariant (clusterInv_init h₀) fun _ _ _ hI hP hs ↦
    clusterInv_step h₀.nodup hI hP hs
  have hsettled : ∀ n ∈ ids, settled C s n = (s n).data := fun n hn ↦
    settled_of_pending_none (by rw [Node.pending, hquiet n hn])
  intro n hn m hm
  rw [← hsettled n hn, ← hsettled m hm]
  exact hinv.agree n hn m hm

end Runs

/-! ## A run that agrees and one that does not -/

/-- One leaf under `ACTIVE_CFG_PATH`: the last value written to it wins. -/
def leafConfd : Confd ℤ where
  setValues := fun d tvals ↦ tvals.foldl (fun _ tv ↦ tv.v.getInt32) d
  setValues_nil := fun _ ↦ rfl
  aaclusterPart := fun _ ↦ []

/-- A node at rest that knows the given members. -/
def restingNode (ids : List ℤ) : Node ℤ where
  data := 0
  aasyncUsr := false
  nvals := 0
  nodes := ⟨ids.zipIdx.map fun q ↦ (q.2, ⟨q.1, 0, 0, 0, 0⟩), ids.length⟩
  lock := none
  started := fun _ ↦ none
  crit := none

theorem clusterInit_resting : ClusterInit [2, 1, 0] fun _ ↦ restingNode [2, 1, 0] := by
  refine ⟨by decide, fun n _ ↦ ?_, fun _ _ _ _ ↦ rfl, fun _ _ ↦ rfl, fun _ _ ↦ rfl, fun _ _ ↦ rfl⟩
  exact List.Perm.refl _

instance (ids : List ℤ) (s : Cluster ℤ) : Decidable (FullMesh ids s) :=
  inferInstanceAs (Decidable (∀ n ∈ ids, (s n).nodes.nodeids.Perm ids))

instance (ids : List ℤ) (s : Cluster ℤ) (e : ClusterEvent) : Decidable (GuardDown ids s e) :=
  match e with
  | .subPrepare n => inferInstanceAs (Decidable (_ ∧ ∀ t ∈ (s n).crit, _ → _))
  | .opLock _ _ _ => inferInstanceAs (Decidable (_ ∧ True))
  | .opUnlock _ => inferInstanceAs (Decidable (_ ∧ True))
  | .opValidate _ _ _ _ => inferInstanceAs (Decidable (_ ∧ True))
  | .call _ => inferInstanceAs (Decidable (_ ∧ True))
  | .settle _ => inferInstanceAs (Decidable (_ ∧ True))
  | .opCommit _ => inferInstanceAs (Decidable (_ ∧ True))
  | .opAbort _ => inferInstanceAs (Decidable (_ ∧ True))
  | .opFinish _ => inferInstanceAs (Decidable (_ ∧ True))

/-- No node has a transaction, and nodes `2` and `0` hold these values. -/
def quietWith (d₂ d₀ : ℤ) (s : Cluster ℤ) : Bool :=
  [2, 1, 0].all (fun n ↦ (s n).crit.isNone) && decide ((s 2).data = d₂ ∧ (s 0).data = d₀)

theorem quietWith_iff {d₂ d₀ : ℤ} {s : Cluster ℤ} :
    quietWith d₂ d₀ s = true ↔ Quiet [2, 1, 0] s ∧ (s 2).data = d₂ ∧ (s 0).data = d₀ := by
  rw [quietWith, Bool.and_eq_true, decide_eq_true_iff, List.all_eq_true]
  simp only [Option.isNone_iff_eq_none]
  exact Iff.rfl

/-- Node `0` sets the leaf to `7` and every node follows. -/
def replicatedRun : List ClusterEvent :=
  [.opValidate 0 1 "admin".toList [⟨.other 0, .int32 7⟩], .subPrepare 0] ++
    List.replicate 12 (.call 0) ++ [.subPrepare 2, .call 0, .subPrepare 1, .call 0, .opCommit 0,
    .call 0, .settle 2, .call 0, .call 0, .call 0, .settle 1, .call 0, .call 0, .call 0, .call 0,
    .settle 0, .opFinish 0]

/-- Nodes `0` and `1` start at once: node `0` has locked node `2` when node `1` refuses the lock
three times, and it gives up. Then node `2` sets the leaf. -/
def staleFlagRun : List ClusterEvent :=
  [.opValidate 1 1 "admin".toList [⟨.other 0, .int32 5⟩],
    .opValidate 0 1 "admin".toList [⟨.other 0, .int32 6⟩], .subPrepare 0] ++
    List.replicate 10 (.call 0) ++ [.opFinish 0, .opFinish 1,
    .opValidate 2 1 "admin".toList [⟨.other 0, .int32 7⟩], .subPrepare 2, .opCommit 2, .settle 2,
    .opFinish 2]

theorem agreement_replicatedRun : ∃ s,
    (clusterMachine leafConfd [2, 1, 0]).Reach (GuardDown [2, 1, 0])
      (fun _ ↦ restingNode [2, 1, 0]) s ∧ (s 2).data = 7 ∧
      ∀ n ∈ [2, 1, 0], ∀ m ∈ [2, 1, 0], (s n).data = (s m).data := by
  have hrun : (((clusterMachine leafConfd [2, 1, 0]).restrict (GuardDown [2, 1, 0])).runFrom
      (fun _ ↦ restingNode [2, 1, 0]) replicatedRun).any (quietWith 7 7) = true := by
    decide +kernel
  obtain ⟨s, hs, htest⟩ := Machine.exists_reach_of_any hrun
  obtain ⟨hquiet, hdata, -⟩ := quietWith_iff.mp htest
  exact ⟨s, hs, hdata, agreement_of_guardDown clusterInit_resting hs hquiet⟩

/-- **A lost update.** The flag that node `0` left up on node `2` when it gave up makes node `2`
keep its own transaction to itself. -/
theorem not_agreement_of_staleFlag : ¬∀ (ids : List ℤ) (s₀ s : Cluster ℤ), 2 ≤ ids.length →
    ClusterInit ids s₀ →
    (clusterMachine leafConfd ids).Reach (fun s _ ↦ FullMesh ids s) s₀ s → Quiet ids s →
      ∀ n ∈ ids, ∀ m ∈ ids, (s n).data = (s m).data := by
  intro h
  have hrun : (((clusterMachine leafConfd [2, 1, 0]).restrict fun s _ ↦
      FullMesh [2, 1, 0] s).runFrom (fun _ ↦ restingNode [2, 1, 0]) staleFlagRun).any
      (quietWith 7 0) = true := by
    decide +kernel
  obtain ⟨s, hs, htest⟩ := Machine.exists_reach_of_any hrun
  obtain ⟨hquiet, hdata₂, hdata₀⟩ := quietWith_iff.mp htest
  have heq := h _ _ s (by decide) clusterInit_resting hs hquiet 2 (by decide) 0 (by decide)
  rw [hdata₂, hdata₀] at heq
  exact absurd heq (by decide)

end ConfdDemos.Aasync
