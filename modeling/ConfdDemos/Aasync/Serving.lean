import ConfdDemos.Aasync.Holding

/-!
# Serving a call

What holds of a single node in every state of a run (`NodeInv`), and what a MAAPI call of an
initiator does to the node it goes to: it keeps the invariant, changes what the node holds for the
caller as the program point of the caller expects, and leaves alone what it holds for others and a
transaction of an operator (`Serves`, `Served`).

A peer's lock or transaction comes with the flag up, and an operator's transaction that is being
replicated was found with the flag down. The lock is refused when the node is busy; every other call
either succeeds or waits.
-/

namespace ConfdDemos.Aasync

variable {D : Type*} {C : Confd D} {ids : List ℤ}

/-! ## The invariant of a node -/

/-- The phases in which an operator's transaction waits for the vote of its own daemon, or has
it. -/
def Phase.voting {ν : Type*} : Phase ν → Bool
  | .preparing _ _ _ => true
  | .prepared => true
  | _ => false

/-- The cells a loop on node `n` has still to serve. -/
structure LoopCells (ids : List ℤ) (n : ℤ) (cells : List ℤ) : Prop where
  nodup : cells.Nodup
  mem : ∀ m ∈ cells, m ∈ ids
  ne : ∀ m ∈ cells.head?, m ≠ n

/-- What holds of an operator's transaction on node `n`. -/
structure OperatorInv (ids : List ℤ) (n : ℤ) (aasyncUsr : Bool) (nvals : ℕ)
    (tvals : List TagValue) (phase : Phase ℤ) : Prop where
  cells : LoopCells ids n phase.cells
  /-- The transaction is replicated because the flag was down, with all its modifications. -/
  voting : phase.voting = true → aasyncUsr = false ∧ nvals = tvals.length
  ne_nil : ∀ step m rest, phase = .preparing step m rest → tvals ≠ []

/-- What holds of node `n` in any state. -/
structure NodeInv (ids : List ℤ) (n : ℤ) (N : Node D) : Prop where
  lock_peer : ∀ b, N.lock = some (.peer b) → N.crit = none ∧ N.aasyncUsr = true
  crit_peer : ∀ b tvals phase, N.crit = some ⟨.peer b, tvals, phase⟩ →
    b ∈ ids ∧ b ≠ n ∧ N.lock = none ∧ N.aasyncUsr = true ∧
      (phase = .prepared → N.nvals = 0) ∧ phase.call = none
  crit_operator : ∀ usid username tvals phase,
    N.crit = some ⟨.operator usid username, tvals, phase⟩ →
      OperatorInv ids n N.aasyncUsr N.nvals tvals phase

/-- What a node may hold for the node whose transaction is given. -/
def Allowed (p : ℤ) (h : Holding) : Option Trans → Prop
  | some ⟨.operator _ _, tvals, phase⟩ => Expect tvals p h phase
  | _ => h = .free

/-! ## Loops -/

section Loops

variable {n : ℤ} {nodes l rest : List ℤ}

theorem loopCells_nil : LoopCells ids n [] := ⟨List.nodup_nil, by simp, by simp⟩

theorem LoopCells.tail {m : ℤ} (h : LoopCells ids n (m :: rest)) :
    rest.Nodup ∧ ∀ m ∈ rest, m ∈ ids :=
  ⟨(List.nodup_cons.mp h.nodup).2, fun q hq ↦ h.mem q (List.mem_cons_of_mem m hq)⟩

/-- Entering a loop whose body serves the cells in turn. -/
theorem loopCells_loopFrom {body : ℤ → List ℤ → Phase ℤ} {after : Phase ℤ}
    (hbody : ∀ m rest, (body m rest).cells = m :: rest) (hl : l.Nodup ∧ ∀ m ∈ l, m ∈ ids)
    (hafter : LoopCells ids n after.cells) :
    LoopCells ids n (loopFrom (· == n) body after l).cells := by
  refine loopFrom_rule (Q := fun p ↦ LoopCells ids n p.cells) ?_ fun _ ↦ hafter
  intro m rest hnext
  obtain ⟨hloc, hsuf, -⟩ := nextPeer_some hnext
  rw [hbody]
  refine ⟨hl.1.sublist hsuf.sublist, fun q hq ↦ hl.2 q (hsuf.subset hq), ?_⟩
  intro q hq
  rw [List.head?_cons, Option.mem_some_iff] at hq
  subst hq
  simpa using hloc

theorem loopCells_writeLoop (hnodes : nodes.Nodup ∧ ∀ m ∈ nodes, m ∈ ids)
    (hl : l.Nodup ∧ ∀ m ∈ l, m ∈ ids) : LoopCells ids n (writeLoop (· == n) nodes l).cells :=
  loopCells_loopFrom (fun _ _ ↦ rfl) hl
    (loopCells_loopFrom (fun _ _ ↦ rfl) hnodes loopCells_nil)

theorem loopCells_lockLoop (hnodes : nodes.Nodup ∧ ∀ m ∈ nodes, m ∈ ids)
    (hl : l.Nodup ∧ ∀ m ∈ l, m ∈ ids) : LoopCells ids n (lockLoop (· == n) nodes l).cells :=
  loopCells_loopFrom (fun _ _ ↦ rfl) hl (loopCells_writeLoop hnodes hnodes)

theorem loopCells_commitLoop (hnodes : nodes.Nodup ∧ ∀ m ∈ nodes, m ∈ ids)
    (hl : l.Nodup ∧ ∀ m ∈ l, m ∈ ids) : LoopCells ids n (commitLoop (· == n) nodes l).cells :=
  loopCells_loopFrom (fun _ _ ↦ rfl) hl
    (loopCells_loopFrom (fun _ _ ↦ rfl) hnodes loopCells_nil)

/-- The next program point is in a loop over the member list, or in the same loop. -/
theorem loopCells_next {phase : Phase ℤ} {ok : Bool}
    (hnodes : nodes.Nodup ∧ ∀ m ∈ nodes, m ∈ ids) (h : LoopCells ids n phase.cells) :
    LoopCells ids n (phase.next (· == n) nodes ok).cells := by
  have habort : LoopCells ids n (abortLoop (· == n) nodes).cells :=
    loopCells_loopFrom (fun _ _ ↦ rfl) hnodes loopCells_nil
  cases phase with
  | preparing step m rest =>
    cases ok with
    | true =>
      cases step with
      | lock i => exact loopCells_lockLoop hnodes h.tail
      | validate => exact loopCells_writeLoop hnodes h.tail
      | prepare => exact loopCells_loopFrom (fun _ _ ↦ rfl) h.tail loopCells_nil
      | _ => exact h
    | false =>
      cases step with
      | lock i =>
        rw [Phase.next, if_neg (by simp), PrepareStep.onErr]
        split_ifs
        · exact habort
        · exact h
      | _ => exact habort
  | aborting m rest => exact loopCells_loopFrom (fun _ _ ↦ rfl) h.tail loopCells_nil
  | cancelling m rest => exact loopCells_loopFrom (fun _ _ ↦ rfl) h.tail loopCells_nil
  | committing step m rest =>
    cases step with
    | commit => exact h
    | finish => exact loopCells_commitLoop hnodes h.tail
    | close => exact loopCells_loopFrom (fun _ _ ↦ rfl) h.tail loopCells_nil
  | _ => exact h

end Loops

/-! ## Calls -/

/-- What every call of the daemon of `a` keeps on the node it goes to, besides what the node holds
for `a`. -/
structure Serves (ids : List ℤ) (a p : ℤ) (N N' : Node D) : Prop where
  node : NodeInv ids p N'
  frame : ∀ b, b ≠ a → holding b N' = holding b N
  allowed : ∀ q h, Allowed q h N.crit → Allowed q h N'.crit
  /-- A call never touches an operator's transaction. -/
  operator : ∀ t, N.crit = some t → t.isOperator = true → N'.crit = some t

section Calls

variable {a p : ℤ} {N : Node D} {tvals : List TagValue}

theorem allowed_none {q : ℤ} {h : Holding} : Allowed q h none ↔ h = .free := Iff.rfl

theorem allowed_peer {q : ℤ} {h : Holding} {phase : Phase ℤ} :
    Allowed q h (some ⟨.peer a, tvals, phase⟩) ↔ h = .free := Iff.rfl

/-- A node without a transaction only has to mind the lock. -/
theorem nodeInv_of_crit_none (hc : N.crit = none)
    (hlock : ∀ b, N.lock = some (.peer b) → N.aasyncUsr = true) : NodeInv ids p N := by
  refine ⟨fun b h ↦ ⟨hc, hlock b h⟩, ?_, ?_⟩
  · intro b tvals phase h
    rw [hc] at h
    exact absurd h (by simp)
  · intro usid username tvals phase h
    rw [hc] at h
    exact absurd h (by simp)

/-- No peer has the lock while a transaction runs. -/
theorem NodeInv.lock_ne_peer (hN : NodeInv ids p N) {t : Trans} (hc : N.crit = some t) (b : ℤ) :
    N.lock ≠ some (.peer b) := by
  intro hb
  have := (hN.lock_peer b hb).1
  rw [hc] at this
  exact absurd this (by simp)

theorem serves_refl (hN : NodeInv ids p N) : Serves ids a p N N :=
  ⟨hN, fun _ _ ↦ rfl, fun _ _ h ↦ h, fun _ h _ ↦ h⟩

theorem serves_grant (hc : N.crit = none) (hl : N.lock = none) :
    Serves ids a p N (N.grant p (.peer a)) := by
  have hcrit : (N.grant p (.peer a)).crit = none := hc
  refine ⟨nodeInv_of_crit_none hcrit fun b _ ↦ ?_, fun b hb ↦ ?_, fun q h hall ↦ hall,
    fun t ht _ ↦ ht⟩
  · simp [Node.grant, globalLock, Client.username, aasyncUser_progname]
  · rw [holding_of_crit_none hcrit, holding_of_crit_none hc, hl]
    simp [Node.grant, Ne.symm hb]

theorem serves_started (hN : NodeInv ids p N) (w : Option (List TagValue)) :
    Serves ids a p N { N with started := Function.update N.started a w } := by
  refine ⟨⟨hN.lock_peer, hN.crit_peer, hN.crit_operator⟩, fun b hb ↦ ?_, fun q h hall ↦ hall,
    fun t ht _ ↦ ht⟩
  rw [holding, holding]
  simp only [Function.update_of_ne hb]

/-- A peer enters validation: the callback has released its lock. -/
theorem serves_enter (hN : NodeInv ids p N) (ha : a ∈ ids) (hap : a ≠ p) (hc : N.crit = none)
    (hl : N.lock = some (.peer a)) : Serves ids a p N (N.enter p (.peer a) tvals) := by
  have hcrit : (N.enter p (.peer a) tvals).crit = some ⟨.peer a, tvals, .validated⟩ := rfl
  have hlock : (N.enter p (.peer a) tvals).lock = none := by
    simp [Node.enter, tLock, Client.username, aasyncUser_progname, dropLock, hl]
  refine ⟨⟨?_, ?_, ?_⟩, fun b hb ↦ ?_, fun q h hall ↦ ?_, fun t ht _ ↦ ?_⟩
  · intro b h
    rw [hlock] at h
    exact absurd h (by simp)
  · intro b vs phase h
    rw [hcrit, Option.some_inj, Trans.mk.injEq, Client.peer.injEq] at h
    obtain ⟨rfl, -, rfl⟩ := h
    exact ⟨ha, hap, hlock, (hN.lock_peer _ hl).2, by simp, rfl⟩
  · intro usid username vs phase h
    rw [hcrit] at h
    exact absurd h (by simp)
  · rw [holding_of_crit_some hcrit, holding_of_crit_none hc, hl]
    simp [Ne.symm hb]
  · rw [hc, allowed_none] at hall
    rw [hcrit, allowed_peer]
    exact hall
  · rw [hc] at ht
    exact absurd ht (by simp)

/-- A step inside a peer's transaction. -/
theorem serves_phase {vs : List TagValue} {phase phase' : Phase ℤ} {N' : Node D}
    (hN : NodeInv ids p N) (hc : N.crit = some ⟨.peer a, vs, phase⟩)
    (hc' : N'.crit = some ⟨.peer a, vs, phase'⟩) (hlock : N'.lock = N.lock)
    (husr : N'.aasyncUsr = N.aasyncUsr) (hnvals : phase' = .prepared → N'.nvals = 0)
    (hcall : phase'.call = none) : Serves ids a p N N' := by
  obtain ⟨ha, hap, hl, hu, -⟩ := hN.crit_peer _ _ _ hc
  refine ⟨⟨?_, ?_, ?_⟩, fun b hb ↦ ?_, fun q h hall ↦ ?_, fun t ht hop ↦ ?_⟩
  · intro b h
    rw [hlock, hl] at h
    exact absurd h (by simp)
  · intro b ws q h
    rw [hc', Option.some_inj, Trans.mk.injEq, Client.peer.injEq] at h
    obtain ⟨rfl, -, rfl⟩ := h
    exact ⟨ha, hap, hlock.trans hl, husr.trans hu, hnvals, hcall⟩
  · intro usid username ws q h
    rw [hc'] at h
    exact absurd h (by simp)
  · rw [holding_of_crit_some hc', holding_of_crit_some hc]
    simp [Ne.symm hb]
  · rw [hc, allowed_peer] at hall
    rw [hc', allowed_peer]
    exact hall
  · rw [hc, Option.some_inj] at ht
    exact absurd hop (by simp [← ht, Trans.isOperator])

theorem crit_write_of_peer (hN : NodeInv ids p N) (hc : N.crit = some ⟨.peer a, tvals, .prepared⟩) :
    (N.write C p ⟨.peer a, tvals, .prepared⟩).crit = some ⟨.peer a, tvals, .settling⟩ := by
  obtain ⟨-, -, -, husr, -⟩ := hN.crit_peer _ _ _ hc
  simp [Node.write, subCommit, husr]

theorem serves_endTrans (hN : NodeInv ids p N) {phase : Phase ℤ}
    (hc : N.crit = some ⟨.peer a, tvals, phase⟩) :
    Serves ids a p N (N.endTrans p (.peer a)) := by
  obtain ⟨-, -, hl, -⟩ := hN.crit_peer _ _ _ hc
  have hcrit : (N.endTrans p (.peer a)).crit = none := rfl
  have hlock : (N.endTrans p (.peer a)).lock = none := hl
  refine ⟨nodeInv_of_crit_none hcrit fun b h ↦ ?_, fun b hb ↦ ?_, fun q h hall ↦ ?_,
    fun t ht hop ↦ ?_⟩
  · rw [hlock] at h
    exact absurd h (by simp)
  · rw [holding_of_crit_none hcrit, holding_of_crit_some hc, hlock]
    simp [Ne.symm hb]
  · rw [hc, allowed_peer] at hall
    exact hall
  · rw [hc, Option.some_inj] at ht
    exact absurd hop (by simp [← ht, Trans.isOperator])

/-- The node after the session of `a` is closed. -/
def Node.closed (a : ℤ) (N : Node D) : Node D :=
  { N with
    lock := dropLock (.peer a) N.lock
    started := Function.update N.started a none
    crit := N.crit.filter fun t ↦ t.owner ≠ .peer a }

theorem lock_closed_ne (a : ℤ) (N : Node D) : (N.closed a).lock ≠ some (.peer a) := by
  simp only [Node.closed, dropLock]
  split_ifs with h
  · simp
  · exact h

theorem lock_closed_of_ne {c : Client} (hc : c ≠ .peer a) :
    (N.closed a).lock = some c ↔ N.lock = some c := by
  simp only [Node.closed, dropLock]
  split_ifs with h
  · rw [h, Option.some_inj]
    simp [Ne.symm hc]
  · exact Iff.rfl

theorem crit_closed_eq_some {t : Trans} :
    (N.closed a).crit = some t ↔ N.crit = some t ∧ t.owner ≠ .peer a := by
  simp [Node.closed, Option.filter_eq_some_iff]

theorem crit_closed_of_none (hc : N.crit = none) : (N.closed a).crit = none := by
  simp [Node.closed, hc]

theorem crit_closed_of_peer {vs : List TagValue} {phase : Phase ℤ}
    (hc : N.crit = some ⟨.peer a, vs, phase⟩) : (N.closed a).crit = none := by
  simp [Node.closed, hc]

theorem holding_closed_self (a : ℤ) (N : Node D) : holding a (N.closed a) = .free := by
  cases hc : (N.closed a).crit with
  | none => rw [holding_of_crit_none hc, if_neg (lock_closed_ne a N)]
  | some t => rw [holding_of_crit_some hc, if_neg (crit_closed_eq_some.mp hc).2]

theorem nodeInv_closed (hN : NodeInv ids p N) : NodeInv ids p (N.closed a) := by
  refine ⟨fun b h ↦ ?_, fun b vs phase h ↦ ?_, fun usid username vs phase h ↦ ?_⟩
  · have hb : Client.peer b ≠ .peer a := fun hba ↦ lock_closed_ne a N (hba ▸ h)
    obtain ⟨hc, husr⟩ := hN.lock_peer b ((lock_closed_of_ne hb).mp h)
    exact ⟨crit_closed_of_none hc, husr⟩
  · obtain ⟨hb, hbn, hl, hrest⟩ := hN.crit_peer b vs phase (crit_closed_eq_some.mp h).1
    refine ⟨hb, hbn, ?_, hrest⟩
    simp [Node.closed, dropLock, hl]
  · exact hN.crit_operator usid username vs phase (crit_closed_eq_some.mp h).1

theorem serves_closed (hN : NodeInv ids p N) : Serves ids a p N (N.closed a) := by
  refine ⟨nodeInv_closed hN, fun b hb ↦ ?_, fun q h hall ↦ ?_, fun t ht hop ↦ ?_⟩
  · have hba : Client.peer b ≠ .peer a := by simpa using hb
    cases hc : N.crit with
    | none =>
      rw [holding_of_crit_none hc, holding_of_crit_none (crit_closed_of_none hc),
        if_congr (lock_closed_of_ne hba) rfl rfl]
      simp [Node.closed, Function.update_of_ne hb]
    | some t =>
      by_cases ho : t.owner = .peer a
      · obtain ⟨owner, vs, phase⟩ := t
        obtain rfl : owner = .peer a := ho
        obtain ⟨-, -, hl, -⟩ := hN.crit_peer _ _ _ hc
        rw [holding_of_crit_some hc, holding_of_crit_none (crit_closed_of_peer hc),
          if_congr (lock_closed_of_ne hba) rfl rfl, hl]
        simp [Ne.symm hb]
      · rw [holding_of_crit_some hc, holding_of_crit_some (crit_closed_eq_some.mpr ⟨hc, ho⟩)]
  · cases hc : N.crit with
    | none =>
      rw [hc] at hall
      rwa [crit_closed_of_none hc]
    | some t =>
      rw [hc] at hall
      by_cases ho : t.owner = .peer a
      · obtain ⟨owner, vs, phase⟩ := t
        obtain rfl : owner = .peer a := ho
        rwa [crit_closed_of_peer hc]
      · rwa [crit_closed_eq_some.mpr ⟨hc, ho⟩]
  · refine crit_closed_eq_some.mpr ⟨ht, fun ho ↦ ?_⟩
    rw [Trans.isOperator, ho] at hop
    exact absurd hop (by simp)

/-- What a call that has returned did. -/
theorem exec_returned {c : Call} {ok : Bool} {N' : Node D} (hN : NodeInv ids p N) (ha : a ∈ ids)
    (hap : a ≠ p) (hval : c = .validate → (holding a N).IsLocked)
    (hex : N.exec C a p tvals c = some (some ok, N')) :
    Serves ids a p N N' ∧ Served tvals ok (holding a N) (holding a N') c ∧ N'.data = N.data := by
  cases c with
  | socket =>
    simp only [Node.exec, Option.some_inj, Prod.mk.injEq] at hex
    obtain ⟨rfl, rfl⟩ := hex
    exact ⟨serves_refl hN, ⟨rfl, rfl⟩, rfl⟩
  | session =>
    simp only [Node.exec, Option.some_inj, Prod.mk.injEq] at hex
    obtain ⟨rfl, rfl⟩ := hex
    exact ⟨serves_refl hN, ⟨rfl, rfl⟩, rfl⟩
  | lock =>
    simp only [Node.exec] at hex
    split_ifs at hex with hfree
    · rw [Option.some_inj, Prod.mk.injEq, Option.some_inj] at hex
      obtain ⟨rfl, rfl⟩ := hex
      refine ⟨serves_grant hfree.2 hfree.1, Or.inl ⟨rfl, ?_⟩, rfl⟩
      exact Holding.isLocked_iff.mpr ⟨_, holding_eq_locked_iff.mpr ⟨hfree.2, rfl, rfl⟩⟩
    · rw [Option.some_inj, Prod.mk.injEq, Option.some_inj] at hex
      obtain ⟨rfl, rfl⟩ := hex
      exact ⟨serves_refl hN, Or.inr ⟨rfl, rfl⟩, rfl⟩
  | startTrans =>
    simp only [Node.exec, Option.some_inj, Prod.mk.injEq] at hex
    obtain ⟨rfl, rfl⟩ := hex
    refine ⟨serves_started hN _, ⟨rfl, fun hlocked ↦ ?_⟩, rfl⟩
    obtain ⟨w, hw⟩ := Holding.isLocked_iff.mp hlocked
    obtain ⟨hc, hl, -⟩ := holding_eq_locked_iff.mp hw
    exact holding_eq_locked_iff.mpr ⟨hc, hl, Function.update_self _ _ _⟩
  | setValues =>
    simp only [Node.exec, Option.map_eq_some_iff, Prod.mk.injEq, Option.some_inj] at hex
    obtain ⟨vs, hvs, rfl, rfl⟩ := hex
    refine ⟨serves_started hN _, ⟨rfl, fun w hw ↦ ?_⟩, rfl⟩
    obtain ⟨hc, hl, hst⟩ := holding_eq_locked_iff.mp hw
    obtain rfl : vs = w := Option.some_inj.mp (hvs.symm.trans hst)
    exact holding_eq_locked_iff.mpr ⟨hc, hl, Function.update_self _ _ _⟩
  | validate =>
    -- the caller's lock becomes its transaction
    obtain ⟨w, hw⟩ := Holding.isLocked_iff.mp (hval rfl)
    obtain ⟨hc, hl, hst⟩ := holding_eq_locked_iff.mp hw
    simp only [Node.exec, hst] at hex
    cases w with
    | none => exact absurd hex (by simp)
    | some vs =>
      simp only [Option.ite_none_right_eq_some, Option.some_inj, Prod.mk.injEq] at hex
      obtain ⟨-, rfl, rfl⟩ := hex
      refine ⟨serves_enter hN ha hap hc hl, ⟨rfl, fun w hw' ↦ ?_⟩, rfl⟩
      rw [hw, Holding.locked.injEq, Option.some_inj] at hw'
      subst hw'
      exact holding_eq_trans_iff.mpr rfl
  | prepare =>
    simp only [Node.exec] at hex
    split at hex
    next owner vs phase hc =>
      -- the call returns once the daemon there has answered its own subscription
      split_ifs at hex with hprep href
      · rw [Option.some_inj, Prod.mk.injEq, Option.some_inj] at hex
        obtain ⟨rfl, rfl⟩ := hex
        obtain ⟨rfl, rfl⟩ := hprep
        exact ⟨serves_refl hN, ⟨rfl, vs, holding_eq_trans_iff.mpr hc⟩, rfl⟩
      · rw [Option.some_inj, Prod.mk.injEq, Option.some_inj] at hex
        obtain ⟨rfl, rfl⟩ := hex
        obtain ⟨rfl, rfl⟩ := href
        exact ⟨serves_refl hN, ⟨rfl, vs, holding_eq_trans_iff.mpr hc⟩, rfl⟩
    next => exact absurd hex (by simp)
  | commit =>
    simp only [Node.exec] at hex
    split at hex
    next t hc =>
      split_ifs at hex with hprep hcomm
      · exact absurd hex (by simp)
      · rw [Option.some_inj, Prod.mk.injEq, Option.some_inj] at hex
        obtain ⟨rfl, rfl⟩ := hex
        obtain ⟨owner, vs, phase⟩ := t
        obtain ⟨rfl, rfl⟩ : owner = _ ∧ phase = _ := hcomm
        exact ⟨serves_refl hN, ⟨rfl, rfl, vs, holding_eq_trans_iff.mpr hc⟩, rfl⟩
    next => exact absurd hex (by simp)
  | finish =>
    simp only [Node.exec] at hex
    split at hex
    next t hc =>
      rw [Option.ite_none_right_eq_some, Option.some_inj, Prod.mk.injEq, Option.some_inj] at hex
      obtain ⟨hcomm, rfl, rfl⟩ := hex
      obtain ⟨owner, vs, phase⟩ := t
      obtain ⟨rfl, rfl⟩ : owner = _ ∧ phase = _ := hcomm
      obtain ⟨-, -, hl, -⟩ := hN.crit_peer _ _ _ hc
      refine ⟨serves_endTrans hN hc, ⟨rfl, ?_⟩, rfl⟩
      rw [holding_of_crit_none rfl, if_neg]
      simp [Node.endTrans, hl]
    next => exact absurd hex (by simp)
  | close =>
    simp only [Node.exec, Option.some_inj, Prod.mk.injEq] at hex
    obtain ⟨rfl, rfl⟩ := hex
    exact ⟨serves_closed hN, ⟨rfl, holding_closed_self a N⟩, rfl⟩

/-- The only call that waits for the other daemon after it has taken effect is the commit. -/
theorem exec_pending {c : Call} {N' : Node D} (hex : N.exec C a p tvals c = some (none, N')) :
    c = .commit ∧ ∃ vs, N.crit = some ⟨.peer a, vs, .prepared⟩ ∧
      N' = N.write C p ⟨.peer a, vs, .prepared⟩ := by
  cases c with
  | commit =>
    simp only [Node.exec] at hex
    split at hex
    next t hc =>
      split_ifs at hex with hprep hcomm
      · rw [Option.some_inj, Prod.mk.injEq] at hex
        obtain ⟨owner, vs, phase⟩ := t
        obtain ⟨rfl, rfl⟩ : owner = _ ∧ phase = _ := hprep
        exact ⟨rfl, vs, hc, hex.2.symm⟩
      · exact absurd hex (by simp)
    next => exact absurd hex (by simp)
  | lock => simp only [Node.exec] at hex; split_ifs at hex <;> exact absurd hex (by simp)
  | prepare =>
    simp only [Node.exec] at hex
    split at hex
    next => split_ifs at hex <;> exact absurd hex (by simp)
    next => exact absurd hex (by simp)
  | validate =>
    simp only [Node.exec] at hex
    split at hex
    next => split_ifs at hex; exact absurd hex (by simp)
    next => exact absurd hex (by simp)
  | finish =>
    simp only [Node.exec] at hex
    split at hex
    next => split_ifs at hex; exact absurd hex (by simp)
    next => exact absurd hex (by simp)
  | _ => exact absurd hex (by simp [Node.exec])

end Calls

end ConfdDemos.Aasync
