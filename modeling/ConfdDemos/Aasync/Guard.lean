import ConfdDemos.Aasync.Daemon
import ConfdDemos.Foundation.Machine

/-!
# The replication guard of one node

`aasync_usr` is meant to say whose transaction the subscriber is looking at: it is raised when a
peer takes the lock on the running datastore and cleared when a peer's transaction ends. Between
these two callbacks lie a lock that `t_lock` gives up early and a session that may be closed at any
moment, and closing runs no callback.

## The sessions

The node is a machine whose events are what any number of sessions do to it. A lock is granted when
no other session holds it, and a transaction enters validation when no other one is between its
`trans_lock` and its end and nobody else holds the lock; nothing further is assumed about the order.
`started` keeps one entry for each transaction that has been started and has not been validated.

## What the flag means

In an orderly run the flag is up exactly while a peer holds the lock or the transaction lock
(`GuardInv.usr_iff`). An operator's transaction is validated only when neither is the case, which is
the accuracy of the guard. A peer that is closed while it holds either leaves the flag up.
-/

namespace ConfdDemos.Aasync

/-- A user session on the node. -/
structure Session where
  usid : ℕ
  username : List Char
  deriving DecidableEq, Repr

/-- What the subscriber has been told about the transaction that holds the transaction lock. The
value of `aasync_usr` that `CDB_SUB_PREPARE` tested is kept for comparison. -/
inductive Stage
  | validated
  | prepared (tested : Bool)
  | committed
  | aborted
  deriving DecidableEq, Repr

structure GuardState where
  aasyncUsr : Bool
  /-- The holder of each global lock. -/
  lock : DbName → Option Session
  started : List Session
  /-- The session whose transaction is between its `trans_lock` and its end. -/
  crit : Option (Session × Stage)

def GuardState.init : GuardState := ⟨false, fun _ ↦ none, [], none⟩

inductive GuardEvent
  | lock (c : Session) (db : DbName)
  | unlock (c : Session) (db : DbName)
  | close (c : Session)
  | start (c : Session)
  | validate (c : Session)
  | subPrepare
  | subCommit
  | subAbort
  | finish
  | finishStarted (c : Session)
  deriving DecidableEq, Repr

/-- The lock table after a session gave up one lock. -/
def release (lock : DbName → Option Session) (c : Session) (db : DbName) :
    DbName → Option Session :=
  fun d ↦ if d = db ∧ lock d = some c then none else lock d

section Step

variable (localNodeid : ℤ)

/-- The session's user name starts with `aasync`. -/
def Session.aasync (c : Session) : Bool := aasyncUser localNodeid c.username

def guardStep (s : GuardState) : GuardEvent → Option GuardState
  | .lock c db =>
    if s.lock db = none then
      some { s with
        aasyncUsr := globalLock localNodeid c.username db s.aasyncUsr
        lock := fun d ↦ if d = db then some c else s.lock d }
    else none
  | .unlock c db =>
    if s.lock db = some c then some { s with lock := release s.lock c db } else none
  | .close c =>
    -- no callback runs: the flag keeps its value
    some { s with
      lock := fun d ↦ if s.lock d = some c then none else s.lock d
      started := s.started.filter (· ≠ c)
      crit := s.crit.filter fun t ↦ t.1 ≠ c }
  | .start c => some { s with started := c :: s.started }
  | .validate c =>
    if c ∈ s.started ∧ s.crit = none ∧ (s.lock .running = none ∨ s.lock .running = some c) then
      some { s with
        started := s.started.erase c
        crit := some (c, .validated)
        lock := if tLock localNodeid c.username then release s.lock c .running else s.lock }
    else none
  | .subPrepare =>
    match s.crit with
    | some (c, .validated) => some { s with crit := some (c, .prepared s.aasyncUsr) }
    | _ => none
  | .subCommit =>
    match s.crit with
    | some (c, .prepared _) => some { s with crit := some (c, .committed) }
    | _ => none
  | .subAbort =>
    match s.crit with
    | some (c, .prepared _) => some { s with crit := some (c, .aborted) }
    | _ => none
  | .finish =>
    match s.crit with
    | some (c, _) =>
      some { s with aasyncUsr := tFinish localNodeid c.username s.aasyncUsr, crit := none }
    | none => none
  | .finishStarted c =>
    if c ∈ s.started then
      some { s with
        aasyncUsr := tFinish localNodeid c.username s.aasyncUsr
        started := s.started.erase c }
    else none

/-- The callbacks and subscriber events of one node under any number of sessions. -/
def guardMachine : Machine GuardState GuardEvent := ⟨guardStep localNodeid⟩

/-! ## Accuracy -/

/-- What is asked of the flag when a subscriber event is handled: at `CDB_SUB_PREPARE` the test
`if(aasync_usr)` singles out the peers, and `CDB_SUB_COMMIT` sees the value `CDB_SUB_PREPARE` saw.
-/
def GuardAccurate (s : GuardState) : GuardEvent → Prop
  | .subPrepare => ∀ c, s.crit = some (c, .validated) →
      (s.aasyncUsr = true ↔ "aasync".toList <+: c.username)
  | .subCommit => ∀ c tested, s.crit = some (c, .prepared tested) → s.aasyncUsr = tested
  | _ => True

/-- The events of an orderly run: a peer takes the lock while no transaction is in progress,
validates under its own lock, and neither unlocks nor closes before its transaction has ended. -/
def Orderly (s : GuardState) : GuardEvent → Prop
  | .lock c db => c.aasync localNodeid = true → db = .running → s.crit = none
  | .unlock c db => c.aasync localNodeid = true → db ≠ .running
  | .close c => c.aasync localNodeid = true →
      s.lock .running ≠ some c ∧ s.crit.map Prod.fst ≠ some c
  | .validate c => c.aasync localNodeid = true → s.lock .running = some c
  | .finishStarted c => c.aasync localNodeid = true → s.aasyncUsr = false
  | _ => True

/-- The flag is up exactly while a peer holds the lock or the transaction lock, never both. -/
structure GuardInv (s : GuardState) : Prop where
  usr_iff : s.aasyncUsr = true ↔
    (∃ c, s.lock .running = some c ∧ c.aasync localNodeid = true) ∨
      ∃ c st, s.crit = some (c, st) ∧ c.aasync localNodeid = true
  excl : ∀ c, s.lock .running = some c → c.aasync localNodeid = true → s.crit = none
  tested_eq : ∀ c tested, s.crit = some (c, .prepared tested) →
    tested = c.aasync localNodeid

end Step

variable {localNodeid : ℤ} {s s' : GuardState}

theorem guardInv_init : GuardInv localNodeid .init where
  usr_iff := by simp [GuardState.init]
  excl := by simp [GuardState.init]
  tested_eq := by simp [GuardState.init]

/-- While a transaction holds the transaction lock the flag says whether its owner is a peer. -/
theorem GuardInv.usr_eq_of_crit (hi : GuardInv localNodeid s) {c : Session} {st : Stage}
    (hc : s.crit = some (c, st)) : s.aasyncUsr = c.aasync localNodeid := by
  rw [Bool.eq_iff_iff, hi.usr_iff]
  constructor
  · rintro (⟨c', hl, ha⟩ | ⟨c', st', hc', ha⟩)
    · rw [hi.excl c' hl ha] at hc
      exact absurd hc (by simp)
    · rw [hc, Option.some_inj, Prod.mk.injEq] at hc'
      rw [hc'.1]
      exact ha
  · intro ha
    exact Or.inr ⟨c, st, hc, ha⟩

/-- A subscriber event changes only what the subscriber has been told. -/
theorem GuardInv.of_stage (hi : GuardInv localNodeid s) {c : Session} {st st' : Stage}
    (hc : s.crit = some (c, st))
    (htested : ∀ tested, st' = .prepared tested → tested = c.aasync localNodeid) :
    GuardInv localNodeid { s with crit := some (c, st') } where
  usr_iff := by
    have husr := hi.usr_eq_of_crit hc
    refine ⟨fun h ↦ Or.inr ⟨c, st', rfl, husr ▸ h⟩, ?_⟩
    rintro (⟨c', hl, ha⟩ | ⟨c', st'', hc', ha⟩)
    · rw [hi.excl c' hl ha] at hc
      exact absurd hc (by simp)
    · simp only [Option.some_inj, Prod.mk.injEq] at hc'
      rw [husr, hc'.1]
      exact ha
  excl := by
    intro c' hl ha
    rw [hi.excl c' hl ha] at hc
    exact absurd hc (by simp)
  tested_eq := by
    intro c' tested h
    simp only [Option.some_inj, Prod.mk.injEq] at h
    obtain ⟨rfl, hst⟩ := h
    exact htested tested hst

/-! ## One event -/

/-- The invariant reads the flag, the running lock and the transaction lock, nothing else. -/
theorem GuardInv.congr (hi : GuardInv localNodeid s) (husr : s'.aasyncUsr = s.aasyncUsr)
    (hlock : s'.lock .running = s.lock .running) (hcrit : s'.crit = s.crit) :
    GuardInv localNodeid s' where
  usr_iff := by rw [husr, hlock, hcrit]; exact hi.usr_iff
  excl := by rw [hlock, hcrit]; exact hi.excl
  tested_eq := by rw [hcrit]; exact hi.tested_eq

theorem guardInv_lock {c : Session} {db : DbName} (hi : GuardInv localNodeid s)
    (ho : Orderly localNodeid s (.lock c db))
    (hs : guardStep localNodeid s (.lock c db) = some s') : GuardInv localNodeid s' := by
  simp only [guardStep, Option.ite_none_right_eq_some, Option.some_inj] at hs
  obtain ⟨hfree, rfl⟩ := hs
  by_cases hdb : db = .running
  · subst hdb
    by_cases ha : c.aasync localNodeid = true
    · -- a peer's lock raises the flag, and no transaction is in its critical section yet
      have hcrit : s.crit = none := ho ha rfl
      have hup : globalLock localNodeid c.username .running s.aasyncUsr = true := by
        rw [Session.aasync] at ha
        simp [globalLock, ha]
      exact ⟨by simp [hup, ha], fun _ _ _ ↦ hcrit, by simp [hcrit]⟩
    · -- an operator's lock neither moves the flag nor counts as a peer's
      have hkeep : globalLock localNodeid c.username .running s.aasyncUsr = s.aasyncUsr := by
        rw [Session.aasync] at ha
        simp [globalLock, ha]
      have hno : (∃ c', some c = some c' ∧ c'.aasync localNodeid = true) ↔
          ∃ c', s.lock .running = some c' ∧ c'.aasync localNodeid = true := by
        simp [hfree, ha]
      refine ⟨?_, ?_, hi.tested_eq⟩
      · simp only [hkeep, if_true]
        rw [hi.usr_iff, hno]
      · intro c' hc' ha'
        simp only [if_true, Option.some_inj] at hc'
        subst hc'
        exact absurd ha' ha
  · refine hi.congr ?_ ?_ rfl
    · simp [globalLock, hdb]
    · simp [Ne.symm hdb]

theorem guardInv_unlock {c : Session} {db : DbName} (hi : GuardInv localNodeid s)
    (ho : Orderly localNodeid s (.unlock c db))
    (hs : guardStep localNodeid s (.unlock c db) = some s') : GuardInv localNodeid s' := by
  simp only [guardStep, Option.ite_none_right_eq_some, Option.some_inj] at hs
  obtain ⟨hheld, rfl⟩ := hs
  by_cases hdb : db = .running
  · subst hdb
    have ha : ¬c.aasync localNodeid = true := fun ha ↦ ho ha rfl
    have hgone : release s.lock c .running .running = none := by simp [release, hheld]
    refine ⟨?_, ?_, hi.tested_eq⟩
    · simp only [hi.usr_iff, hgone, hheld]
      simp [ha]
    · intro c' hc' _
      exact absurd (hgone.symm.trans hc') (by simp)
  · exact hi.congr rfl (by simp [release, Ne.symm hdb]) rfl

theorem guardInv_close {c : Session} (hi : GuardInv localNodeid s)
    (ho : Orderly localNodeid s (.close c))
    (hs : guardStep localNodeid s (.close c) = some s') : GuardInv localNodeid s' := by
  rw [guardStep, Option.some_inj] at hs
  subst hs
  by_cases ha : c.aasync localNodeid = true
  · -- an orderly peer closes its session with nothing left open
    obtain ⟨hlock, hcrit⟩ := ho ha
    refine hi.congr rfl (if_neg hlock) ?_
    cases hc : s.crit with
    | none => rw [Option.filter_none]
    | some t =>
      have hne : t.1 ≠ c := fun h ↦ hcrit (by rw [hc, Option.map_some, h])
      simp [Option.filter_some, hne]
  · -- what an operator held was no reason for the flag to be up
    have hlock : (∃ c', (if s.lock .running = some c then none else s.lock .running) = some c' ∧
        c'.aasync localNodeid = true) ↔
          ∃ c', s.lock .running = some c' ∧ c'.aasync localNodeid = true := by
      by_cases hl : s.lock .running = some c
      · simp [hl, ha]
      · simp [hl]
    have hcrit : (∃ c' st, s.crit.filter (fun t ↦ t.1 ≠ c) = some (c', st) ∧
        c'.aasync localNodeid = true) ↔
          ∃ c' st, s.crit = some (c', st) ∧ c'.aasync localNodeid = true := by
      simp only [Option.filter_eq_some_iff]
      constructor
      · rintro ⟨c', st, ⟨h, -⟩, ha'⟩
        exact ⟨c', st, h, ha'⟩
      · rintro ⟨c', st, h, ha'⟩
        refine ⟨c', st, ⟨h, ?_⟩, ha'⟩
        simp only [ne_eq, decide_not, Bool.not_eq_true', decide_eq_false_iff_not]
        rintro rfl
        exact ha ha'
    refine ⟨?_, ?_, ?_⟩
    · rw [hi.usr_iff, hlock, hcrit]
    · intro c' hc' ha'
      have hl : s.lock .running = some c' := by
        simp only [Option.ite_none_left_eq_some] at hc'
        exact hc'.2
      simp [hi.excl c' hl ha']
    · intro c' tested h
      rw [Option.filter_eq_some_iff] at h
      exact hi.tested_eq c' tested h.1

theorem guardInv_validate {c : Session} (hi : GuardInv localNodeid s)
    (ho : Orderly localNodeid s (.validate c))
    (hs : guardStep localNodeid s (.validate c) = some s') : GuardInv localNodeid s' := by
  simp only [guardStep, Option.ite_none_right_eq_some, Option.some_inj] at hs
  obtain ⟨⟨-, hcrit, hfree⟩, rfl⟩ := hs
  by_cases ha : c.aasync localNodeid = true
  · -- the lock is handed over to the transaction, so the flag stays up
    have hlock : s.lock .running = some c := ho ha
    have hup : s.aasyncUsr = true := hi.usr_iff.mpr (Or.inl ⟨c, hlock, ha⟩)
    have hgone : (if tLock localNodeid c.username then release s.lock c .running else s.lock)
        .running = none := by
      rw [Session.aasync] at ha
      simp [tLock, ha, release, hlock]
    refine ⟨?_, ?_, by simp⟩
    · simp only [hup, true_iff]
      exact Or.inr ⟨c, .validated, rfl, ha⟩
    · intro c' hc' _
      exact absurd (hgone.symm.trans hc') (by simp)
  · -- no peer holds anything at this point, so the flag is down
    have hno : ∀ c', s.lock .running = some c' → ¬c'.aasync localNodeid = true := by
      intro c' hc'
      rcases hfree with h | h
      · rw [h] at hc'; exact absurd hc' (by simp)
      · rw [h, Option.some_inj] at hc'; exact hc' ▸ ha
    have hdown : ¬s.aasyncUsr = true := by
      rw [hi.usr_iff, hcrit]
      rintro (⟨c', hl, ha'⟩ | ⟨c', st, h, -⟩)
      · exact hno c' hl ha'
      · exact absurd h (by simp)
    have hkeep : (if tLock localNodeid c.username then release s.lock c .running else s.lock)
        = s.lock := by
      rw [Session.aasync] at ha
      simp [tLock, ha]
    refine ⟨?_, ?_, by simp⟩
    · simp only [hkeep]
      refine ⟨fun h ↦ absurd h hdown, ?_⟩
      rintro (⟨c', hl, ha'⟩ | ⟨c', st, h, ha'⟩)
      · exact absurd ha' (hno c' hl)
      · simp only [Option.some_inj, Prod.mk.injEq] at h
        exact absurd (h.1 ▸ ha') ha
    · intro c' hc' ha'
      simp only [hkeep] at hc'
      exact absurd ha' (hno c' hc')

theorem guardInv_finish {s' : GuardState} (hi : GuardInv localNodeid s)
    (hs : guardStep localNodeid s .finish = some s') : GuardInv localNodeid s' := by
  rw [guardStep] at hs
  split at hs
  case h_2 => exact absurd hs (by simp)
  case h_1 c st hc =>
    rw [Option.some_inj] at hs
    subst hs
    have hno : ∀ c', s.lock .running = some c' → ¬c'.aasync localNodeid = true := by
      intro c' hl ha
      rw [hi.excl c' hl ha] at hc
      exact absurd hc (by simp)
    have hdown : tFinish localNodeid c.username s.aasyncUsr = false := by
      have husr := hi.usr_eq_of_crit hc
      rw [Session.aasync] at husr
      rw [tFinish, husr]
      cases aasyncUser localNodeid c.username <;> rfl
    refine ⟨?_, fun _ _ _ ↦ rfl, by simp⟩
    simp only [hdown, Bool.false_eq_true, false_iff]
    rintro (⟨c', hl, ha⟩ | ⟨c', st', h, -⟩)
    · exact hno c' hl ha
    · exact absurd h (by simp)

theorem guardInv_finishStarted {c : Session} (hi : GuardInv localNodeid s)
    (ho : Orderly localNodeid s (.finishStarted c))
    (hs : guardStep localNodeid s (.finishStarted c) = some s') : GuardInv localNodeid s' := by
  simp only [guardStep, Option.ite_none_right_eq_some, Option.some_inj] at hs
  obtain ⟨-, rfl⟩ := hs
  refine hi.congr ?_ rfl rfl
  rw [tFinish]
  by_cases ha : c.aasync localNodeid = true
  · rw [ho ha, ite_self]
  · rw [Session.aasync] at ha
    rw [if_neg ha]

/-- **One step.** Every orderly event keeps the meaning of the flag. -/
theorem guardInv_step {e : GuardEvent} (hi : GuardInv localNodeid s)
    (ho : Orderly localNodeid s e) (hs : guardStep localNodeid s e = some s') :
    GuardInv localNodeid s' := by
  cases e with
  | lock c db => exact guardInv_lock hi ho hs
  | unlock c db => exact guardInv_unlock hi ho hs
  | close c => exact guardInv_close hi ho hs
  | start c =>
    rw [guardStep, Option.some_inj] at hs
    subst hs
    exact hi.congr rfl rfl rfl
  | validate c => exact guardInv_validate hi ho hs
  | subPrepare =>
    rw [guardStep] at hs
    split at hs
    case h_1 c hc =>
      rw [Option.some_inj] at hs
      subst hs
      -- the flag that is tested in `PREPARE` is the one of the transaction in the critical section
      refine hi.of_stage hc fun tested h ↦ ?_
      rw [Stage.prepared.injEq] at h
      rw [← h, hi.usr_eq_of_crit hc]
    case h_2 => exact absurd hs (by simp)
  | subCommit =>
    rw [guardStep] at hs
    split at hs
    case h_1 c tested hc =>
      rw [Option.some_inj] at hs
      subst hs
      exact hi.of_stage hc (by simp)
    case h_2 => exact absurd hs (by simp)
  | subAbort =>
    rw [guardStep] at hs
    split at hs
    case h_1 c tested hc =>
      rw [Option.some_inj] at hs
      subst hs
      exact hi.of_stage hc (by simp)
    case h_2 => exact absurd hs (by simp)
  | finish => exact guardInv_finish hi hs
  | finishStarted c => exact guardInv_finishStarted hi ho hs

/-! ## Every run -/

/-- **The guard in orderly runs.** Whenever a subscriber event is handled, the flag singles out the
peers' transactions and has the value it had when the transaction was prepared. -/
theorem guardAccurate_of_orderly (localNodeid : ℤ) (s : GuardState) (e : GuardEvent)
    (h : (guardMachine localNodeid).Reach (Orderly localNodeid) .init s) : GuardAccurate s e := by
  have hi : GuardInv localNodeid s :=
    h.invariant guardInv_init fun _ _ _ hi ho hs ↦ guardInv_step hi ho hs
  cases e with
  | subPrepare =>
    intro c hc
    rw [hi.usr_eq_of_crit hc, Session.aasync, aasyncUser_iff]
  | subCommit =>
    intro c tested hc
    rw [hi.usr_eq_of_crit hc, hi.tested_eq c tested hc]
  | _ => exact trivial

/-! ## Concrete runs -/

instance (s : GuardState) (e : GuardEvent) : Decidable (Orderly localNodeid s e) := by
  cases e <;> unfold Orderly <;> infer_instance

/-- A peer and an operator, as any node sees them. -/
def peerSession : Session := ⟨1, "aasync1".toList⟩

def operatorSession : Session := ⟨2, "admin".toList⟩

/-- The peer replicates a transaction, and the operator then gets as far as validation. -/
def orderlyRun : List GuardEvent :=
  [.lock peerSession .running, .start peerSession, .validate peerSession, .subPrepare, .subCommit,
    .finish, .close peerSession, .start operatorSession, .validate operatorSession]

theorem guardAccurate_orderlyRun : ∃ s,
    (guardMachine 0).Reach (Orderly 0) .init s ∧
      s.crit = some (operatorSession, .validated) ∧ GuardAccurate s .subPrepare := by
  have hrun : (((guardMachine 0).restrict (Orderly 0)).runFrom .init orderlyRun).any
      (fun s ↦ decide (s.crit = some (operatorSession, .validated))) = true := by decide
  obtain ⟨s, hs, hcrit⟩ := Machine.exists_reach_of_any hrun
  exact ⟨s, hs, of_decide_eq_true hcrit, guardAccurate_of_orderly 0 s .subPrepare hs⟩

/-- The peer gives up: it takes the lock and is closed before it starts a transaction. -/
def staleRun : List GuardEvent :=
  [.lock peerSession .running, .close peerSession, .start operatorSession,
    .validate operatorSession]

/-- **A stale flag.** After a peer that only took the lock, the guard takes the operator's own
transaction for a replicated one. -/
theorem not_guardAccurate_of_close : ¬∀ (localNodeid : ℤ) (s s' : GuardState) (e : GuardEvent),
    (guardMachine localNodeid).Reachable .init s → (guardMachine localNodeid).step s e = some s' →
      GuardAccurate s e := by
  intro h
  have hrun : (((guardMachine 0).restrict fun _ _ ↦ True).runFrom .init staleRun).any
      (fun s ↦ s.aasyncUsr && decide (s.crit = some (operatorSession, .validated))) = true := by
    decide
  obtain ⟨s, hs, htest⟩ := Machine.exists_reach_of_any hrun
  rw [Bool.and_eq_true, decide_eq_true_iff] at htest
  have hstep : (guardMachine 0).step s .subPrepare
      = some { s with crit := some (operatorSession, .prepared s.aasyncUsr) } := by
    simp [guardMachine, guardStep, htest.2]
  have hpre := (h 0 s _ .subPrepare hs hstep operatorSession htest.2).mp htest.1
  exact absurd hpre (by decide)

end ConfdDemos.Aasync
