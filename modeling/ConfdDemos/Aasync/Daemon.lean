import ConfdDemos.Aasync.NodeList

/-!
# The daemon: lock and transaction callbacks, and the subscriber's control flow

Two independent parts of `aasync.c` meet in one global flag. The lock and transaction callbacks
raise and clear `aasync_usr`; the CDB subscriber reads it to tell a change made by an operator from
a change replicated by a peer.

## Control flow without an environment

The handlers of `CDB_SUB_PREPARE`, `CDB_SUB_COMMIT` and `CDB_SUB_ABORT` are loops over the member
list whose bodies are MAAPI calls to one peer. `Phase` is a program point of these handlers: the
call about to be made, the peer it goes to, and the rest of the list. `Phase.next` is what the code
does with the result of the call. Nothing here says what a call does to a peer: the replication of
one transaction and the cluster of many daemons supply that separately and share this control flow.
-/

namespace ConfdDemos.Aasync

/-! ## Users -/

/-- `sprintf(progname, "aasync%d", local_nodeid)`. -/
def progname (localNodeid : ℤ) : List Char :=
  "aasync".toList ++ (toString localNodeid).toList

/-- `strncmp(a, b, n) == 0` for strings without a terminating zero inside. -/
def strncmpEq (a b : List Char) (n : ℕ) : Bool := a.take n == b.take n

/-- `strncmp(username, progname, 6) == 0`, the test all three callbacks make. -/
def aasyncUser (localNodeid : ℤ) (username : List Char) : Bool :=
  strncmpEq username (progname localNodeid) 6

/-- The test asks whether the user name starts with `aasync`, whatever the local node id is. -/
theorem aasyncUser_iff {localNodeid : ℤ} {username : List Char} :
    aasyncUser localNodeid username = true ↔ "aasync".toList <+: username := by
  have hprog : (progname localNodeid).take 6 = "aasync".toList := by
    have hlen : "aasync".toList.length = 6 := by simp
    have htake : (progname localNodeid).take "aasync".toList.length = "aasync".toList :=
      List.take_left
    rwa [hlen] at htake
  rw [aasyncUser, strncmpEq, hprog, beq_iff_eq, List.prefix_iff_eq_take]
  exact eq_comm

/-- Every daemon's own user name passes the test on every node. -/
theorem aasyncUser_progname (localNodeid peer : ℤ) :
    aasyncUser localNodeid (progname peer) = true :=
  aasyncUser_iff.mpr ⟨_, rfl⟩

/-! ## Callbacks -/

/-- `enum confd_dbname`. -/
inductive DbName
  | noDb
  | candidate
  | running
  | startup
  | operational
  | transaction
  | preCommitRunning
  deriving DecidableEq, Repr

/-- `global_lock`: the new value of `aasync_usr` when a session has been granted a lock. -/
def globalLock (localNodeid : ℤ) (username : List Char) (dbname : DbName) (aasyncUsr : Bool) :
    Bool :=
  if aasyncUser localNodeid username && decide (dbname = .running) then true else aasyncUsr

/-- `t_lock`: whether the callback releases the session's lock on `CONFD_RUNNING`. -/
def tLock (localNodeid : ℤ) (username : List Char) : Bool := aasyncUser localNodeid username

/-- `t_finish`: the new value of `aasync_usr` when a transaction ends. -/
def tFinish (localNodeid : ℤ) (username : List Char) (aasyncUsr : Bool) : Bool :=
  if aasyncUser localNodeid username then false else aasyncUsr

/-! ## Program points of the subscriber -/

/-- `NUM_LOCK_RETRIES`. -/
def numLockRetries : ℕ := 2

/-- The calls of the `CDB_SUB_PREPARE` handler; a lock attempt carries the retry counter `i`. -/
inductive PrepareStep
  | socket
  | session
  | lock (i : ℕ)
  | startTrans
  | setValues
  | validate
  | prepare
  deriving DecidableEq, Repr

/-- The calls of the `CDB_SUB_COMMIT` handler. -/
inductive CommitStep
  | commit
  | finish
  | close
  deriving DecidableEq, Repr

/-- How far the daemon is with the transaction its node is committing. In the running loops `node`
is the peer of the current call and `rest` is what the loop has not visited yet. -/
inductive Phase (ν : Type*)
  /-- The transaction holds the transaction lock; the subscriber has not been told yet. -/
  | validated
  /-- Inside `CDB_SUB_PREPARE`. -/
  | preparing (step : PrepareStep) (node : ν) (rest : List ν)
  /-- Inside the closing loop at `abort_local_trans`. -/
  | aborting (node : ν) (rest : List ν)
  /-- `cdb_sub_abort_trans` has been called. -/
  | refused
  /-- `CDB_SUB_PREPARE` has been acknowledged. -/
  | prepared
  /-- Inside `CDB_SUB_ABORT`. -/
  | cancelling (node : ν) (rest : List ν)
  /-- `CDB_SUB_ABORT` has been acknowledged. -/
  | cancelled
  /-- Inside the two loops of `CDB_SUB_COMMIT`. -/
  | committing (step : CommitStep) (node : ν) (rest : List ν)
  /-- `CDB_SUB_COMMIT` past its loops, before the member list is updated. -/
  | settling
  /-- `CDB_SUB_COMMIT` has been acknowledged. -/
  | committed
  deriving DecidableEq, Repr

/-- The MAAPI calls to a peer. -/
inductive Call
  | socket
  | session
  | lock
  | startTrans
  | setValues
  | validate
  | prepare
  | commit
  | finish
  | close
  deriving DecidableEq, Repr

/-- The call a prepare step makes. -/
def PrepareStep.call : PrepareStep → Call
  | .socket => .socket
  | .session => .session
  | .lock _ => .lock
  | .startTrans => .startTrans
  | .setValues => .setValues
  | .validate => .validate
  | .prepare => .prepare

/-- The call a commit step makes. -/
def CommitStep.call : CommitStep → Call
  | .commit => .commit
  | .finish => .finish
  | .close => .close

section ControlFlow

variable {ν : Type*} (isLocal : ν → Bool) (nodes : List ν)

/-- `for (node = …; node != NULL; node = node->next) if (node->nodeid != local_nodeid)`: the next
cell the body runs for, and the cells after it. -/
def nextPeer : List ν → Option (ν × List ν)
  | [] => none
  | n :: rest => if isLocal n then nextPeer rest else some (n, rest)

/-- Continue a loop at the next peer, or go on behind it. -/
def loopFrom (body : ν → List ν → Phase ν) (after : Phase ν) (l : List ν) : Phase ν :=
  match nextPeer isLocal l with
  | some (n, rest) => body n rest
  | none => after

/-- The third loop of `CDB_SUB_PREPARE`. -/
def prepareLoop (l : List ν) : Phase ν := loopFrom isLocal (.preparing .prepare) .prepared l

/-- The second loop, with the third behind it. -/
def writeLoop (l : List ν) : Phase ν :=
  loopFrom isLocal (.preparing .startTrans) (prepareLoop isLocal nodes) l

/-- The first loop, with the second behind it. -/
def lockLoop (l : List ν) : Phase ν :=
  loopFrom isLocal (.preparing .socket) (writeLoop isLocal nodes nodes) l

/-- `abort_local_trans`: close every peer, opened in this round or not. -/
def abortLoop (l : List ν) : Phase ν := loopFrom isLocal .aborting .refused l

/-- The closing loop of `CDB_SUB_COMMIT`. -/
def closeLoop (l : List ν) : Phase ν := loopFrom isLocal (.committing .close) .settling l

/-- The committing loop of `CDB_SUB_COMMIT`, with the closing loop behind it. -/
def commitLoop (l : List ν) : Phase ν :=
  loopFrom isLocal (.committing .commit) (closeLoop isLocal nodes) l

/-- The closing loop of `CDB_SUB_ABORT`. -/
def cancelLoop (l : List ν) : Phase ν := loopFrom isLocal .cancelling .cancelled l

/-- Entry of `CDB_SUB_PREPARE`: the new `nvals`, and where the handler goes. -/
def subPrepare (aasyncUsr : Bool) (tvals : List TagValue) : ℕ × Phase ν :=
  if aasyncUsr then (0, .prepared)
  else (tvals.length, if tvals.length = 0 then .prepared else lockLoop isLocal nodes nodes)

/-- Entry of `CDB_SUB_COMMIT`: `nvals` is the one the last `CDB_SUB_PREPARE` left. -/
def subCommit (aasyncUsr : Bool) (nvals : ℕ) : Phase ν :=
  if nvals > 0 && !aasyncUsr then commitLoop isLocal nodes nodes else .settling

/-- Entry of `CDB_SUB_ABORT`. -/
def subAbort : Phase ν := cancelLoop isLocal nodes

/-- The call made at a program point, and the peer it goes to. -/
def Phase.call : Phase ν → Option (Call × ν)
  | .preparing step n _ => some (step.call, n)
  | .aborting n _ => some (.close, n)
  | .cancelling n _ => some (.close, n)
  | .committing step n _ => some (step.call, n)
  | _ => none

/-- Where `CDB_SUB_PREPARE` goes after a call that succeeded. -/
def PrepareStep.onOk (step : PrepareStep) (n : ν) (rest : List ν) : Phase ν :=
  match step with
  | .socket => .preparing .session n rest
  | .session => .preparing (.lock 0) n rest
  | .lock _ => lockLoop isLocal nodes rest
  | .startTrans => .preparing .setValues n rest
  | .setValues => .preparing .validate n rest
  | .validate => writeLoop isLocal nodes rest
  | .prepare => prepareLoop isLocal rest

/-- Where it goes after a call that failed: a lock is retried, anything else aborts. -/
def PrepareStep.onErr (step : PrepareStep) (n : ν) (rest : List ν) : Phase ν :=
  match step with
  | .lock i =>
    if i = numLockRetries then abortLoop isLocal nodes else .preparing (.lock (i + 1)) n rest
  | _ => abortLoop isLocal nodes

/-- What the code does with the result of the current call. The commit and closing loops ignore
it. -/
def Phase.next (ok : Bool) : Phase ν → Phase ν
  | .preparing step n rest =>
    if ok then step.onOk isLocal nodes n rest else step.onErr isLocal nodes n rest
  | .aborting _ rest => abortLoop isLocal rest
  | .cancelling _ rest => cancelLoop isLocal rest
  | .committing .commit n rest => .committing .finish n rest
  | .committing .finish _ rest => commitLoop isLocal nodes rest
  | .committing .close _ rest => closeLoop isLocal rest
  | p => p

end ControlFlow

/-! ## Loops over the member list -/

section Loops

variable {ν : Type*} {isLocal : ν → Bool} {l rest : List ν} {n m : ν}

/-- A loop that has no next peer has passed every peer of its list. -/
theorem isLocal_of_nextPeer_none (h : nextPeer isLocal l = none) (hm : m ∈ l) :
    isLocal m = true := by
  induction l with
  | nil => exact absurd hm (by simp)
  | cons a l ih =>
    rw [nextPeer] at h
    split_ifs at h with ha
    rcases List.mem_cons.mp hm with rfl | hm'
    · exact ha
    · exact ih h hm'

/-- The next peer is not local, heads a suffix of the list, and only local cells were skipped. -/
theorem nextPeer_some (h : nextPeer isLocal l = some (n, rest)) :
    isLocal n = false ∧ n :: rest <:+ l ∧ ∀ m ∈ l, isLocal m = false → m = n ∨ m ∈ rest := by
  induction l with
  | nil => rw [nextPeer] at h; exact absurd h (by simp)
  | cons a l ih =>
    rw [nextPeer] at h
    split_ifs at h with ha
    · obtain ⟨h1, h2, h3⟩ := ih h
      refine ⟨h1, h2.trans (List.suffix_cons a l), ?_⟩
      intro m hm hloc
      rcases List.mem_cons.mp hm with rfl | hm'
      · rw [ha] at hloc; exact absurd hloc (by simp)
      · exact h3 m hm' hloc
    · rw [Option.some_inj, Prod.mk.injEq] at h
      obtain ⟨rfl, rfl⟩ := h
      refine ⟨by simpa using ha, List.suffix_refl _, ?_⟩
      intro m hm _
      exact List.mem_cons.mp hm

/-- A loop visits a peer of its list now or later. -/
theorem mem_iff_of_nextPeer (h : nextPeer isLocal l = some (n, rest)) (hm : isLocal m = false) :
    m ∈ l ↔ m = n ∨ m ∈ rest := by
  obtain ⟨-, hsuf, hall⟩ := nextPeer_some h
  refine ⟨fun hl ↦ hall m hl hm, fun h' ↦ hsuf.subset ?_⟩
  exact List.mem_cons.mpr h'

theorem notMem_of_nextPeer_none (h : nextPeer isLocal l = none) (hm : isLocal m = false) :
    m ∉ l := by
  intro hl
  have := isLocal_of_nextPeer_none h hl
  rw [hm] at this
  exact absurd this (by simp)

/-- The loop rule: what holds at the body for the next peer, and behind the loop when there is
none, holds of the phase the loop continues with. -/
theorem loopFrom_rule {body : ν → List ν → Phase ν} {after : Phase ν} {Q : Phase ν → Prop}
    (hbody : ∀ n rest, nextPeer isLocal l = some (n, rest) → Q (body n rest))
    (hafter : nextPeer isLocal l = none → Q after) : Q (loopFrom isLocal body after l) := by
  rw [loopFrom]
  cases h : nextPeer isLocal l with
  | none => exact hafter h
  | some p => exact hbody p.1 p.2 h

end Loops

end ConfdDemos.Aasync
