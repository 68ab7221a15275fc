import Mathlib.Data.List.Infix
import Mathlib.Data.List.Basic
import Mathlib.Data.Int.Basic

/-!
# The two phases of the NETCONF synchronizer

`cdbl-sync-nc.py` subscribes once for every NETCONF server. On `SUB_PREPARE` it edits and validates
the candidate of every server that is concerned, then commits all of them with a confirmed commit;
on `SUB_COMMIT` it confirms and on `SUB_ABORT` it cancels. Every request is made by a child process
of its own, and the children report errors through one queue.

## Exceptions

A handler that reaches an attribute its object does not have raises, and nothing behind that point
runs. A child that raises only ends: it puts nothing into the queue, so its parent takes it for a
success. Both happen here, so a handler is modelled by what it leaves behind: the requests sent, the
calls made on the subscription socket, and the exception it ended with, if any.

The children of one phase run in parallel. The handlers only ask whether the queue is empty, so its
contents are listed in the order of the subscription ids.
-/

namespace ConfdDemos.SyncNc

/-! ## Requests and replies -/

/-- The messages sent to a NETCONF server; `editConfig` carries the modifications that
`process_modifications` renders. -/
inductive Request (τ : Type*)
  | editConfig (mods : List τ)
  | commit
  | confirm
  | cancel
  deriving DecidableEq, Repr

/-- The two outputs of `netconf-console`. -/
structure Reply where
  output : List Char
  errors : List Char
  deriving DecidableEq, Repr

/-- `reply.find('<rpc-error>') != -1 or errstr != ""`. -/
def Reply.failed (r : Reply) : Bool :=
  decide ("<rpc-error>".toList <:+: r.output) || decide (r.errors ≠ [])

/-- The exceptions the application can end with. -/
inductive PyError
  | attributeError (object name : List Char)
  | indexError
  | unboundLocalError (name : List Char)
  deriving DecidableEq, Repr

/-- What a child process leaves behind. -/
structure Child (τ : Type*) where
  /-- The server, by its position in the list, and the request it was sent. -/
  sent : Option (ℕ × Request τ) := none
  /-- The tuple put into the queue. -/
  put : Option Reply := none
  error : Option PyError := none

/-- The answers to `SUB_PREPARE`, `SUB_COMMIT` and `SUB_ABORT`. -/
inductive CdbCall
  | subAbortTrans (message : List Char)
  | syncSubscriptionSocket
  deriving DecidableEq, Repr

/-- What a handler leaves behind. -/
structure Effects (τ : Type*) where
  sent : List (ℕ × Request τ)
  calls : List CdbCall
  error : Option PyError := none

/-! ## Child processes -/

section Children

variable {τ : Type*} (servers : List ℤ) (reply : ℕ → Request τ → Reply)

/-- `for i in range(num): id = …; if id == sid: break`: the values of `i` and `id` after the loop,
which are unbound when the list is empty. -/
def scan (sid : ℤ) : ℕ → List ℤ → Option (ℕ × ℤ) → Option (ℕ × ℤ)
  | _, [], last => last
  | i, id :: rest, _ => if id = sid then some (i, id) else scan sid (i + 1) rest (some (i, id))

def sendNetconfOperation (op : Request τ) (sid : ℤ) : Child τ :=
  match scan sid 0 servers none with
  | none => { error := some (.unboundLocalError "id".toList) }
  | some (i, id) =>
    if id ≠ sid then {}
    else
      { sent := some (i, op)
        put := if (reply i op).failed then some (reply i op) else none }

/-- `modifications[1].ns` is evaluated before anything is sent. -/
def processModifications (modifications : List τ) (sid : ℤ) : Child τ :=
  if modifications.length < 2 then { error := some .indexError }
  else sendNetconfOperation servers reply (.editConfig modifications) sid

def commit (sid : ℤ) : Child τ := sendNetconfOperation servers reply .commit sid

/-- The call is written `send_netconf_operation(op, sid. q)`. -/
def cancelCommit (_sid : ℤ) : Child τ := { error := some (.attributeError "int".toList "q".toList) }

def confirmCommit (sid : ℤ) : Child τ := sendNetconfOperation servers reply .confirm sid

end Children

/-! ## Handlers -/

section Handlers

variable {τ : Type*} (servers : List ℤ) (reply : ℕ → Request τ → Reply)

/-- `list(q.queue)`: a `SimpleQueue` has no such attribute. -/
def queueAttribute : PyError := .attributeError "SimpleQueue".toList "queue".toList

/-- The children of the first phase: one for each subscription with modifications. -/
def editChildren (mods : ℤ → List τ) (sids : List ℤ) : List (Child τ) :=
  (sids.filter fun sid ↦ !(mods sid).isEmpty).map fun sid ↦
    processModifications servers reply (mods sid) sid

def handleSubPrepare (mods : ℤ → List τ) (sids : List ℤ) : Effects τ :=
  let edits := editChildren servers reply mods sids
  if edits.filterMap (·.put) ≠ [] then
    -- the message of `sub_abort_trans` is an argument, so the call is not reached
    { sent := edits.filterMap (·.sent), calls := [], error := some queueAttribute }
  else
    let commits := sids.map (commit servers reply)
    if commits.filterMap (·.put) ≠ [] then
      { sent := edits.filterMap (·.sent) ++ commits.filterMap (·.sent), calls := [],
        error := some queueAttribute }
    else
      { sent := edits.filterMap (·.sent) ++ commits.filterMap (·.sent),
        calls := [.syncSubscriptionSocket] }

/-- A handler of the second phase: run the children, report what is in the queue, and answer. -/
def handleEnd (child : ℤ → Child τ) (sids : List ℤ) : Effects τ :=
  let children := sids.map child
  if children.filterMap (·.put) ≠ [] then
    { sent := children.filterMap (·.sent), calls := [], error := some queueAttribute }
  else { sent := children.filterMap (·.sent), calls := [.syncSubscriptionSocket] }

def handleSubAbort (sids : List ℤ) : Effects τ := handleEnd cancelCommit sids

def handleSubCommit (sids : List ℤ) : Effects τ := handleEnd (confirmCommit servers reply) sids

/-- How ConfD ends the transaction after every subscriber has answered. -/
inductive Ending
  | subCommit
  | subAbort
  deriving DecidableEq, Repr

/-- The requests of a whole transaction. An exception in the first handler ends the application, so
no second notification is read. -/
def transactionSent (mods : ℤ → List τ) (sids : List ℤ) (ending : Ending) :
    List (ℕ × Request τ) :=
  let prepare := handleSubPrepare servers reply mods sids
  match prepare.error, ending with
  | some _, _ => prepare.sent
  | none, .subCommit => prepare.sent ++ (handleSubCommit servers reply sids).sent
  | none, .subAbort => prepare.sent ++ (handleSubAbort sids).sent

end Handlers

/-! ## Servers -/

/-- What a server runs, relative to the transaction. -/
inductive ServerState
  | unchanged
  | pending
  | confirmed
  deriving DecidableEq, Repr

/-- A server keeps a confirmed commit until it is confirmed or cancelled. A request that it refuses
changes nothing. -/
def ServerState.apply {τ : Type*} (ok : Bool) : ServerState → Request τ → ServerState
  | st, .editConfig _ => st
  | st, .commit => if ok then .pending else st
  | .pending, .confirm => if ok then .confirmed else .pending
  | st, .confirm => st
  | .pending, .cancel => if ok then .unchanged else .pending
  | st, .cancel => st

/-- What every server should run after the transaction has ended. -/
def Ending.decision : Ending → ServerState
  | .subCommit => .confirmed
  | .subAbort => .unchanged

section Statement

variable {τ : Type*} (servers : List ℤ) (reply : ℕ → Request τ → Reply)

/-- The state of the server at position `i` after it was sent the requests of a list. -/
def runRequests (i : ℕ) (st : ServerState) (l : List (ℕ × Request τ)) : ServerState :=
  l.foldl (fun st q ↦ st.apply (!(reply i q.2).failed) q.2) st

/-- The state of a server after the requests of a transaction that went to it. -/
def serverState (sent : List (ℕ × Request τ)) (i : ℕ) : ServerState :=
  runRequests reply i .unchanged (sent.filter fun q ↦ q.1 = i)

/-- The position at which `send_netconf_operation` finds a subscription id. -/
def position (sid : ℤ) : Option ℕ :=
  match scan sid 0 servers none with
  | some (i, id) => if id = sid then some i else none
  | none => none

/-- The request for a subscription is made and succeeds. -/
def Succeeds (op : Request τ) (sid : ℤ) : Prop :=
  ∃ i, position servers sid = some i ∧ (reply i op).failed = false

/-- Editing and validating for a subscription succeeds, or there is nothing to edit. -/
def EditSucceeds (modifications : List τ) (sid : ℤ) : Prop :=
  modifications = [] ∨
    2 ≤ modifications.length ∧ Succeeds servers reply (.editConfig modifications) sid

/-- **Two-phase agreement** of one transaction. -/
structure TwoPhase (mods : ℤ → List τ) (sids : List ℤ) (ending : Ending) : Prop where
  /-- `handle_sub_prepare` answers exactly once. -/
  answers : (∃ message, (handleSubPrepare servers reply mods sids).calls = [.subAbortTrans message])
    ∨ (handleSubPrepare servers reply mods sids).calls = [.syncSubscriptionSocket]
  /-- It votes for the transaction only when every server has edited and committed. -/
  vote : .syncSubscriptionSocket ∈ (handleSubPrepare servers reply mods sids).calls →
    ∀ sid ∈ sids, EditSucceeds servers reply (mods sid) sid ∧ Succeeds servers reply .commit sid
  /-- After an abort every confirmed commit has been cancelled. -/
  cancels : (handleSubPrepare servers reply mods sids).error = none → ending = .subAbort →
    ∀ i, (i, .commit) ∈ transactionSent servers reply mods sids ending →
      (reply i .commit).failed = false →
      (i, .cancel) ∈ transactionSent servers reply mods sids ending
  /-- All servers share the decision. -/
  shared : (handleSubPrepare servers reply mods sids).error = none →
    ∀ sid ∈ sids, ∀ i, position servers sid = some i →
      serverState reply (transactionSent servers reply mods sids ending) i = ending.decision

end Statement

/-! ## What the children do -/

section Children

variable {τ : Type*} {servers : List ℤ} {reply : ℕ → Request τ → Reply} {op : Request τ} {sid : ℤ}

/-- A request goes to the position of its subscription id, and nowhere when there is none. -/
theorem sent_sendNetconfOperation :
    (sendNetconfOperation servers reply op sid).sent
      = (position servers sid).map fun i ↦ (i, op) := by
  rw [sendNetconfOperation, position]
  rcases scan sid 0 servers none with - | ⟨i, id⟩
  · rfl
  · by_cases hid : id = sid <;> simp [hid]

/-- Only a request that was sent and failed is reported: a subscription id that is not found, and a
child that raised, leave no trace in the queue. -/
theorem put_sendNetconfOperation :
    (sendNetconfOperation servers reply op sid).put = none ↔
      ∀ i, position servers sid = some i → (reply i op).failed = false := by
  rw [sendNetconfOperation, position]
  rcases scan sid 0 servers none with - | ⟨i, id⟩
  · simp
  · by_cases hid : id = sid <;> simp [hid]

theorem succeeds_iff : Succeeds servers reply op sid ↔
    (sendNetconfOperation servers reply op sid).put = none ∧ position servers sid ≠ none := by
  rw [put_sendNetconfOperation, Succeeds]
  cases position servers sid with
  | none => simp
  | some i => simp

theorem put_processModifications_of_succeeds {modifications : List τ}
    (h : EditSucceeds servers reply modifications sid) (hne : modifications ≠ []) :
    (processModifications servers reply modifications sid).put = none := by
  obtain ⟨hlen, hsucc⟩ := h.resolve_left hne
  rw [processModifications, if_neg (by omega)]
  exact (succeeds_iff.mp hsucc).1

/-- Every request of the first phase is an edit. -/
theorem mem_sent_processModifications {modifications : List τ} {q : ℕ × Request τ}
    (h : (processModifications servers reply modifications sid).sent = some q) :
    q.2 = .editConfig modifications := by
  rw [processModifications] at h
  split_ifs at h
  rw [sent_sendNetconfOperation, Option.map_eq_some_iff] at h
  obtain ⟨i, -, rfl⟩ := h
  rfl

end Children

/-! ## What the handlers do -/

section Handlers

variable {τ : Type*} {servers : List ℤ} {reply : ℕ → Request τ → Reply} {mods : ℤ → List τ}
  {sids : List ℤ}

theorem filterMap_put_eq_nil {α : Type*} {child : α → Child τ} {l : List α} :
    (l.map child).filterMap (·.put) = [] ↔ ∀ a ∈ l, (child a).put = none := by
  simp [List.filterMap_eq_nil_iff]

/-- The queue is empty after the first phase. -/
def EditQuiet (servers : List ℤ) (reply : ℕ → Request τ → Reply) (mods : ℤ → List τ)
    (sids : List ℤ) : Prop :=
  (editChildren servers reply mods sids).filterMap (·.put) = []

/-- The queue is empty after the second phase. -/
def CommitQuiet (servers : List ℤ) (reply : ℕ → Request τ → Reply) (sids : List ℤ) : Prop :=
  (sids.map (commit servers reply)).filterMap (·.put) = []

/-- The requests of both phases. -/
def bothSent (servers : List ℤ) (reply : ℕ → Request τ → Reply) (mods : ℤ → List τ)
    (sids : List ℤ) : List (ℕ × Request τ) :=
  (editChildren servers reply mods sids).filterMap (·.sent) ++
    (sids.map (commit servers reply)).filterMap (·.sent)

/-- **The first handler.** It votes for the transaction exactly when nothing was put into the queue,
and raises otherwise. -/
theorem handleSubPrepare_cases :
    EditQuiet servers reply mods sids ∧ CommitQuiet servers reply sids ∧
        handleSubPrepare servers reply mods sids
          = { sent := bothSent servers reply mods sids, calls := [.syncSubscriptionSocket] } ∨
      (handleSubPrepare servers reply mods sids).calls = [] ∧
        (handleSubPrepare servers reply mods sids).error = some queueAttribute := by
  by_cases hedit : EditQuiet servers reply mods sids
  · by_cases hcommit : CommitQuiet servers reply sids
    · refine Or.inl ⟨hedit, hcommit, ?_⟩
      rw [EditQuiet] at hedit
      rw [CommitQuiet] at hcommit
      simp [handleSubPrepare, hedit, hcommit, bothSent]
    · rw [EditQuiet] at hedit
      rw [CommitQuiet] at hcommit
      right
      simp only [handleSubPrepare, hedit, hcommit, ne_eq, not_true_eq_false, not_false_eq_true,
        if_false, if_true, and_self]
  · rw [EditQuiet] at hedit
    right
    simp only [handleSubPrepare, hedit, ne_eq, not_false_eq_true, if_true, and_self]

theorem editQuiet_of_succeeds
    (h : ∀ sid ∈ sids, EditSucceeds servers reply (mods sid) sid) :
    EditQuiet servers reply mods sids := by
  rw [EditQuiet, editChildren, filterMap_put_eq_nil]
  intro sid hsid
  rw [List.mem_filter] at hsid
  exact put_processModifications_of_succeeds (h sid hsid.1) (by simpa using hsid.2)

theorem commitQuiet_of_succeeds (h : ∀ sid ∈ sids, Succeeds servers reply .commit sid) :
    CommitQuiet servers reply sids := by
  rw [CommitQuiet, filterMap_put_eq_nil]
  exact fun sid hsid ↦ (succeeds_iff.mp (h sid hsid)).1

/-- `cancel_commit` never sends anything. -/
theorem sent_handleSubAbort (sids : List ℤ) : (handleSubAbort (τ := τ) sids).sent = [] := by
  simp [handleSubAbort, handleEnd, cancelCommit]

theorem sent_handleSubCommit (sids : List ℤ) :
    (handleSubCommit servers reply sids).sent
      = (sids.map (confirmCommit servers reply)).filterMap (·.sent) := by
  simp only [handleSubCommit, handleEnd]
  split_ifs <;> rfl

/-- A handler that returns is followed by the one the ending calls for. -/
theorem transactionSent_of_returned {ending : Ending}
    (h : (handleSubPrepare servers reply mods sids).error = none) :
    transactionSent servers reply mods sids ending
      = (handleSubPrepare servers reply mods sids).sent ++
        match ending with
        | .subCommit => (handleSubCommit servers reply sids).sent
        | .subAbort => (handleSubAbort sids).sent := by
  cases ending <;> simp [transactionSent, h]

theorem mem_sent_send {op : Request τ} {q : ℕ × Request τ} :
    q ∈ (sids.map (sendNetconfOperation servers reply op)).filterMap (·.sent) ↔
      q.2 = op ∧ ∃ sid ∈ sids, position servers sid = some q.1 := by
  rw [List.mem_filterMap]
  simp only [List.mem_map, exists_exists_and_eq_and, sent_sendNetconfOperation,
    Option.map_eq_some_iff]
  constructor
  · rintro ⟨sid, hsid, i, hi, rfl⟩
    exact ⟨rfl, sid, hsid, hi⟩
  · rintro ⟨rfl, sid, hsid, hi⟩
    exact ⟨sid, hsid, q.1, hi, rfl⟩

theorem mem_sent_editChildren {q : ℕ × Request τ}
    (h : q ∈ (editChildren servers reply mods sids).filterMap (·.sent)) :
    ∃ modifications, q.2 = .editConfig modifications := by
  rw [List.mem_filterMap] at h
  obtain ⟨c, hc, hq⟩ := h
  rw [editChildren, List.mem_map] at hc
  obtain ⟨sid, -, rfl⟩ := hc
  exact ⟨_, mem_sent_processModifications hq⟩

theorem cancel_notMem_bothSent (i : ℕ) : (i, .cancel) ∉ bothSent servers reply mods sids := by
  rw [bothSent, List.mem_append]
  rintro (h | h)
  · obtain ⟨_, hq⟩ := mem_sent_editChildren h
    exact absurd hq (by simp)
  · exact absurd (mem_sent_send.mp h).1 (by simp)

theorem commit_mem_bothSent {sid : ℤ} {i : ℕ} (hsid : sid ∈ sids)
    (hi : position servers sid = some i) : (i, .commit) ∈ bothSent servers reply mods sids := by
  rw [bothSent, List.mem_append]
  exact Or.inr (mem_sent_send.mpr ⟨rfl, sid, hsid, hi⟩)

end Handlers

/-! ## What the servers end with -/

section Servers

variable {τ : Type*} {servers : List ℤ} {reply : ℕ → Request τ → Reply} {mods : ℤ → List τ}
  {sids : List ℤ} {i : ℕ}

theorem runRequests_append (st : ServerState) (l₁ l₂ : List (ℕ × Request τ)) :
    runRequests reply i st (l₁ ++ l₂) = runRequests reply i (runRequests reply i st l₁) l₂ := by
  rw [runRequests, List.foldl_append]
  rfl

/-- A server that is sent one request, once or several times, where repeating it changes nothing. -/
theorem runRequests_of_forall_eq {op : Request τ} {st' : ServerState}
    (hop : st'.apply (!(reply i op).failed) op = st') :
    ∀ {l : List (ℕ × Request τ)} (st : ServerState), l ≠ [] → (∀ q ∈ l, q.2 = op) →
      st.apply (!(reply i op).failed) op = st' → runRequests reply i st l = st' := by
  intro l
  induction l with
  | nil => exact fun st hne ↦ absurd rfl hne
  | cons q l ih =>
    intro st _ hall hst
    rw [runRequests, List.foldl_cons, hall q List.mem_cons_self, hst]
    by_cases hl : l = []
    · rw [hl, List.foldl_nil]
    · exact ih st' hl (fun q' hq' ↦ hall q' (List.mem_cons_of_mem q hq')) hop

/-- An edit of the candidate does not touch what the server runs. -/
theorem runRequests_editConfig : ∀ {l : List (ℕ × Request τ)} (st : ServerState),
    (∀ q ∈ l, ∃ modifications, q.2 = .editConfig modifications) →
      runRequests reply i st l = st := by
  intro l
  induction l with
  | nil => exact fun st _ ↦ rfl
  | cons q l ih =>
    intro st hall
    obtain ⟨modifications, hq⟩ := hall q List.mem_cons_self
    rw [runRequests, List.foldl_cons, hq]
    exact ih _ fun q' hq' ↦ hall q' (List.mem_cons_of_mem q hq')

/-- The requests of one phase that reach the server at a position some subscription has. -/
theorem filter_send_ne_nil {op : Request τ} {sid : ℤ} (hsid : sid ∈ sids)
    (hi : position servers sid = some i) :
    ((sids.map (sendNetconfOperation servers reply op)).filterMap (·.sent)).filter
      (fun q ↦ q.1 = i) ≠ [] := by
  refine List.ne_nil_of_mem (a := (i, op)) (List.mem_filter.mpr ⟨?_, by simp⟩)
  exact mem_sent_send.mpr ⟨rfl, sid, hsid, hi⟩

theorem eq_of_mem_filter_send {op : Request τ} :
    ∀ q ∈ ((sids.map (sendNetconfOperation servers reply op)).filterMap (·.sent)).filter
      (fun q ↦ q.1 = i), q.2 = op :=
  fun _ hq ↦ (mem_sent_send.mp (List.mem_filter.mp hq).1).1

/-- A server that has committed and is then sent the confirmation runs the transaction, unless it
refuses the confirmation. -/
theorem serverState_confirm {sid : ℤ} (hsid : sid ∈ sids) (hi : position servers sid = some i)
    (hok : (reply i .commit).failed = false) :
    serverState reply (bothSent servers reply mods sids ++
        (sids.map (confirmCommit servers reply)).filterMap (·.sent)) i =
      if (reply i .confirm).failed then .pending else .confirmed := by
  have hedit : runRequests reply i .unchanged
      (((editChildren servers reply mods sids).filterMap (·.sent)).filter fun q ↦ q.1 = i)
      = .unchanged :=
    runRequests_editConfig .unchanged fun q hq ↦ mem_sent_editChildren (List.mem_filter.mp hq).1
  have hcommit : runRequests reply i .unchanged
      (((sids.map (commit servers reply)).filterMap (·.sent)).filter fun q ↦ q.1 = i)
      = .pending := by
    refine runRequests_of_forall_eq ?_ .unchanged (filter_send_ne_nil hsid hi)
      eq_of_mem_filter_send ?_
    · rw [hok]; rfl
    · rw [hok]; rfl
  have hconfirm : runRequests reply i .pending
      (((sids.map (confirmCommit servers reply)).filterMap (·.sent)).filter fun q ↦ q.1 = i)
      = if (reply i .confirm).failed then .pending else .confirmed := by
    refine runRequests_of_forall_eq ?_ .pending (filter_send_ne_nil hsid hi)
      eq_of_mem_filter_send ?_
    all_goals cases (reply i .confirm).failed <;> rfl
  rw [serverState, bothSent, List.filter_append, List.filter_append, runRequests_append,
    runRequests_append, hedit, hcommit, hconfirm]

end Servers

/-! ## Agreement -/

section Agreement

variable {τ : Type*}

/-- **Exactly when a transaction agrees.** Every subscription id is in the server list, every edit
and every confirmed commit succeeds, the transaction is not aborted afterwards, and every
confirmation succeeds. -/
theorem twoPhase_iff (servers : List ℤ) (reply : ℕ → Request τ → Reply) (mods : ℤ → List τ)
    (sids : List ℤ) (ending : Ending) :
    TwoPhase servers reply mods sids ending ↔
      (∀ sid ∈ sids,
        EditSucceeds servers reply (mods sid) sid ∧ Succeeds servers reply .commit sid) ∧
      (sids = [] ∨
        ending = .subCommit ∧ ∀ sid ∈ sids, Succeeds servers reply .confirm sid) := by
  constructor
  · intro h
    rcases @handleSubPrepare_cases τ servers reply mods sids with ⟨-, -, heq⟩ | ⟨hcalls, -⟩
    · have hall := h.vote (by rw [heq]; exact List.mem_singleton_self _)
      refine ⟨hall, or_iff_not_imp_left.mpr fun hne ↦ ?_⟩
      cases ending with
      | subCommit =>
        refine ⟨rfl, fun sid hsid ↦ ?_⟩
        obtain ⟨i, hi, hok⟩ := (hall sid hsid).2
        have hshared := h.shared (by rw [heq]) sid hsid i hi
        rw [transactionSent_of_returned (by rw [heq]), heq, sent_handleSubCommit,
          serverState_confirm hsid hi hok] at hshared
        refine ⟨i, hi, ?_⟩
        -- a refused confirmation leaves the server with a commit that is still pending
        cases hconfirm : (reply i .confirm).failed with
        | false => rfl
        | true =>
          rw [hconfirm] at hshared
          exact absurd hshared (by decide)
      | subAbort =>
        -- some server has committed, and `cancel_commit` sends nothing
        obtain ⟨sid, hsid⟩ := List.exists_mem_of_ne_nil sids hne
        obtain ⟨i, hi, hok⟩ := (hall sid hsid).2
        have hsent : transactionSent servers reply mods sids .subAbort
            = bothSent servers reply mods sids := by
          rw [transactionSent_of_returned (by rw [heq]), heq, sent_handleSubAbort, List.append_nil]
        have hcancel := h.cancels (by rw [heq]) rfl i
          (by rw [hsent]; exact commit_mem_bothSent hsid hi) hok
        rw [hsent] at hcancel
        exact absurd hcancel (cancel_notMem_bothSent i)
    · -- the handler raises and answers nothing at all
      rcases h.answers with ⟨message, hans⟩ | hans
      · rw [hcalls] at hans
        exact absurd hans (by simp)
      · rw [hcalls] at hans
        exact absurd hans (by simp)
  · rintro ⟨hall, hend⟩
    have heq : handleSubPrepare servers reply mods sids
        = { sent := bothSent servers reply mods sids, calls := [.syncSubscriptionSocket] } := by
      rcases @handleSubPrepare_cases τ servers reply mods sids with ⟨-, -, heq⟩ | ⟨hcalls, -⟩
      · exact heq
      · have hedit := editQuiet_of_succeeds fun sid hsid ↦ (hall sid hsid).1
        have hcommit := commitQuiet_of_succeeds fun sid hsid ↦ (hall sid hsid).2
        rw [EditQuiet] at hedit
        rw [CommitQuiet] at hcommit
        simp [handleSubPrepare, hedit, hcommit] at hcalls
    refine ⟨Or.inr (by rw [heq]), fun _ ↦ hall, ?_, ?_⟩
    · rintro - rfl i hcommit -
      have hnil : sids = [] := hend.resolve_right fun h ↦ absurd h.1 (by decide)
      subst hnil
      simp [transactionSent, handleSubPrepare, handleSubAbort, handleEnd, editChildren] at hcommit
    · intro _ sid hsid i hi
      obtain ⟨rfl, hconfirm⟩ := hend.resolve_left (List.ne_nil_of_mem hsid)
      obtain ⟨j, hj, hok⟩ := (hall sid hsid).2
      obtain rfl : i = j := Option.some_inj.mp (hi.symm.trans hj)
      rw [transactionSent_of_returned (by rw [heq]), heq, sent_handleSubCommit]
      obtain ⟨j, hj, hconfirmed⟩ := hconfirm sid hsid
      obtain rfl : i = j := Option.some_inj.mp (hi.symm.trans hj)
      rw [serverState_confirm hsid hi hok, hconfirmed]
      rfl

/-- One server rejects the edit: the handler raises before it can abort the transaction. -/
theorem not_twoPhase_of_rpcError : ¬∀ (servers : List ℤ) (reply : ℕ → Request ℕ → Reply)
    (mods : ℤ → List ℕ) (sids : List ℤ) (ending : Ending),
    TwoPhase servers reply mods sids ending := by
  intro h
  have hfail := h [1] (fun _ _ ↦ ⟨"<rpc-error>".toList, []⟩) (fun _ ↦ [0, 1]) [1] .subCommit
  have hcalls : (handleSubPrepare [1] (fun _ _ ↦ ⟨"<rpc-error>".toList, []⟩)
      (fun _ ↦ [0, 1]) [1]).calls = [] := by decide
  rcases hfail.answers with ⟨message, hans⟩ | hans
  · rw [hcalls] at hans
    exact absurd hans (by simp)
  · rw [hcalls] at hans
    exact absurd hans (by simp)

end Agreement

end ConfdDemos.SyncNc
