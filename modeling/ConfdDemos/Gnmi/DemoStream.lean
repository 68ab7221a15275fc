import ConfdDemos.Gnmi.ApiStream

/-!
# The change thread of the demo adapter

`process_changes` of the demo adapter has a queue of its own. A timeout queues `ADD`; an `ADD`
appends changes to `change_db` under the lock and, when its list says so, queues a `SEND` after a
look at `change_db` outside the lock; a `SEND` posts `SEND_CHANGES`. An exception under the lock,
in generating the changes or in taking one of them up, ends the thread and releases the lock.

The reader and what it needs for its assertion are those of the API adapter, so the same argument
covers both, and the same order of steps defeats both.
-/

namespace ConfdDemos.Gnmi

/-- `SubscriptionHandler.ChangeEvent`. -/
inductive ChangeEvent
  | add
  | send
  | finish
  deriving DecidableEq, Repr

/-- An entry of the `changes` that an `ADD` processes: a change, or a string. -/
inductive DemoChange
  | change (path val : List Char)
  | marker (c : List Char)
  deriving DecidableEq, Repr

/-- Where `process_changes` is. -/
inductive DemoProducer
  | notStarted
  /-- At `change_event_queue.get(timeout=1)`. -/
  | idle
  | got (event : ChangeEvent)
  /-- Holding the locks, with the rest of the changes. -/
  | adding (todo : List DemoChange)
  /-- Past the locks, with the value of `send`. -/
  | added (send : Bool)
  /-- `change_db` was not empty, so `SEND` will be queued. -/
  | checked
  | stopped
  deriving DecidableEq, Repr

structure DemoStream where
  chan : Channel (List Char × List Char)
  producer : DemoProducer
  changeEventQueue : List ChangeEvent

inductive DemoEvent
  | read (e : ReadEvent)
  | poll
  | stop
  /-- The queue stayed empty for a second; an `ADD` is queued. -/
  | timeout
  | get
  /-- `ADD`: the locks are taken and the changes are generated. -/
  | add (changes : List DemoChange)
  /-- `ADD`: the locks are taken and generating the changes raises, or a change at hand that is not
  a pair does. -/
  | addRaises
  /-- The next change. -/
  | next
  /-- `if send: if len(self.change_db)`. -/
  | check
  | queueSend
  /-- `SEND` or `FINISH`. -/
  | handle
  /-- `stop_monitoring` queues `FINISH`. -/
  | quit
  deriving DecidableEq, Repr

section Demo

variable (monitored : List (List Char)) (known : List Char → Bool)

/-- `if path[0] != '/': path = '/' + path`, for a path that is not empty. -/
def slashed (path : List Char) : List Char := if path.head? = some '/' then path else '/' :: path

/-- The body of the loop over the changes of an `ADD`. An assertion or an index error ends the
thread; leaving the block releases the locks. -/
def DemoStream.next (s : DemoStream) (todo : List DemoChange) : DemoStream :=
  match todo with
  | [] => { s with producer := .added false, chan := { s.chan with lock := none } }
  | .marker c :: _ =>
    if c = "send".toList then
      { s with producer := .added true, chan := { s.chan with lock := none } }
    else if c = "break".toList then
      { s with producer := .added false, chan := { s.chan with lock := none } }
    else { s with producer := .stopped, chan := { s.chan with lock := none } }
  | .change path val :: rest =>
    if path = [] then { s with producer := .stopped, chan := { s.chan with lock := none } }
    else if monitored.any fun elem ↦ elem.isPrefixOf (slashed path) then
      if known (slashed path) then
        { s with
          producer := .adding rest
          chan := { s.chan with changeDb := s.chan.changeDb ++ [(slashed path, val)] } }
      else
        { s with
          producer := .stopped
          chan := { s.chan with
            changeDb := s.chan.changeDb ++ [(slashed path, val)], lock := none } }
    else { s with producer := .adding rest }

def demoStep (s : DemoStream) : DemoEvent → Option DemoStream
  | .read e =>
    (s.chan.read e).map fun c ↦
      { s with chan := c, producer := if e = .sampled then .idle else s.producer }
  | .poll => some { s with chan := s.chan.putEvent .sample }
  | .stop => some { s with chan := s.chan.putEvent .finish }
  | .timeout =>
    match s.producer, s.changeEventQueue with
    | .idle, [] => some { s with changeEventQueue := [.add] }
    | _, _ => none
  | .get =>
    match s.producer, s.changeEventQueue with
    | .idle, event :: queue => some { s with producer := .got event, changeEventQueue := queue }
    | _, _ => none
  | .add changes =>
    match s.producer with
    | .got .add =>
      if s.chan.lock = none then
        some { s with producer := .adding changes, chan := { s.chan with lock := some .producer } }
      else none
    | _ => none
  | .addRaises =>
    match s.producer with
    | .got .add => if s.chan.lock = none then some { s with producer := .stopped } else none
    | .adding _ => some { s with producer := .stopped, chan := { s.chan with lock := none } }
    | _ => none
  | .next =>
    match s.producer with
    | .adding todo => some (s.next monitored known todo)
    | _ => none
  | .check =>
    match s.producer with
    | .added send =>
      some { s with producer := if send && !s.chan.changeDb.isEmpty then .checked else .idle }
    | _ => none
  | .queueSend =>
    match s.producer with
    | .checked =>
      some { s with producer := .idle, changeEventQueue := s.changeEventQueue ++ [.send] }
    | _ => none
  | .handle =>
    match s.producer with
    | .got .send => some { s with producer := .idle, chan := s.chan.putEvent .sendChanges }
    | .got .finish => some { s with producer := .stopped }
    | _ => none
  | .quit =>
    if s.chan.reader = .ended then
      some { s with changeEventQueue := s.changeEventQueue ++ [.finish] }
    else none

/-- Every interleaving of `read()`, `process_changes` and the client. -/
def demoMachine : Machine DemoStream DemoEvent := ⟨demoStep monitored known⟩

end Demo

section DemoAssertion

variable {monitored : List (List Char)} {known : List Char → Bool}

def DemoStream.init : DemoStream := ⟨.init, .notStarted, []⟩

/-- The `SEND` events queued or taken by the change thread, and one it is about to queue. -/
def DemoStream.unsent (s : DemoStream) : ℕ :=
  s.changeEventQueue.count .send +
    match s.producer with
    | .checked => 1
    | .got .send => 1
    | _ => 0

/-- A `SEND` is prepared only while no `SEND` or `SEND_CHANGES` is on its way. -/
def SendAlone (s : DemoStream) (e : DemoEvent) : Prop :=
  e = .check → s.producer = .added true → s.chan.sends + s.unsent = 0

instance (s : DemoStream) (e : DemoEvent) : Decidable (SendAlone s e) :=
  inferInstanceAs (Decidable (_ → _ → _))

structure DemoInv (s : DemoStream) : Prop where
  sampling : s.chan.reader = .sampling → s.producer = .notStarted
  atMostOne : s.chan.AtMostOne s.unsent

theorem demoInv_init : DemoInv .init := ⟨fun _ ↦ rfl, Channel.atMostOne_init⟩

/-- A step of the change thread that neither posts nor takes up a `SEND`. -/
theorem DemoInv.producer_step {s s' : DemoStream} (h : DemoInv s) (hp : s.producer ≠ .notStarted)
    (hq : s'.chan.readQueue = s.chan.readQueue) (hr : s'.chan.reader = s.chan.reader)
    (hdb : s.chan.changeDb ≠ [] → s'.chan.changeDb ≠ []) (hunsent : s'.unsent = s.unsent) :
    DemoInv s' := by
  refine ⟨fun hsamp ↦ absurd (h.sampling (hr ▸ hsamp)) hp, ?_⟩
  rw [hunsent]
  exact h.atMostOne.congr hq hr hdb

/-- One change only adds to `change_db`. -/
theorem demoInv_next {s : DemoStream} {todo : List DemoChange} (h : DemoInv s)
    (hp : s.producer = .adding todo) : DemoInv (s.next monitored known todo) := by
  have hstarted : s.producer ≠ .notStarted := by simp [hp]
  match todo with
  | [] =>
    rw [DemoStream.next]
    exact h.producer_step hstarted rfl rfl id (by simp [DemoStream.unsent, hp])
  | .marker c :: rest =>
    rw [DemoStream.next]
    split_ifs
    · exact h.producer_step hstarted rfl rfl id (by simp [DemoStream.unsent, hp])
    · exact h.producer_step hstarted rfl rfl id (by simp [DemoStream.unsent, hp])
    · exact h.producer_step hstarted rfl rfl id (by simp [DemoStream.unsent, hp])
  | .change path val :: rest =>
    rw [DemoStream.next]
    split_ifs
    · exact h.producer_step hstarted rfl rfl id (by simp [DemoStream.unsent, hp])
    · exact h.producer_step hstarted rfl rfl (by simp) (by simp [DemoStream.unsent, hp])
    · exact h.producer_step hstarted rfl rfl (by simp) (by simp [DemoStream.unsent, hp])
    · exact h.producer_step hstarted rfl rfl id (by simp [DemoStream.unsent, hp])

theorem demoInv_read {s : DemoStream} {e : ReadEvent} {c : Channel (List Char × List Char)}
    (h : DemoInv s) (hc : s.chan.read e = some c) : DemoInv
      { s with chan := c, producer := if e = .sampled then .idle else s.producer } := by
  have hreads := Channel.reads_of_read hc
  refine ⟨fun hr ↦ absurd hr hreads.not_sampling, ?_⟩
  have hread := h.atMostOne.read hreads
  by_cases he : e = .sampled
  · subst he
    cases hreads with
    | sampled hr =>
      -- the change thread starts here and has posted nothing
      have hunsent := h.sampling hr
      simpa [DemoStream.unsent, hunsent] using hread
  · simpa [DemoStream.unsent, he] using hread

/-- A new round is started only when the last one has been served. -/
theorem demoInv_check {s : DemoStream} {send : Bool} (h : DemoInv s) (halone : SendAlone s .check)
    (hp : s.producer = .added send) : DemoInv
      { s with producer := if send && !s.chan.changeDb.isEmpty then .checked else .idle } := by
  by_cases hsend : (send && !s.chan.changeDb.isEmpty) = true
  · obtain ⟨rfl, hdb⟩ := Bool.and_eq_true_iff.mp hsend
    have hzero := halone rfl hp
    refine ⟨fun hr ↦ absurd ((h.sampling hr).symm.trans hp) (by simp), ⟨?_, fun _ ↦ ?_, ?_⟩⟩
    · rw [DemoStream.unsent, hp] at hzero
      simp only [DemoStream.unsent, hsend, if_true]
      omega
    · simpa using hdb
    · exact h.atMostOne.not_failed
  · exact h.producer_step (by simp [hp]) rfl rfl id (by simp [DemoStream.unsent, hp, hsend])

/-- **Every step keeps the assertion.** -/
theorem demoInv_step {s s' : DemoStream} {e : DemoEvent} (h : DemoInv s) (halone : SendAlone s e)
    (hs : demoStep monitored known s e = some s') : DemoInv s' := by
  cases e with
  | read e =>
    simp only [demoStep, Option.map_eq_some_iff] at hs
    obtain ⟨c, hc, rfl⟩ := hs
    exact demoInv_read h hc
  | poll => exact Option.some_inj.mp hs ▸ ⟨h.sampling, h.atMostOne.putEvent (by simp)⟩
  | stop => exact Option.some_inj.mp hs ▸ ⟨h.sampling, h.atMostOne.putEvent (by simp)⟩
  | timeout =>
    simp only [demoStep] at hs
    split at hs
    next hp hq =>
      rw [Option.some_inj] at hs
      subst hs
      exact h.producer_step (by simp [hp]) rfl rfl id (by simp [DemoStream.unsent, hp, hq])
    next => exact absurd hs (by simp)
  | get =>
    simp only [demoStep] at hs
    split at hs
    next event queue hp hq =>
      rw [Option.some_inj] at hs
      subst hs
      refine h.producer_step (by simp [hp]) rfl rfl id ?_
      -- an event that was taken off the queue still counts as unsent
      cases event <;> simp [DemoStream.unsent, hp, hq]
    next => exact absurd hs (by simp)
  | add changes =>
    simp only [demoStep] at hs
    split at hs
    next hp =>
      rw [Option.ite_none_right_eq_some, Option.some_inj] at hs
      obtain ⟨-, rfl⟩ := hs
      exact h.producer_step (by simp [hp]) rfl rfl id (by simp [DemoStream.unsent, hp])
    next => exact absurd hs (by simp)
  | addRaises =>
    simp only [demoStep] at hs
    split at hs
    next hp =>
      rw [Option.ite_none_right_eq_some, Option.some_inj] at hs
      obtain ⟨-, rfl⟩ := hs
      exact h.producer_step (by simp [hp]) rfl rfl id (by simp [DemoStream.unsent, hp])
    next todo hp =>
      rw [Option.some_inj] at hs
      subst hs
      exact h.producer_step (by simp [hp]) rfl rfl id (by simp [DemoStream.unsent, hp])
    next => exact absurd hs (by simp)
  | next =>
    simp only [demoStep] at hs
    split at hs
    next todo hp => exact Option.some_inj.mp hs ▸ demoInv_next h hp
    next => exact absurd hs (by simp)
  | check =>
    simp only [demoStep] at hs
    split at hs
    next send hp => exact Option.some_inj.mp hs ▸ demoInv_check h halone hp
    next => exact absurd hs (by simp)
  | queueSend =>
    simp only [demoStep] at hs
    split at hs
    next hp =>
      rw [Option.some_inj] at hs
      subst hs
      exact h.producer_step (by simp [hp]) rfl rfl id (by simp [DemoStream.unsent, hp])
    next => exact absurd hs (by simp)
  | handle =>
    simp only [demoStep] at hs
    split at hs
    next hp =>
      rw [Option.some_inj] at hs
      subst hs
      refine ⟨fun hr ↦ absurd ((h.sampling hr).symm.trans hp) (by simp), ?_⟩
      -- the event leaves the thread and gets into the queue of the reader
      refine Channel.AtMostOne.post ?_
      have := h.atMostOne
      rwa [DemoStream.unsent, hp] at this
    next hp =>
      rw [Option.some_inj] at hs
      subst hs
      exact h.producer_step (by simp [hp]) rfl rfl id (by simp [DemoStream.unsent, hp])
    next => exact absurd hs (by simp)
  | quit =>
    simp only [demoStep, Option.ite_none_right_eq_some, Option.some_inj] at hs
    obtain ⟨hr, rfl⟩ := hs
    refine ⟨h.sampling, ?_⟩
    -- a `FINISH` is not a `SEND`, and only these count
    have hunsent : DemoStream.unsent { s with changeEventQueue := s.changeEventQueue ++ [.finish] }
        = s.unsent := by simp [DemoStream.unsent]
    rw [hunsent]
    exact h.atMostOne

theorem not_failed_of_sendAlone {s : DemoStream}
    (h : (demoMachine monitored known).Reach SendAlone .init s) : s.chan.reader ≠ .failed := by
  have hinv : DemoInv s := h.invariant demoInv_init fun _ _ _ hI hP hs ↦ demoInv_step hI hP hs
  exact hinv.atMostOne.not_failed

end DemoAssertion

/-! ## The assertion in both adapters -/

/-- **The assertion on `change_db`.** It never fails in a run in which the change thread starts a
new round only after the last `SEND_CHANGES` has been served. -/
theorem assertion_holds_of_alone (β : Type*) (monitored : List (List Char))
    (known : List Char → Bool) :
    (∀ s : ApiStream β, apiMachine.Reach AppendAlone .init s → s.chan.reader ≠ .failed) ∧
      ∀ s : DemoStream, (demoMachine monitored known).Reach SendAlone .init s →
        s.chan.reader ≠ .failed :=
  ⟨fun _ ↦ not_failed_of_appendAlone, fun _ ↦ not_failed_of_sendAlone⟩

/-- An `ADD` with one change, up to its `SEND`. -/
def demoRound : List DemoEvent :=
  [.timeout, .get, .add [.change "/a".toList "1".toList, .marker "send".toList], .next, .next,
    .check, .queueSend, .get, .handle]

/-- The served change of the demo adapter, and of the API adapter. -/
theorem assertion_holds_servedRun :
    (∃ s : ApiStream ℕ, apiMachine.Reach AppendAlone .init s ∧ s.chan.turned = [1] ∧
      s.chan.changeDb = [2] ∧ s.chan.reader ≠ .failed) ∧
    ∃ s : DemoStream, (demoMachine ["/a".toList] fun _ ↦ true).Reach SendAlone .init s ∧
      s.chan.turned = [("/a".toList, "1".toList)] ∧ s.chan.reader ≠ .failed := by
  have hapi : ((apiMachine.restrict AppendAlone).runFrom .init servedRun).any
      (fun s ↦ decide (s.chan.turned = [1] ∧ s.chan.changeDb = [2])) = true := by decide
  have hdemo : (((demoMachine ["/a".toList] fun _ ↦ true).restrict SendAlone).runFrom .init
      (.read .sampled :: demoRound ++ [.read .get, .read .serve, .read .convert, .read .clear])).any
      (fun s ↦ decide (s.chan.turned = [("/a".toList, "1".toList)])) = true := by decide
  obtain ⟨s, hs, htest⟩ := Machine.exists_reach_of_any hapi
  obtain ⟨d, hd, hdtest⟩ := Machine.exists_reach_of_any hdemo
  obtain ⟨hturned, hdb⟩ := of_decide_eq_true htest
  have hboth := assertion_holds_of_alone ℕ ["/a".toList] fun _ ↦ true
  exact ⟨⟨s, hs, hturned, hdb, hboth.1 s hs⟩, ⟨d, hd, of_decide_eq_true hdtest, hboth.2 d hd⟩⟩

/-- **Two events, one drain.** Two changes are posted before `read()` looks; the first event sends
both, and the second finds the list empty. -/
theorem assertion_fails_twice :
    (¬∀ s : ApiStream ℕ, apiMachine.Reachable .init s → s.chan.reader ≠ .failed) ∧
      ¬∀ s : DemoStream, (demoMachine ["/a".toList] fun _ ↦ true).Reachable .init s →
        s.chan.reader ≠ .failed := by
  constructor
  · intro h
    have hrun : ((apiMachine.restrict fun _ _ ↦ True).runFrom .init
        [.read .sampled, .ready, .pass 1, .acquire, .append, .release, .post, .pass 2, .acquire,
          .append, .release, .post, .read .get, .read .serve, .read .convert, .read .convert,
          .read .clear, .read .get, .read .serve]).any
        (fun s : ApiStream ℕ ↦ decide (s.chan.reader = .failed)) = true := by decide
    obtain ⟨s, hs, htest⟩ := Machine.exists_reach_of_any hrun
    exact h s hs (of_decide_eq_true htest)
  · intro h
    have hrun : (((demoMachine ["/a".toList] fun _ ↦ true).restrict fun _ _ ↦ True).runFrom .init
        (.read .sampled :: demoRound ++ demoRound ++ [.read .get, .read .serve, .read .convert,
          .read .convert, .read .clear, .read .get, .read .serve])).any
        (fun s ↦ decide (s.chan.reader = .failed)) = true := by decide
    obtain ⟨s, hs, htest⟩ := Machine.exists_reach_of_any hrun
    exact h s hs (of_decide_eq_true htest)

end ConfdDemos.Gnmi
