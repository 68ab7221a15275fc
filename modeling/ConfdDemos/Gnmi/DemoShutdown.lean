import ConfdDemos.Gnmi.DemoStream

/-!
# Stopping the change thread of the demo adapter

`stop_monitoring` queues `FINISH`, waits for the change thread to end and asserts that its queue is
empty. The thread queues events itself: an `ADD` when `get` has timed out, and a `SEND` after an
`ADD`. An event that is queued behind `FINISH` is still there when the thread has ended, and
`FINISH` is still there when the thread has ended by an exception. Generating changes can raise one:
`_get_random_changes` looks up a path that it has made with `/type` for `/name`, and that path need
not be in the database.

The change thread is the one of `DemoStream`, with the time-out in two steps: `get` raises `Empty`,
and the handler queues `ADD` or goes back to `get`. Between the two, `FINISH` may be queued.
-/

namespace ConfdDemos.Gnmi

/-- Where `stop_monitoring` is. -/
inductive StopPoint
  | notCalled
  /-- `FINISH` is queued, and `join` has not returned. -/
  | joining
  | returned
  /-- Ended by the assertion that the queue is empty. -/
  | failed
  deriving DecidableEq, Repr

structure DemoShutdown where
  demo : DemoStream
  /-- `get` has raised `Empty`, and the handler has not run. -/
  emptied : Bool
  addCount : ℕ
  stopping : StopPoint

inductive ShutdownEvent
  /-- A step of the adapter other than a time-out and `stop_monitoring`. -/
  | demo (e : DemoEvent)
  /-- `get` raises `Empty`. -/
  | empty
  /-- The handler of `Empty`, with the outcome of `randint(0, 1) == 0`. -/
  | resume (skip : Bool)
  /-- `stop_monitoring` queues `FINISH`. -/
  | stop
  /-- `join` returns and the queue is looked at. -/
  | join
  deriving DecidableEq, Repr

section Shutdown

variable (monitored : List (List Char)) (known : List Char → Bool)

/-- `self.change_event_queue.put`. -/
def DemoStream.put (d : DemoStream) (event : ChangeEvent) : DemoStream :=
  { d with changeEventQueue := d.changeEventQueue ++ [event] }

def shutdownStep (s : DemoShutdown) : ShutdownEvent → Option DemoShutdown
  | .demo e =>
    if e = .timeout ∨ e = .quit ∨ (e = .get ∧ s.emptied = true) then none
    else (demoStep monitored known s.demo e).map fun d ↦ { s with demo := d }
  | .empty =>
    if s.demo.producer = .idle ∧ s.demo.changeEventQueue = [] ∧ s.emptied = false then
      some { s with emptied := true }
    else none
  | .resume skip =>
    if s.emptied then
      if s.addCount = 0 ∧ skip = true then some { s with emptied := false, addCount := 1 }
      else some { s with emptied := false, addCount := 0, demo := s.demo.put .add }
    else none
  | .stop =>
    if s.stopping = .notCalled ∧ s.demo.producer ≠ .notStarted then
      (demoStep monitored known s.demo .quit).map fun d ↦ { s with demo := d, stopping := .joining }
    else none
  | .join =>
    if s.stopping = .joining ∧ s.demo.producer = .stopped then
      some { s with
        stopping := if s.demo.changeEventQueue = [] then .returned else .failed }
    else none

/-- Every interleaving of the adapter and one call of `stop_monitoring`. -/
def shutdownMachine : Machine DemoShutdown ShutdownEvent := ⟨shutdownStep monitored known⟩

/-- The change at hand does not end the thread: a string is `send` or `break`, and a path that is
monitored is in one of the databases. -/
def Accepted : List DemoChange → Prop
  | [] => True
  | .marker c :: _ => c = "send".toList ∨ c = "break".toList
  | .change path _ :: _ =>
    path ≠ [] ∧ ((monitored.any fun elem ↦ elem.isPrefixOf (slashed path)) = true →
      known (slashed path) = true)

instance (todo : List DemoChange) : Decidable (Accepted monitored known todo) :=
  match todo with
  | [] => inferInstanceAs (Decidable True)
  | .marker _ :: _ => inferInstanceAs (Decidable (_ ∨ _))
  | .change _ _ :: _ => inferInstanceAs (Decidable (_ ∧ (_ → _)))

/-- The thread accepts the change at hand, if it is at one. -/
def NextAccepted : DemoProducer → Prop
  | .adding todo => Accepted monitored known todo
  | _ => True

instance (point : DemoProducer) : Decidable (NextAccepted monitored known point) :=
  match point with
  | .adding todo => inferInstanceAs (Decidable (Accepted monitored known todo))
  | .notStarted => .isTrue trivial
  | .idle => .isTrue trivial
  | .got _ => .isTrue trivial
  | .added _ => .isTrue trivial
  | .checked => .isTrue trivial
  | .stopped => .isTrue trivial

/-- The thread queues nothing once `FINISH` is queued, and neither generating changes nor a change
ends it. -/
def StopsQuietly (s : DemoShutdown) : ShutdownEvent → Prop
  | .resume skip => s.stopping ≠ .notCalled → s.addCount = 0 ∧ skip = true
  | .demo .queueSend => s.stopping = .notCalled
  | .demo .addRaises => False
  | .demo .next => NextAccepted monitored known s.demo.producer
  | _ => True

instance (s : DemoShutdown) (e : ShutdownEvent) :
    Decidable (StopsQuietly monitored known s e) :=
  match e with
  | .resume _ => inferInstanceAs (Decidable (_ → _))
  | .demo .queueSend => inferInstanceAs (Decidable (_ = _))
  | .demo .addRaises => inferInstanceAs (Decidable False)
  | .demo .next => inferInstanceAs (Decidable (NextAccepted monitored known s.demo.producer))
  | .demo (.read _) => .isTrue trivial
  | .demo .poll => .isTrue trivial
  | .demo .stop => .isTrue trivial
  | .demo .timeout => .isTrue trivial
  | .demo .get => .isTrue trivial
  | .demo (.add _) => .isTrue trivial
  | .demo .check => .isTrue trivial
  | .demo .handle => .isTrue trivial
  | .demo .quit => .isTrue trivial
  | .empty => .isTrue trivial
  | .stop => .isTrue trivial
  | .join => .isTrue trivial

end Shutdown

def DemoShutdown.init : DemoShutdown := ⟨.init, false, 0, .notCalled⟩

/-! ## The invariant -/

/-- The thread has neither taken `FINISH` nor ended. -/
def DemoProducer.live : DemoProducer → Bool
  | .got .finish => false
  | .stopped => false
  | _ => true

/-- Until `FINISH` is queued it is not in the queue, and the thread is live. From then on it is the
last event of the queue, and once it has been taken the queue is empty. -/
structure ShutdownInv (s : DemoShutdown) : Prop where
  ended : s.stopping ≠ .notCalled → s.demo.chan.reader = .ended
  before : s.stopping = .notCalled →
    .finish ∉ s.demo.changeEventQueue ∧ s.demo.producer.live = true
  joining : s.stopping = .joining →
    (∃ l, s.demo.changeEventQueue = l ++ [.finish] ∧ .finish ∉ l ∧ s.demo.producer.live = true) ∨
      (s.demo.changeEventQueue = [] ∧ s.demo.producer.live = false)
  not_failed : s.stopping ≠ .failed

section Quiet

variable {monitored : List (List Char)} {known : List Char → Bool} {d d' : DemoStream}
  {e : DemoEvent}

/-- A change that is accepted leaves the thread live and its queue alone. -/
theorem next_of_accepted {todo : List DemoChange} (h : Accepted monitored known todo) :
    (d.next monitored known todo).producer.live = true ∧
      (d.next monitored known todo).changeEventQueue = d.changeEventQueue ∧
      (d.next monitored known todo).chan.reader = d.chan.reader := by
  match todo with
  | [] => exact ⟨rfl, rfl, rfl⟩
  | .marker c :: rest =>
    rw [DemoStream.next]
    split_ifs with hsend hbreak
    · exact ⟨rfl, rfl, rfl⟩
    · exact ⟨rfl, rfl, rfl⟩
    · exact absurd h (not_or.mpr ⟨hsend, hbreak⟩)
  | .change path val :: rest =>
    rw [DemoStream.next]
    split_ifs with hpath hmonitored hknown
    · exact absurd hpath h.1
    · exact ⟨rfl, rfl, rfl⟩
    · exact absurd (h.2 hmonitored) hknown
    · exact ⟨rfl, rfl, rfl⟩

/-- What a step of the adapter can mean for the change thread: it takes an event, or it queues
`SEND`, or nothing that matters here. -/
theorem demoStep_thread (hs : demoStep monitored known d e = some d') (htimeout : e ≠ .timeout)
    (hquit : e ≠ .quit) (hread : ∀ r, e ≠ .read r) (hraises : e ≠ .addRaises)
    (hnext : e = .next → ∀ todo, d.producer = .adding todo → Accepted monitored known todo) :
    d'.chan.reader = d.chan.reader ∧
      ((d'.changeEventQueue = d.changeEventQueue ∧ d'.producer.live = d.producer.live) ∨
        (∃ event, d.changeEventQueue = event :: d'.changeEventQueue ∧ d'.producer = .got event) ∨
        (e = .queueSend ∧ d' = ({ d with producer := .idle }).put .send)) := by
  cases e with
  | read r => exact absurd rfl (hread r)
  | timeout => exact absurd rfl htimeout
  | quit => exact absurd rfl hquit
  | addRaises => exact absurd rfl hraises
  | poll => exact Option.some_inj.mp hs ▸ ⟨rfl, Or.inl ⟨rfl, rfl⟩⟩
  | stop => exact Option.some_inj.mp hs ▸ ⟨rfl, Or.inl ⟨rfl, rfl⟩⟩
  | get =>
    simp only [demoStep] at hs
    split at hs
    next event queue hp hq =>
      rw [Option.some_inj] at hs
      subst hs
      exact ⟨rfl, Or.inr (Or.inl ⟨event, hq, rfl⟩)⟩
    next => exact absurd hs (by simp)
  | add changes =>
    simp only [demoStep] at hs
    split at hs
    next hp =>
      rw [Option.ite_none_right_eq_some, Option.some_inj] at hs
      obtain ⟨-, rfl⟩ := hs
      exact ⟨rfl, Or.inl ⟨rfl, by rw [hp]; rfl⟩⟩
    next => exact absurd hs (by simp)
  | next =>
    simp only [demoStep] at hs
    split at hs
    next todo hp =>
      rw [Option.some_inj] at hs
      subst hs
      -- changes that are accepted do not end the thread
      obtain ⟨hlive, hqueue, hreader⟩ := next_of_accepted (d := d) (hnext rfl todo hp)
      exact ⟨hreader, Or.inl ⟨hqueue, by rw [hlive, hp]; rfl⟩⟩
    next => exact absurd hs (by simp)
  | check =>
    simp only [demoStep] at hs
    split at hs
    next send hp =>
      rw [Option.some_inj] at hs
      subst hs
      refine ⟨rfl, Or.inl ⟨rfl, ?_⟩⟩
      rw [hp]
      dsimp only
      split_ifs <;> rfl
    next => exact absurd hs (by simp)
  | queueSend =>
    simp only [demoStep] at hs
    split at hs
    next hp =>
      rw [Option.some_inj] at hs
      subst hs
      exact ⟨rfl, Or.inr (Or.inr ⟨rfl, rfl⟩)⟩
    next => exact absurd hs (by simp)
  | handle =>
    simp only [demoStep] at hs
    split at hs
    next hp =>
      rw [Option.some_inj] at hs
      subst hs
      exact ⟨rfl, Or.inl ⟨rfl, by rw [hp]; rfl⟩⟩
    next hp =>
      rw [Option.some_inj] at hs
      subst hs
      exact ⟨rfl, Or.inl ⟨rfl, by rw [hp]; rfl⟩⟩
    next => exact absurd hs (by simp)

variable {s s' : DemoShutdown}

theorem shutdownInv_init : ShutdownInv .init :=
  ⟨fun h ↦ absurd rfl h, fun _ ↦ ⟨List.not_mem_nil, rfl⟩, fun h ↦ absurd h (by decide), by decide⟩

/-- A `read()` that has ended takes no step. -/
theorem Channel.read_of_ended {β : Type*} {c : Channel β} (h : c.reader = .ended) (r : ReadEvent) :
    c.read r = none := by
  cases r <;> simp [Channel.read, h]

/-- Steps of `read()` come before `stop_monitoring`. -/
theorem shutdownInv_read {r : ReadEvent} (h : ShutdownInv s)
    (hs : demoStep monitored known s.demo (.read r) = some d') :
    ShutdownInv { s with demo := d' } := by
  simp only [demoStep, Option.map_eq_some_iff] at hs
  obtain ⟨c, hc, rfl⟩ := hs
  have hcalled : s.stopping = .notCalled := by
    by_contra hne
    exact absurd (hc.symm.trans (Channel.read_of_ended (h.ended hne) r)) (by simp)
  obtain ⟨hqueue, hlive⟩ := h.before hcalled
  refine ⟨fun hne ↦ absurd hcalled hne, fun _ ↦ ⟨hqueue, ?_⟩, fun hjoin ↦ ?_, h.not_failed⟩
  · dsimp only
    split_ifs
    · rfl
    · exact hlive
  · exact absurd (hcalled.symm.trans hjoin) (by decide)

/-- The thread takes an event. When it is `FINISH`, it was the last one. -/
theorem shutdownInv_get {event : ChangeEvent} (h : ShutdownInv s)
    (hreader : d'.chan.reader = s.demo.chan.reader)
    (hqueue : s.demo.changeEventQueue = event :: d'.changeEventQueue)
    (hgot : d'.producer = .got event) : ShutdownInv { s with demo := d' } := by
  have hlive : event ≠ .finish → d'.producer.live = true := by
    intro hne
    rw [hgot]
    cases event with
    | finish => exact absurd rfl hne
    | _ => rfl
  refine ⟨fun hne ↦ hreader.trans (h.ended hne), fun hcalled ↦ ?_, fun hjoin ↦ ?_, h.not_failed⟩
  · obtain ⟨hnot, -⟩ := h.before hcalled
    rw [hqueue, List.mem_cons, not_or] at hnot
    exact ⟨hnot.2, hlive (Ne.symm hnot.1)⟩
  · rcases h.joining hjoin with ⟨l, hl, hnot, -⟩ | ⟨hnil, -⟩
    · rw [hqueue] at hl
      cases l with
      | nil =>
        rw [List.nil_append, List.cons.injEq] at hl
        obtain ⟨rfl, hrest⟩ := hl
        exact Or.inr ⟨hrest, by rw [hgot]; rfl⟩
      | cons first l =>
        rw [List.cons_append, List.cons.injEq] at hl
        obtain ⟨rfl, hrest⟩ := hl
        rw [List.mem_cons, not_or] at hnot
        exact Or.inl ⟨l, hrest, hnot.2, hlive (Ne.symm hnot.1)⟩
    · exact absurd (hqueue.symm.trans hnil) (by simp)

/-- The thread queues an event other than `FINISH` before `stop_monitoring`. -/
theorem shutdownInv_put {event : ChangeEvent} (h : ShutdownInv s)
    (hcalled : s.stopping = .notCalled) (hevent : event ≠ .finish)
    (hlive : d.producer.live = true)
    (hqueue : d.changeEventQueue = s.demo.changeEventQueue) {emptied : Bool} {addCount : ℕ} :
    ShutdownInv ⟨d.put event, emptied, addCount, s.stopping⟩ := by
  refine ⟨fun hne ↦ absurd hcalled hne, fun _ ↦ ⟨?_, hlive⟩, fun hjoin ↦ ?_, h.not_failed⟩
  · rw [DemoStream.put, hqueue, List.mem_append, List.mem_singleton, not_or]
    exact ⟨(h.before hcalled).1, Ne.symm hevent⟩
  · exact absurd (hcalled.symm.trans hjoin) (by decide)

/-- **Every quiet step keeps the invariant.** -/
theorem shutdownInv_step {e : ShutdownEvent} (h : ShutdownInv s)
    (hquiet : StopsQuietly monitored known s e)
    (hs : shutdownStep monitored known s e = some s') : ShutdownInv s' := by
  cases e with
  | demo e =>
    simp only [shutdownStep, Option.ite_none_left_eq_some, Option.map_eq_some_iff, not_or] at hs
    obtain ⟨⟨htimeout, hquit, -⟩, d', hd, rfl⟩ := hs
    by_cases hread : ∃ r, e = .read r
    · obtain ⟨r, rfl⟩ := hread
      exact shutdownInv_read h hd
    have hraises : e ≠ .addRaises := by
      rintro rfl
      exact hquiet
    have hnext : e = .next → ∀ todo, s.demo.producer = .adding todo →
        Accepted monitored known todo := by
      rintro rfl todo hp
      simpa only [StopsQuietly, NextAccepted, hp] using hquiet
    obtain ⟨hreader, ⟨hqueue, hlive⟩ | ⟨event, hqueue, hgot⟩ | ⟨rfl, rfl⟩⟩ :=
      demoStep_thread hd htimeout hquit (fun r hr ↦ hread ⟨r, hr⟩) hraises hnext
    · refine ⟨fun hne ↦ hreader.trans (h.ended hne), fun hcalled ↦ ?_, fun hjoin ↦ ?_,
        h.not_failed⟩
      · rw [hqueue, hlive]
        exact h.before hcalled
      · rw [hqueue, hlive]
        exact h.joining hjoin
    · exact shutdownInv_get h hreader hqueue hgot
    · refine shutdownInv_put (d := { s.demo with producer := .idle }) h hquiet ?_ rfl rfl
      decide
  | empty =>
    simp only [shutdownStep, Option.ite_none_right_eq_some, Option.some_inj] at hs
    obtain ⟨-, rfl⟩ := hs
    exact ⟨h.ended, h.before, h.joining, h.not_failed⟩
  | resume skip =>
    simp only [shutdownStep, Option.ite_none_right_eq_some] at hs
    obtain ⟨-, hs⟩ := hs
    split_ifs at hs with hskip
    · rw [Option.some_inj] at hs
      subst hs
      exact ⟨h.ended, h.before, h.joining, h.not_failed⟩
    · rw [Option.some_inj] at hs
      subst hs
      -- the handler of `Empty` queues another change only before `stop_monitoring`
      have hcalled : s.stopping = .notCalled := by
        by_contra hne
        exact hskip (hquiet hne)
      refine shutdownInv_put h hcalled ?_ (h.before hcalled).2 rfl
      decide
  | stop =>
    simp only [shutdownStep, Option.ite_none_right_eq_some, Option.map_eq_some_iff] at hs
    obtain ⟨⟨hcalled, -⟩, d', hd, rfl⟩ := hs
    simp only [demoStep, Option.ite_none_right_eq_some, Option.some_inj] at hd
    obtain ⟨hended, rfl⟩ := hd
    obtain ⟨hnot, hlive⟩ := h.before hcalled
    refine ⟨fun _ ↦ hended, fun hne ↦ absurd hne (by simp), fun _ ↦ ?_, by simp⟩
    exact Or.inl ⟨_, rfl, hnot, hlive⟩
  | join =>
    simp only [shutdownStep, Option.ite_none_right_eq_some, Option.some_inj] at hs
    obtain ⟨⟨hjoin, hstopped⟩, rfl⟩ := hs
    -- a thread that has ended has taken `FINISH`, which was the last event
    have hnil : s.demo.changeEventQueue = [] := by
      rcases h.joining hjoin with ⟨l, -, -, hlive⟩ | ⟨hnil, -⟩
      · rw [hstopped] at hlive
        exact absurd hlive (by decide)
      · exact hnil
    rw [if_pos hnil]
    exact ⟨fun _ ↦ h.ended (by rw [hjoin]; decide), fun hne ↦ absurd hne (by simp),
      fun hne ↦ absurd hne (by simp), by simp⟩

/-- **Shutdown.** The assertion that the queue is empty never fails in a run in which the thread
queues nothing behind `FINISH` and is ended neither by generating changes nor by a change. -/
theorem not_failed_of_stopsQuietly
    (h : (shutdownMachine monitored known).Reach (StopsQuietly monitored known) .init s) :
    s.stopping ≠ .failed := by
  have hinv : ShutdownInv s := h.invariant shutdownInv_init fun _ _ _ hI hP hs ↦
    shutdownInv_step hI hP hs
  exact hinv.not_failed

end Quiet

/-- `read()` samples once and ends. -/
def readOnce : List ShutdownEvent :=
  [.demo (.read .sampled), .demo .stop, .demo (.read .get), .demo (.read .serve)]

/-- A time-out queues `ADD`, a change of it is sent, and then `FINISH` is queued. -/
def quietStop : List ShutdownEvent :=
  [.demo (.read .sampled), .empty, .resume false, .demo .get,
    .demo (.add [.change "/a".toList "1".toList, .marker "send".toList]), .demo .next, .demo .next,
    .demo .check, .demo .queueSend, .demo .get, .demo .handle, .demo (.read .get),
    .demo (.read .serve), .demo (.read .convert), .demo (.read .clear), .demo .stop,
    .demo (.read .get), .demo (.read .serve), .stop, .demo .get, .demo .handle, .join]

/-- `FINISH` is queued between the time-out and its `ADD`. -/
def lateAdd : List ShutdownEvent :=
  readOnce ++ [.empty, .stop, .resume false, .demo .get, .demo .handle, .join]

/-- A run that stops quietly after a change has been sent. -/
theorem not_failed_quietStop :
    ∃ s, (shutdownMachine ["/a".toList] fun _ ↦ true).Reach
        (StopsQuietly ["/a".toList] fun _ ↦ true) .init s ∧
      s.demo.chan.turned = [("/a".toList, "1".toList)] ∧ s.stopping = .returned ∧
      s.stopping ≠ .failed := by
  have hrun : (((shutdownMachine ["/a".toList] fun _ ↦ true).restrict
      (StopsQuietly ["/a".toList] fun _ ↦ true)).runFrom .init quietStop).any
      (fun s ↦ decide (s.demo.chan.turned = [("/a".toList, "1".toList)] ∧ s.stopping = .returned))
        = true := by decide
  obtain ⟨s, hs, htest⟩ := Machine.exists_reach_of_any hrun
  obtain ⟨hturned, hreturned⟩ := of_decide_eq_true htest
  exact ⟨s, hs, hturned, hreturned, not_failed_of_stopsQuietly hs⟩

/-- The thread dies in generating the changes of its first `ADD`, and nobody takes `FINISH`. -/
example : ((shutdownMachine ["/a".toList] fun _ ↦ true).runFrom .init
    (.demo (.read .sampled) :: [.empty, .resume false, .demo .get, .demo .addRaises, .demo .stop,
      .demo (.read .get), .demo (.read .serve), .stop, .join])).any
    (fun s ↦ decide (s.stopping = .failed)) = true := by decide

/-- The `ADD` behind `FINISH` is still in the queue when the thread has been joined. -/
theorem failed_lateAdd :
    ¬∀ s, (shutdownMachine ["/a".toList] fun _ ↦ true).Reachable .init s →
      s.stopping ≠ .failed := by
  intro h
  have hrun : (((shutdownMachine ["/a".toList] fun _ ↦ true).restrict fun _ _ ↦ True).runFrom .init
      lateAdd).any (fun s ↦ decide (s.stopping = .failed)) = true := by decide
  obtain ⟨s, hs, htest⟩ := Machine.exists_reach_of_any hrun
  exact h s hs (of_decide_eq_true htest)

end ConfdDemos.Gnmi
