import ConfdDemos.Foundation.Machine
import ConfdDemos.Gnmi.Generator

/-!
# The life of the change thread

The first `sample()` of a STREAM subscription ends with `start_monitoring()`, which opens the stop
pipe and starts the change thread. `stop_monitoring()` stands behind the loop of `read()`, outside
of any `finally`: it writes to the pipe, joins the thread and closes the pipe.

The machine lets every thread move at any time: the request thread and the RPC callback post events,
the change thread posts `SEND_CHANGES`, fails inside its loop (and posts `FINISH`), dies before it,
or sees the pipe and ends. `cleanedUp_iff` compares the ways in which `read()` can end: it cleans up
just when nothing has raised and nobody has closed it.
-/

namespace ConfdDemos.Gnmi

/-- The change thread itself, whether or not the handler refers to it. -/
inductive ThreadState
  | absent
  | running
  | ended
  deriving DecidableEq, Repr

/-- The handler of a STREAM subscription. -/
structure Handler where
  point : ReadPoint
  readQueue : List SubscriptionEvent
  /-- `change_thread is not None`. -/
  changeThread : Bool
  /-- The bytes in `stop_pipe`, if it is open. -/
  stopPipe : Option ℕ
  /-- `stop_monitoring()` has written to the pipe and joins the thread. -/
  joining : Bool
  /-- `stop_monitoring()` has been executed. -/
  stopped : Bool
  thread : ThreadState
  deriving DecidableEq, Repr

inductive LifeEvent
  /-- A move of `read()`. -/
  | read (move : ReadMove)
  /-- The first `sample()` raises before it starts monitoring. -/
  | firstRaised
  /-- `start_monitoring()` cannot start the thread it has made. -/
  | startFailed
  | write
  | join
  /-- Another thread posts an event. -/
  | post (event : SubscriptionEvent)
  /-- The change thread posts `SEND_CHANGES`. -/
  | notify
  /-- It sees the stop pipe. -/
  | threadStop
  /-- It fails inside its loop. -/
  | threadFail
  /-- It fails before its loop. -/
  | threadDie
  deriving DecidableEq, Repr

namespace Handler

def init : Handler := ⟨.sampling, [], false, none, false, false, .absent⟩

def putEvent (s : Handler) (event : SubscriptionEvent) : Handler :=
  { s with readQueue := s.readQueue ++ [event] }

/-- `start_monitoring()` up to the start of the thread. -/
def prepareMonitoring (s : Handler) : Handler := { s with stopPipe := some 0, changeThread := true }

/-- A move of `read()`; the first sample starts monitoring. -/
def readStep (s : Handler) (m : ReadMove) : Option Handler :=
  if s.point = .sampling then
    if m = .sampled then
      some { s.prepareMonitoring with point := .yielded .firstSample, thread := .running }
    else none
  else if s.point = .stopping then none
  else do
    let p ← s.point.move .stream m
    let queue ← m.take s.readQueue
    return { s with point := p, readQueue := queue }

def step (s : Handler) : LifeEvent → Option Handler
  | .read m => s.readStep m
  | .firstRaised => if s.point = .sampling then some { s with point := .raised } else none
  | .startFailed =>
    if s.point = .sampling then some { s.prepareMonitoring with point := .raised } else none
  | .write =>
    if s.point = .stopping ∧ s.changeThread = true ∧ s.joining = false then
      some { s with stopPipe := s.stopPipe.map (· + 1), joining := true }
    else none
  | .join =>
    if s.point = .stopping then
      if s.changeThread = false then some { s with point := .returned, stopped := true }
      else if s.joining = true ∧ s.thread ≠ .running then
        some { s with
          point := .returned
          changeThread := false
          stopPipe := none
          stopped := true }
      else none
    else none
  | .post event => some (s.putEvent event)
  | .notify => if s.thread = .running then some (s.putEvent .sendChanges) else none
  | .threadStop =>
    if s.thread = .running ∧ (s.stopPipe.getD 0 > 0) then some { s with thread := .ended } else none
  | .threadFail =>
    if s.thread = .running then some { s.putEvent .finish with thread := .ended } else none
  | .threadDie => if s.thread = .running then some { s with thread := .ended } else none

/-- What the clean-up is for: it has been executed, the handler has let go of the thread and of the
pipe, and the thread is gone. -/
structure CleanedUp (s : Handler) : Prop where
  stopped : s.stopped = true
  changeThread : s.changeThread = false
  stopPipe : s.stopPipe = none
  thread : s.thread ≠ .running

/-- After `start_monitoring()` and before the end of `stop_monitoring()`, or behind both. -/
def Orderly (s : Handler) : Prop :=
  match s.point with
  | .sampling => True
  | .returned => s.CleanedUp
  | .raised => False
  | _ => s.changeThread = true

/-- Ended without clean-up. -/
def Broken (s : Handler) : Prop := s.point = .raised ∧ s.changeThread = true

end Handler

/-- `read()` is left by an exception once monitoring has begun, or closed by its consumer. -/
def LifeEvent.Abrupt : LifeEvent → Prop
  | .read m => m.Raises
  | .startFailed => True
  | _ => False

/-- A step that `read()` does not take. -/
def LifeEvent.OfOthers : LifeEvent → Prop
  | .post _ => True
  | .notify => True
  | .threadStop => True
  | .threadFail => True
  | .threadDie => True
  | _ => False

/-- The handler as a machine. -/
def lifecycle : Machine Handler LifeEvent := ⟨Handler.step⟩

namespace Handler

variable {s s' : Handler} {e : LifeEvent} {m : ReadMove}

theorem orderly_of_live (hp : s.point.Live) : s.Orderly ↔ s.changeThread = true := by
  obtain ⟨h₁, h₂, h₃⟩ := hp
  rw [Orderly]
  split <;> simp_all

/-- A move of `read()` starts monitoring, or changes the program point and the queue only. -/
theorem readStep_cases (h : s.readStep m = some s') :
    (m = .sampled ∧ s' = { s.prepareMonitoring with
      point := .yielded .firstSample, thread := .running }) ∨
    (s.point ≠ .sampling ∧ s.point ≠ .stopping ∧ ∃ p queue, ReadPoint.Moves .stream s.point m p ∧
      s' = { s with point := p, readQueue := queue }) := by
  rw [readStep] at h
  split_ifs at h with hstart hm hstop
  · exact .inl ⟨hm, (Option.some_inj.mp h).symm⟩
  · simp only [Option.bind_eq_bind, Option.bind_eq_some_iff, Option.pure_def, Option.some_inj] at h
    obtain ⟨p, hp, queue, -, rfl⟩ := h
    exact .inr ⟨hstart, hstop, p, queue, ReadPoint.moves_of_move hp, rfl⟩

/-- What the other threads leave alone. -/
structure Frame (s s' : Handler) : Prop where
  point : s'.point = s.point
  changeThread : s'.changeThread = s.changeThread
  stopPipe : s'.stopPipe = s.stopPipe
  stopped : s'.stopped = s.stopped
  thread : s.thread ≠ .running → s'.thread ≠ .running

/-- A step of another thread. -/
theorem frame_of_step (h : s.step e = some s') (he : e.OfOthers) : s.Frame s' := by
  cases e with
  | post event =>
    obtain rfl := Option.some_inj.mp h
    exact ⟨rfl, rfl, rfl, rfl, id⟩
  | notify =>
    simp only [step, Option.ite_none_right_eq_some, Option.some_inj] at h
    obtain ⟨-, rfl⟩ := h
    exact ⟨rfl, rfl, rfl, rfl, id⟩
  | threadStop =>
    simp only [step, Option.ite_none_right_eq_some, Option.some_inj] at h
    obtain ⟨-, rfl⟩ := h
    exact ⟨rfl, rfl, rfl, rfl, fun _ ↦ by simp⟩
  | threadFail =>
    simp only [step, Option.ite_none_right_eq_some, Option.some_inj] at h
    obtain ⟨-, rfl⟩ := h
    exact ⟨rfl, rfl, rfl, rfl, fun _ ↦ by simp⟩
  | threadDie =>
    simp only [step, Option.ite_none_right_eq_some, Option.some_inj] at h
    obtain ⟨-, rfl⟩ := h
    exact ⟨rfl, rfl, rfl, rfl, fun _ ↦ by simp⟩
  | _ => exact he.elim

theorem Orderly.frame (hs : s.Orderly) (h : s.Frame s') : s'.Orderly := by
  rw [Orderly] at hs ⊢
  rw [h.point]
  split at hs
  · trivial
  · obtain ⟨h₁, h₂, h₃, h₄⟩ := hs
    exact ⟨h.stopped.trans h₁, h.changeThread.trans h₂, h.stopPipe.trans h₃, h.thread h₄⟩
  · exact hs
  · exact h.changeThread.trans hs

/-- A step that is not abrupt keeps the handler in order. -/
theorem Orderly.step (hs : s.Orderly) (h : s.step e = some s') (hne : e ≠ .firstRaised)
    (he : ¬e.Abrupt) : s'.Orderly := by
  cases e with
  | read m =>
    rcases readStep_cases h with ⟨-, rfl⟩ | ⟨hstart, hstop, p, queue, hmove, rfl⟩
    · exact rfl
    · obtain ⟨hlive, ⟨hraises, -⟩ | ⟨-, hlive'⟩⟩ := hmove.stream hstart hstop
      · exact absurd hraises he
      · exact (orderly_of_live hlive').mpr ((orderly_of_live hlive).mp hs)
  | firstRaised => exact absurd rfl hne
  | startFailed => exact absurd trivial he
  | write =>
    simp only [Handler.step, Option.ite_none_right_eq_some, Option.some_inj] at h
    obtain ⟨⟨hp, hthread, -⟩, rfl⟩ := h
    rw [orderly_of_live (by simp [ReadPoint.Live, hp])]
    exact hthread
  | join =>
    simp only [Handler.step, Option.ite_none_right_eq_some] at h
    obtain ⟨hp, h⟩ := h
    have hthread : s.changeThread = true := by
      rwa [orderly_of_live (by simp [ReadPoint.Live, hp])] at hs
    rw [if_neg (by simp [hthread]), Option.ite_none_right_eq_some, Option.some_inj] at h
    obtain ⟨⟨-, hended⟩, rfl⟩ := h
    exact ⟨rfl, rfl, rfl, hended⟩
  | _ => exact hs.frame (frame_of_step h trivial)

/-- An abrupt one ends `read()` and leaves the rest as it is. -/
theorem Orderly.broken_of_abrupt (hs : s.Orderly) (h : s.step e = some s') (he : e.Abrupt) :
    s'.Broken := by
  cases e with
  | read m =>
    rcases readStep_cases h with ⟨rfl, -⟩ | ⟨hstart, hstop, p, queue, hmove, rfl⟩
    · exact he.elim
    · obtain ⟨hlive, ⟨-, rfl⟩ | ⟨hraises, -⟩⟩ := hmove.stream hstart hstop
      · exact ⟨rfl, (orderly_of_live hlive).mp hs⟩
      · exact absurd he hraises
  | startFailed =>
    simp only [Handler.step, Option.ite_none_right_eq_some, Option.some_inj] at h
    obtain ⟨-, rfl⟩ := h
    exact ⟨rfl, rfl⟩
  | _ => exact he.elim

/-- What has ended so stays so: nobody else executes `stop_monitoring()`. -/
theorem Broken.step (hs : s.Broken) (h : s.step e = some s') : s'.Broken := by
  obtain ⟨hp, hthread⟩ := hs
  cases e with
  | read m =>
    rcases readStep_cases h with ⟨-, rfl⟩ | ⟨hstart, hstop, p, queue, hmove, rfl⟩
    · simp [Handler.step, readStep, hp, ReadPoint.move] at h
    · exact absurd hp (hmove.stream hstart hstop).1.2.2
  | firstRaised => simp [Handler.step, hp] at h
  | startFailed => simp [Handler.step, hp] at h
  | write => simp [Handler.step, hp] at h
  | join => simp [Handler.step, hp] at h
  | _ =>
    have hframe := frame_of_step h trivial
    exact ⟨hframe.point.trans hp, hframe.changeThread.trans hthread⟩

theorem broken_of_run {es : List LifeEvent} (hs : s.Broken)
    (h : lifecycle.runFrom s es = some s') : s'.Broken := by
  induction es generalizing s with
  | nil => exact Option.some_inj.mp h ▸ hs
  | cons e es ih =>
    rw [Machine.runFrom, Option.bind_eq_some_iff] at h
    obtain ⟨s₁, hstep, h⟩ := h
    exact ih (hs.step hstep) h

/-- **A run.** Either no step was abrupt and the handler is in order, or one was and it is
broken. -/
theorem orderly_or_broken {es : List LifeEvent} (hs : s.Orderly) (hes : .firstRaised ∉ es)
    (h : lifecycle.runFrom s es = some s') :
    (∀ e ∈ es, ¬e.Abrupt) ∧ s'.Orderly ∨ (∃ e ∈ es, e.Abrupt) ∧ s'.Broken := by
  induction es generalizing s with
  | nil =>
    obtain rfl := Option.some_inj.mp h
    exact .inl ⟨fun e he ↦ absurd he (by simp), hs⟩
  | cons e es ih =>
    rw [Machine.runFrom, Option.bind_eq_some_iff] at h
    obtain ⟨s₁, hstep, h⟩ := h
    rw [List.mem_cons, not_or] at hes
    by_cases he : e.Abrupt
    · refine .inr ⟨⟨e, List.mem_cons_self, he⟩, ?_⟩
      exact broken_of_run (hs.broken_of_abrupt hstep he) h
    · rcases ih (hs.step hstep (Ne.symm hes.1) he) hes.2 h with ⟨hall, hs'⟩ | ⟨⟨e', he', ha⟩, hs'⟩
      · exact .inl ⟨List.forall_mem_cons.mpr ⟨he, hall⟩, hs'⟩
      · exact .inr ⟨⟨e', List.mem_cons_of_mem _ he', ha⟩, hs'⟩

end Handler

/-- **The life of the change thread.** Once `read()` of a STREAM subscription has ended,
`stop_monitoring()` has been executed, the thread is gone and the pipe is closed, just when no call
in `read()` has raised after monitoring began and its consumer has not closed it. -/
theorem cleanedUp_iff {s : Handler} {es : List LifeEvent} (hes : .firstRaised ∉ es)
    (h : lifecycle.runFrom .init es = some s) (hend : s.point.Ended) :
    s.CleanedUp ↔ ∀ e ∈ es, ¬e.Abrupt := by
  have hinit : Handler.init.Orderly := trivial
  rcases Handler.orderly_or_broken hinit hes h with ⟨hall, hs⟩ | ⟨⟨e, he, ha⟩, hpoint, hthread⟩
  · refine iff_of_true ?_ hall
    rcases hend with hp | hp
    · rwa [Handler.Orderly, hp] at hs
    · rw [Handler.Orderly, hp] at hs
      exact hs.elim
  · refine iff_of_false (fun hclean ↦ ?_) fun hall ↦ hall e he ha
    rw [hclean.changeThread] at hthread
    exact absurd hthread (by simp)

/-- The client goes away while `read()` waits, and the RPC callback posts `FINISH`. -/
def finishedRun : List LifeEvent :=
  [.read .sampled, .read .next, .read .next, .post .finish, .read (.get .finish), .read .finish,
    .write, .threadStop, .join]

theorem cleanedUp_finishedRun :
    ∃ s, lifecycle.runFrom .init finishedRun = some s ∧ s.point.Ended ∧ s.CleanedUp := by
  have hrun : lifecycle.runFrom .init finishedRun = some _ := rfl
  have hcalm : ∀ e ∈ finishedRun, ¬e.Abrupt := by
    simp [finishedRun, LifeEvent.Abrupt, ReadMove.Raises]
  exact ⟨_, hrun, .inl rfl, (cleanedUp_iff (by decide) hrun (.inl rfl)).mpr hcalm⟩

/-- The client goes away while `read()` is suspended at its first response: the generator is closed,
the callback posts a `FINISH` that nobody reads, and the change thread goes on. -/
theorem not_cleanedUp_closed :
    ∃ s, lifecycle.runFrom .init [.read .sampled, .read .close, .post .finish] = some s ∧
      s.point.Ended ∧ s.changeThread = true ∧ s.stopPipe = some 0 ∧ s.thread = .running ∧
      ¬s.CleanedUp := by
  refine ⟨_, rfl, .inr rfl, rfl, rfl, rfl, fun h ↦ ?_⟩
  exact absurd h.changeThread (by decide)

end ConfdDemos.Gnmi
