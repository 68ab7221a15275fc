import ConfdDemos.Gnmi.Reader

/-!
# The generator `read()`

`read()` is a generator: `Subscribe` pulls one response after the other out of it, and between two
pulls it is suspended at a `yield`. There the consumer may also close it, and a call in its body may
raise; in both cases the generator ends where it is, and what stands behind its loop does not run.

`ReadPoint` is a program point of `read()` and `ReadPoint.move` is what it does next, for all three
subscription modes. What the calls do to the handler is left to the machines that run it.
-/

namespace ConfdDemos.Gnmi

/-- `SubscriptionList.Mode`. -/
inductive Mode
  | once
  | poll
  | stream
  deriving DecidableEq, Repr

/-- A `SubscribeResponse`, as far as the protocol is concerned. -/
inductive Response
  | sample
  | syncResponse
  | changes
  deriving DecidableEq, Repr

/-- The `yield`s of `read()`. -/
inductive Yield
  | firstSample
  | syncResponse
  | sample
  /-- In the `yield from` over the responses of `changes()`, with some still to come. -/
  | changes (left : ℕ)
  deriving DecidableEq, Repr

def Yield.response : Yield → Response
  | firstSample => .sample
  | syncResponse => .syncResponse
  | sample => .sample
  | changes _ => .changes

inductive ReadPoint
  /-- In the first `sample()`. -/
  | sampling
  /-- Suspended at a `yield`. -/
  | yielded (y : Yield)
  /-- At `read_queue.get()`. -/
  | waiting
  /-- About to process an event, in `sample()` or in `changes()`. -/
  | took (event : SubscriptionEvent)
  /-- In `stop_monitoring()`. -/
  | stopping
  | returned
  /-- Ended by an exception, or closed. -/
  | raised
  deriving DecidableEq, Repr

/-- What makes `read()` move on. -/
inductive ReadMove
  | sampled
  | sampleRaised
  /-- `changes()` has returned a list of responses. -/
  | changed (n : ℕ)
  | changesRaised
  /-- The consumer asks for the next response. -/
  | next
  /-- The consumer closes the generator. -/
  | close
  | get (event : SubscriptionEvent)
  /-- `FINISH` leaves the loop. -/
  | finish
  /-- `stop_monitoring()` has returned. -/
  | stopped
  deriving DecidableEq, Repr

/-- What a move leaves in the queue: `get` takes the event at its head. -/
def ReadMove.take : ReadMove → List SubscriptionEvent → Option (List SubscriptionEvent)
  | get event, event' :: queue => if event' = event then some queue else none
  | get _, [] => none
  | _, queue => some queue

theorem ReadMove.eq_cons_of_take {event : SubscriptionEvent} {q queue : List SubscriptionEvent}
    (h : (get event).take q = some queue) : q = event :: queue := by
  cases q with
  | nil => exact absurd h (by simp [take])
  | cons event' q =>
    simp only [take, Option.ite_none_right_eq_some, Option.some_inj] at h
    rw [h.1, h.2]

/-- The generator is left where it stands. -/
def ReadMove.Raises : ReadMove → Prop
  | sampleRaised => True
  | changesRaised => True
  | close => True
  | _ => False

namespace ReadPoint

/-- Behind the loop. -/
def afterLoop (mode : Mode) : ReadPoint := if mode = .stream then stopping else returned

/-- The `yield from` over the rest of a list of responses. -/
def yieldFrom : ℕ → ReadPoint
  | 0 => waiting
  | n + 1 => yielded (.changes n)

/-- Behind a `yield`. -/
def afterYield (mode : Mode) : Yield → ReadPoint
  | .firstSample => yielded .syncResponse
  | .syncResponse => if mode = .once then afterLoop mode else waiting
  | .sample => waiting
  | .changes left => yieldFrom left

/-- The control flow of `read()`. -/
def move (mode : Mode) : ReadPoint → ReadMove → Option ReadPoint
  | sampling, .sampled => some (yielded .firstSample)
  | sampling, .sampleRaised => some raised
  | took .sample, .sampled => some (yielded .sample)
  | took .sample, .sampleRaised => some raised
  | took .sendChanges, .changed n => some (yieldFrom n)
  | took .sendChanges, .changesRaised => some raised
  | took .finish, .finish => some (afterLoop mode)
  | yielded y, .next => some (afterYield mode y)
  | yielded _, .close => some raised
  | waiting, .get event => some (took event)
  | stopping, .stopped => some returned
  | _, _ => none

/-- The generator has ended. -/
def Ended (p : ReadPoint) : Prop := p = returned ∨ p = raised

instance (p : ReadPoint) : Decidable p.Ended := inferInstanceAs (Decidable (_ ∨ _))

/-- Between the first sample and the end. -/
def Live (p : ReadPoint) : Prop := p ≠ sampling ∧ p ≠ returned ∧ p ≠ raised

theorem live_yieldFrom (n : ℕ) : (yieldFrom n).Live := by
  cases n <;> simp [yieldFrom, Live]

/-- What a move can be. -/
inductive Moves (mode : Mode) : ReadPoint → ReadMove → ReadPoint → Prop
  | first : Moves mode sampling .sampled (yielded .firstSample)
  | firstRaised : Moves mode sampling .sampleRaised raised
  | sample : Moves mode (took .sample) .sampled (yielded .sample)
  | sampleRaised : Moves mode (took .sample) .sampleRaised raised
  | changes (n : ℕ) : Moves mode (took .sendChanges) (.changed n) (yieldFrom n)
  | changesRaised : Moves mode (took .sendChanges) .changesRaised raised
  | finish : Moves mode (took .finish) .finish (afterLoop mode)
  | next (y : Yield) : Moves mode (yielded y) .next (afterYield mode y)
  | close (y : Yield) : Moves mode (yielded y) .close raised
  | get (event : SubscriptionEvent) : Moves mode waiting (.get event) (took event)
  | stop : Moves mode stopping .stopped returned

theorem moves_of_move {mode : Mode} {p p' : ReadPoint} {m : ReadMove}
    (h : p.move mode m = some p') : Moves mode p m p' := by
  rw [move.eq_def] at h
  split at h
  case h_12 => exact absurd h (by simp)
  all_goals
    obtain rfl := Option.some_inj.mp h
    constructor

/-- While a STREAM subscription is live, only an exception or the consumer ends the generator before
`stop_monitoring()` does. -/
theorem Moves.stream {p p' : ReadPoint} {m : ReadMove} (h : Moves .stream p m p')
    (hstart : p ≠ sampling) (hstop : p ≠ stopping) :
    p.Live ∧ (m.Raises ∧ p' = raised ∨ ¬m.Raises ∧ p'.Live) := by
  cases h with
  | first => exact absurd rfl hstart
  | firstRaised => exact absurd rfl hstart
  | changes n => exact ⟨by simp [Live], .inr ⟨id, live_yieldFrom n⟩⟩
  | next y =>
    refine ⟨by simp [Live], .inr ⟨id, ?_⟩⟩
    cases y with
    | changes left => exact live_yieldFrom left
    | _ => simp [Live, afterYield]
  | stop => exact absurd rfl hstop
  | _ => simp [Live, ReadMove.Raises, afterLoop]

/-- The response that a generator suspended here has just given. -/
def given : ReadPoint → Option Response
  | yielded y => some y.response
  | _ => none

end ReadPoint

end ConfdDemos.Gnmi
