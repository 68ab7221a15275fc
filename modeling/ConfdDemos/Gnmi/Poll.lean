import ConfdDemos.Foundation.Machine
import ConfdDemos.Gnmi.Generator

/-!
# POLL subscriptions

`Subscribe` runs `read()` in its own thread and `_read_sub_request` in another one. The request
thread turns every poll request into a `SAMPLE` event and the end of the request stream, normal or
by `grpc.RpcError`, into a `FINISH` event; `read()` takes the events one by one. Polls may arrive
before the first sample has been taken.

The machine interleaves the two threads in any order. The client keeps asking for responses,
`sample()` does not raise, and the RPC callback runs after `Subscribe` has returned; it posts a
`FINISH` that nobody reads.

## Counting

Every poll is in one of four places: not yet received, in the queue, being sampled, or answered.
`Poll.Inv` says that these add up, and that the queue ends with `FINISH` once the request thread has
posted it. A measure shows that every run comes to its end.
-/

namespace ConfdDemos.Gnmi

/-- Where `_read_sub_request` is. -/
inductive RequestPoint
  /-- In the loop, with some poll requests still to come. -/
  | reading (left : ℕ)
  /-- At `handler.stop()`. -/
  | stopping
  | leaving
  | ended
  deriving DecidableEq, Repr

structure Poll where
  point : ReadPoint
  readQueue : List SubscriptionEvent
  request : RequestPoint
  /-- The responses of `Subscribe`, in order. -/
  responses : List Response
  /-- `Subscribe` has joined the request thread and returned. -/
  returned : Bool
  /-- The RPC callback has run. -/
  rpcDone : Bool
  deriving DecidableEq, Repr

inductive PollEvent
  /-- A poll request is received. -/
  | poll
  /-- The request stream ends, perhaps by an error. -/
  | requestsEnd (error : Bool)
  | stop
  | exit
  | read (move : ReadMove)
  | join
  | rpcDone
  deriving DecidableEq, Repr

namespace Poll

def init (n : ℕ) : Poll := ⟨.sampling, [], .reading n, [], false, false⟩

def putEvent (s : Poll) (event : SubscriptionEvent) : Poll :=
  { s with readQueue := s.readQueue ++ [event] }

/-- A move of `read()` hands its response over to `Subscribe`, which yields it. -/
def readStep (s : Poll) (m : ReadMove) : Option Poll :=
  match m with
  | .sampleRaised => none
  | .close => none
  | _ => do
    let p ← s.point.move .poll m
    let queue ← m.take s.readQueue
    return { s with point := p, readQueue := queue, responses := s.responses ++ p.given.toList }

def step (s : Poll) : PollEvent → Option Poll
  | .poll =>
    match s.request with
    | .reading (left + 1) => some { s.putEvent .sample with request := .reading left }
    | _ => none
  -- an error is logged and otherwise treated like the end
  | .requestsEnd _ => if s.request = .reading 0 then some { s with request := .stopping } else none
  | .stop =>
    if s.request = .stopping then some { s.putEvent .finish with request := .leaving } else none
  | .exit => if s.request = .leaving then some { s with request := .ended } else none
  | .read m => s.readStep m
  | .join =>
    if s.point = .returned ∧ s.request = .ended ∧ s.returned = false then
      some { s with returned := true }
    else none
  | .rpcDone =>
    if s.returned = true ∧ s.rpcDone = false then some { s.putEvent .finish with rpcDone := true }
    else none

/-- The two threads of a POLL subscription. -/
def machine : Machine Poll PollEvent := ⟨step⟩

/-- What the client gets for `n` polls. -/
def expected (n : ℕ) : List Response := [.sample, .syncResponse] ++ List.replicate n .sample

end Poll

/-! ## The invariant -/

/-- The polls that have not been received. -/
def RequestPoint.left : RequestPoint → ℕ
  | reading left => left
  | _ => 0

/-- `FINISH` has been posted. -/
def RequestPoint.posted : RequestPoint → Bool
  | reading _ => false
  | stopping => false
  | leaving => true
  | ended => true

namespace Poll

/-- What the generator has given at each point, when it has answered `d` polls. -/
def Given (d : ℕ) (s : Poll) : Prop :=
  match s.point with
  | .sampling => d = 0 ∧ s.responses = []
  | .yielded .firstSample => d = 0 ∧ s.responses = [.sample]
  | .yielded .syncResponse => d = 0 ∧ s.responses = [.sample, .syncResponse]
  | .waiting => s.responses = expected d
  | .took .sample => s.responses = expected d
  | .yielded .sample => s.responses = expected d
  | _ => False

/-- The poll that is being sampled. -/
def sampling (s : Poll) : ℕ := if s.point = .took .sample then 1 else 0

/-- Before `read()` takes the `FINISH`: every poll is somewhere. -/
structure Running (n : ℕ) (s : Poll) : Prop where
  not_returned : s.returned = false
  not_done : s.rpcDone = false
  polls : ∃ c d,
    s.readQueue = List.replicate c .sample ++ (if s.request.posted then [.finish] else []) ∧
      s.Given d ∧ s.request.left + c + s.sampling + d = n

/-- From then on: all polls have been answered. -/
structure Finished (n : ℕ) (s : Poll) : Prop where
  point : s.point = .took .finish ∨ s.point = .returned
  posted : s.request.posted = true
  responses : s.responses = expected n
  returned : s.returned = true → s.point = .returned ∧ s.request = .ended

def Inv (n : ℕ) (s : Poll) : Prop := s.Running n ∨ s.Finished n

/-- The steps that are left, counting three for each event in the queue. -/
def measure (s : Poll) : ℕ :=
  (match s.request with
    | .reading left => 4 * left + 6
    | .stopping => 5
    | .leaving => 1
    | .ended => 0) +
  3 * s.readQueue.length +
  (match s.point with
    | .sampling => 5
    | .yielded .firstSample => 4
    | .yielded .syncResponse => 3
    | .took _ => 2
    | .yielded .sample => 1
    | .returned => 1
    | _ => 0) +
  (if s.returned then 0 else 1) + (if s.rpcDone then 0 else 4)

section Steps

variable {n c d : ℕ} {s s' : Poll} {e : PollEvent} {m : ReadMove}

theorem expected_succ (d : ℕ) : expected d ++ [.sample] = expected (d + 1) := by
  rw [expected, expected, List.append_assoc, ← List.replicate_succ']

theorem left_of_posted {r : RequestPoint} (h : r.posted = true) : r.left = 0 := by
  cases r with
  | reading left => exact absurd h (by simp [RequestPoint.posted])
  | _ => rfl

/-- A move of `read()` is one of the control flow that does not raise. -/
theorem readStep_cases (h : s.readStep m = some s') :
    ∃ p queue, ReadPoint.Moves .poll s.point m p ∧ m.take s.readQueue = some queue ∧
      m ≠ .sampleRaised ∧ m ≠ .close ∧ s' =
        { s with point := p, readQueue := queue, responses := s.responses ++ p.given.toList } := by
  rw [readStep.eq_def] at h
  split at h
  · exact absurd h (by simp)
  · exact absurd h (by simp)
  · next h₁ h₂ =>
    simp only [Option.bind_eq_bind, Option.bind_eq_some_iff, Option.pure_def, Option.some_inj] at h
    obtain ⟨p, hp, queue, hqueue, rfl⟩ := h
    exact ⟨p, queue, ReadPoint.moves_of_move hp, hqueue, h₁, h₂, rfl⟩

/-- The steps of the request thread move a poll into the queue, or finish it. -/
theorem Running.request_step (hs : s.Running n)
    (h : s.step e = some s') (he : ∀ m, e ≠ .read m) : s'.Running n ∧ s'.measure < s.measure := by
  obtain ⟨hret, hdone, c, d, hqueue, hgiven, hsum⟩ := hs
  cases e with
  | poll =>
    simp only [step] at h
    split at h
    next left hreq =>
      obtain rfl := Option.some_inj.mp h
      rw [hreq] at hqueue hsum
      -- the poll that was left to make is in the queue now
      refine ⟨⟨hret, hdone, c + 1, d, ?_, hgiven, ?_⟩, ?_⟩
      · simp [putEvent, hqueue, RequestPoint.posted, List.replicate_succ']
      · have hsum' : left + 1 + c + s.sampling + d = n := hsum
        change left + (c + 1) + s.sampling + d = n
        omega
      · simp only [measure, putEvent, hreq, List.length_append, List.length_singleton]
        omega
    next => exact absurd h (by simp)
  | requestsEnd error =>
    simp only [step, Option.ite_none_right_eq_some, Option.some_inj] at h
    obtain ⟨hreq, rfl⟩ := h
    rw [hreq] at hqueue hsum
    refine ⟨⟨hret, hdone, c, d, hqueue, hgiven, hsum⟩, ?_⟩
    simp only [measure, hreq]
    omega
  | stop =>
    simp only [step, Option.ite_none_right_eq_some, Option.some_inj] at h
    obtain ⟨hreq, rfl⟩ := h
    rw [hreq] at hqueue hsum
    refine ⟨⟨hret, hdone, c, d, ?_, hgiven, hsum⟩, ?_⟩
    · simpa [putEvent, RequestPoint.posted] using hqueue
    · simp only [measure, putEvent, hreq, List.length_append, List.length_singleton]
      omega
  | exit =>
    simp only [step, Option.ite_none_right_eq_some, Option.some_inj] at h
    obtain ⟨hreq, rfl⟩ := h
    rw [hreq] at hqueue hsum
    refine ⟨⟨hret, hdone, c, d, hqueue, hgiven, hsum⟩, ?_⟩
    simp only [measure, hreq]
    omega
  | read m => exact absurd rfl (he m)
  | join =>
    simp only [step, Option.ite_none_right_eq_some, Option.some_inj] at h
    rw [Given, h.1.1] at hgiven
    exact hgiven.elim
  | rpcDone =>
    simp only [step, Option.ite_none_right_eq_some, Option.some_inj, hret] at h
    exact absurd h.1.1 (by simp)

/-- Behind a `yield` nothing is sampled, and no poll is answered. -/
theorem Running.next_step {y : Yield} (hs : s.Running n) (hp : s.point = .yielded y) :
    Running n { s with
      point := .afterYield .poll y
      responses := s.responses ++ (ReadPoint.afterYield .poll y).given.toList } ∧
    measure { s with
      point := .afterYield .poll y
      responses := s.responses ++ (ReadPoint.afterYield .poll y).given.toList } < s.measure := by
  obtain ⟨hret, hdone, c, d, hqueue, hgiven, hsum⟩ := hs
  rw [Given, hp] at hgiven
  cases y with
  | firstSample =>
    refine ⟨⟨hret, hdone, c, d, hqueue, ?_, ?_⟩, ?_⟩
    · simp [Given, ReadPoint.afterYield, hgiven.1, hgiven.2, ReadPoint.given, Yield.response]
    · simpa [sampling, hp, ReadPoint.afterYield] using hsum
    · simp [measure, hp, ReadPoint.afterYield]
  | syncResponse =>
    refine ⟨⟨hret, hdone, c, d, hqueue, ?_, ?_⟩, ?_⟩
    · simp [Given, ReadPoint.afterYield, hgiven.1, hgiven.2, ReadPoint.given, expected]
    · simpa [sampling, hp, ReadPoint.afterYield] using hsum
    · simp [measure, hp, ReadPoint.afterYield]
  | sample =>
    refine ⟨⟨hret, hdone, c, d, hqueue, ?_, ?_⟩, ?_⟩
    · simp [Given, ReadPoint.afterYield, hgiven, ReadPoint.given]
    · simpa [sampling, hp, ReadPoint.afterYield] using hsum
    · simp [measure, hp, ReadPoint.afterYield]
  | changes left => exact hgiven.elim

/-- `read()` takes the next poll, or the `FINISH` if there is none left. -/
theorem Running.get_step {event : SubscriptionEvent} {queue : List SubscriptionEvent}
    (hs : s.Running n) (hp : s.point = .waiting) (hcons : s.readQueue = event :: queue) :
    Inv n { s with
      point := .took event
      readQueue := queue
      responses := s.responses ++ (ReadPoint.took event).given.toList } := by
  obtain ⟨hret, hdone, c, d, hqueue, hgiven, hsum⟩ := hs
  rw [Given, hp] at hgiven
  cases c with
  | zero =>
    -- the queue holds nothing but the `FINISH`, so every poll has been answered
    have hposted : s.request.posted = true := by
      by_contra hposted
      rw [hcons] at hqueue
      simp [hposted] at hqueue
    obtain ⟨rfl, -⟩ : event = .finish ∧ queue = [] := by
      simpa [hcons, hposted] using hqueue
    have hn : d = n := by
      simpa [left_of_posted hposted, sampling, hp] using hsum
    refine .inr ⟨.inl rfl, hposted, ?_, fun hr ↦ ?_⟩
    · simpa [ReadPoint.given, hn] using hgiven
    · exact absurd (hret.symm.trans hr) (by simp)
  | succ c =>
    obtain ⟨rfl, hqueue'⟩ : event = .sample ∧ queue
        = List.replicate c .sample ++ (if s.request.posted then [.finish] else []) := by
      simpa [hcons, List.replicate_succ] using hqueue
    refine .inl ⟨hret, hdone, c, d, hqueue', ?_, ?_⟩
    · simpa [Given, ReadPoint.given] using hgiven
    · have hsum' : s.request.left + (c + 1) + d = n := by simpa [sampling, hp] using hsum
      simp only [sampling, if_true]
      omega

/-- The steps of `read()` before it takes the `FINISH`, and the step with which it does. -/
theorem Running.read_step (hs : s.Running n) (h : s.readStep m = some s') :
    s'.Inv n ∧ s'.measure < s.measure := by
  have ⟨hret, hdone, c, d, hqueue, hgiven, hsum⟩ := hs
  obtain ⟨p, queue, hmove, htake, hraised, hclose, rfl⟩ := readStep_cases h
  generalize hp : s.point = q at hmove
  cases hmove with
  | first =>
    obtain rfl := Option.some_inj.mp htake
    rw [Given, hp] at hgiven
    refine ⟨.inl ⟨hret, hdone, c, d, hqueue, ?_, ?_⟩, ?_⟩
    · simp [Given, hgiven.1, hgiven.2, ReadPoint.given, Yield.response]
    · simpa [sampling, hp] using hsum
    · simp [measure, hp]
  | firstRaised => exact absurd rfl hraised
  | sample =>
    obtain rfl := Option.some_inj.mp htake
    rw [Given, hp] at hgiven
    -- the sample for one poll is complete
    refine ⟨.inl ⟨hret, hdone, c, d + 1, hqueue, ?_, ?_⟩, ?_⟩
    · simp [Given, hgiven, ReadPoint.given, Yield.response, expected_succ]
    · simp only [sampling, hp, if_true] at hsum
      simp only [sampling, reduceCtorEq, if_false]
      omega
    · simp [measure, hp]
  | sampleRaised => exact absurd rfl hraised
  | next y =>
    obtain rfl := Option.some_inj.mp htake
    obtain ⟨hs', hlt⟩ := hs.next_step hp
    exact ⟨.inl hs', hlt⟩
  | close y => exact absurd rfl hclose
  | get event =>
    have hcons := ReadMove.eq_cons_of_take htake
    refine ⟨hs.get_step hp hcons, ?_⟩
    simp only [measure, hp, hcons, List.length_cons]
    omega
  | _ =>
    rw [Given, hp] at hgiven
    exact hgiven.elim

/-- The steps behind the `FINISH`. -/
theorem Finished.step (hs : s.Finished n) (h : s.step e = some s') :
    s'.Finished n ∧ s'.measure < s.measure := by
  obtain ⟨hpoint, hposted, hresp, hreturned⟩ := hs
  cases e with
  | poll =>
    simp only [Poll.step] at h
    split at h
    next left hreq => simp [hreq, RequestPoint.posted] at hposted
    next => exact absurd h (by simp)
  | requestsEnd error =>
    simp only [Poll.step, Option.ite_none_right_eq_some] at h
    simp [h.1, RequestPoint.posted] at hposted
  | stop =>
    simp only [Poll.step, Option.ite_none_right_eq_some] at h
    simp [h.1, RequestPoint.posted] at hposted
  | exit =>
    simp only [Poll.step, Option.ite_none_right_eq_some, Option.some_inj] at h
    obtain ⟨hreq, rfl⟩ := h
    refine ⟨⟨hpoint, rfl, hresp, fun hr ↦ ⟨(hreturned hr).1, rfl⟩⟩, ?_⟩
    simp only [measure, hreq]
    omega
  | read m =>
    obtain ⟨p, queue, hmove, htake, -, -, rfl⟩ := readStep_cases h
    rcases hpoint with hp | hp
    · rw [hp] at hmove
      cases hmove with
      | finish =>
        obtain rfl := Option.some_inj.mp htake
        -- the only thing left to do after the loop is to return
        refine ⟨⟨.inr rfl, hposted, ?_, fun hr ↦ ?_⟩, ?_⟩
        · simpa [ReadPoint.afterLoop, ReadPoint.given] using hresp
        · exact absurd (hp.symm.trans (hreturned hr).1) (by simp)
        · simp [measure, hp, ReadPoint.afterLoop]
    · rw [hp] at hmove
      cases hmove
  | join =>
    simp only [Poll.step, Option.ite_none_right_eq_some, Option.some_inj] at h
    obtain ⟨⟨hp, hreq, hret⟩, rfl⟩ := h
    refine ⟨⟨hpoint, hposted, hresp, fun _ ↦ ⟨hp, hreq⟩⟩, ?_⟩
    simp [measure, hret]
  | rpcDone =>
    simp only [Poll.step, Option.ite_none_right_eq_some, Option.some_inj] at h
    obtain ⟨⟨hret, hdone⟩, rfl⟩ := h
    refine ⟨⟨hpoint, hposted, hresp, hreturned⟩, ?_⟩
    simp only [measure, putEvent, hdone, List.length_append, List.length_singleton, if_true,
      Bool.false_eq_true, if_false]
    omega

/-- **One step.** Every step keeps the polls together and brings the end nearer. -/
theorem Inv.step (hs : s.Inv n) (h : s.step e = some s') :
    s'.Inv n ∧ s'.measure < s.measure := by
  rcases hs with hs | hs
  · by_cases he : ∃ m, e = .read m
    · obtain ⟨m, rfl⟩ := he
      exact hs.read_step h
    · obtain ⟨hs', hlt⟩ := hs.request_step h fun m hm ↦ he ⟨m, hm⟩
      exact ⟨.inl hs', hlt⟩
  · obtain ⟨hs', hlt⟩ := hs.step h
    exact ⟨.inr hs', hlt⟩

/-- While the request thread has not posted its `FINISH`, it can move. -/
theorem exists_step_of_not_posted (h : s.request.posted = false) :
    ∃ e, (s.step e).isSome = true := by
  cases hreq : s.request with
  | reading left =>
    cases left with
    | zero => exact ⟨.requestsEnd false, by simp [step, hreq]⟩
    | succ left => exact ⟨.poll, by simp [step, hreq]⟩
  | stopping => exact ⟨.stop, by simp [step, hreq]⟩
  | leaving => simp [hreq, RequestPoint.posted] at h
  | ended => simp [hreq, RequestPoint.posted] at h

/-- `read()` can make a move of its control flow, if the queue has what it takes. -/
theorem exists_step_of_move {p : ReadPoint} {queue : List SubscriptionEvent} (m : ReadMove)
    (hraise : m ≠ .sampleRaised) (hclose : m ≠ .close) (hmove : s.point.move .poll m = some p)
    (htake : m.take s.readQueue = some queue) : ∃ e, (s.step e).isSome = true := by
  refine ⟨.read m, ?_⟩
  rw [step, readStep.eq_3 s m hraise hclose, hmove, htake]
  rfl

/-- **No deadlock.** Until `Subscribe` has returned, one of the two threads can move. -/
theorem Inv.exists_step (hs : s.Inv n) (hret : s.returned = false) :
    ∃ e, (s.step e).isSome = true := by
  rcases hs with ⟨-, -, c, d, hqueue, hgiven, -⟩ | ⟨hpoint, hposted, -, -⟩
  · rw [Given] at hgiven
    split at hgiven
    next hp => exact exists_step_of_move .sampled (by simp) (by simp) (by rw [hp]; rfl) rfl
    next hp => exact exists_step_of_move .next (by simp) (by simp) (by rw [hp]; rfl) rfl
    next hp => exact exists_step_of_move .next (by simp) (by simp) (by rw [hp]; rfl) rfl
    next hp =>
      cases hq : s.readQueue with
      | cons event queue =>
        exact exists_step_of_move (.get event) (by simp) (by simp) (by rw [hp]; rfl)
          (by rw [hq, ReadMove.take, if_pos rfl])
      | nil =>
        refine exists_step_of_not_posted ?_
        by_contra hposted
        rw [hq] at hqueue
        simp [hposted] at hqueue
    next hp => exact exists_step_of_move .sampled (by simp) (by simp) (by rw [hp]; rfl) rfl
    next hp => exact exists_step_of_move .next (by simp) (by simp) (by rw [hp]; rfl) rfl
    next => exact hgiven.elim
  · rcases hpoint with hp | hp
    · exact exists_step_of_move .finish (by simp) (by simp) (by rw [hp]; rfl) rfl
    · cases hreq : s.request with
      | leaving => exact ⟨.exit, by simp [Poll.step, hreq]⟩
      | ended => exact ⟨.join, by simp [Poll.step, hp, hreq, hret]⟩
      | reading left => simp [hreq, RequestPoint.posted] at hposted
      | stopping => simp [hreq, RequestPoint.posted] at hposted

theorem Inv.returned (hs : s.Inv n) (hret : s.returned = true) :
    s.responses = expected n ∧ s.request = .ended := by
  rcases hs with hs | hs
  · exact absurd (hs.not_returned.symm.trans hret) (by simp)
  · exact ⟨hs.responses, (hs.returned hret).2⟩

theorem inv_init (n : ℕ) : (init n).Inv n :=
  .inl ⟨rfl, rfl, 0, 0, rfl, ⟨rfl, rfl⟩, rfl⟩

end Steps

/-- **POLL.** For any number of polls and in every interleaving of the two threads: the run comes to
its end after a bounded number of steps; until `Subscribe` has returned one of the threads can move;
and when it has returned the client has got a sample, the sync response and one sample for each
poll, and the request thread has finished. -/
theorem poll_protocol {n : ℕ} {es : List PollEvent} {s : Poll}
    (h : machine.runFrom (init n) es = some s) :
    es.length ≤ 4 * n + 16 ∧ (s.returned = false → ∃ e, (machine.step s e).isSome = true) ∧
      (s.returned = true → s.responses = expected n ∧ s.request = .ended) := by
  have hstep : ∀ s e s', Inv n s → machine.step s e = some s' →
      Inv n s' ∧ s'.measure < s.measure := fun s e s' hs hstep ↦ hs.step hstep
  obtain ⟨hs, hle⟩ := Machine.length_add_le_of_runFrom hstep (inv_init n) h
  have hinit : (init n).measure = 4 * n + 16 := by simp [measure, init]
  refine ⟨?_, hs.exists_step, hs.returned⟩
  omega

/-- Two polls, both of them received before the first sample has been taken, and an error at the end
of the request stream. -/
theorem poll_protocol_two :
    ∃ s, machine.runFrom (init 2) [.poll, .read .sampled, .poll, .requestsEnd true, .stop,
        .read .next, .read .next, .read (.get .sample), .exit, .read .sampled, .read .next,
        .read (.get .sample), .read .sampled, .read .next, .read (.get .finish), .read .finish,
        .join] = some s ∧
      s.responses = [.sample, .syncResponse, .sample, .sample] ∧ s.request = .ended := by
  have hrun : machine.runFrom (init 2) [.poll, .read .sampled, .poll, .requestsEnd true, .stop,
      .read .next, .read .next, .read (.get .sample), .exit, .read .sampled, .read .next,
      .read (.get .sample), .read .sampled, .read .next, .read (.get .finish), .read .finish,
      .join] = some _ := rfl
  exact ⟨_, hrun, (poll_protocol hrun).2.2 rfl⟩

end Poll

end ConfdDemos.Gnmi
