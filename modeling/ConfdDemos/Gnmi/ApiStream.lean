import ConfdDemos.Foundation.Machine
import ConfdDemos.Gnmi.Reader

/-!
# The change thread of the API adapter

`process_subscription` and `process_external_change` pass a batch of changes to `_append_changes`,
which appends it to `change_db` under the lock, and then post `SEND_CHANGES`. Nothing else of the
change thread matters to the reader, so any call of either is one kind of event, with any batch.

## Conservation

A batch is in exactly one of four places: with the change thread before its append, in `change_db`,
in the part of `change_db` that `read()` has converted and will clear, or sent. `StreamInv` says so,
with the order, and says which lock each of the two threads holds; the locks are what keeps the list
from growing while it is converted.
-/

namespace ConfdDemos.Gnmi

/-- Where the change thread is. -/
inductive Producer (β : Type*)
  | notStarted
  /-- Before its first `select`: connecting and subscribing. -/
  | starting
  /-- At `select`, or between two entries of a notification. -/
  | idle
  /-- In `_append_changes`, at the lock. -/
  | passed (batch : β)
  /-- Holding the lock, before the append. -/
  | inside (batch : β)
  /-- Holding the lock, after the append. -/
  | leaving
  /-- Between `_append_changes` and `put_event`. -/
  | unposted
  | stopped
  deriving DecidableEq, Repr

structure ApiStream (β : Type*) where
  chan : Channel β
  producer : Producer β
  /-- The batches passed to `_append_changes`, in order. -/
  passed : List β

/-- `pass` is any call of `process_subscription` or `process_external_change`. -/
inductive ApiEvent (β : Type*)
  | read (e : ReadEvent)
  /-- `poll`, which posts `SAMPLE`. -/
  | poll
  /-- `stop`, when the RPC is done. -/
  | stop
  | ready
  | pass (batch : β)
  | acquire
  | append
  | release
  | post
  /-- An exception in the change thread, which ends it with `stop`. -/
  | raise
  /-- The change thread sees `stop_pipe`. -/
  | quit
  deriving DecidableEq, Repr

section Api

variable {β : Type*}

def apiStep (s : ApiStream β) : ApiEvent β → Option (ApiStream β)
  | .read e =>
    (s.chan.read e).map fun c ↦
      { s with chan := c, producer := if e = .sampled then .starting else s.producer }
  | .poll => some { s with chan := s.chan.putEvent .sample }
  | .stop => some { s with chan := s.chan.putEvent .finish }
  | .ready =>
    match s.producer with
    | .starting => some { s with producer := .idle }
    | _ => none
  | .pass batch =>
    match s.producer with
    | .idle => some { s with producer := .passed batch, passed := s.passed ++ [batch] }
    | _ => none
  | .acquire =>
    match s.producer with
    | .passed batch =>
      if s.chan.lock = none then
        some { s with producer := .inside batch, chan := { s.chan with lock := some .producer } }
      else none
    | _ => none
  | .append =>
    match s.producer with
    | .inside batch =>
      some { s with
        producer := .leaving, chan := { s.chan with changeDb := s.chan.changeDb ++ [batch] } }
    | _ => none
  | .release =>
    match s.producer with
    | .leaving => some { s with producer := .unposted, chan := { s.chan with lock := none } }
    | _ => none
  | .post =>
    match s.producer with
    | .unposted => some { s with producer := .idle, chan := s.chan.putEvent .sendChanges }
    | _ => none
  | .raise =>
    match s.producer with
    | .starting => some { s with producer := .stopped, chan := s.chan.putEvent .finish }
    | .idle => some { s with producer := .stopped, chan := s.chan.putEvent .finish }
    | _ => none
  | .quit =>
    match s.producer with
    | .idle => if s.chan.reader = .ended then some { s with producer := .stopped } else none
    | _ => none

/-- Every interleaving of `read()`, the change thread and the client. -/
def apiMachine : Machine (ApiStream β) (ApiEvent β) := ⟨apiStep⟩

def ApiStream.init : ApiStream β := ⟨.init, .notStarted, []⟩

/-- The batch passed to `_append_changes` that is not in `change_db` yet. -/
def Producer.inFlight : Producer β → List β
  | .passed batch => [batch]
  | .inside batch => [batch]
  | _ => []

/-- The change thread holds the lock. -/
def Producer.holds : Producer β → Bool
  | .inside _ => true
  | .leaving => true
  | _ => false

/-- The change thread is between its append and its `put_event`. -/
def Producer.unsent : Producer β → Bool
  | .leaving => true
  | .unposted => true
  | _ => false

/-- What a step of the machine can be. -/
inductive ApiStream.Steps (s : ApiStream β) : ApiEvent β → ApiStream β → Prop
  | read {e : ReadEvent} {c : Channel β} : s.chan.Reads e c →
      s.Steps (.read e)
        { s with chan := c, producer := if e = .sampled then .starting else s.producer }
  | poll : s.Steps .poll { s with chan := s.chan.putEvent .sample }
  | stop : s.Steps .stop { s with chan := s.chan.putEvent .finish }
  | ready : s.producer = .starting → s.Steps .ready { s with producer := .idle }
  | pass {batch : β} : s.producer = .idle →
      s.Steps (.pass batch) { s with producer := .passed batch, passed := s.passed ++ [batch] }
  | acquire {batch : β} : s.producer = .passed batch → s.chan.lock = none →
      s.Steps .acquire
        { s with producer := .inside batch, chan := { s.chan with lock := some .producer } }
  | append {batch : β} : s.producer = .inside batch →
      s.Steps .append
        { s with
          producer := .leaving, chan := { s.chan with changeDb := s.chan.changeDb ++ [batch] } }
  | release : s.producer = .leaving →
      s.Steps .release { s with producer := .unposted, chan := { s.chan with lock := none } }
  | post : s.producer = .unposted →
      s.Steps .post { s with producer := .idle, chan := s.chan.putEvent .sendChanges }
  | raise : s.producer = .starting ∨ s.producer = .idle →
      s.Steps .raise { s with producer := .stopped, chan := s.chan.putEvent .finish }
  | quit : s.producer = .idle → s.chan.reader = .ended →
      s.Steps .quit { s with producer := .stopped }

theorem ApiStream.steps_of_apiStep {s s' : ApiStream β} {e : ApiEvent β}
    (hs : apiStep s e = some s') : s.Steps e s' := by
  cases e with
  | read e =>
    simp only [apiStep, Option.map_eq_some_iff] at hs
    obtain ⟨c, hc, rfl⟩ := hs
    exact .read (Channel.reads_of_read hc)
  | poll => exact Option.some_inj.mp hs ▸ .poll
  | stop => exact Option.some_inj.mp hs ▸ .stop
  | raise =>
    simp only [apiStep] at hs
    split at hs
    next hp => exact Option.some_inj.mp hs ▸ .raise (Or.inl hp)
    next hp => exact Option.some_inj.mp hs ▸ .raise (Or.inr hp)
    next => exact absurd hs (by simp)
  | acquire =>
    simp only [apiStep] at hs
    split at hs
    next batch hp =>
      rw [Option.ite_none_right_eq_some, Option.some_inj] at hs
      exact hs.2 ▸ .acquire hp hs.1
    next => exact absurd hs (by simp)
  | quit =>
    simp only [apiStep] at hs
    split at hs
    next hp =>
      rw [Option.ite_none_right_eq_some, Option.some_inj] at hs
      exact hs.2 ▸ .quit hp hs.1
    next => exact absurd hs (by simp)
  | ready =>
    simp only [apiStep] at hs
    split at hs
    next hp => exact Option.some_inj.mp hs ▸ .ready hp
    next => exact absurd hs (by simp)
  | pass batch =>
    simp only [apiStep] at hs
    split at hs
    next hp => exact Option.some_inj.mp hs ▸ .pass hp
    next => exact absurd hs (by simp)
  | append =>
    simp only [apiStep] at hs
    split at hs
    next batch hp => exact Option.some_inj.mp hs ▸ .append hp
    next => exact absurd hs (by simp)
  | release =>
    simp only [apiStep] at hs
    split at hs
    next hp => exact Option.some_inj.mp hs ▸ .release hp
    next => exact absurd hs (by simp)
  | post =>
    simp only [apiStep] at hs
    split at hs
    next hp => exact Option.some_inj.mp hs ▸ .post hp
    next => exact absurd hs (by simp)

/-! ## Conservation -/

/-- A `SEND_CHANGES` is in `read_queue`, about to be posted, or taken and not served. -/
def ApiStream.SendOnItsWay (s : ApiStream β) : Prop :=
  .sendChanges ∈ s.chan.readQueue ∨ s.producer.unsent = true ∨ s.chan.reader.serving = true

structure StreamInv (s : ApiStream β) : Prop where
  sampling : s.chan.reader = .sampling → s.producer = .notStarted
  reader_lock : s.chan.lock = some .reader ↔ ∃ k, s.chan.reader = .draining k
  producer_lock : s.chan.lock = some .producer ↔ s.producer.holds = true
  /-- Nothing is lost, duplicated or reordered between `_append_changes` and the notifications. -/
  conserved : s.chan.turned ++ s.chan.changeDb.drop s.chan.reader.converted ++ s.producer.inFlight
    = s.passed
  flight : s.chan.changeDb ≠ [] → s.SendOnItsWay

theorem streamInv_init : StreamInv (ApiStream.init : ApiStream β) :=
  ⟨fun _ ↦ rfl, by simp [ApiStream.init, Channel.init], by
    simp [ApiStream.init, Channel.init, Producer.holds], rfl, fun h ↦ absurd rfl h⟩

/-- A reader that is not serving a `SEND_CHANGES` relies on what is posted or about to be. -/
theorem StreamInv.sent_of_not_serving {s : ApiStream β} (h : StreamInv s)
    (hr : s.chan.reader.serving = false) (hne : s.chan.changeDb ≠ []) :
    .sendChanges ∈ s.chan.readQueue ∨ s.producer.unsent = true := by
  rcases h.flight hne with hq | hu | hserv
  · exact Or.inl hq
  · exact Or.inr hu
  · rw [hr] at hserv
    exact absurd hserv (by simp)

theorem streamInv_read {s : ApiStream β} {e : ReadEvent} {c : Channel β} (h : StreamInv s)
    (hs : s.chan.Reads e c) :
    StreamInv { s with chan := c, producer := if e = .sampled then .starting else s.producer } := by
  obtain ⟨hsamp, hrl, hpl, hcons, -⟩ := id h
  cases hs with
  | sampled hr =>
    have hp := hsamp hr
    rw [hr] at hrl hcons
    rw [hp] at hpl hcons
    refine ⟨by simp, by simpa using hrl, by simpa [Producer.holds] using hpl, hcons, fun hne ↦ ?_⟩
    rcases h.sent_of_not_serving (by rw [hr]; rfl) hne with hq | hu
    · exact Or.inl hq
    · -- the change thread has not been started
      rw [hp] at hu
      exact absurd hu (by simp [Producer.unsent])
  | @get event queue hr hq =>
    rw [hr] at hrl hcons
    refine ⟨by simp, by simpa using hrl, hpl, hcons, fun hne ↦ ?_⟩
    rcases h.sent_of_not_serving (by rw [hr]; rfl) hne with hmem | hu
    · -- the event taken may be the one that was on its way
      rw [hq] at hmem
      rcases List.mem_cons.mp hmem with rfl | hmem'
      · exact Or.inr (Or.inr rfl)
      · exact Or.inl hmem'
    · exact Or.inr (Or.inl hu)
  | sample hr =>
    rw [hr] at hrl hcons
    refine ⟨by simp, by simpa using hrl, hpl, hcons, fun hne ↦ ?_⟩
    exact (h.sent_of_not_serving (by rw [hr]; rfl) hne).imp id Or.inl
  | finish hr =>
    rw [hr] at hrl hcons
    refine ⟨by simp, by simpa using hrl, hpl, hcons, fun hne ↦ ?_⟩
    exact (h.sent_of_not_serving (by rw [hr]; rfl) hne).imp id Or.inl
  | fail hr hl hdb =>
    rw [hr] at hrl hcons
    exact ⟨by simp, by simpa using hrl, hpl, hcons, fun hne ↦ absurd hdb hne⟩
  | drain hr hl hdb =>
    rw [hr] at hcons
    rw [hl] at hpl
    exact ⟨by simp, by simp, by simpa using hpl, hcons, fun _ ↦ Or.inr (Or.inr rfl)⟩
  | @convert k b hr hb =>
    -- the entry moves from the rest of the list to what has been turned into notifications
    have hl : s.chan.lock = some .reader := hrl.mpr ⟨k, hr⟩
    rw [hr] at hcons
    refine ⟨by simp, by simp [hl], hpl, ?_, fun _ ↦ Or.inr (Or.inr rfl)⟩
    obtain ⟨hlt, rfl⟩ := List.getElem?_eq_some_iff.mp hb
    simp only [Reader.converted] at hcons ⊢
    rw [← hcons, List.drop_eq_getElem_cons hlt, if_neg (by simp)]
    simp only [List.append_assoc, List.nil_append, List.cons_append]
  | @clear k hr hk =>
    -- the lock has kept the list as it was, so all of it has been converted
    have hl : s.chan.lock = some .reader := hrl.mpr ⟨k, hr⟩
    rw [hl] at hpl
    rw [hr] at hcons
    refine ⟨by simp, by simp, by simpa using hpl, ?_, fun hne ↦ absurd rfl hne⟩
    rw [← hcons]
    simp [Reader.converted, List.drop_eq_nil_of_le hk]

theorem streamInv_putEvent {s : ApiStream β} {event : SubscriptionEvent} (h : StreamInv s) :
    StreamInv { s with chan := s.chan.putEvent event } := by
  obtain ⟨hsamp, hrl, hpl, hcons, hfl⟩ := h
  refine ⟨hsamp, hrl, hpl, hcons, fun hne ↦ ?_⟩
  rcases hfl hne with hq | hu | hserv
  · exact Or.inl (List.mem_append_left _ hq)
  · exact Or.inr (Or.inl hu)
  · exact Or.inr (Or.inr hserv)

/-- A step of the change thread, which does not move the reader. -/
theorem StreamInv.producer_step {s s' : ApiStream β} (h : StreamInv s)
    (hp : s.producer ≠ .notStarted) (hreader : s'.chan.reader = s.chan.reader)
    (hlock : s'.chan.lock = some .reader ↔ s.chan.lock = some .reader)
    (hpl : s'.chan.lock = some .producer ↔ s'.producer.holds = true)
    (hcons : s'.chan.turned ++ s'.chan.changeDb.drop s.chan.reader.converted ++
      s'.producer.inFlight = s'.passed)
    (hfl : s'.chan.changeDb ≠ [] → s'.SendOnItsWay) : StreamInv s' := by
  refine ⟨fun hr ↦ absurd (h.sampling (hreader ▸ hr)) hp, ?_, hpl, hreader ▸ hcons, hfl⟩
  rw [hlock, hreader]
  exact h.reader_lock

/-- A change thread that is not about to post relies on what is posted or taken. -/
theorem StreamInv.sent_of_not_unsent {s : ApiStream β} (h : StreamInv s)
    (hp : s.producer.unsent = false) (hne : s.chan.changeDb ≠ []) :
    .sendChanges ∈ s.chan.readQueue ∨ s.chan.reader.serving = true := by
  rcases h.flight hne with hq | hu | hserv
  · exact Or.inl hq
  · rw [hp] at hu
    exact absurd hu (by simp)
  · exact Or.inr hserv

/-- Nothing of the list has been converted unless the reader has the lock. -/
theorem StreamInv.converted_eq_zero {s : ApiStream β} (h : StreamInv s)
    (hl : s.chan.lock ≠ some .reader) : s.chan.reader.converted = 0 := by
  cases hr : s.chan.reader with
  | draining k => exact absurd (h.reader_lock.mpr ⟨k, hr⟩) hl
  | _ => rfl

/-- **Every step keeps the invariant.** -/
theorem streamInv_step {s s' : ApiStream β} {e : ApiEvent β} (h : StreamInv s)
    (hs : s.Steps e s') : StreamInv s' := by
  have hpl := h.producer_lock
  have hcons := h.conserved
  cases hs with
  | read hr => exact streamInv_read h hr
  | poll => exact streamInv_putEvent h
  | stop => exact streamInv_putEvent h
  | ready hp =>
    rw [hp] at hpl hcons
    refine h.producer_step (by simp [hp]) rfl Iff.rfl hpl hcons fun hne ↦ ?_
    exact (h.sent_of_not_unsent (by rw [hp]; rfl) hne).imp id Or.inr
  | @pass batch hp =>
    rw [hp] at hpl hcons
    refine h.producer_step (by simp [hp]) rfl Iff.rfl hpl ?_ fun hne ↦ ?_
    · rw [← hcons]
      simp [Producer.inFlight]
    · exact (h.sent_of_not_unsent (by rw [hp]; rfl) hne).imp id Or.inr
  | @acquire batch hp hl =>
    rw [hp] at hcons
    refine h.producer_step (by simp [hp]) rfl (by simp [hl]) (by simp [Producer.holds]) hcons
      fun hne ↦ ?_
    exact (h.sent_of_not_unsent (by rw [hp]; rfl) hne).imp id Or.inr
  | @append batch hp =>
    rw [hp] at hpl hcons
    have hlock : s.chan.lock = some .producer := hpl.mpr rfl
    -- the reader converts only while it holds the lock, which the thread has now
    have hconv := h.converted_eq_zero (by simp [hlock])
    refine h.producer_step (by simp [hp]) rfl Iff.rfl (by simp [hlock, Producer.holds]) ?_ ?_
    · rw [hconv] at hcons ⊢
      rw [← hcons]
      simp [Producer.inFlight]
    · exact fun _ ↦ Or.inr (Or.inl rfl)
  | release hp =>
    rw [hp] at hpl hcons
    have hlock : s.chan.lock = some .producer := hpl.mpr rfl
    refine h.producer_step (by simp [hp]) rfl (by simp [hlock]) (by simp [Producer.holds]) hcons ?_
    exact fun _ ↦ Or.inr (Or.inl rfl)
  | post hp =>
    rw [hp] at hpl hcons
    refine h.producer_step (by simp [hp]) rfl Iff.rfl hpl hcons fun _ ↦ ?_
    exact Or.inl (List.mem_append_right _ (List.mem_singleton_self _))
  | raise hp =>
    have hunsent : s.producer.unsent = false := by rcases hp with hp | hp <;> rw [hp] <;> rfl
    have hflight : s.producer.inFlight = [] := by rcases hp with hp | hp <;> rw [hp] <;> rfl
    have hholds : s.producer.holds = false := by rcases hp with hp | hp <;> rw [hp] <;> rfl
    rw [hholds] at hpl
    rw [hflight] at hcons
    refine h.producer_step (by rcases hp with hp | hp <;> simp [hp]) rfl Iff.rfl hpl hcons
      fun hne ↦ ?_
    rcases h.sent_of_not_unsent hunsent hne with hq | hserv
    · -- what is queued for the reader stays queued when the thread ends
      exact Or.inl (List.mem_append_left _ hq)
    · exact Or.inr (Or.inr hserv)
  | quit hp hr =>
    rw [hp] at hpl hcons
    refine h.producer_step (by simp [hp]) rfl Iff.rfl hpl hcons fun hne ↦ ?_
    exact (h.sent_of_not_unsent (by rw [hp]; rfl) hne).imp id Or.inr

theorem streamInv_of_reachable {s : ApiStream β} (h : apiMachine.Reachable .init s) :
    StreamInv s :=
  h.invariant streamInv_init fun _ _ _ hI _ hs ↦
    streamInv_step hI (ApiStream.steps_of_apiStep hs)

/-- **Conservation of changes.** In every interleaving, what has been turned into notifications,
what is in `change_db` and not converted yet, and what the change thread is about to append are
together the batches passed to `_append_changes`, in order; outside the two locked blocks that is
what was turned followed by `change_db`; and a non-empty `change_db` has a `SEND_CHANGES` on its
way. -/
theorem changes_conserved {s : ApiStream β} (h : apiMachine.Reachable .init s) :
    s.chan.turned ++ s.chan.changeDb.drop s.chan.reader.converted ++ s.producer.inFlight
        = s.passed ∧
      (s.chan.lock = none → s.producer.inFlight = [] →
        s.chan.turned ++ s.chan.changeDb = s.passed) ∧
      (s.chan.changeDb ≠ [] → s.SendOnItsWay) := by
  have hinv := streamInv_of_reachable h
  refine ⟨hinv.conserved, fun hl hp ↦ ?_, hinv.flight⟩
  have hcons := hinv.conserved
  rwa [hp, hinv.converted_eq_zero (by simp [hl]), List.append_nil, List.drop_zero] at hcons

end Api

/-- The first batch is sent, and the second is appended. -/
def servedRun : List (ApiEvent ℕ) :=
  [.read .sampled, .ready, .pass 1, .acquire, .append, .release, .post, .read .get, .read .serve,
    .read .convert, .read .clear, .pass 2, .acquire, .append, .release]

theorem changes_conserved_servedRun : ∃ s : ApiStream ℕ,
    apiMachine.Reachable .init s ∧ s.chan.turned = [1] ∧ s.chan.changeDb = [2] ∧
      s.chan.turned ++ s.chan.changeDb = s.passed := by
  have hrun : ((apiMachine.restrict fun _ _ ↦ True).runFrom .init servedRun).any
      (fun s ↦ decide (s.chan.turned = [1] ∧ s.chan.changeDb = [2] ∧ s.chan.lock = none ∧
        s.producer = .unposted)) = true := by decide
  obtain ⟨s, hs, htest⟩ := Machine.exists_reach_of_any hrun
  obtain ⟨hturned, hdb, hlock, hp⟩ := of_decide_eq_true htest
  exact ⟨s, hs, hturned, hdb, (changes_conserved hs).2.1 hlock (by rw [hp]; rfl)⟩

/-! ## The assertion in the API adapter -/

section Assertion

variable {β : Type*}

def ApiEvent.isAppend : ApiEvent β → Bool
  | .append => true
  | _ => false

/-- A batch is appended only while no `SEND_CHANGES` is posted or being served. -/
def AppendAlone (s : ApiStream β) (e : ApiEvent β) : Prop := e.isAppend = true → s.chan.sends = 0

instance (s : ApiStream β) (e : ApiEvent β) : Decidable (AppendAlone s e) :=
  inferInstanceAs (Decidable (_ → _))

/-- The assertion is safe, counting what the change thread is about to post. -/
def ApiStream.AssertInv (s : ApiStream β) : Prop := s.chan.AtMostOne s.producer.unsent.toNat

theorem assertInv_step {s s' : ApiStream β} {e : ApiEvent β} (hinv : StreamInv s)
    (h : s.AssertInv) (halone : AppendAlone s e) (hs : s.Steps e s') : s'.AssertInv := by
  unfold ApiStream.AssertInv at h ⊢
  cases hs with
  | @read e c hr =>
    by_cases he : e = .sampled
    · subst he
      cases hr with
      | sampled hsamp =>
        rw [hinv.sampling hsamp] at h
        exact h.read (.sampled hsamp)
    · simp only [if_neg he]
      exact h.read hr
  | poll => exact h.putEvent (by simp)
  | stop => exact h.putEvent (by simp)
  | ready hp => rw [hp] at h; exact h
  | pass hp => rw [hp] at h; exact h
  | acquire hp _ => rw [hp] at h; exact h.congr rfl rfl id
  | append hp =>
    refine ⟨?_, fun _ ↦ by simp, h.not_failed⟩
    have hzero : s.chan.sends = 0 := halone rfl
    simp only [Channel.sends, Producer.unsent, Bool.toNat_true] at hzero ⊢
    omega
  | release hp => rw [hp] at h; exact h.congr rfl rfl id
  | post hp => rw [hp] at h; exact Channel.AtMostOne.post h
  | raise hp =>
    have hp' : s.producer.unsent = false := by rcases hp with hp | hp <;> rw [hp] <;> rfl
    rw [hp'] at h
    exact h.putEvent (by simp)
  | quit hp _ => rw [hp] at h; exact h

theorem Channel.atMostOne_init : (Channel.init : Channel β).AtMostOne 0 :=
  ⟨Nat.zero_le 1, fun h ↦ absurd h (by simp [Channel.init, Channel.sends, Reader.serving]),
    by simp [Channel.init]⟩

theorem not_failed_of_appendAlone {s : ApiStream β} (h : apiMachine.Reach AppendAlone .init s) :
    s.chan.reader ≠ .failed := by
  have hinv : StreamInv s ∧ s.AssertInv :=
    h.invariant (I := fun s ↦ StreamInv s ∧ s.AssertInv)
      ⟨streamInv_init, Channel.atMostOne_init⟩ fun _ _ _ hI hP hs ↦
      ⟨streamInv_step hI.1 (ApiStream.steps_of_apiStep hs),
        assertInv_step hI.1 hI.2 hP (ApiStream.steps_of_apiStep hs)⟩
  exact hinv.2.not_failed

end Assertion

end ConfdDemos.Gnmi
