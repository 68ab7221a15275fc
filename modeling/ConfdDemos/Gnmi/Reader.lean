import Mathlib.Data.List.Basic

/-!
# STREAM subscriptions: the reader

A STREAM subscription runs on two threads. `read()` is a loop driven by `read_queue`; the change
thread of the adapter collects changes in `change_db` under a lock and posts `SEND_CHANGES`. One
`SEND_CHANGES` makes `read()` turn everything in `change_db` into notifications.

Both adapters inherit `read()`, so the shared variables and the reader form one component
(`Channel`), and each adapter adds its change thread. The lock is held while the list is converted
and cleared, and not while an event is posted, so every one of these points is a step of its own.

## What the assertion needs

`len(self.change_db) > 0` is asserted when a `SEND_CHANGES` is served. It holds while at most one
`SEND_CHANGES` is on its way and the list is not empty when one is (`Channel.AtMostOne`). The reader
keeps this by itself; a change thread keeps it when it starts a new round only after the last one
has been served.
-/

namespace ConfdDemos.Gnmi

/-- `SubscriptionHandler.SubscriptionEvent`. -/
inductive SubscriptionEvent
  | sample
  | sendChanges
  | finish
  deriving DecidableEq, Repr

/-- Where `read()` is. -/
inductive Reader
  /-- In the first `sample`, which starts monitoring when it is done. -/
  | sampling
  /-- At `read_queue.get()`. -/
  | waiting
  | took (event : SubscriptionEvent)
  /-- Holding the lock, with the first entries of `change_db` converted. -/
  | draining (converted : ℕ)
  | ended
  /-- Ended by an assertion, here by the one on `change_db`. -/
  | failed
  deriving DecidableEq, Repr

inductive Side
  | reader
  | producer
  deriving DecidableEq, Repr

/-- What the two threads share, and the reader. -/
structure Channel (β : Type*) where
  changeDb : List β
  /-- The holder of `change_db_lock`. -/
  lock : Option Side
  readQueue : List SubscriptionEvent
  reader : Reader
  /-- The entries turned into notifications, in order. -/
  turned : List β

inductive ReadEvent
  | sampled
  | get
  | serve
  | convert
  | clear
  deriving DecidableEq, Repr

section Reader

variable {β : Type*}

/-- One step of `read()`. -/
def Channel.read (c : Channel β) : ReadEvent → Option (Channel β)
  | .sampled => if c.reader = .sampling then some { c with reader := .waiting } else none
  | .get =>
    match c.reader, c.readQueue with
    | .waiting, event :: queue => some { c with reader := .took event, readQueue := queue }
    | _, _ => none
  | .serve =>
    match c.reader with
    | .took .sample => some { c with reader := .waiting }
    | .took .finish => some { c with reader := .ended }
    | .took .sendChanges =>
      if c.lock = none then
        if c.changeDb.isEmpty then some { c with reader := .failed }
        else some { c with reader := .draining 0, lock := some .reader }
      else none
    | _ => none
  | .convert =>
    match c.reader with
    | .draining k =>
      (c.changeDb[k]?).map fun b ↦ { c with reader := .draining (k + 1), turned := c.turned ++ [b] }
    | _ => none
  | .clear =>
    match c.reader with
    | .draining k =>
      if c.changeDb.length ≤ k then
        some { c with changeDb := [], lock := none, reader := .waiting }
      else none
    | _ => none

/-- `put_event`. -/
def Channel.putEvent (c : Channel β) (event : SubscriptionEvent) : Channel β :=
  { c with readQueue := c.readQueue ++ [event] }

def Channel.init : Channel β := ⟨[], none, [], .sampling, []⟩

/-- The entries of `change_db` already turned into notifications. -/
def Reader.converted : Reader → ℕ
  | .draining k => k
  | _ => 0

/-- `read()` has taken a `SEND_CHANGES` it has not served. -/
def Reader.serving : Reader → Bool
  | .took .sendChanges => true
  | .draining _ => true
  | _ => false

/-- The `SEND_CHANGES` events posted and not served. -/
def Channel.sends (c : Channel β) : ℕ :=
  c.readQueue.count .sendChanges + c.reader.serving.toNat

/-- At most one `SEND_CHANGES` is on its way, counting `extra` that the change thread is about to
post, and there is something to send when there is one. -/
structure Channel.AtMostOne (extra : ℕ) (c : Channel β) : Prop where
  le_one : c.sends + extra ≤ 1
  ne_nil : 0 < c.sends + extra → c.changeDb ≠ []
  not_failed : c.reader ≠ .failed

/-- What a step of `read()` can be. -/
inductive Channel.Reads (c : Channel β) : ReadEvent → Channel β → Prop
  | sampled : c.reader = .sampling → c.Reads .sampled { c with reader := .waiting }
  | get {event : SubscriptionEvent} {queue : List SubscriptionEvent} : c.reader = .waiting →
      c.readQueue = event :: queue →
      c.Reads .get { c with reader := .took event, readQueue := queue }
  | sample : c.reader = .took .sample → c.Reads .serve { c with reader := .waiting }
  | finish : c.reader = .took .finish → c.Reads .serve { c with reader := .ended }
  | fail : c.reader = .took .sendChanges → c.lock = none → c.changeDb = [] →
      c.Reads .serve { c with reader := .failed }
  | drain : c.reader = .took .sendChanges → c.lock = none → c.changeDb ≠ [] →
      c.Reads .serve { c with reader := .draining 0, lock := some .reader }
  | convert {k : ℕ} {b : β} : c.reader = .draining k → c.changeDb[k]? = some b →
      c.Reads .convert { c with reader := .draining (k + 1), turned := c.turned ++ [b] }
  | clear {k : ℕ} : c.reader = .draining k → c.changeDb.length ≤ k →
      c.Reads .clear { c with changeDb := [], lock := none, reader := .waiting }

theorem Channel.reads_of_read {c c' : Channel β} {e : ReadEvent} (hs : c.read e = some c') :
    c.Reads e c' := by
  cases e with
  | sampled =>
    simp only [Channel.read, Option.ite_none_right_eq_some, Option.some_inj] at hs
    obtain ⟨hr, rfl⟩ := hs
    exact .sampled hr
  | get =>
    simp only [Channel.read] at hs
    split at hs
    next event queue hr hq =>
      rw [Option.some_inj] at hs
      subst hs
      exact .get hr hq
    next => exact absurd hs (by simp)
  | serve =>
    simp only [Channel.read] at hs
    split at hs
    next hr => exact Option.some_inj.mp hs ▸ .sample hr
    next hr => exact Option.some_inj.mp hs ▸ .finish hr
    next hr =>
      rw [Option.ite_none_right_eq_some] at hs
      obtain ⟨hl, hs⟩ := hs
      -- the assertion fails if there is nothing to send
      by_cases hdb : c.changeDb = []
      · rw [if_pos (by simpa using hdb), Option.some_inj] at hs
        exact hs ▸ .fail hr hl hdb
      · rw [if_neg (by simpa using hdb), Option.some_inj] at hs
        exact hs ▸ .drain hr hl hdb
    next => exact absurd hs (by simp)
  | convert =>
    simp only [Channel.read] at hs
    split at hs
    next k hr =>
      rw [Option.map_eq_some_iff] at hs
      obtain ⟨b, hb, rfl⟩ := hs
      exact .convert hr hb
    next => exact absurd hs (by simp)
  | clear =>
    simp only [Channel.read] at hs
    split at hs
    next k hr =>
      rw [Option.ite_none_right_eq_some, Option.some_inj] at hs
      obtain ⟨hk, rfl⟩ := hs
      exact .clear hr hk
    next => exact absurd hs (by simp)

/-- The first sample is taken once. -/
theorem Channel.Reads.not_sampling {c c' : Channel β} {e : ReadEvent} (hs : c.Reads e c') :
    c'.reader ≠ .sampling := by
  cases hs <;> simp

/-- **The reader keeps the assertion.** -/
theorem Channel.AtMostOne.read {extra : ℕ} {c c' : Channel β} {e : ReadEvent}
    (h : c.AtMostOne extra) (hs : c.Reads e c') : c'.AtMostOne extra := by
  obtain ⟨hle, hne, hnf⟩ := h
  cases hs with
  | sampled hr =>
    simp only [Channel.sends, hr, Reader.serving] at hle hne
    exact ⟨hle, hne, by simp⟩
  | @get event queue hr hq =>
    have hsends : c.sends
        = Channel.sends { c with reader := .took event, readQueue := queue } := by
      cases event <;> simp [Channel.sends, hr, hq, Reader.serving]
    rw [hsends] at hle hne
    exact ⟨hle, hne, by simp⟩
  | sample hr =>
    simp only [Channel.sends, hr, Reader.serving] at hle hne
    exact ⟨hle, hne, by simp⟩
  | finish hr =>
    simp only [Channel.sends, hr, Reader.serving] at hle hne
    exact ⟨hle, hne, by simp⟩
  | fail hr _ hdb =>
    -- the event that is being served is itself on its way
    refine absurd hdb (hne ?_)
    simp only [Channel.sends, hr, Reader.serving, Bool.toNat_true]
    omega
  | drain hr _ hdb =>
    simp only [Channel.sends, hr, Reader.serving] at hle
    exact ⟨hle, fun _ ↦ hdb, by simp⟩
  | convert hr _ =>
    simp only [Channel.sends, hr, Reader.serving] at hle hne
    exact ⟨hle, hne, by simp⟩
  | clear hr _ =>
    simp only [Channel.sends, hr, Reader.serving, Bool.toNat_true] at hle
    -- the event just served was the only one
    have hzero : c.readQueue.count .sendChanges + extra = 0 := by omega
    refine ⟨?_, fun hpos ↦ ?_, by simp⟩
    · simp only [Channel.sends, Reader.serving, Bool.toNat_false]
      omega
    · simp only [Channel.sends, Reader.serving, Bool.toNat_false] at hpos
      omega

/-- The assertion depends on the queue, the reader and whether there is something to send. -/
theorem Channel.AtMostOne.congr {extra : ℕ} {c c' : Channel β} (h : c.AtMostOne extra)
    (hq : c'.readQueue = c.readQueue) (hr : c'.reader = c.reader)
    (hdb : c.changeDb ≠ [] → c'.changeDb ≠ []) : c'.AtMostOne extra := by
  have hsends : c'.sends = c.sends := by rw [Channel.sends, Channel.sends, hq, hr]
  refine ⟨hsends ▸ h.le_one, fun hpos ↦ hdb (h.ne_nil (hsends ▸ hpos)), ?_⟩
  rw [hr]
  exact h.not_failed

/-- Posting what was about to be posted. -/
theorem Channel.AtMostOne.post {extra : ℕ} {c : Channel β} (h : c.AtMostOne (extra + 1)) :
    (c.putEvent .sendChanges).AtMostOne extra := by
  have hsends : (c.putEvent .sendChanges).sends + extra = c.sends + (extra + 1) := by
    simp only [Channel.sends, Channel.putEvent, List.count_append, List.count_singleton_self]
    omega
  refine ⟨hsends ▸ h.le_one, fun hpos ↦ h.ne_nil (hsends ▸ hpos), h.not_failed⟩

/-- `SAMPLE` and `FINISH` do not concern the assertion. -/
theorem Channel.AtMostOne.putEvent {extra : ℕ} {c : Channel β} {event : SubscriptionEvent}
    (h : c.AtMostOne extra) (he : event ≠ .sendChanges) : (c.putEvent event).AtMostOne extra := by
  have hsends : (c.putEvent event).sends = c.sends := by
    simp [Channel.sends, Channel.putEvent, List.count_append, he]
  exact ⟨hsends ▸ h.le_one, fun hpos ↦ h.ne_nil (hsends ▸ hpos), h.not_failed⟩

end Reader

end ConfdDemos.Gnmi
