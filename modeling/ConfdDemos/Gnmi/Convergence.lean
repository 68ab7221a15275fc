import ConfdDemos.Foundation.Overlay
import ConfdDemos.Gnmi.ApiStream
import ConfdDemos.Gnmi.Stripping

/-!
# Convergence of a STREAM subscription

A client of the API adapter holds the first sample overlaid with the updates it was sent. The first
sample is read leaf by leaf in `read()`; only then is the change thread started, which subscribes to
every path and calls `cdb.subscribe_done`. CDB notifies every commit made after that call and none
made before it.

## The machine

The two threads are those of the API adapter, moved along as one component (`reachable_stream`).
Around them are the datastore, the progress of the sample and of the subscription, and the
notifications CDB has queued. A commit sets values of existing leaves at any moment; CDB reports,
for each subscription point, the leaves whose value has changed.

## The window

Between the reading of a leaf and `subscribe_done` nothing watches it. While no commit changes a
leaf in that window, the sample with everything passed on or still to be passed on is the datastore
(`SyncInv.current`), and the conservation of changes carries this to what the client has received.

## Spellings

A client may spell the path of a leaf as it likes, and ConfD finds the leaf all the same. A sample
is stripped of the prefix of the request, and a change of the whole path of its subscription, where
`remove_path_prefix` raises unless that is spelled as `make_gnmi_keypath` does it. Then `read()`
ends with what it has converted not sent, and the change thread goes on alone.
-/

namespace ConfdDemos.Gnmi

/-- An entry of `change_db`: a subscription point and the changes found there. -/
abbrev Batch (L V : Type*) := ℕ × List (L × V)

/-- The paths of a subscription list. -/
structure Spelling (L : Type*) where
  /-- `subscription_list.prefix`. -/
  gnmiPrefix : Path
  /-- The path of each subscription, by its number. -/
  path : ℕ → Path
  /-- `make_gnmi_keypath`, which spells the paths of samples and changes. -/
  keypath : L → Path

namespace Spelling

variable {L V : Type*} (S : Spelling L)

/-- `subpoint_paths`. -/
def subpointPath (spoint : ℕ) : Path := addPathPrefix (S.path spoint) S.gnmiPrefix

/-- `get_sample` can strip the path of the leaf. -/
def samples (l : L) : Bool := (removePathPrefix (S.keypath l) S.gnmiPrefix).isOk

/-- A change of the leaf can be stripped for a subscription point. -/
def spelled (spoint : ℕ) (l : L) : Bool :=
  (removePathPrefix (S.keypath l) (S.subpointPath spoint)).isOk

/-- All changes of a batch can be stripped. -/
def strips (b : Batch L V) : Bool := b.2.all fun q ↦ S.spelled b.1 q.1

end Spelling

structure Sync (L V : Type*) where
  /-- The datastore. -/
  store : L → V
  /-- The leaves the first sample has still to read. -/
  todo : List L
  /-- The first sample. -/
  sample : List (L × V)
  /-- `monitored_paths`. -/
  monitored : List L
  /-- The paths the change thread has still to subscribe to. -/
  subscribing : List L
  /-- The subscription points in order. -/
  points : List L
  /-- `cdb.subscribe_done` has been called. -/
  subscribed : Bool
  /-- The notifications queued on the subscription socket. -/
  notifications : List (List (Batch L V))
  /-- The rest of the notification the change thread has read. -/
  pending : List (Batch L V)
  /-- The updates of the response that `read()` is making, of a later `sample` or of changes. -/
  response : List (L × V)
  /-- The updates sent after the first sample, in order. -/
  updates : List (L × V)
  stream : ApiStream (Batch L V)

inductive SyncEvent (L V : Type*)
  | commit (sets : List (L × V))
  /-- `get_sample` and `add_path_for_monitoring` for the next subscription. -/
  | readLeaf
  /-- The first sample is complete and monitoring starts. -/
  | sampled
  /-- `get_sample` for the next subscription, in a `sample` the client has polled. -/
  | readAgain
  | sampledAgain
  /-- `cdb.subscribe2` for the next path. -/
  | subscribe
  | subscribeDone
  /-- `cdb.read_subscription_socket2`. -/
  | readSocket
  /-- `process_subscription` for the next subscription point, up to `_append_changes`. -/
  | processSubscription
  /-- The next entry of `change_db` is turned into a notification. -/
  | convert
  /-- `change_db` is cleared, and the notifications are sent. -/
  | clear
  /-- Any other step of the two threads or the client. -/
  | other (e : ApiEvent (Batch L V))

section Machine

variable {L V : Type*} [DecidableEq L] [DecidableEq V]

/-- A commit that sets leaves one after the other. -/
def applySets (store : L → V) : List (L × V) → L → V
  | [] => store
  | q :: sets => applySets (Function.update store q.1 q.2) sets

/-- What CDB reports of a commit: for each subscription point its leaf, if the value changed. -/
def diff (points : List L) (store store' : L → V) : List (Batch L V) :=
  points.zipIdx.filterMap fun q ↦
    if store' q.1 = store q.1 then none else some (q.2, [(q.1, store' q.1)])

/-- The notifications queued after a commit. CDB does not notify a commit without a change. -/
def Sync.notified (s : Sync L V) (store' : L → V) : List (List (Batch L V)) :=
  if s.subscribed && !(diff s.points s.store store').isEmpty then
    s.notifications ++ [diff s.points s.store store']
  else s.notifications

/-- The steps of the two threads that the machine does not tie to the datastore, to CDB or to what
the client is sent. -/
def ApiStream.isFree {β : Type*} (s : ApiStream β) : ApiEvent β → Bool
  | .read .sampled => false
  | .read .convert => false
  | .read .clear => false
  | .read .serve => s.chan.reader != .took .sample
  | .ready => false
  | .pass _ => false
  | _ => true

/-- The entry of `change_db` that `read()` has to convert next. -/
def Channel.entry? {β : Type*} (c : Channel β) : Option β :=
  match c.reader with
  | .draining k => c.changeDb[k]?
  | _ => none

/-- An exception ends `read()`, which releases the lock if it holds it. -/
def ApiStream.readRaises {β : Type*} (s : ApiStream β) : ApiStream β :=
  { s with chan := { s.chan with
      reader := .failed, lock := if s.chan.lock = some .reader then none else s.chan.lock } }

/-- What is left of a response that is not sent. -/
def Sync.readRaises (s : Sync L V) : Sync L V :=
  { s with stream := s.stream.readRaises, response := [] }

def syncStep (S : Spelling L) (s : Sync L V) : SyncEvent L V → Option (Sync L V)
  | .commit sets =>
    some { s with
      store := applySets s.store sets, notifications := s.notified (applySets s.store sets) }
  | .readLeaf =>
    match s.stream.chan.reader, s.todo with
    | .sampling, l :: rest =>
      if S.samples l then
        some { s with
          todo := rest, sample := s.sample ++ [(l, s.store l)], monitored := s.monitored ++ [l] }
      else some s.readRaises
    | _, _ => none
  | .sampled =>
    match s.todo with
    | [] =>
      (apiStep s.stream (.read .sampled)).map fun stream ↦
        { s with stream := stream, subscribing := s.monitored }
    | _ => none
  | .readAgain =>
    match s.stream.chan.reader, s.monitored[s.response.length]? with
    | .took .sample, some l =>
      if S.samples l then some { s with response := s.response ++ [(l, s.store l)] }
      else some s.readRaises
    | _, _ => none
  | .sampledAgain =>
    if s.stream.chan.reader = .took .sample ∧ s.response.length = s.monitored.length then
      (apiStep s.stream (.read .serve)).map fun stream ↦
        { s with stream := stream, updates := s.updates ++ s.response, response := [] }
    else none
  | .subscribe =>
    match s.stream.producer, s.subscribing with
    | .starting, l :: rest => some { s with subscribing := rest, points := s.points ++ [l] }
    | _, _ => none
  | .subscribeDone =>
    match s.subscribing with
    | [] =>
      (apiStep s.stream .ready).map fun stream ↦ { s with stream := stream, subscribed := true }
    | _ => none
  | .readSocket =>
    match s.stream.producer, s.pending, s.notifications with
    | .idle, [], batches :: rest => some { s with pending := batches, notifications := rest }
    | _, _, _ => none
  | .processSubscription =>
    match s.pending with
    | batch :: rest =>
      (apiStep s.stream (.pass batch)).map fun stream ↦ { s with stream := stream, pending := rest }
    | [] => none
  | .convert =>
    match s.stream.chan.entry? with
    | some b =>
      if S.strips b then
        (apiStep s.stream (.read .convert)).map fun stream ↦
          { s with stream := stream, response := s.response ++ b.2 }
      else some s.readRaises
    | none => none
  | .clear =>
    (apiStep s.stream (.read .clear)).map fun stream ↦
      { s with stream := stream, updates := s.updates ++ s.response, response := [] }
  | .other e =>
    if s.stream.isFree e then (apiStep s.stream e).map fun stream ↦ { s with stream := stream }
    else none

/-- Every interleaving of commits with the two threads and the client. -/
def syncMachine (S : Spelling L) : Machine (Sync L V) (SyncEvent L V) := ⟨syncStep S⟩

def Sync.init (leaves : List L) (store : L → V) : Sync L V where
  store := store
  todo := leaves
  sample := []
  monitored := []
  subscribing := []
  points := []
  subscribed := false
  notifications := []
  pending := []
  response := []
  updates := []
  stream := .init

/-! ## The statement -/

/-- The first sample and the updates sent after it, in order. -/
def Sync.delivered (s : Sync L V) : List (L × V) := s.sample ++ s.updates

/-- `read()` has taken an event it has not finished with. -/
def Reader.busy : Reader → Bool
  | .took _ => true
  | .draining _ => true
  | _ => false

/-- The change thread is idle and `read_queue` is drained. -/
structure Sync.Settled (s : Sync L V) : Prop where
  idle : s.stream.producer = .idle
  pending : s.pending = []
  notifications : s.notifications = []
  readQueue : s.stream.chan.readQueue = []
  busy : s.stream.chan.reader.busy = false

/-- What the client holds for every subscribed leaf is what the datastore holds. -/
def Sync.Converged (leaves : List L) (s : Sync L V) : Prop :=
  ∀ l ∈ leaves, overlay s.delivered l = some (s.store l)

/-- A commit made before `subscribe_done` keeps the value of every subscribed leaf that the first
sample has read and will not read again, and one made after it keeps the value of every subscribed
leaf whose changes cannot be stripped. -/
def OutsideWindow (S : Spelling L) (leaves : List L) (s : Sync L V) : SyncEvent L V → Prop
  | .commit sets =>
    (s.subscribed = false → ∀ l ∈ leaves, l ∉ s.todo → applySets s.store sets l = s.store l) ∧
      (s.subscribed = true → ∀ q ∈ leaves.zipIdx,
        S.spelled q.2 q.1 = true ∨ applySets s.store sets q.1 = s.store q.1)
  | _ => True

instance (S : Spelling L) (leaves : List L) (s : Sync L V) (e : SyncEvent L V) :
    Decidable (OutsideWindow S leaves s e) :=
  match e with
  | .commit _ => inferInstanceAs
      (Decidable ((_ → ∀ l ∈ leaves, _ → _) ∧ (_ → ∀ q ∈ leaves.zipIdx, _ ∨ _)))
  | .readLeaf | .sampled | .readAgain | .sampledAgain | .subscribe | .subscribeDone | .readSocket
  | .processSubscription | .convert | .clear | .other _ => .isTrue trivial

/-! ## Steps -/

/-- `read()` has come to a path that it cannot strip, or may do so in the first sample. -/
def Sync.Raises (S : Spelling L) (s : Sync L V) : Prop :=
  s.stream.chan.reader = .sampling ∨ (∃ l ∈ s.monitored, S.samples l = false) ∨
    ∃ b, s.stream.chan.entry? = some b ∧ S.strips b = false

/-- What a step of the machine can be. -/
inductive Sync.Steps (S : Spelling L) (s : Sync L V) : SyncEvent L V → Sync L V → Prop
  | commit {sets : List (L × V)} : s.Steps S (.commit sets)
      { s with
        store := applySets s.store sets, notifications := s.notified (applySets s.store sets) }
  | readLeaf {l : L} {rest : List L} : s.stream.chan.reader = .sampling → s.todo = l :: rest →
      S.samples l = true → s.Steps S .readLeaf
        { s with
          todo := rest, sample := s.sample ++ [(l, s.store l)], monitored := s.monitored ++ [l] }
  | sampled {t : ApiStream (Batch L V)} : s.todo = [] →
      apiStep s.stream (.read .sampled) = some t →
      s.Steps S .sampled { s with stream := t, subscribing := s.monitored }
  | readAgain {l : L} : s.stream.chan.reader = .took .sample →
      s.Steps S .readAgain { s with response := s.response ++ [(l, s.store l)] }
  | sampledAgain {t : ApiStream (Batch L V)} : s.stream.chan.reader = .took .sample →
      apiStep s.stream (.read .serve) = some t →
      s.Steps S .sampledAgain
        { s with stream := t, updates := s.updates ++ s.response, response := [] }
  | subscribe {l : L} {rest : List L} : s.stream.producer = .starting → s.subscribing = l :: rest →
      s.Steps S .subscribe { s with subscribing := rest, points := s.points ++ [l] }
  | subscribeDone {t : ApiStream (Batch L V)} : s.subscribing = [] →
      apiStep s.stream .ready = some t →
      s.Steps S .subscribeDone { s with stream := t, subscribed := true }
  | readSocket {batches : List (Batch L V)} {rest : List (List (Batch L V))} :
      s.stream.producer = .idle → s.pending = [] → s.notifications = batches :: rest →
      s.Steps S .readSocket { s with pending := batches, notifications := rest }
  | processSubscription {batch : Batch L V} {rest : List (Batch L V)} {t : ApiStream (Batch L V)} :
      s.pending = batch :: rest → apiStep s.stream (.pass batch) = some t →
      s.Steps S .processSubscription { s with stream := t, pending := rest }
  | convert {b : Batch L V} {t : ApiStream (Batch L V)} : s.stream.chan.entry? = some b →
      apiStep s.stream (.read .convert) = some t →
      s.Steps S .convert { s with stream := t, response := s.response ++ b.2 }
  | clear {t : ApiStream (Batch L V)} : apiStep s.stream (.read .clear) = some t →
      s.Steps S .clear
        { s with stream := t, updates := s.updates ++ s.response, response := [] }
  | other {e : ApiEvent (Batch L V)} {t : ApiStream (Batch L V)} : s.stream.isFree e = true →
      apiStep s.stream e = some t → s.Steps S (.other e) { s with stream := t }
  | raises {e : SyncEvent L V} : s.Raises S → s.Steps S e s.readRaises

theorem Sync.steps_of_syncStep {S : Spelling L} {s s' : Sync L V} {e : SyncEvent L V}
    (hs : syncStep S s e = some s') : s.Steps S e s' := by
  cases e with
  | commit sets => exact Option.some_inj.mp hs ▸ .commit
  | readLeaf =>
    simp only [syncStep] at hs
    split at hs
    next l rest hr ht =>
      split_ifs at hs with hl
      · exact Option.some_inj.mp hs ▸ .readLeaf hr ht hl
      · exact Option.some_inj.mp hs ▸ .raises (Or.inl hr)
    next => exact absurd hs (by simp)
  | sampled =>
    simp only [syncStep] at hs
    split at hs
    next htodo =>
      obtain ⟨t, ht, rfl⟩ := Option.map_eq_some_iff.mp hs
      exact .sampled htodo ht
    next => exact absurd hs (by simp)
  | readAgain =>
    simp only [syncStep] at hs
    split at hs
    next l hr hl =>
      split_ifs at hs with hsamples
      · exact Option.some_inj.mp hs ▸ .readAgain hr
      · exact Option.some_inj.mp hs ▸
          .raises (Or.inr (Or.inl ⟨l, List.mem_of_getElem? hl, Bool.eq_false_iff.mpr hsamples⟩))
    next => exact absurd hs (by simp)
  | sampledAgain =>
    simp only [syncStep, Option.ite_none_right_eq_some] at hs
    obtain ⟨⟨hr, -⟩, hs⟩ := hs
    obtain ⟨t, ht, rfl⟩ := Option.map_eq_some_iff.mp hs
    exact .sampledAgain hr ht
  | subscribe =>
    simp only [syncStep] at hs
    split at hs
    next l rest hp hsub => exact Option.some_inj.mp hs ▸ .subscribe hp hsub
    next => exact absurd hs (by simp)
  | subscribeDone =>
    simp only [syncStep] at hs
    split at hs
    next hsub =>
      obtain ⟨t, ht, rfl⟩ := Option.map_eq_some_iff.mp hs
      exact .subscribeDone hsub ht
    next => exact absurd hs (by simp)
  | readSocket =>
    simp only [syncStep] at hs
    split at hs
    next batches rest hp hpend hnot => exact Option.some_inj.mp hs ▸ .readSocket hp hpend hnot
    next => exact absurd hs (by simp)
  | processSubscription =>
    simp only [syncStep] at hs
    split at hs
    next batch rest hpend =>
      obtain ⟨t, ht, rfl⟩ := Option.map_eq_some_iff.mp hs
      exact .processSubscription hpend ht
    next => exact absurd hs (by simp)
  | convert =>
    simp only [syncStep] at hs
    split at hs
    next b hb =>
      split_ifs at hs with hstrips
      · obtain ⟨t, ht, rfl⟩ := Option.map_eq_some_iff.mp hs
        exact .convert hb ht
      · exact Option.some_inj.mp hs ▸
          .raises (Or.inr (Or.inr ⟨b, hb, Bool.eq_false_iff.mpr hstrips⟩))
    next => exact absurd hs (by simp)
  | clear =>
    obtain ⟨t, ht, rfl⟩ := Option.map_eq_some_iff.mp hs
    exact .clear ht
  | other e =>
    simp only [syncStep, Option.ite_none_right_eq_some] at hs
    obtain ⟨hfree, hs⟩ := hs
    obtain ⟨t, ht, rfl⟩ := Option.map_eq_some_iff.mp hs
    exact .other hfree ht

end Machine

/-! ## The datastore -/

section Store

variable {L V : Type*} [DecidableEq V]

/-- What is reported of a commit comes from the datastore after it. -/
theorem eq_of_mem_diff {points : List L} {store store' : L → V} {q : L × V}
    (hq : q ∈ (diff points store store').flatMap fun b ↦ b.2) : q.2 = store' q.1 := by
  simp only [diff, List.mem_flatMap, List.mem_filterMap] at hq
  obtain ⟨b, ⟨⟨l, i⟩, -, hb⟩, hqb⟩ := hq
  split_ifs at hb
  rw [Option.some_inj] at hb
  subst hb
  rw [List.mem_singleton] at hqb
  rw [hqb]

/-- A leaf is reported exactly when it has a subscription point and its value has changed. -/
theorem mem_diff_iff {points : List L} {store store' : L → V} {l : L} :
    l ∈ ((diff points store store').flatMap fun b ↦ b.2).map Prod.fst ↔
      l ∈ points ∧ store' l ≠ store l := by
  simp only [diff, List.mem_map, List.mem_flatMap, List.mem_filterMap]
  constructor
  · rintro ⟨q, ⟨b, ⟨⟨m, i⟩, hmem, hb⟩, hqb⟩, rfl⟩
    split_ifs at hb with hne
    rw [Option.some_inj] at hb
    subst hb
    rw [List.mem_singleton] at hqb
    subst hqb
    exact ⟨List.fst_mem_of_mem_zipIdx hmem, hne⟩
  · rintro ⟨hmem, hne⟩
    obtain ⟨i, hi⟩ := List.getElem?_of_mem hmem
    refine ⟨(l, store' l), ⟨(i, [(l, store' l)]), ⟨(l, i), ?_, ?_⟩, by simp⟩, rfl⟩
    · exact List.mem_zipIdx_iff_getElem?.mpr hi
    · rw [if_neg hne]

theorem notified_flatten (s : Sync L V) (store' : L → V) :
    (s.notified store').flatten =
      s.notifications.flatten ++ if s.subscribed then diff s.points s.store store' else [] := by
  unfold Sync.notified
  cases s.subscribed with
  | false => simp
  | true =>
    by_cases hd : diff s.points s.store store' = []
    · simp [hd]
    · simp [hd]

variable [DecidableEq L]

/-- What a client holds after it has also received what is reported of a commit. -/
theorem overlay_append_diff {points : List L} {store : L → V} (store' : L → V)
    {d : List (L × V)} {l : L} (hl : l ∈ points) (h : overlay d l = some (store l)) :
    overlay (d ++ (diff points store store').flatMap fun b ↦ b.2) l = some (store' l) := by
  rw [overlay_append]
  by_cases hne : store' l = store l
  · rw [overlay_of_notMem (fun hmem ↦ (mem_diff_iff.mp hmem).2 hne), Option.none_or, h, hne]
  · rw [overlay_of_forall_eq (fun q hq ↦ eq_of_mem_diff hq) (mem_diff_iff.mpr ⟨hl, hne⟩),
      Option.some_or]

end Store

/-! ## The invariant -/

section Invariant

variable {L V : Type*} [DecidableEq L]

/-- The batches the client has still to be sent, in the order in which it will be. -/
def Sync.owed (s : Sync L V) : List (Batch L V) :=
  s.stream.passed.drop s.stream.chan.turned.length ++ s.pending ++ s.notifications.flatten

/-- `read()` is making a response. -/
def Reader.responding : Reader → Bool
  | .took .sample => true
  | .draining _ => true
  | _ => false

structure SyncInv (S : Spelling L) (leaves : List L) (s : Sync L V) : Prop where
  monitored : s.monitored ++ s.todo = leaves
  samples : ∀ l ∈ s.monitored, S.samples l = true
  sampling : s.stream.chan.reader = .sampling → s.points = [] ∧ s.updates = []
  sampled : s.stream.chan.reader ≠ .sampling → s.todo = [] ∧ s.points ++ s.subscribing = leaves
  response : s.stream.chan.reader.responding = false → s.response = []
  subscribed : s.subscribed = true → s.stream.chan.reader ≠ .sampling ∧ s.subscribing = []
  unsubscribed : s.subscribed = false →
    s.notifications = [] ∧ s.pending = [] ∧ s.stream.passed = []
  strips : ∀ b ∈ s.owed, S.strips b = true
  /-- What the client has received, is being put together for it and is owed is the datastore. -/
  current : ∀ l ∈ leaves, l ∉ s.todo →
    overlay (s.sample ++ s.updates ++ s.response ++ s.owed.flatMap fun b ↦ b.2) l =
      some (s.store l)

/-- The first sample has raised, so there is no change thread. -/
def Sync.Dead (s : Sync L V) : Prop :=
  s.stream.chan.reader = .failed ∧ s.stream.producer = .notStarted

theorem syncInv_init (S : Spelling L) (leaves : List L) (store : L → V) :
    SyncInv S leaves (Sync.init leaves store) where
  monitored := rfl
  samples l hl := absurd hl List.not_mem_nil
  sampling _ := ⟨rfl, rfl⟩
  sampled h := absurd rfl h
  response _ := rfl
  subscribed h := absurd h (by simp [Sync.init])
  unsubscribed _ := ⟨rfl, rfl, rfl⟩
  strips b hb := absurd hb (by simp [Sync.owed, Sync.init, ApiStream.init, Channel.init])
  current l hl hn := absurd hl hn

/-- A free step of the two threads neither passes a batch on nor turns one into a notification, and
neither begins or ends the first sample nor ends a response. -/
theorem ApiStream.Steps.of_isFree {β : Type*} {s t : ApiStream β} {e : ApiEvent β}
    (hs : s.Steps e t) (hfree : s.isFree e = true) :
    t.passed = s.passed ∧ t.chan.turned = s.chan.turned ∧
      (t.chan.reader = .sampling ↔ s.chan.reader = .sampling) ∧
      (s.chan.reader.responding = true → t.chan.reader.responding = true) := by
  cases hs with
  | read hr =>
    cases hr with
    | sampled => exact absurd hfree (by simp [ApiStream.isFree])
    | convert => exact absurd hfree (by simp [ApiStream.isFree])
    | clear => exact absurd hfree (by simp [ApiStream.isFree])
    | sample hr => exact absurd hfree (by simp [ApiStream.isFree, hr])
    | get hr => exact ⟨rfl, rfl, by simp [hr], by simp [hr, Reader.responding]⟩
    | finish hr => exact ⟨rfl, rfl, by simp [hr], by simp [hr, Reader.responding]⟩
    | fail hr => exact ⟨rfl, rfl, by simp [hr], by simp [hr, Reader.responding]⟩
    | drain hr => exact ⟨rfl, rfl, by simp [hr], fun _ ↦ rfl⟩
  | ready => exact absurd hfree (by simp [ApiStream.isFree])
  | pass => exact absurd hfree (by simp [ApiStream.isFree])
  | _ => exact ⟨rfl, rfl, Iff.rfl, id⟩

variable {S : Spelling L} {leaves : List L} {s : Sync L V} {t : ApiStream (Batch L V)}

theorem SyncInv.owed_eq_nil (h : SyncInv S leaves s) (hf : s.subscribed = false) :
    s.owed = [] := by
  obtain ⟨hnot, hpend, hpassed⟩ := h.unsubscribed hf
  simp [Sync.owed, hnot, hpend, hpassed]

theorem SyncInv.not_subscribed (h : SyncInv S leaves s) (hr : s.stream.chan.reader = .sampling) :
    s.subscribed = false := by
  cases hsub : s.subscribed with
  | false => rfl
  | true => exact absurd hr (h.subscribed hsub).1

/-- Once it is complete, the subscription has a point for each leaf. -/
theorem SyncInv.points_eq (h : SyncInv S leaves s) (hsub : s.subscribed = true) :
    s.points = leaves := by
  obtain ⟨hr, hsubs⟩ := h.subscribed hsub
  have hpoints := (h.sampled hr).2
  rwa [hsubs, List.append_nil] at hpoints

/-- A step of the two threads that passes no batch on and turns none into a notification. -/
theorem SyncInv.stream_step (h : SyncInv S leaves s) (hpassed : t.passed = s.stream.passed)
    (hturned : t.chan.turned = s.stream.chan.turned)
    (hsamp : t.chan.reader = .sampling ↔ s.stream.chan.reader = .sampling)
    (hresp : s.stream.chan.reader.responding = true → t.chan.reader.responding = true) :
    SyncInv S leaves { s with stream := t } := by
  have howed : Sync.owed { s with stream := t } = s.owed := by
    simp only [Sync.owed, hpassed, hturned]
  refine ⟨h.monitored, h.samples, fun hr ↦ h.sampling (hsamp.mp hr),
    fun hr ↦ h.sampled fun hs ↦ hr (hsamp.mpr hs), fun hr ↦ h.response ?_,
    fun hsub ↦ ⟨fun hr ↦ (h.subscribed hsub).1 (hsamp.mp hr), (h.subscribed hsub).2⟩,
    fun hf ↦ ?_, by rw [howed]; exact h.strips, fun k hk hn ↦ ?_⟩
  · exact Bool.eq_false_iff.mpr fun hs ↦ Bool.eq_false_iff.mp hr (hresp hs)
  · rw [hpassed]
    exact h.unsubscribed hf
  · rw [howed]
    exact h.current k hk hn

theorem syncInv_readLeaf {l : L} {rest : List L} (h : SyncInv S leaves s)
    (hr : s.stream.chan.reader = .sampling) (htodo : s.todo = l :: rest)
    (hl : S.samples l = true) :
    SyncInv S leaves { s with
      todo := rest, sample := s.sample ++ [(l, s.store l)], monitored := s.monitored ++ [l] } := by
  refine ⟨?_, List.forall_mem_append.mpr ⟨h.samples, List.forall_mem_singleton.mpr hl⟩,
    h.sampling, fun hne ↦ absurd hr hne, h.response, h.subscribed, h.unsubscribed, h.strips,
    fun k hk hn ↦ ?_⟩
  · rw [← h.monitored, htodo, List.append_assoc, List.singleton_append]
  · -- nothing but the first sample has been read
    have howed := h.owed_eq_nil (h.not_subscribed hr)
    have hupd := (h.sampling hr).2
    have hresp := h.response (by rw [hr]; rfl)
    change overlay (s.sample ++ [(l, s.store l)] ++ s.updates ++ s.response ++
      s.owed.flatMap fun b ↦ b.2) k = some (s.store k)
    rw [howed, hupd, hresp, List.flatMap_nil, List.append_nil, List.append_nil, List.append_nil]
    by_cases hkl : k = l
    · subst hkl
      rw [overlay_append, overlay, overlay, if_pos rfl, Option.none_or, Option.some_or]
    · have hcur := h.current k hk (by simp [htodo, hkl, hn])
      rw [howed, hupd, hresp, List.flatMap_nil, List.append_nil, List.append_nil,
        List.append_nil] at hcur
      rw [overlay_append, overlay, overlay, if_neg (Ne.symm hkl), Option.none_or, Option.none_or,
        hcur]

theorem syncInv_sampled (h : SyncInv S leaves s) (htodo : s.todo = [])
    (ht : s.stream.Steps (.read .sampled) t) :
    SyncInv S leaves { s with stream := t, subscribing := s.monitored } := by
  cases ht with
  | read hread =>
    cases hread with
    | sampled hr =>
      have hf := h.not_subscribed hr
      refine ⟨h.monitored, h.samples, fun hr' ↦ absurd hr' (by simp), fun _ ↦ ⟨htodo, ?_⟩,
        fun _ ↦ h.response (by rw [hr]; rfl), fun hsub ↦ absurd hsub (by simp [hf]),
        h.unsubscribed, h.strips, h.current⟩
      have hmon := h.monitored
      rw [htodo, List.append_nil] at hmon
      simpa only [(h.sampling hr).1, List.nil_append] using hmon

/-- A response is sent. -/
theorem SyncInv.send (h : SyncInv S leaves s) (hnot : s.stream.chan.reader ≠ .sampling)
    (hr : t.chan.reader = .waiting) (hpassed : t.passed = s.stream.passed)
    (hturned : t.chan.turned = s.stream.chan.turned) :
    SyncInv S leaves
      { s with stream := t, updates := s.updates ++ s.response, response := [] } := by
  have howed : Sync.owed { s with
      stream := t, updates := s.updates ++ s.response, response := [] } = s.owed := by
    simp only [Sync.owed, hpassed, hturned]
  refine ⟨h.monitored, h.samples, fun hr' ↦ absurd (hr.symm.trans hr') (by simp),
    fun _ ↦ h.sampled hnot, fun _ ↦ rfl,
    fun hsub ↦ ⟨by simp [hr], (h.subscribed hsub).2⟩, fun hf ↦ ?_, by rw [howed]; exact h.strips,
    fun k hk hn ↦ ?_⟩
  · rw [hpassed]
    exact h.unsubscribed hf
  · rw [howed, List.append_nil, ← List.append_assoc]
    exact h.current k hk hn

/-- What has been passed on and not turned into notifications is in `change_db` or about to be. -/
theorem StreamInv.drop_passed {β : Type*} {s : ApiStream β} (h : StreamInv s) :
    s.passed.drop s.chan.turned.length =
      s.chan.changeDb.drop s.chan.reader.converted ++ s.producer.inFlight := by
  rw [← h.conserved, List.append_assoc, List.drop_left]

theorem StreamInv.not_sampling {β : Type*} {s : ApiStream β} (h : StreamInv s)
    (hp : s.producer ≠ .notStarted) : s.chan.reader ≠ .sampling :=
  fun hr ↦ hp (h.sampling hr)

theorem StreamInv.turned_length_le {β : Type*} {s : ApiStream β} (h : StreamInv s) :
    s.chan.turned.length ≤ s.passed.length := by
  rw [← h.conserved, List.append_assoc, List.length_append]
  exact Nat.le_add_right _ _

theorem syncInv_pass {batch : Batch L V} {rest : List (Batch L V)}
    (hstream : StreamInv s.stream) (h : SyncInv S leaves s) (hpend : s.pending = batch :: rest)
    (ht : s.stream.Steps (.pass batch) t) :
    SyncInv S leaves { s with stream := t, pending := rest } := by
  cases ht with
  | pass hp =>
    have howed : Sync.owed { s with
        stream := { s.stream with producer := .passed batch, passed := s.stream.passed ++ [batch] }
        pending := rest } = s.owed := by
      simp only [Sync.owed, hpend, List.drop_append_of_le_length hstream.turned_length_le,
        List.append_assoc, List.nil_append, List.cons_append]
    refine ⟨h.monitored, h.samples, h.sampling, h.sampled, h.response, h.subscribed,
      fun hf ↦ ?_, by rw [howed]; exact h.strips, fun k hk hn ↦ ?_⟩
    · exact absurd (h.unsubscribed hf).2.1 (by simp [hpend])
    · rw [howed]
      exact h.current k hk hn

omit [DecidableEq L] in
/-- The entry that is converted next is the first batch owed. -/
theorem StreamInv.exists_of_entry {b : Batch L V} (hstream : StreamInv s.stream)
    (hb : s.stream.chan.entry? = some b) :
    ∃ k rest, s.stream.chan.reader = .draining k ∧ s.stream.chan.changeDb[k]? = some b ∧
      s.stream.passed.drop s.stream.chan.turned.length = b :: rest := by
  rw [Channel.entry?] at hb
  split at hb
  next k hr =>
    obtain ⟨hlt, rfl⟩ := List.getElem?_eq_some_iff.mp hb
    refine ⟨k, s.stream.chan.changeDb.drop (k + 1) ++ s.stream.producer.inFlight, hr, hb, ?_⟩
    rw [hstream.drop_passed, hr, Reader.converted, List.drop_eq_getElem_cons hlt,
      List.cons_append]
  next => exact absurd hb (by simp)

theorem syncInv_convert {b : Batch L V} (hstream : StreamInv s.stream) (h : SyncInv S leaves s)
    (hb : s.stream.chan.entry? = some b) (ht : s.stream.Steps (.read .convert) t) :
    SyncInv S leaves { s with stream := t, response := s.response ++ b.2 } := by
  obtain ⟨k, rest, hr, hk, hdrop⟩ := hstream.exists_of_entry hb
  obtain ⟨hreader, hpassed, hturned⟩ : t.chan.reader = .draining (k + 1) ∧
      t.passed = s.stream.passed ∧ t.chan.turned = s.stream.chan.turned ++ [b] := by
    cases ht with
    | read hread =>
      cases hread with
      | convert hr' hb' =>
        obtain rfl := Reader.draining.inj (hr.symm.trans hr')
        obtain rfl := Option.some_inj.mp (hk.symm.trans hb')
        exact ⟨rfl, rfl, rfl⟩
  have hnot : s.stream.chan.reader ≠ .sampling := by simp [hr]
  have howed : s.owed = b :: (rest ++ s.pending ++ s.notifications.flatten) := by
    rw [Sync.owed, hdrop, List.cons_append, List.cons_append]
  have howed' : Sync.owed { s with stream := t, response := s.response ++ b.2 } =
      rest ++ s.pending ++ s.notifications.flatten := by
    rw [Sync.owed, hpassed, hturned, List.length_append, List.length_singleton, ← List.tail_drop,
      hdrop, List.tail_cons]
  refine ⟨h.monitored, h.samples, fun hr' ↦ absurd (hreader.symm.trans hr') (by simp),
    fun _ ↦ h.sampled hnot, fun hresp ↦ ?_,
    fun hsub ↦ ⟨by simp [hreader], (h.subscribed hsub).2⟩, fun hf ↦ ?_, ?_, fun l hl hn ↦ ?_⟩
  · rw [hreader] at hresp
    exact absurd hresp Bool.true_eq_false.mp
  · rw [hpassed]
    exact h.unsubscribed hf
  · rw [howed']
    have hstrips := h.strips
    rw [howed] at hstrips
    exact (List.forall_mem_cons.mp hstrips).2
  · have hcur := h.current l hl hn
    rw [howed, List.flatMap_cons, ← List.append_assoc] at hcur
    rw [howed', ← List.append_assoc]
    exact hcur

variable [DecidableEq V]

/-- What is reported of a commit can be stripped. -/
theorem strips_of_mem_diff {sets : List (L × V)} (h : SyncInv S leaves s)
    (hP : OutsideWindow S leaves s (.commit sets)) (hsub : s.subscribed = true) {b : Batch L V}
    (hb : b ∈ diff s.points s.store (applySets s.store sets)) : S.strips b = true := by
  rw [diff, h.points_eq hsub, List.mem_filterMap] at hb
  obtain ⟨q, hq, hb⟩ := hb
  split_ifs at hb with hne
  obtain rfl := Option.some_inj.mp hb
  rw [Spelling.strips, List.all_cons, List.all_nil, Bool.and_true]
  exact (hP.2 hsub q hq).resolve_right hne

theorem syncInv_commit {sets : List (L × V)} (h : SyncInv S leaves s)
    (hP : OutsideWindow S leaves s (.commit sets)) :
    SyncInv S leaves { s with
      store := applySets s.store sets, notifications := s.notified (applySets s.store sets) } := by
  have hunsub : s.subscribed = false → s.notified (applySets s.store sets) = s.notifications := by
    intro hf
    simp [Sync.notified, hf]
  have howed : Sync.owed { s with
      store := applySets s.store sets, notifications := s.notified (applySets s.store sets) } =
        s.owed ++
          if s.subscribed then diff s.points s.store (applySets s.store sets) else [] := by
    simp only [Sync.owed, notified_flatten, List.append_assoc]
  refine ⟨h.monitored, h.samples, h.sampling, h.sampled, h.response, h.subscribed, fun hf ↦ ?_,
    ?_, fun l hl hn ↦ ?_⟩
  · obtain ⟨hnot, hrest⟩ := h.unsubscribed hf
    exact ⟨(hunsub hf).trans hnot, hrest⟩
  · rw [howed]
    refine List.forall_mem_append.mpr ⟨h.strips, fun b hb ↦ ?_⟩
    split_ifs at hb with hsub
    · exact strips_of_mem_diff h hP hsub hb
    · exact absurd hb List.not_mem_nil
  · have hcur := h.current l hl hn
    rw [howed]
    cases hsub : s.subscribed with
    | true =>
      -- the leaf has a subscription point, so a change of it is owed to the client
      have hpoint : l ∈ s.points := by rwa [h.points_eq hsub]
      have hdiff := overlay_append_diff (applySets s.store sets) hpoint hcur
      simpa only [if_true, List.flatMap_append, List.append_assoc] using hdiff
    | false =>
      have hkeep : applySets s.store sets l = s.store l := hP.1 hsub l hl hn
      rw [if_neg Bool.false_ne_true, List.append_nil]
      exact hcur.trans (congrArg some hkeep.symm)

/-- Every step moves the two threads as the machine of the API adapter would, unless `read()`
raises. -/
theorem Sync.Steps.stream_cases {s' : Sync L V} {e : SyncEvent L V} (hs : s.Steps S e s') :
    s'.stream = s.stream ∨ (∃ e', s.stream.Steps e' s'.stream) ∨
      s.Raises S ∧ s' = s.readRaises := by
  cases hs with
  | commit => exact Or.inl rfl
  | readLeaf => exact Or.inl rfl
  | subscribe => exact Or.inl rfl
  | readSocket => exact Or.inl rfl
  | readAgain => exact Or.inl rfl
  | raises hraises => exact Or.inr (Or.inr ⟨hraises, rfl⟩)
  | sampledAgain _ ht => exact Or.inr (Or.inl ⟨_, ApiStream.steps_of_apiStep ht⟩)
  | convert _ ht => exact Or.inr (Or.inl ⟨_, ApiStream.steps_of_apiStep ht⟩)
  | clear ht => exact Or.inr (Or.inl ⟨_, ApiStream.steps_of_apiStep ht⟩)
  | sampled _ ht => exact Or.inr (Or.inl ⟨_, ApiStream.steps_of_apiStep ht⟩)
  | subscribeDone _ ht => exact Or.inr (Or.inl ⟨_, ApiStream.steps_of_apiStep ht⟩)
  | processSubscription _ ht => exact Or.inr (Or.inl ⟨_, ApiStream.steps_of_apiStep ht⟩)
  | other _ ht => exact Or.inr (Or.inl ⟨_, ApiStream.steps_of_apiStep ht⟩)

omit [DecidableEq V] in
/-- Only the first sample raises: what can be stripped there can be stripped later, and no change is
owed that cannot be. -/
theorem SyncInv.dead_of_raises (hstream : StreamInv s.stream) (h : SyncInv S leaves s)
    (hraises : s.Raises S) : s.readRaises.Dead := by
  rcases hraises with hr | ⟨l, hl, hsamples⟩ | ⟨b, hb, hstrips⟩
  · exact ⟨rfl, hstream.sampling hr⟩
  · exact absurd (h.samples l hl) (Bool.eq_false_iff.mp hsamples)
  · obtain ⟨k, rest, -, -, hdrop⟩ := hstream.exists_of_entry hb
    refine absurd (h.strips b ?_) (Bool.eq_false_iff.mp hstrips)
    rw [Sync.owed, hdrop, List.cons_append, List.cons_append]
    exact List.mem_cons_self

/-- **Every step outside the window keeps the invariants**, unless the first sample raises. -/
theorem syncInv_step {s' : Sync L V} {e : SyncEvent L V} (hstream : StreamInv s.stream)
    (h : SyncInv S leaves s) (hP : OutsideWindow S leaves s e) (hs : s.Steps S e s') :
    SyncInv S leaves s' ∨ s'.Dead := by
  cases hs with
  | commit => exact Or.inl (syncInv_commit h hP)
  | readLeaf hr htodo hl => exact Or.inl (syncInv_readLeaf h hr htodo hl)
  | sampled htodo ht => exact Or.inl (syncInv_sampled h htodo (ApiStream.steps_of_apiStep ht))
  | @readAgain l hr =>
    refine Or.inl ⟨h.monitored, h.samples, h.sampling, h.sampled, fun hresp ↦ ?_, h.subscribed,
      h.unsubscribed, h.strips, fun k hk hn ↦ ?_⟩
    · rw [hr] at hresp
      exact absurd hresp Bool.true_eq_false.mp
    · -- a leaf that is read again has the value it has now
      have hins := overlay_insert (l := l) (h.current k hk hn)
      simpa only [Sync.owed, List.append_assoc] using hins
  | sampledAgain hr ht =>
    cases ApiStream.steps_of_apiStep ht with
    | read hread =>
      cases hread with
      | sample _ => exact Or.inl (h.send (by simp [hr]) rfl rfl rfl)
      | finish hr' => exact absurd (hr.symm.trans hr') (by simp)
      | fail hr' => exact absurd (hr.symm.trans hr') (by simp)
      | drain hr' => exact absurd (hr.symm.trans hr') (by simp)
  | @subscribe l rest hp hsubs =>
    have hnot := hstream.not_sampling (by simp [hp])
    obtain ⟨htodo, hpoints⟩ := h.sampled hnot
    refine Or.inl ⟨h.monitored, h.samples, fun hr ↦ absurd hr hnot, fun _ ↦ ⟨htodo, ?_⟩,
      h.response, fun hsub ↦ ?_, h.unsubscribed, h.strips, h.current⟩
    · rw [← hpoints, hsubs, List.append_assoc, List.singleton_append]
    · -- a subscription is not complete while there is a point left
      exact absurd (h.subscribed hsub).2 (by simp [hsubs])
  | @subscribeDone t hsubs ht =>
    cases ApiStream.steps_of_apiStep ht with
    | ready hp =>
      have hnot := hstream.not_sampling (by simp [hp])
      exact Or.inl ⟨h.monitored, h.samples, h.sampling, h.sampled, h.response,
        fun _ ↦ ⟨hnot, hsubs⟩, fun hf ↦ absurd hf (by simp), h.strips, h.current⟩
  | @readSocket batches rest hp hpend hnot =>
    have howed : Sync.owed { s with pending := batches, notifications := rest } = s.owed := by
      simp only [Sync.owed, hpend, hnot, List.append_nil, List.flatten_cons, List.append_assoc]
    refine Or.inl ⟨h.monitored, h.samples, h.sampling, h.sampled, h.response, h.subscribed,
      fun hf ↦ ?_, by rw [howed]; exact h.strips, fun k hk hn ↦ ?_⟩
    · exact absurd (h.unsubscribed hf).1 (by simp [hnot])
    · rw [howed]
      exact h.current k hk hn
  | processSubscription hpend ht =>
    exact Or.inl (syncInv_pass hstream h hpend (ApiStream.steps_of_apiStep ht))
  | convert hb ht => exact Or.inl (syncInv_convert hstream h hb (ApiStream.steps_of_apiStep ht))
  | clear ht =>
    cases ApiStream.steps_of_apiStep ht with
    | read hread =>
      cases hread with
      | clear hr => exact Or.inl (h.send (by simp [hr]) rfl rfl rfl)
  | @other e t hfree ht =>
    obtain ⟨hpassed, hturned, hsamp, hresp⟩ :=
      (ApiStream.steps_of_apiStep ht).of_isFree hfree
    exact Or.inl (h.stream_step hpassed hturned hsamp hresp)
  | raises hraises => exact Or.inr (h.dead_of_raises hstream hraises)

/-- A change thread that was not started stays so. -/
theorem Sync.Dead.step {s' : Sync L V} {e : SyncEvent L V} (h : s.Dead) (hs : s.Steps S e s') :
    s'.Dead := by
  obtain ⟨hr, hp⟩ := h
  rcases hs.stream_cases with heq | ⟨e', hstep⟩ | ⟨-, rfl⟩
  · rw [Sync.Dead, heq]
    exact ⟨hr, hp⟩
  · rw [Sync.Dead]
    generalize s'.stream = t at hstep ⊢
    cases hstep with
    | poll => exact ⟨hr, hp⟩
    | stop => exact ⟨hr, hp⟩
    | raise hp' => rcases hp' with hp' | hp' <;> exact absurd (hp.symm.trans hp') (by simp)
    | read hread => cases hread <;> exact absurd (hr.symm.trans ‹_›) (by simp)
    | acquire hp' _ => exact absurd (hp.symm.trans hp') (by simp)
    | quit hp' _ => exact absurd (hp.symm.trans hp') (by simp)
    | _ hp' => exact absurd (hp.symm.trans hp') (by simp)
  · exact ⟨rfl, hp⟩

theorem syncInv_of_reach {store : L → V}
    (h : (syncMachine S).Reach (OutsideWindow S leaves) (.init leaves store) s) :
    StreamInv s.stream ∧ SyncInv S leaves s ∨ s.Dead := by
  induction h with
  | refl => exact Or.inl ⟨streamInv_init, syncInv_init S leaves store⟩
  | @step s s' e h hP hs ih =>
    have hstep := Sync.steps_of_syncStep hs
    rcases ih with ⟨hstream, hinv⟩ | hdead
    · rcases hstep.stream_cases with heq | ⟨e', hstep'⟩ | ⟨hraises, rfl⟩
      · exact (syncInv_step hstream hinv hP hstep).imp_left fun hinv' ↦ ⟨heq ▸ hstream, hinv'⟩
      · exact (syncInv_step hstream hinv hP hstep).imp_left fun hinv' ↦
          ⟨streamInv_step hstream hstep', hinv'⟩
      · exact Or.inr (hinv.dead_of_raises hstream hraises)
    · exact Or.inr (hdead.step hstep)

/-! ## Convergence -/

/-- With nothing left to serve, everything passed on has been sent. -/
theorem StreamInv.turned_eq_passed {β : Type*} {s : ApiStream β} (h : StreamInv s)
    (hp : s.producer = .idle) (hq : s.chan.readQueue = []) (hr : s.chan.reader.busy = false) :
    s.chan.turned = s.passed := by
  have hdb : s.chan.changeDb = [] := by
    by_contra hne
    rcases h.sent_of_not_unsent (by rw [hp]; rfl) hne with hmem | hserv
    · exact absurd hmem (by simp [hq])
    · cases hreader : s.chan.reader with
      | took event => exact absurd hr (by simp [hreader, Reader.busy])
      | draining k => exact absurd hr (by simp [hreader, Reader.busy])
      | _ => exact absurd hserv (by simp [hreader, Reader.serving])
  have hcons := h.conserved
  simpa only [hdb, hp, List.drop_nil, Producer.inFlight, List.append_nil] using hcons

end Invariant

instance {L V : Type*} [DecidableEq L] [DecidableEq V] (s : Sync L V) : Decidable s.Settled :=
  decidable_of_iff
    (s.stream.producer = .idle ∧ s.pending = [] ∧ s.notifications = [] ∧
      s.stream.chan.readQueue = [] ∧ s.stream.chan.reader.busy = false)
    ⟨fun h ↦ ⟨h.1, h.2.1, h.2.2.1, h.2.2.2.1, h.2.2.2.2⟩,
      fun h ↦ ⟨h.idle, h.pending, h.notifications, h.readQueue, h.busy⟩⟩

/-- Leaves `a` and `b` of the container in the prefix. With `moduleName`, the first subscription
says in which module its leaf is, as `make_gnmi_keypath` does only where the module changes. -/
def sampleSpelling (moduleName : Bool) : Spelling ℕ :=
  let top : PathElem := ⟨"m:top".toList, []⟩
  let leaf (l : ℕ) : PathElem := ⟨[if l = 0 then 'a' else 'b'], []⟩
  { gnmiPrefix := ⟨[top]⟩
    path := fun spoint ↦ if moduleName ∧ spoint = 0 then ⟨[⟨"m:a".toList, []⟩]⟩ else ⟨[leaf spoint]⟩
    keypath := fun l ↦ ⟨[top, leaf l]⟩ }

/-- Two leaves, one of which is set after `subscribe_done`. -/
def notifiedRun : List (SyncEvent ℕ ℕ) :=
  [.readLeaf, .readLeaf, .sampled, .subscribe, .subscribe, .subscribeDone, .commit [(1, 7)],
    .readSocket, .processSubscription, .other .acquire, .other .append, .other .release,
    .other .post, .other (.read .get), .other (.read .serve), .convert, .clear]

/-- A change of the other leaf ends `read()`, because its subscription names the module. -/
example : (((syncMachine (sampleSpelling true)).restrict fun _ _ ↦ True).runFrom
    (.init [0, 1] fun _ ↦ 0) [.readLeaf, .readLeaf, .sampled, .subscribe, .subscribe,
      .subscribeDone, .commit [(0, 7)], .readSocket, .processSubscription, .other .acquire,
      .other .append, .other .release, .other .post, .other (.read .get), .other (.read .serve),
      .convert]).any (fun s ↦ decide (s.Settled ∧ s.updates = [] ∧
        s.stream.chan.reader = .failed)) = true := by
  decide

/-- The leaf is set after it was read and before `subscribe_done`. -/
def windowRun : List (SyncEvent ℕ ℕ) :=
  [.readLeaf, .sampled, .subscribe, .commit [(0, 7)], .subscribeDone]

end ConfdDemos.Gnmi
