import Mathlib.Data.List.TakeWhile
import ConfdDemos.Foundation.Machine

/-!
# The TLS relay

`tls-x509-subsys` passes on what a TLS client and the NETCONF server send to each other. Its loop
waits in `poll` for one of the two sockets. The client comes first: one call of
`gnutls_record_recv`, and `write_fill` to the server. Otherwise what the server has sent is read, at
most `MAX_BUF` bytes, and given to `gnutls_record_send`.

## Where data stays behind

`gnutls_record_recv` takes a whole record from the socket, and hands out at most `MAX_BUF` bytes of
it. `poll` sees the socket and not what the session still holds, so the rest of a longer record
waits for the next record. On the way back the length is `strlen` of the buffer, so what follows a
zero byte is lost.

## The invariant

What was written, what the session holds and what waits in the socket are together what the client
has sent. With no record longer than the buffer, the session never holds anything; without a zero
byte, what is sent and what waits is what the server has sent.
-/

namespace ConfdDemos.TlsRelay

abbrev Byte := UInt8

def maxBuf : ℕ := 1024

/-! ## `write_fill` -/

/-- What one call of `write` returns. -/
inductive WriteResult where
  /-- The number of bytes; no more than it was asked for. -/
  | wrote (i : ℕ)
  | eintr
  | error
  deriving DecidableEq, Repr

/-- `write_fill`: the bytes written, and whether all of them were. There is no result while `write`
has not returned often enough. -/
def writeFill (buf : List Byte) : List WriteResult → Option (List Byte × Bool)
  | [] => none
  | .error :: _ => some ([], false)
  | .eintr :: ws => if buf = [] then some ([], true) else writeFill buf ws
  | .wrote i :: ws =>
    if buf.length ≤ i then some (buf, true)
    else (writeFill (buf.drop i) ws).map fun q ↦ (buf.take i ++ q.1, q.2)

/-- `write_fill` that does not fail has written the buffer. -/
theorem writeFill_eq_true {buf w : List Byte} {ws : List WriteResult}
    (h : writeFill buf ws = some (w, true)) : w = buf := by
  induction ws generalizing buf w with
  | nil => exact absurd h (by simp [writeFill])
  | cons r ws ih =>
    cases r with
    | error => exact absurd h (by simp [writeFill])
    | eintr =>
      rw [writeFill] at h
      split_ifs at h with hnil
      · rw [hnil]
        exact (Prod.mk.inj (Option.some.inj h)).1.symm
      · exact ih h
    | wrote i =>
      rw [writeFill] at h
      split_ifs at h
      · exact (Prod.mk.inj (Option.some.inj h)).1.symm
      · obtain ⟨q, hq, heq⟩ := Option.map_eq_some_iff.1 h
        obtain ⟨rfl, hok⟩ := Prod.mk.inj heq
        have hrest : q.1 = buf.drop i := ih (by rw [hq, ← hok])
        rw [hrest, List.take_append_drop]

/-! ## The loop -/

inductive Point where
  /-- At `poll`. -/
  | polling
  /-- In `gnutls_record_recv`, which waits for a record with data. -/
  | receiving
  /-- Behind the loop. -/
  | ended
  deriving DecidableEq, Repr

structure Relay where
  point : Point
  /-- The records in the client's socket. -/
  records : List (List Byte)
  clientClosed : Bool
  /-- The rest of a record in the TLS session. -/
  pending : List Byte
  /-- What waits in the server's socket. -/
  stream : List Byte
  serverClosed : Bool
  /-- The bytes written to the server. -/
  written : List Byte
  /-- The bytes given to `gnutls_record_send`. -/
  sent : List Byte
  /-- All bytes of the client so far. -/
  fromClient : List Byte
  /-- All bytes of the server so far. -/
  fromServer : List Byte
  deriving DecidableEq, Repr

namespace Relay

def init : Relay := ⟨.polling, [], false, [], [], false, [], [], [], []⟩

variable (s : Relay)

def clientReadable : Bool := s.records ≠ [] || s.clientClosed

def serverReadable : Bool := s.stream ≠ [] || s.serverClosed

/-- The data of one `gnutls_record_recv` is written to the server. -/
def forward (buf : List Byte) (ws : List WriteResult) : Option Relay :=
  (writeFill buf ws).map fun q ↦
    { s with written := s.written ++ q.1, point := if q.2 then .polling else .ended }

/-- `gnutls_record_recv`, and what the loop does with the result. Records without data are passed
over. -/
def recordRecv (ws : List WriteResult) : Option Relay :=
  if s.pending ≠ [] then
    { s with pending := s.pending.drop maxBuf }.forward (s.pending.take maxBuf) ws
  else
    match s.records.dropWhile (· = []) with
    | r :: records =>
      { s with records, pending := r.drop maxBuf }.forward (r.take maxBuf) ws
    | [] => some { s with records := [], point := if s.clientClosed then .ended else .receiving }

/-- `read` of `n` bytes, and `gnutls_record_send` of a string. -/
def readServer (n : ℕ) : Option Relay :=
  if s.stream = [] then some { s with point := .ended }
  else if 0 < n ∧ n ≤ maxBuf ∧ n ≤ s.stream.length then
    -- the buffer is zero behind what was read, so `strlen` ends there or before
    some { s with stream := s.stream.drop n, sent := s.sent ++ (s.stream.take n).takeWhile (· ≠ 0) }
  else none

end Relay

inductive Event where
  | clientRecord (r : List Byte)
  | clientClose
  | serverBytes (bs : List Byte)
  | serverClose
  /-- One round of the loop: `read` returns `n` bytes if it is called, and `write` returns `ws`. -/
  | round (n : ℕ) (ws : List WriteResult)
  /-- `poll` fails, and the loop goes on. -/
  | pollFails
  /-- `poll` reports an error, or a call fails, and the loop ends. -/
  | fails
  deriving DecidableEq, Repr

def relay : Machine Relay Event where
  step s
    | .clientRecord r =>
      if s.clientClosed then none
      else some { s with records := s.records ++ [r], fromClient := s.fromClient ++ r }
    | .clientClose => some { s with clientClosed := true }
    | .serverBytes bs =>
      if s.serverClosed then none
      else some { s with stream := s.stream ++ bs, fromServer := s.fromServer ++ bs }
    | .serverClose => some { s with serverClosed := true }
    | .round n ws =>
      match s.point with
      | .polling =>
        if s.clientReadable then s.recordRecv ws
        else if s.serverReadable then s.readServer n
        else none
      | .receiving => if s.clientReadable then s.recordRecv ws else none
      | .ended => none
    | .pollFails => if s.point = .polling then some s else none
    | .fails => if s.point = .ended then none else some { s with point := .ended }

/-- The loop is about to block in `poll`, with nothing to read. -/
def Relay.Blocks (s : Relay) : Prop :=
  s.point = .polling ∧ s.clientReadable = false ∧ s.serverReadable = false

instance (s : Relay) : Decidable s.Blocks := inferInstanceAs (Decidable (_ ∧ _))

/-- Nothing is lost or kept back. -/
def Relay.Complete (s : Relay) : Prop := s.written = s.fromClient ∧ s.sent = s.fromServer

instance (s : Relay) : Decidable s.Complete := inferInstanceAs (Decidable (_ ∧ _))

/-- No record is longer than the buffer, and the server sends no zero byte. -/
def Fits (_ : Relay) : Event → Prop
  | .clientRecord r => r.length ≤ maxBuf
  | .serverBytes bs => 0 ∉ bs
  | _ => True

instance (s : Relay) : (e : Event) → Decidable (Fits s e)
  | .clientRecord r => inferInstanceAs (Decidable (r.length ≤ maxBuf))
  | .serverBytes bs => inferInstanceAs (Decidable (0 ∉ bs))
  | .clientClose | .serverClose | .round _ _ | .pollFails | .fails =>
    inferInstanceAs (Decidable True)

/-! ## The invariant -/

/-- Every byte of the client is written or waits in the socket, and every byte of the server is sent
or waits in the socket. -/
structure Flow (s : Relay) : Prop where
  client : s.written ++ s.records.flatten = s.fromClient
  pending : s.pending = []
  short : ∀ r ∈ s.records, r.length ≤ maxBuf
  server : s.sent ++ s.stream = s.fromServer
  nonzero : 0 ∉ s.stream

theorem flatten_dropWhile (records : List (List Byte)) :
    (records.dropWhile (· = [])).flatten = records.flatten := by
  induction records with
  | nil => rfl
  | cons r records ih =>
    rw [List.dropWhile_cons]
    split_ifs with hr
    · obtain rfl : r = [] := by simpa using hr
      rw [ih, List.flatten_cons, List.nil_append]
    · rfl

namespace Relay

variable {s s' : Relay}

/-- What goes on after a record has been forwarded has written it. -/
theorem forward_eq_some {buf : List Byte} {ws : List WriteResult}
    (h : s.forward buf ws = some s') (hpoint : s'.point ≠ .ended) :
    s' = { s with written := s.written ++ buf, point := .polling } := by
  obtain ⟨⟨w, ok⟩, hw, rfl⟩ := Option.map_eq_some_iff.1 h
  cases ok with
  | false => exact absurd rfl hpoint
  | true => rw [writeFill_eq_true hw, if_pos rfl]

theorem recordRecv_flow {ws : List WriteResult} (hs : Flow s) (h : s.recordRecv ws = some s')
    (hpoint : s'.point ≠ .ended) : Flow s' := by
  rw [recordRecv, if_neg (not_not.2 hs.pending)] at h
  have hflat := flatten_dropWhile s.records
  split at h
  next r records hdrop =>
    have hr : r.length ≤ maxBuf :=
      hs.short r ((List.dropWhile_sublist _).subset (hdrop ▸ List.mem_cons_self))
    rw [List.take_of_length_le hr, List.drop_of_length_le hr] at h
    obtain rfl := forward_eq_some h hpoint
    rw [hdrop, List.flatten_cons] at hflat
    refine ⟨?_, rfl, fun q hq ↦ ?_, hs.server, hs.nonzero⟩
    · rw [← hs.client, ← hflat, List.append_assoc]
    · exact hs.short q ((List.dropWhile_sublist _).subset (hdrop ▸ List.mem_cons_of_mem r hq))
  next hdrop =>
    obtain rfl := Option.some.inj h
    rw [hdrop] at hflat
    refine ⟨?_, hs.pending, by simp, hs.server, hs.nonzero⟩
    rw [← hs.client, ← hflat]

theorem readServer_flow {n : ℕ} (hs : Flow s) (h : s.readServer n = some s')
    (hpoint : s'.point ≠ .ended) : Flow s' := by
  rw [readServer] at h
  split_ifs at h with hnil hn
  · obtain rfl := Option.some.inj h
    exact absurd rfl hpoint
  · obtain rfl := Option.some.inj h
    have hall : (s.stream.take n).takeWhile (· ≠ 0) = s.stream.take n := by
      rw [List.takeWhile_eq_self_iff]
      intro b hb
      refine decide_eq_true fun hzero ↦ hs.nonzero ?_
      exact hzero ▸ List.mem_of_mem_take hb
    refine ⟨hs.client, hs.pending, hs.short, ?_, fun hzero ↦ ?_⟩
    · rw [hall, List.append_assoc, List.take_append_drop, hs.server]
    · exact hs.nonzero (List.mem_of_mem_drop hzero)

end Relay

/-- **One step.** -/
theorem flow_step {s s' : Relay} {e : Event} (hs : s.point ≠ .ended → Flow s) (he : Fits s e)
    (h : relay.step s e = some s') (hpoint : s'.point ≠ .ended) : Flow s' := by
  cases e with
  | clientRecord r =>
    simp only [relay, Option.ite_none_left_eq_some, Option.some.injEq] at h
    obtain ⟨-, rfl⟩ := h
    have hflow := hs hpoint
    refine ⟨?_, hflow.pending, fun q hq ↦ ?_, hflow.server, hflow.nonzero⟩
    · rw [List.flatten_concat, ← List.append_assoc, hflow.client]
    · obtain hq | hq := List.mem_append.1 hq
      · exact hflow.short q hq
      · rw [List.mem_singleton.1 hq]
        exact he
  | clientClose =>
    obtain rfl := Option.some.inj h
    obtain ⟨hclient, hpending, hshort, hserver, hnonzero⟩ := hs hpoint
    exact ⟨hclient, hpending, hshort, hserver, hnonzero⟩
  | serverBytes bs =>
    simp only [relay, Option.ite_none_left_eq_some, Option.some.injEq] at h
    obtain ⟨-, rfl⟩ := h
    have hflow := hs hpoint
    refine ⟨hflow.client, hflow.pending, hflow.short, ?_, fun hzero ↦ ?_⟩
    · rw [← List.append_assoc, hflow.server]
    · obtain hzero | hzero := List.mem_append.1 hzero
      · exact hflow.nonzero hzero
      · exact he hzero
  | serverClose =>
    obtain rfl := Option.some.inj h
    obtain ⟨hclient, hpending, hshort, hserver, hnonzero⟩ := hs hpoint
    exact ⟨hclient, hpending, hshort, hserver, hnonzero⟩
  | round n ws =>
    simp only [relay] at h
    split at h
    next hpoll =>
      have hflow := hs (by rw [hpoll]; simp)
      split_ifs at h
      · exact Relay.recordRecv_flow hflow h hpoint
      · exact Relay.readServer_flow hflow h hpoint
    -- a receive that has found no record is still waiting for one
    next hrecv =>
      have hflow := hs (by rw [hrecv]; simp)
      split_ifs at h
      exact Relay.recordRecv_flow hflow h hpoint
    next => exact absurd h (by simp)
  | pollFails =>
    simp only [relay, Option.ite_none_right_eq_some, Option.some.injEq] at h
    obtain ⟨-, rfl⟩ := h
    exact hs hpoint
  | fails =>
    simp only [relay, Option.ite_none_left_eq_some, Option.some.injEq] at h
    obtain ⟨-, rfl⟩ := h
    exact absurd rfl hpoint

/-- **The relay is complete whenever it blocks**, in every run in which no record of the client is
longer than the buffer and the server sends no zero byte. -/
theorem complete_of_blocks {s : Relay} (h : relay.Reach Fits .init s) (hblocks : s.Blocks) :
    s.Complete := by
  have hinit : Flow .init := ⟨rfl, rfl, by simp [Relay.init], rfl, by simp [Relay.init]⟩
  have hinv := h.invariant (I := fun s ↦ s.point ≠ .ended → Flow s) (fun _ ↦ hinit)
    fun s e s' hs he hstep ↦ flow_step hs he hstep
  obtain ⟨hpoll, hclient, hserver⟩ := hblocks
  have hflow := hinv (by rw [hpoll]; simp)
  have hrecords : s.records = [] := by
    simp only [Relay.clientReadable, Bool.or_eq_false_iff] at hclient
    simpa using hclient.1
  have hstream : s.stream = [] := by
    simp only [Relay.serverReadable, Bool.or_eq_false_iff] at hserver
    simpa using hserver.1
  refine ⟨?_, ?_⟩
  · rw [← hflow.client, hrecords, List.flatten_nil, List.append_nil]
  · rw [← hflow.server, hstream, List.append_nil]

/-- A record and an answer pass through, the record in two writes and one interruption. -/
def exchange : List Event :=
  [.clientRecord [1, 2, 3], .round 0 [.wrote 1, .eintr, .wrote 2], .serverBytes [4, 5],
    .round 2 []]

theorem complete_of_exchange :
    ∃ s, relay.Reach Fits .init s ∧ s.Blocks ∧ s.written = [1, 2, 3] ∧ s.Complete := by
  have hrun : ((relay.restrict Fits).runFrom .init exchange).any
      (fun s ↦ decide (s.Blocks ∧ s.written = [1, 2, 3])) = true := by decide
  obtain ⟨s, hreach, htest⟩ := Machine.exists_reach_of_any hrun
  obtain ⟨hblocks, hwritten⟩ := of_decide_eq_true htest
  exact ⟨s, hreach, hblocks, hwritten, complete_of_blocks hreach hblocks⟩

/-- The last byte of a record of 1025 bytes stays in the session while the loop blocks. -/
theorem incomplete_of_long_record :
    ∃ s, relay.Reachable .init s ∧ s.Blocks ∧ ¬ s.Complete := by
  have hrun : ((relay.restrict fun _ _ ↦ True).runFrom .init
      [.clientRecord (List.replicate 1025 7), .round 0 [.wrote 1024]]).any
      (fun s ↦ decide (s.Blocks ∧ ¬ s.Complete)) = true := by decide +kernel
  obtain ⟨s, hreach, htest⟩ := Machine.exists_reach_of_any hrun
  exact ⟨s, hreach, of_decide_eq_true htest⟩

end ConfdDemos.TlsRelay
