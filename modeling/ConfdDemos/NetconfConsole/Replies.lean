import ConfdDemos.Foundation.Delimited
import ConfdDemos.NetconfConsole.EndMarker

/-!
# Replies and timeouts

`main` receives a reply with calls of `recv_chunk(1)` and calls again when `socket.timeout` is
raised. By then `recv_chunk_bytes` has taken the bytes out of `buf_bytes`, and has lost them.

A message therefore comes out whole if no timeout falls between its first byte and its last
(`reply_eq_message_iff`), and otherwise up to five bytes are gone each time.
-/

namespace ConfdDemos.NetconfConsole

variable {t t' : Transport} {src src' tail : Source} {m msg text printed : List Char}
  {fuel nchunks : ℕ}

/-! ## The loop -/

/-- How the loop over the chunks of a reply ends. -/
inductive ReplyEnd where
  | message (printed : List Char)
  /-- The peer has closed before the reply, `is_closed`. -/
  | closed (printed : List Char)
  /-- `StderrError`. -/
  | stderrError (message : List Char)
  | decodeError
  deriving DecidableEq, Repr

def unexpectedEof : List Char := "unexpected EOF in NETCONF transport".toList

def framingError : List Char := "NETCONF transport framing error".toList

/-- `if code < 0`. -/
def lastChunk (nchunks : ℕ) (printed message : List Char) (bytes : List Byte) : ReplyEnd :=
  match strData bytes with
  | some text => if nchunks = 0 then .closed (printed ++ text) else .stderrError message
  | none => .decodeError

/-- The loop over `recv_chunk(1)`, with a bound on its rounds. -/
def replyLoop : ℕ → ℕ → List Char → Transport → Source → Option (ReplyEnd × Transport × Source)
  | 0, _, _, _, _ => none
  | fuel + 1, nchunks, printed, t, src =>
    match recvChunkBytes t src with
    | (.timeout, t, src) => replyLoop fuel nchunks printed t src
    | (.data bytes, t, src) =>
      match strData bytes with
      | some text => replyLoop fuel (nchunks + 1) (printed ++ text) t src
      | none => some (.decodeError, t, src)
    | (.eom, t, src) => some (.message printed, t, src)
    | (.eof bytes, t, src) => some (lastChunk nchunks printed unexpectedEof bytes, t, src)
    | (.framingError bytes, t, src) => some (lastChunk nchunks printed framingError bytes, t, src)

/-- Every chunk but the last one has a byte, and every timeout is one call. -/
def reply (t : Transport) (src : Source) : Option (ReplyEnd × Transport × Source) :=
  replyLoop (rounds t src + src.length) 0 [] t src

theorem replyLoop_timeout (h : recvChunkBytes t src = (.timeout, t', src')) :
    replyLoop (fuel + 1) nchunks printed t src = replyLoop fuel nchunks printed t' src' := by
  simp only [replyLoop, h]

theorem lastChunk_ne_message {message : List Char} {bytes : List Byte} :
    lastChunk nchunks printed message bytes ≠ .message text := by
  rw [lastChunk]
  split
  · split_ifs <;> exact nofun
  · exact nofun

theorem replyLoop_eom (h : recvChunkBytes t src = (.eom, t', src')) :
    replyLoop (fuel + 1) nchunks printed t src = some (.message printed, t', src') := by
  simp only [replyLoop, h]

theorem replyLoop_of_reads {ts : List (List Char)} (h : Reads t src (ts.map binData) t' src')
    (hfuel : ts.length < fuel) :
    replyLoop fuel nchunks printed t src = some (.message (printed ++ ts.flatten), t', src') := by
  induction ts generalizing fuel nchunks printed t src with
  | nil =>
    obtain ⟨fuel, rfl⟩ : ∃ f, fuel = f + 1 := ⟨fuel - 1, by omega⟩
    rcases h with ⟨h⟩
    rw [replyLoop_eom h, List.flatten_nil, List.append_nil]
  | cons m ts ih =>
    rw [List.length_cons] at hfuel
    obtain ⟨fuel, rfl⟩ : ∃ f, fuel = f + 1 := ⟨fuel - 1, by omega⟩
    rcases h with _ | ⟨h, hreads⟩
    simp only [replyLoop, h, strData_binData]
    rw [ih hreads (by omega), List.flatten_cons, List.append_assoc]

/-! ## Reading on -/

/-- A chunk that has been read does not depend on what comes later. -/
theorem recvChunkBytesEndMarker_append (heom : t.eomFound = false) {c : List Byte}
    (h : recvChunkBytesEndMarker t src = (.data c, t', src')) (tail : Source) :
    recvChunkBytesEndMarker t (src ++ tail) = (.data c, t', src' ++ tail) := by
  rw [recvChunkBytesEndMarker, heom, if_neg Bool.false_ne_true] at h ⊢
  rcases hread : readUntil (enough 6) t.bufBytes src with ⟨bytes, src₁⟩ | acc | ⟨acc, src₁⟩
  · rw [hread] at h
    rw [readUntil_append hread tail]
    rcases hfind : find endMarker bytes with _ | idx
    all_goals
      simp only [hfind, Prod.mk.injEq] at h ⊢
      obtain ⟨hc, ht, rfl⟩ := h
      exact ⟨hc, ht, rfl⟩
  · rw [hread] at h
    cases h
  · rw [hread] at h
    cases h

/-! ## What a call does -/

/-- What a call takes from the stream and leaves of it when no marker has been found before. -/
inductive Called (t : Transport) : Source → Chunk → Transport → Source → Prop
  | marker {pre rest : Source} {idx : ℕ} (htimely : ∀ a ∈ pre, a.Timely)
      (hfind : find endMarker (t.bufBytes ++ arrived pre) = some idx) :
      Called t (pre ++ rest) (.data ((t.bufBytes ++ arrived pre).take idx))
        { t with bufBytes := (t.bufBytes ++ arrived pre).drop (idx + 6), eomFound := true } rest
  | data {pre rest : Source} (htimely : ∀ a ∈ pre, a.Timely)
      (hlen : 6 ≤ (t.bufBytes ++ arrived pre).length)
      (hfind : find endMarker (t.bufBytes ++ arrived pre) = none) :
      Called t (pre ++ rest)
        (.data ((t.bufBytes ++ arrived pre).take ((t.bufBytes ++ arrived pre).length - 5)))
        { t with bufBytes :=
          (t.bufBytes ++ arrived pre).drop ((t.bufBytes ++ arrived pre).length - 5) } rest
  | eof {src : Source} :
      Called t src (.eof (t.bufBytes ++ arrived src)) { t with bufBytes := [] } []
  | timeout {pre rest : Source} (htimely : ∀ a ∈ pre, a.Timely) :
      Called t (pre ++ .timeout :: rest) .timeout { t with bufBytes := [] } rest

theorem called_recvChunkBytesEndMarker (heom : t.eomFound = false) :
    Called t src (recvChunkBytesEndMarker t src).1 (recvChunkBytesEndMarker t src).2.1
      (recvChunkBytesEndMarker t src).2.2 := by
  rw [recvChunkBytesEndMarker, if_neg (by rw [heom]; exact Bool.false_ne_true)]
  rcases hread : readUntil (enough 6) t.bufBytes src with ⟨bytes, rest⟩ | acc | ⟨acc, rest⟩
  · obtain ⟨pre, rfl, htimely, hans⟩ := exists_of_readUntil_done hread
    obtain ⟨rfl, hlen⟩ := enough_eq_some hans
    rcases hfind : find endMarker (t.bufBytes ++ arrived pre) with _ | idx
    · simp only [hfind]
      exact .data htimely hlen hfind
    · simp only [hfind]
      exact .marker htimely hfind
  · obtain ⟨rfl, -⟩ := eq_of_readUntil_closed hread
    exact .eof
  · obtain ⟨pre, rfl, htimely, -⟩ := exists_of_readUntil_late hread
    exact .timeout htimely

theorem Called.framing {chunk : Chunk} (h : Called t src chunk t' src') :
    t'.framing = t.framing := by
  rcases h <;> rfl

theorem Reads.append {cs : List (List Byte)} (hframing : t.framing = .endMarker)
    (h : Reads t src cs t' src') (tail : Source) : Reads t (src ++ tail) cs t' (src' ++ tail) := by
  induction h with
  | @eom t src t' src' h =>
    rcases heom : t.eomFound with _ | _
    · have hcalled : Called t src _ _ _ := called_recvChunkBytesEndMarker heom
      rw [← recvChunkBytes_of_endMarker hframing, h] at hcalled
      exact nomatch hcalled
    · rw [recvChunkBytes_of_eomFound hframing heom] at h
      obtain ⟨-, rfl, rfl⟩ := by simpa only [Prod.mk.injEq] using h
      exact .eom (recvChunkBytes_of_eomFound hframing heom)
  | @data t src t₁ src₁ t' src' c cs h _ ih =>
    rcases heom : t.eomFound with _ | _
    · have hcalled : Called t src _ _ _ := called_recvChunkBytesEndMarker heom
      rw [recvChunkBytes_of_endMarker hframing] at h
      rw [h] at hcalled
      refine .data ?_ (ih (hcalled.framing.trans hframing))
      rw [recvChunkBytes_of_endMarker hframing, recvChunkBytesEndMarker_append heom h]
    · rw [recvChunkBytes_of_eomFound hframing heom] at h
      exact nomatch congrArg Prod.fst h

/-! ## Lost bytes -/

/-- A timeout falls into the message: a part of it has come in, but not its marker. -/
def Lossy (t : Transport) (src : Source) : Prop :=
  ∃ a b, src = a ++ .timeout :: b ∧ t.bufBytes ++ arrived a ≠ [] ∧
    find endMarker (t.bufBytes ++ arrived a) = none

theorem timeout_notMem {pre : Source} (h : ∀ a ∈ pre, a.Timely) : .timeout ∉ pre :=
  fun hmem ↦ h _ hmem

theorem eq_nil_of_arrived {pre : Source} (htimely : ∀ a ∈ pre, a.Timely) (h : arrived pre = []) :
    pre = [] := by
  rcases pre with _ | ⟨⟨x, hx⟩ | _, pre⟩
  · rfl
  · rw [arrived_data] at h
    exact (hx (List.append_eq_nil_iff.mp h).1).elim
  · exact (timeout_notMem htimely List.mem_cons_self).elim

/-- A timeout with nothing to lose. -/
theorem Lossy.of_timeout {pre rest : Source} (htimely : ∀ a ∈ pre, a.Timely)
    (hnil : t.bufBytes ++ arrived pre = []) (h : Lossy t (pre ++ .timeout :: rest)) :
    Lossy { t with bufBytes := [] } rest := by
  obtain ⟨a, b, hsrc, hne, hfind⟩ := h
  obtain ⟨hbuf, harr⟩ := List.append_eq_nil_iff.mp hnil
  obtain rfl := eq_nil_of_arrived htimely harr
  rw [hbuf, List.nil_append] at hne hfind
  rcases a with _ | ⟨x, a⟩
  · exact (hne rfl).elim
  · obtain ⟨rfl, rfl⟩ := List.cons.inj hsrc
    exact ⟨a, b, rfl, hne, hfind⟩

/-- A chunk without the marker leaves the message unfinished. -/
theorem Lossy.of_data {pre rest : Source} {k : ℕ} (htimely : ∀ a ∈ pre, a.Timely)
    (hk : k < (t.bufBytes ++ arrived pre).length) (h : Lossy t (pre ++ rest)) :
    Lossy { t with bufBytes := (t.bufBytes ++ arrived pre).drop k } rest := by
  obtain ⟨a, b, hsrc, -, hfind⟩ := h
  obtain ⟨a, rfl, rfl⟩ := exists_append_of_notMem (timeout_notMem htimely) hsrc
  have hdrop : (t.bufBytes ++ arrived pre).drop k ++ arrived a =
      (t.bufBytes ++ arrived (pre ++ a)).drop k := by
    rw [arrived_append, ← List.append_assoc, List.drop_append_of_le_length hk.le]
  refine ⟨a, b, rfl, ?_, ?_⟩
  · intro hnil
    have hlen := congrArg List.length (List.append_eq_nil_iff.mp hnil).1
    rw [List.length_drop, List.length_nil] at hlen
    omega
  · simp only [hdrop]
    refine (find_eq_none_iff endMarker_ne_nil).mpr fun j hpre ↦ ?_
    rw [List.drop_drop] at hpre
    exact (find_eq_none_iff endMarker_ne_nil).mp hfind _ hpre

/-- Where the marker has come in, nothing is lost any more. -/
theorem not_lossy_of_find {pre rest : Source} {idx : ℕ} (htimely : ∀ a ∈ pre, a.Timely)
    (hfind : find endMarker (t.bufBytes ++ arrived pre) = some idx) : ¬Lossy t (pre ++ rest) := by
  rintro ⟨a, b, hsrc, -, hnone⟩
  obtain ⟨a, rfl, rfl⟩ := exists_append_of_notMem (timeout_notMem htimely) hsrc
  rw [arrived_append, ← List.append_assoc, find_append endMarker_ne_nil hfind] at hnone
  exact nomatch hnone

theorem exists_of_replyLoop_data {c : List Byte} {t₁ : Transport} {src₁ : Source}
    (h : recvChunkBytes t src = (.data c, t₁, src₁))
    (hloop : replyLoop (fuel + 1) nchunks printed t src = some (.message text, t', src')) :
    ∃ x, strData c = some x ∧
      replyLoop fuel (nchunks + 1) (printed ++ x) t₁ src₁ = some (.message text, t', src') := by
  rcases hx : strData c with _ | x
  · simp only [replyLoop, h, hx] at hloop
    exact nomatch congrArg Prod.fst (Option.some_inj.mp hloop)
  · refine ⟨x, rfl, ?_⟩
    simpa only [replyLoop, h, hx] using hloop

/-- What has been printed has come in, and so has its marker; what was lost has come in too. -/
theorem length_message_le (hframing : t.framing = .endMarker) (heom : t.eomFound = false)
    (h : replyLoop fuel nchunks printed t src = some (.message text, t', src')) :
    (binData text).length + 6 ≤ (binData printed).length + (t.bufBytes ++ arrived src).length ∧
      (Lossy t src → (binData text).length + 6 <
        (binData printed).length + (t.bufBytes ++ arrived src).length) := by
  induction fuel generalizing nchunks printed t src with
  | zero => exact nomatch h
  | succ fuel ih =>
    have hcalled : Called t src _ _ _ := called_recvChunkBytesEndMarker heom
    rcases hrecv : recvChunkBytesEndMarker t src with ⟨chunk, t₁, src₁⟩
    simp only [hrecv] at hcalled
    rw [← recvChunkBytes_of_endMarker hframing] at hrecv
    rcases hcalled with @⟨pre, rest, idx, htimely, hfind⟩ | @⟨pre, rest, htimely, hlen, hfind⟩ | _ |
      @⟨pre, rest, htimely⟩
    · -- the end of the message is returned in the next round
      rw [arrived_append, ← List.append_assoc, List.length_append]
      obtain ⟨x, hx, hloop⟩ := exists_of_replyLoop_data hrecv h
      obtain rfl : text = printed ++ x := by
        rcases fuel with _ | fuel
        · exact nomatch hloop
        · have heom' : recvChunkBytes
              ⟨(t.bufBytes ++ arrived pre).drop (idx + 6), t.framing, true⟩ src₁ = _ :=
            recvChunkBytes_of_eomFound hframing rfl
          rw [replyLoop_eom heom'] at hloop
          exact (ReplyEnd.message.inj (congrArg Prod.fst (Option.some_inj.mp hloop))).symm
      have hmark := length_of_find endMarker_ne_nil hfind
      have hsize : endMarker.length = 6 := rfl
      refine ⟨?_, fun hlossy ↦ (not_lossy_of_find htimely hfind hlossy).elim⟩
      rw [binData_append, binData_of_strData hx, List.length_append, List.length_take]
      omega
    · rw [arrived_append, ← List.append_assoc, List.length_append]
      obtain ⟨x, hx, hloop⟩ := exists_of_replyLoop_data hrecv h
      obtain ⟨hle, hlt⟩ := ih (t := { t with bufBytes := (t.bufBytes ++ arrived pre).drop _ })
        hframing heom hloop
      simp only [binData_append, binData_of_strData hx, List.length_append, List.length_take,
        List.length_drop] at hle hlt hlen ⊢
      refine ⟨by omega, fun hlossy ↦ ?_⟩
      have := hlt (hlossy.of_data htimely (by rw [List.length_append]; omega))
      omega
    · simp only [replyLoop, hrecv] at h
      exact (lastChunk_ne_message (congrArg Prod.fst (Option.some_inj.mp h))).elim
    · rw [replyLoop_timeout hrecv] at h
      obtain ⟨hle, hlt⟩ := ih (t := ⟨[], t.framing, t.eomFound⟩) hframing heom h
      rw [List.nil_append] at hle hlt
      rw [arrived_append, arrived_timeout, ← List.append_assoc, List.length_append]
      refine ⟨by omega, fun hlossy ↦ ?_⟩
      by_cases hnil : t.bufBytes ++ arrived pre = []
      · have := hlt (hlossy.of_timeout htimely hnil)
        omega
      · have := List.length_pos_iff.mpr hnil
        omega

/-! ## Which replies come out whole -/

/-- A timeout falls between the first byte and the last one. -/
def Interrupted (src : Source) : Prop :=
  ∃ a b, src = a ++ .timeout :: b ∧ arrived a ≠ [] ∧ arrived b ≠ []

theorem lossy_of_interrupted (hunmarked : Unmarked m) (harr : arrived src = markedMsg m)
    (h : Interrupted src) : Lossy (.fresh .endMarker) src := by
  obtain ⟨a, b, rfl, ha, hb⟩ := h
  refine ⟨a, b, rfl, ha, Option.eq_none_iff_forall_ne_some.mpr fun idx hidx ↦ ?_⟩
  rw [arrived_append, arrived_timeout] at harr
  have hidx' : find endMarker (arrived a) = some idx := hidx
  have hfind := find_append (x := arrived b) endMarker_ne_nil hidx'
  rw [harr, hunmarked, Option.some_inj] at hfind
  have hle := length_of_find endMarker_ne_nil hidx'
  have hlen := congrArg List.length harr
  rw [List.length_append, length_markedMsg] at hlen
  have hsize : endMarker.length = 6 := rfl
  have hpos := List.length_pos_iff.mpr hb
  omega

/-- Where nothing comes in behind a timeout, everything comes in before the first one. -/
theorem exists_timely_prefix (h : ∀ a b, src = a ++ .timeout :: b → arrived b = []) :
    ∃ mid tail, src = mid ++ tail ∧ (∀ a ∈ mid, a.Timely) ∧ arrived tail = [] := by
  induction src with
  | nil => exact ⟨[], [], rfl, List.forall_mem_nil _, rfl⟩
  | cons x src ih =>
    rcases x with ⟨x, hx⟩ | _
    · obtain ⟨mid, tail, rfl, htimely, htail⟩ := ih fun a b hsrc ↦
        h (.data x hx :: a) b (congrArg _ hsrc)
      exact ⟨.data x hx :: mid, tail, rfl, List.forall_mem_cons.mpr ⟨trivial, htimely⟩, htail⟩
    · exact ⟨[], .timeout :: src, rfl, List.forall_mem_nil _, h [] src rfl⟩

theorem replyLoop_of_not_interrupted (hascii : Ascii m) (hunmarked : Unmarked m)
    (harr : arrived src = markedMsg m) (h : ¬Interrupted src)
    (hfuel : m.length + src.length + 1 < fuel) :
    ∃ t' src', replyLoop fuel 0 [] (.fresh .endMarker) src = some (.message m, t', src') := by
  induction src generalizing fuel with
  | nil =>
    have hlen := congrArg List.length harr
    rw [length_markedMsg] at hlen
    exact nomatch hlen
  | cons x src ih =>
    rw [List.length_cons] at hfuel
    rcases x with ⟨x, hx⟩ | _
    · have hlast (a b : Source) (hsrc : .data x hx :: src = a ++ .timeout :: b) :
          arrived b = [] := by
        by_contra hb
        refine h ⟨a, b, hsrc, fun ha ↦ ?_, hb⟩
        rcases a with _ | ⟨y, a⟩
        · exact nomatch (List.cons.inj hsrc).1
        · rw [← (List.cons.inj hsrc).1, arrived_data] at ha
          exact hx (List.append_eq_nil_iff.mp ha).1
      obtain ⟨mid, tail, hsrc, htimely, htail⟩ := exists_timely_prefix hlast
      rw [hsrc, arrived_append, htail, List.append_nil] at harr
      have hstream : (Transport.fresh .endMarker).bufBytes ++ arrived mid = markedMsg m ++ [] :=
        harr.trans (List.append_nil _).symm
      obtain ⟨ts, buf, src', hreads, rfl, hts, -⟩ :=
        reads_of_unmarked rfl rfl htimely hstream hascii hunmarked
      rw [hsrc]
      exact ⟨_, _, replyLoop_of_reads (hreads.append rfl tail) (by omega)⟩
    · obtain ⟨fuel, rfl⟩ : ∃ f, fuel = f + 1 := ⟨fuel - 1, by omega⟩
      have hrecv : recvChunkBytes (.fresh .endMarker) (.timeout :: src) =
          (.timeout, .fresh .endMarker, src) := rfl
      rw [replyLoop_timeout hrecv]
      refine ih harr (fun ⟨a, b, hsrc, ha, hb⟩ ↦ h ⟨.timeout :: a, b, ?_, ha, hb⟩) (by omega)
      rw [hsrc, List.cons_append]

/-- **A reply comes out whole if and only if no timeout interrupts it.** -/
theorem reply_eq_message_iff (hascii : Ascii m) (hunmarked : Unmarked m)
    (harr : arrived src = markedMsg m) :
    (∃ t' src', reply (.fresh .endMarker) src = some (.message m, t', src')) ↔
      ¬Interrupted src := by
  have hlen := congrArg List.length harr
  have hm := length_binData_of_ascii hascii
  rw [length_markedMsg] at hlen
  constructor
  · rintro ⟨t', src', h⟩ hinterrupted
    have hlt := (length_message_le rfl rfl h).2 (lossy_of_interrupted hunmarked harr hinterrupted)
    have hbuf : (Transport.fresh .endMarker).bufBytes ++ arrived src = arrived src := rfl
    rw [hbuf, hlen] at hlt
    exact absurd hlt (by simp [binData])
  · intro h
    refine replyLoop_of_not_interrupted hascii hunmarked harr h ?_
    rw [rounds]
    omega

theorem reply_two_pieces : ∃ t' src', reply (.fresh .endMarker)
      [.timeout, .data [0x61, 0x5d] (List.cons_ne_nil _ _),
        .data [0x5d, 0x3e, 0x5d, 0x5d, 0x3e] (List.cons_ne_nil _ _)] =
    some (.message ['a'], t', src') := by
  refine (reply_eq_message_iff (by decide) (by decide) rfl).mpr ?_
  rintro ⟨_ | ⟨x, _ | ⟨y, _ | ⟨z, a⟩⟩⟩, b, hsrc, ha, -⟩
  · exact ha rfl
  all_goals simp at hsrc

end ConfdDemos.NetconfConsole
