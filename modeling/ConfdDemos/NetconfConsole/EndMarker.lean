import ConfdDemos.NetconfConsole.Transport

/-!
# Messages that end with a marker

`recv_chunk_bytes_framing_1_0` returns what it has as soon as it has six bytes, but for the last
five, which may begin the marker. A chunk thus ends wherever the data that had come in ended, and
`recv_chunk` decodes every chunk by itself. A character of more than one byte that is cut there is
an error.

The messages that come through whatever the pieces are those of ASCII characters in which, with the
marker behind them, the marker does not occur earlier (`receives_iff`). A message that ends with
`]]>` is not among them.
-/

namespace ConfdDemos.NetconfConsole

variable {t t' : Transport} {src src' : Source} {m msg x text : List Char} {rest u : List Byte}
  {i k n fuel : ℕ}

/-! ## One chunk -/

theorem endMarker_ne_nil : endMarker ≠ [] := List.cons_ne_nil _ _

/-- Either the marker has been found, or the chunk is a nonempty part of the text before it. -/
theorem recvChunkBytesEndMarker_cases (heom : t.eomFound = false)
    (htimely : ∀ a ∈ src, a.Timely) (hfind : find endMarker (t.bufBytes ++ arrived src) = some i) :
    ∃ buf src', src' <:+ src ∧
      ((recvChunkBytesEndMarker t src = (.data ((t.bufBytes ++ arrived src).take i),
          { t with bufBytes := buf, eomFound := true }, src') ∧
        buf ++ arrived src' = (t.bufBytes ++ arrived src).drop (i + 6)) ∨
      ∃ k, 0 < k ∧ k ≤ i ∧
        recvChunkBytesEndMarker t src = (.data ((t.bufBytes ++ arrived src).take k),
          { t with bufBytes := buf }, src') ∧
        buf ++ arrived src' = (t.bufBytes ++ arrived src).drop k) := by
  have hlen : i + 6 ≤ (t.bufBytes ++ arrived src).length := length_of_find endMarker_ne_nil hfind
  obtain ⟨bytes, src', hread, hsuffix, harr, hsix⟩ :=
    exists_readUntil_enough htimely (Nat.le_of_add_left_le hlen)
  rw [recvChunkBytesEndMarker, heom, if_neg Bool.false_ne_true, hread]
  simp only
  rw [← harr] at hfind hlen ⊢
  cases hmark : find endMarker bytes with
  | some idx =>
    have hidx : idx = i :=
      Option.some_inj.mp ((find_append endMarker_ne_nil hmark).symm.trans hfind)
    subst hidx
    have hle : idx + 6 ≤ bytes.length := length_of_find endMarker_ne_nil hmark
    refine ⟨bytes.drop (idx + 6), src', hsuffix, .inl ⟨?_, ?_⟩⟩
    · rw [List.take_append_of_le_length (by omega)]
    · rw [List.drop_append_of_le_length hle]
  | none =>
    have hle : bytes.length - 5 ≤ i := by
      by_contra hlt
      refine (find_eq_none_iff endMarker_ne_nil).mp hmark i ?_
      have hat := ((find_eq_some_iff endMarker_ne_nil).mp hfind).1
      rw [List.drop_append_of_le_length (by omega)] at hat
      refine List.prefix_of_prefix_length_le hat (List.prefix_append _ _) ?_
      rw [List.length_drop]
      have hsize : endMarker.length = 6 := rfl
      omega
    refine ⟨bytes.drop (bytes.length - 5), src', hsuffix,
      .inr ⟨bytes.length - 5, by omega, hle, ?_, ?_⟩⟩
    · rw [List.take_append_of_le_length (by omega)]
    · rw [List.drop_append_of_le_length (by omega)]

theorem recvChunkBytes_of_endMarker (hframing : t.framing = .endMarker) :
    recvChunkBytes t src = recvChunkBytesEndMarker t src := by
  rw [recvChunkBytes, hframing]

/-- Behind the last chunk of a message comes its end. -/
theorem recvChunkBytes_of_eomFound (hframing : t.framing = .endMarker)
    (heom : t.eomFound = true) :
    recvChunkBytes t src = (.eom, { t with eomFound := false }, src) := by
  rw [recvChunkBytes_of_endMarker hframing, recvChunkBytesEndMarker, if_pos heom]

/-! ## A message that comes through -/

/-- What the peer sends. -/
def markedMsg (m : List Char) : List Byte := binData m ++ endMarker

theorem length_markedMsg (m : List Char) : (markedMsg m).length = (binData m).length + 6 := by
  rw [markedMsg, List.length_append]
  rfl

/-- The marker that ends the message is the first one. -/
def Unmarked (m : List Char) : Prop := find endMarker (markedMsg m) = some (binData m).length

instance : DecidablePred Unmarked :=
  fun m ↦ inferInstanceAs (Decidable (find endMarker (markedMsg m) = some (binData m).length))

theorem Unmarked.drop (h : Unmarked m) (hascii : Ascii m) (hk : k ≤ m.length) :
    Unmarked (m.drop k) := by
  have hlen := length_binData_of_ascii hascii
  have hdrop : markedMsg (m.drop k) = (markedMsg m).drop k := by
    rw [markedMsg, markedMsg, List.drop_append_of_le_length (by omega), hascii.drop_binData]
  rw [Unmarked, hdrop, find_drop endMarker_ne_nil h (by omega), ← hascii.drop_binData,
    List.length_drop]

/-- The chunks of the message are nonempty parts of it, but for the last one, which may be empty. -/
theorem reads_of_unmarked (hframing : t.framing = .endMarker) (heom : t.eomFound = false)
    (htimely : ∀ a ∈ src, a.Timely) (hstream : t.bufBytes ++ arrived src = markedMsg m ++ rest)
    (hascii : Ascii m) (hunmarked : Unmarked m) :
    ∃ (ts : List (List Char)) (buf : List Byte) (src' : Source),
      Reads t src (ts.map binData) { t with bufBytes := buf } src' ∧
      ts.flatten = m ∧ ts.length ≤ m.length + 1 ∧ buf ++ arrived src' = rest ∧ src' <:+ src := by
  induction hn : m.length using Nat.strong_induction_on generalizing m t src with
  | h n ih =>
    have hlen := length_binData_of_ascii hascii
    have hfind : find endMarker (t.bufBytes ++ arrived src) = some m.length := by
      rw [hstream, ← hlen]
      exact find_append endMarker_ne_nil hunmarked
    obtain ⟨buf, src', hsuffix, ⟨hrecv, harr⟩ | ⟨k, hpos, hk, hrecv, harr⟩⟩ :=
      recvChunkBytesEndMarker_cases heom htimely hfind
    · -- the rest of the message and, in the next round, its end
      have htake : (t.bufBytes ++ arrived src).take m.length = binData m := by
        rw [hstream, markedMsg, List.append_assoc, ← hlen, List.take_left]
      rw [← recvChunkBytes_of_endMarker hframing, htake] at hrecv
      refine ⟨[m], buf, src', ?_, List.flatten_singleton, Nat.le_add_left 1 n, ?_, hsuffix⟩
      · refine .data hrecv (.eom ?_)
        rw [heom]
        exact recvChunkBytes_of_eomFound hframing rfl
      · rw [harr, hstream, ← hlen, ← length_markedMsg, List.drop_left]
    · -- a part of the message
      have htake : (t.bufBytes ++ arrived src).take k = binData (m.take k) := by
        rw [hstream, markedMsg, List.append_assoc, List.take_append_of_le_length (by omega),
          hascii.take_binData]
      have hdrop : buf ++ arrived src' = markedMsg (m.drop k) ++ rest := by
        rw [harr, hstream, markedMsg, markedMsg, List.append_assoc,
          List.drop_append_of_le_length (by omega), hascii.drop_binData, List.append_assoc]
      obtain ⟨ts, buf', src'', hreads, hflat, hts, harr', hsuffix'⟩ :=
        ih (m.length - k) (by omega) (t := { t with bufBytes := buf }) hframing heom
          (fun a ha ↦ htimely a (hsuffix.subset ha)) hdrop (hascii.drop k)
          (hunmarked.drop hascii hk) List.length_drop
      rw [← recvChunkBytes_of_endMarker hframing, htake] at hrecv
      refine ⟨m.take k :: ts, buf', src'', .data hrecv hreads, ?_, ?_, harr',
        hsuffix'.trans hsuffix⟩
      · rw [List.flatten_cons, hflat, List.take_append_drop]
      · rw [List.length_cons]
        omega

/-- One call of `recv_msg` returns the message and leaves what follows it. -/
theorem recvMsg_of_unmarked (hframing : t.framing = .endMarker) (heom : t.eomFound = false)
    (htimely : ∀ a ∈ src, a.Timely) (hstream : t.bufBytes ++ arrived src = markedMsg m ++ rest)
    (hascii : Ascii m) (hunmarked : Unmarked m) :
    ∃ buf src', recvMsg t src = some (some m, { t with bufBytes := buf }, src') ∧
      buf ++ arrived src' = rest ∧ src' <:+ src := by
  obtain ⟨ts, buf, src', hreads, rfl, hts, hrest⟩ :=
    reads_of_unmarked hframing heom htimely hstream hascii hunmarked
  refine ⟨buf, src', recvMsgLoop_of_reads hreads ?_, hrest⟩
  have hlen := congrArg List.length hstream
  have hm := length_binData_of_ascii hascii
  rw [List.length_append, List.length_append, length_markedMsg] at hlen
  rw [rounds]
  omega

theorem receives_of_unmarked {ms : List (List Char)} (hframing : t.framing = .endMarker)
    (heom : t.eomFound = false) (htimely : ∀ a ∈ src, a.Timely)
    (hstream : t.bufBytes ++ arrived src = ms.flatMap markedMsg)
    (hms : ∀ m ∈ ms, Ascii m ∧ Unmarked m) : Receives t src ms := by
  induction ms generalizing t src with
  | nil => trivial
  | cons m ms ih =>
    obtain ⟨hascii, hunmarked⟩ := hms m List.mem_cons_self
    rw [List.flatMap_cons] at hstream
    obtain ⟨buf, src', hrecv, harr, hsuffix⟩ :=
      recvMsg_of_unmarked hframing heom htimely hstream hascii hunmarked
    exact ⟨_, src', hrecv, ih hframing heom (fun a ha ↦ htimely a (hsuffix.subset ha)) harr
      fun m hm ↦ hms m (List.mem_cons_of_mem _ hm)⟩

/-! ## One byte at a time -/

theorem readUntil_singles {acc : List Byte} (hacc : acc.length ≤ n)
    (hlen : n ≤ (acc ++ u).length) :
    readUntil (enough n) acc (singles u) =
      .done ((acc ++ u).take n) (singles ((acc ++ u).drop n)) := by
  induction u generalizing acc with
  | nil =>
    rw [List.append_nil] at hlen ⊢
    have hans : enough n acc = some acc := if_pos hlen
    rw [singles, List.map_nil, readUntil_of_some hans, List.take_of_length_le hacc,
      List.drop_eq_nil_of_le hacc, singles, List.map_nil]
  | cons b u ih =>
    rcases hacc.eq_or_lt with rfl | hlt
    · have hans : enough acc.length acc = some acc := if_pos le_rfl
      rw [readUntil_of_some hans, List.take_left, List.drop_left]
    · have hans : enough n acc = none := if_neg (by omega)
      rw [singles, List.map_cons, ← singles, readUntil_data hans, ih]
      · rw [List.append_assoc, List.singleton_append]
      · rw [List.length_append, List.length_singleton]
        omega
      · rwa [List.append_assoc, List.singleton_append]

/-- Each chunk is one byte, and the marker is found with nothing behind it. -/
theorem recvChunkBytesEndMarker_singles (heom : t.eomFound = false)
    (hbuf : t.bufBytes.length ≤ 5) (hfind : find endMarker (t.bufBytes ++ u) = some i) :
    (i = 0 → recvChunkBytesEndMarker t (singles u) =
      (.data [], { t with bufBytes := [], eomFound := true },
        singles ((t.bufBytes ++ u).drop 6))) ∧
    (0 < i → recvChunkBytesEndMarker t (singles u) =
      (.data ((t.bufBytes ++ u).take 1), { t with bufBytes := ((t.bufBytes ++ u).take 6).drop 1 },
        singles ((t.bufBytes ++ u).drop 6))) := by
  have hlen : i + 6 ≤ (t.bufBytes ++ u).length := length_of_find endMarker_ne_nil hfind
  have hsix : ((t.bufBytes ++ u).take 6).length = 6 := by
    rw [List.length_take]
    omega
  rw [recvChunkBytesEndMarker, heom, if_neg Bool.false_ne_true,
    readUntil_singles (by omega) (by omega)]
  simp only
  constructor
  · rintro rfl
    have hmark : (t.bufBytes ++ u).take 6 = endMarker := by
      have hat := ((find_eq_some_iff endMarker_ne_nil).mp hfind).1
      exact (List.prefix_iff_eq_take.mp hat).symm
    have hself : find endMarker endMarker = some 0 := by decide
    rw [hmark, hself]
    rfl
  · intro hpos
    have hmark : find endMarker ((t.bufBytes ++ u).take 6) = none := by
      refine Option.eq_none_iff_forall_ne_some.mpr fun idx hidx ↦ ?_
      have hle : idx + 6 ≤ 6 := (length_of_find endMarker_ne_nil hidx).trans hsix.le
      have happ := find_append (x := (t.bufBytes ++ u).drop 6) endMarker_ne_nil hidx
      rw [List.take_append_drop, hfind, Option.some_inj] at happ
      omega
    simp only [hmark, hsix, List.take_take]
    rfl

/-- What comes through byte by byte is ASCII, and ends at the first marker. -/
theorem ascii_of_recvMsgLoop_singles (hframing : t.framing = .endMarker)
    (heom : t.eomFound = false) (hbuf : t.bufBytes.length ≤ 5)
    (hfind : find endMarker (t.bufBytes ++ u) = some i)
    (h : recvMsgLoop fuel msg t (singles u) = some (some text, t', src')) :
    ∃ x, text = msg ++ x ∧ Ascii x ∧ binData x = (t.bufBytes ++ u).take i ∧
      t' = { t with bufBytes := [] } ∧ src' = singles ((t.bufBytes ++ u).drop (i + 6)) := by
  induction i generalizing fuel msg t u with
  | zero =>
    have hrecv := (recvChunkBytesEndMarker_singles heom hbuf hfind).1 rfl
    rw [← recvChunkBytes_of_endMarker hframing] at hrecv
    obtain ⟨f, x, rfl, hx, hloop⟩ := exists_of_recvMsgLoop_data hrecv h rfl
    have hend := eq_of_recvMsgLoop_eom
      (recvChunkBytes_of_eomFound (t := ⟨[], t.framing, true⟩) hframing rfl) hloop
    obtain ⟨htext, rfl, rfl⟩ : some text = some (msg ++ x) ∧ t' = _ ∧ src' = _ := by
      simpa only [Prod.mk.injEq] using hend
    have hbin := binData_of_strData hx
    refine ⟨x, Option.some_inj.mp htext, ascii_of_length_le_one (by simp [hbin]), ?_, ?_, rfl⟩
    · rw [hbin, List.take_zero]
    · rw [← heom]
  | succ i ih =>
    have hrecv := (recvChunkBytesEndMarker_singles heom hbuf hfind).2 i.succ_pos
    rw [← recvChunkBytes_of_endMarker hframing] at hrecv
    obtain ⟨f, c, rfl, hc, hloop⟩ := exists_of_recvMsgLoop_data hrecv h rfl
    have hlen : i + 1 + 6 ≤ (t.bufBytes ++ u).length := length_of_find endMarker_ne_nil hfind
    have hstream : ((t.bufBytes ++ u).take 6).drop 1 ++ (t.bufBytes ++ u).drop 6 =
        (t.bufBytes ++ u).drop 1 := by
      rw [← List.drop_append_of_le_length (by rw [List.length_take]; omega),
        List.take_append_drop]
    have hbuf' : (((t.bufBytes ++ u).take 6).drop 1).length ≤ 5 := by
      rw [List.length_drop, List.length_take]
      omega
    obtain ⟨x, rfl, hascii, hbin, rfl, rfl⟩ :=
      ih (t := { t with bufBytes := ((t.bufBytes ++ u).take 6).drop 1 }) hframing heom
        hbuf' (by rw [hstream]; exact find_drop endMarker_ne_nil hfind (by omega)) hloop
    rw [hstream] at hbin
    have hbinc := binData_of_strData hc
    have hasciic : Ascii c :=
      ascii_of_length_le_one (by rw [hbinc, List.length_take]; exact Nat.min_le_left _ _)
    refine ⟨c ++ x, List.append_assoc _ _ _, ?_, ?_, rfl, ?_⟩
    · intro d hd
      exact (List.mem_append.mp hd).elim (hasciic d) (hascii d)
    · rw [binData, List.flatMap_append, ← binData, ← binData, hbinc, hbin, Nat.add_comm i 1,
        List.take_add]
    · rw [hstream, List.drop_drop]
      congr 2
      omega

theorem unmarked_of_receives_singles {ms : List (List Char)}
    (h : Receives (.fresh .endMarker) (singles (ms.flatMap markedMsg)) ms) :
    ∀ m ∈ ms, Ascii m ∧ Unmarked m := by
  induction ms with
  | nil => exact fun m hm ↦ (nomatch hm)
  | cons m ms ih =>
    obtain ⟨t', src', hrecv, hms⟩ := h
    obtain ⟨i, hi⟩ : ∃ i, find endMarker (markedMsg m) = some i := by
      refine Option.ne_none_iff_exists'.mp fun hnone ↦ ?_
      refine (find_eq_none_iff endMarker_ne_nil).mp hnone (binData m).length ?_
      rw [markedMsg, List.drop_left]
    have hle := length_of_find endMarker_ne_nil hi
    rw [List.flatMap_cons] at hrecv
    have hfind : find endMarker ((Transport.fresh .endMarker).bufBytes ++
        (markedMsg m ++ ms.flatMap markedMsg)) = some i := by
      rw [Transport.fresh, List.nil_append]
      exact find_append endMarker_ne_nil hi
    obtain ⟨x, hx, hascii, hbin, rfl, rfl⟩ :=
      ascii_of_recvMsgLoop_singles rfl rfl (by exact Nat.zero_le 5) hfind hrecv
    obtain rfl : m = x := hx
    have hlen : i = (binData m).length := by
      rw [hbin, List.length_take, Nat.min_eq_left]
      refine (Nat.le_add_right i _).trans (hle.trans ?_)
      rw [List.length_append, List.length_append]
      omega
    subst hlen
    have hrest : ((Transport.fresh .endMarker).bufBytes ++
        (markedMsg m ++ ms.flatMap markedMsg)).drop ((binData m).length + 6) =
          ms.flatMap markedMsg := by
      rw [← length_markedMsg]
      exact List.drop_left
    rw [hrest] at hms
    rintro m' hm'
    rcases List.mem_cons.mp hm' with rfl | hm'
    · exact ⟨hascii, hi⟩
    · exact ih hms m' hm'

/-- **The messages that come through.** In the framing with a marker the messages arrive whatever
the pieces of the stream are if and only if each is ASCII and its marker is the first one. -/
theorem receives_iff (ms : List (List Char)) :
    (∀ src, Delivers src (ms.flatMap markedMsg) → Receives (.fresh .endMarker) src ms) ↔
      ∀ m ∈ ms, Ascii m ∧ Unmarked m := by
  constructor
  · intro h
    exact unmarked_of_receives_singles (h _ (delivers_singles _))
  · rintro hms src ⟨harr, hpieces⟩
    exact receives_of_unmarked rfl rfl (fun a ha ↦ (hpieces a ha).1) harr hms

end ConfdDemos.NetconfConsole
