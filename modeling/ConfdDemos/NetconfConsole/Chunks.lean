import ConfdDemos.NetconfConsole.Transport

/-!
# Messages in chunks

`firstChunk` reads a chunk off the whole stream. `recv_chunk_bytes_framing_1_1`, which sees the
stream in pieces, returns the same (`agrees_recvChunkBytesChunked`), so the chunks do not depend on
the pieces. Unlike in the framing with a marker, a chunk is what the peer has sent as one.

## The format

`IsChunk` is the format that the code accepts, and `IsMessage` that of a whole message. The size is
what Python's `int` reads in at most ten bytes, which is more than RFC 6242 allows: there may be
space around the number, a sign, underscores and leading zeros.
-/

namespace ConfdDemos.NetconfConsole

variable {t t' : Transport} {src src' : Source} {b s spec r rest c p : List Byte} {n : ℕ}

/-! ## The line with the size -/

def Header.extend (h : Header) (x : List Byte) : Header :=
  match h with
  | error bytes => .error (bytes ++ x)
  | eom rest => .eom (rest ++ x)
  | size sz rest => .size sz (rest ++ x)

/-- What the size says, in a stream in which `r` follows it. -/
def headerOf (s spec r : List Byte) : Header :=
  if 10 < spec.length then .error s
  else
    match pyInt spec with
    | some sz => if sz < 1 ∨ maxUint32 < sz then .error s else .size sz.toNat r
    | none => if spec = [0x23] then .eom r else .error s

theorem extend_headerOf (x : List Byte) :
    (headerOf s spec r).extend x = headerOf (s ++ x) spec (r ++ x) := by
  rw [headerOf, headerOf]
  rcases pyInt spec with _ | sz
  · simp only
    split_ifs <;> rfl
  · simp only
    split_ifs <;> rfl

theorem header_of_spec (hp : p.length = 2) (hspec : (0x0a : Byte) ∉ spec) :
    header (p ++ (spec ++ 0x0a :: r)) = some (headerOf (p ++ (spec ++ 0x0a :: r)) spec r) := by
  have hidx : (spec ++ 0x0a :: r).idxOf? 0x0a = some spec.length := by
    have hnone : spec.findIdx? (· == 0x0a) = none := List.idxOf?_eq_none_iff.mpr hspec
    rw [List.idxOf?, List.findIdx?_append, hnone, List.findIdx?_cons]
    simp
  have hdrop : (p ++ (spec ++ 0x0a :: r)).drop 2 = spec ++ 0x0a :: r := by
    rw [← hp, List.drop_left]
  have hrest : (p ++ (spec ++ 0x0a :: r)).drop (spec.length + 3) = r := by
    have hsplit : spec.length + 3 = 2 + (spec.length + 1) := by omega
    rw [hsplit, ← List.drop_drop, hdrop, ← List.drop_drop, List.drop_left, List.drop_one,
      List.tail_cons]
  have hten : (12 < spec.length + 2) = (10 < spec.length) := propext (by omega)
  rw [header, hdrop, hidx, Option.map_some, List.take_left, hrest, headerOf]
  exact congrArg some (if_congr (iff_of_eq hten) rfl rfl)

theorem header_eq_none_iff : header s = none ↔ (0x0a : Byte) ∉ s.drop 2 := by
  rw [header, Option.map_eq_none_iff, List.idxOf?_eq_none_iff]

/-- Where there is a line feed behind the first two bytes, there is a size. -/
theorem exists_spec (h : (0x0a : Byte) ∈ s.drop 2) :
    ∃ p spec r, s = p ++ (spec ++ 0x0a :: r) ∧ p.length = 2 ∧ (0x0a : Byte) ∉ spec := by
  obtain ⟨spec, r, hdrop, hspec⟩ := List.eq_append_cons_of_mem h
  have hlen : 2 < s.length := by
    have hpos := List.length_pos_of_mem h
    rw [List.length_drop] at hpos
    omega
  refine ⟨s.take 2, spec, r, ?_, ?_, hspec⟩
  · rw [← hdrop, List.take_append_drop]
  · rw [List.length_take]
    omega

theorem stable_header : Stable header Header.extend := by
  intro acc x h hacc
  have hmem : (0x0a : Byte) ∈ acc.drop 2 := by
    by_contra hmem
    exact nomatch (header_eq_none_iff.mpr hmem).symm.trans hacc
  obtain ⟨p, spec, r, rfl, hp, hspec⟩ := exists_spec hmem
  rw [header_of_spec hp hspec, Option.some_inj] at hacc
  rw [← hacc, extend_headerOf, List.append_assoc, List.append_assoc, List.cons_append,
    header_of_spec hp hspec]

theorem headerOf_eq_size_iff {sz : ℕ} : headerOf s spec r = .size sz rest ↔
    r = rest ∧ spec.length ≤ 10 ∧ pyInt spec = some (sz : ℤ) ∧ 1 ≤ sz ∧ (sz : ℤ) ≤ maxUint32 := by
  rw [headerOf]
  rcases hspec : pyInt spec with _ | z
  · simp only
    split_ifs <;> simp
  · simp only
    split_ifs with hlong hrange
    · simp only [false_iff]
      omega
    · simp only [false_iff, Option.some_inj]
      omega
    · simp only [Header.size.injEq, Option.some_inj]
      constructor
      · rintro ⟨hsz, rfl⟩
        exact ⟨rfl, by omega⟩
      · rintro ⟨rfl, h⟩
        exact ⟨by omega, rfl⟩

theorem headerOf_eq_eom_iff : headerOf s spec r = .eom rest ↔ r = rest ∧ spec = [0x23] := by
  have hhash : pyInt [0x23] = none := by decide
  rw [headerOf]
  rcases hspec : pyInt spec with _ | z
  · simp only
    split_ifs with hlong heq
    · simp only [false_iff]
      rintro ⟨-, rfl⟩
      exact absurd hlong (by decide)
    · simp only [Header.eom.injEq, heq, and_true]
    · simp only [heq, and_false]
  · have hne : spec ≠ [0x23] := by
      rintro rfl
      exact nomatch hhash.symm.trans hspec
    simp only [hne, and_false, iff_false]
    split_ifs <;> simp

/-! ## A chunk of the whole stream -/

/-- What stands at the beginning of a stream. -/
inductive Parsed where
  | data (c rest : List Byte)
  | eom (rest : List Byte)
  | bad
  | short
  deriving DecidableEq, Repr

def firstChunk (s : List Byte) : Parsed :=
  if s.length < 4 then .short
  else if s.take 2 ≠ chunkStart then .bad
  else
    match header s with
    | none => .short
    | some (.error _) => .bad
    | some (.eom rest) => .eom rest
    | some (.size sz rest) =>
      if rest.length < sz then .short else .data (rest.take sz) (rest.drop sz)

/-- A call has returned this, and what has not been used is still to be read. -/
def Agrees : Chunk × Transport × Source → Parsed → Prop
  | (.data c, t, src), .data c' rest => c = c' ∧ t.bufBytes ++ arrived src = rest
  | (.eom, t, src), .eom rest => t.bufBytes ++ arrived src = rest
  | (.framingError _, _, _), .bad => True
  | (.eof _, _, _), .short => True
  | _, _ => False

/-- **The chunks do not depend on the pieces.** -/
theorem agrees_recvChunkBytesChunked (htimely : ∀ a ∈ src, a.Timely) :
    Agrees (recvChunkBytesChunked t src) (firstChunk (t.bufBytes ++ arrived src)) ∧
      (recvChunkBytesChunked t src).2.1.framing = t.framing ∧
      (recvChunkBytesChunked t src).2.2 <:+ src := by
  rw [firstChunk, recvChunkBytesChunked]
  split_ifs with hfour hstart
  · have hclosed := (stable_enough 4).readUntil_closed htimely (if_neg (not_le.mpr hfour))
    rw [hclosed]
    exact ⟨trivial, rfl, List.nil_suffix⟩
  all_goals
    obtain ⟨bytes, src₁, hread, hsuffix₁, harr₁, hle⟩ :=
      exists_readUntil_enough htimely (not_lt.mp hfour)
    have htimely₁ : ∀ a ∈ src₁, a.Timely := fun a ha ↦ htimely a (hsuffix₁.subset ha)
    have htake : (t.bufBytes ++ arrived src).take 2 = bytes.take 2 := by
      rw [← harr₁, List.take_append_of_le_length (by omega)]
    rw [htake] at hstart
    simp only [hread]
  · rw [if_pos hstart]
    exact ⟨trivial, rfl, hsuffix₁⟩
  rw [if_neg hstart, ← harr₁]
  rcases hheader : header (bytes ++ arrived src₁) with _ | h
  · rw [stable_header.readUntil_closed htimely₁ hheader]
    exact ⟨trivial, rfl, List.nil_suffix⟩
  obtain ⟨h', src₂, hread₂, hsuffix₂, rfl⟩ := stable_header.exists_readUntil htimely₁ hheader
  have hsuffix : src₂ <:+ src := hsuffix₂.trans hsuffix₁
  have htimely₂ : ∀ a ∈ src₂, a.Timely := fun a ha ↦ htimely a (hsuffix.subset ha)
  simp only [hread₂]
  rcases h' with bytes' | rest | ⟨sz, rest⟩
  · exact ⟨trivial, rfl, hsuffix⟩
  · exact ⟨rfl, rfl, hsuffix⟩
  · simp only [Header.extend]
    split_ifs with hshort
    · rw [(stable_enough sz).readUntil_closed htimely₂ (if_neg (not_le.mpr hshort))]
      exact ⟨trivial, rfl, List.nil_suffix⟩
    · obtain ⟨bytes₃, src₃, hread₃, hsuffix₃, harr₃, hle₃⟩ :=
        exists_readUntil_enough htimely₂ (not_lt.mp hshort)
      simp only [hread₃, ← harr₃]
      refine ⟨⟨?_, ?_⟩, trivial, hsuffix₃.trans hsuffix⟩
      · rw [List.take_append_of_le_length hle₃]
      · rw [List.drop_append_of_le_length hle₃]

/-! ## The format -/

/-- A chunk at the beginning of a stream. -/
def IsChunk (c s rest : List Byte) : Prop :=
  ∃ spec, s = chunkStart ++ (spec ++ 0x0a :: (c ++ rest)) ∧ (0x0a : Byte) ∉ spec ∧
    spec.length ≤ 10 ∧ pyInt spec = some (c.length : ℤ) ∧ 1 ≤ c.length ∧
    (c.length : ℤ) ≤ maxUint32

/-- `LF ## LF` -/
def endOfChunks : List Byte := [0x0a, 0x23, 0x23, 0x0a]

theorem pyInt_nil : pyInt [] = none := rfl

theorem firstChunk_of_spec (hspec : (0x0a : Byte) ∉ spec) :
    firstChunk (chunkStart ++ (spec ++ 0x0a :: r)) =
      if spec = [] ∧ r = [] then .short
      else
        match headerOf (chunkStart ++ (spec ++ 0x0a :: r)) spec r with
        | .error _ => .bad
        | .eom rest => .eom rest
        | .size sz rest =>
          if rest.length < sz then .short else .data (rest.take sz) (rest.drop sz) := by
  have htake : (chunkStart ++ (spec ++ 0x0a :: r)).take 2 = chunkStart := rfl
  have hlen : (chunkStart ++ (spec ++ 0x0a :: r)).length < 4 ↔ spec = [] ∧ r = [] := by
    rw [← List.length_eq_zero_iff, ← List.length_eq_zero_iff]
    have htwo : chunkStart.length = 2 := rfl
    rw [List.length_append, List.length_append, List.length_cons]
    omega
  rw [firstChunk, htake, if_neg (not_not.mpr rfl), header_of_spec rfl hspec]
  simp only [hlen]
  rcases headerOf (chunkStart ++ (spec ++ 0x0a :: r)) spec r with _ | _ | _ <;> rfl

/-- Only behind the two bytes and a line is there a chunk or an end. -/
theorem exists_spec_of_firstChunk (hshort : firstChunk s ≠ .short) (hbad : firstChunk s ≠ .bad) :
    ∃ spec r, s = chunkStart ++ (spec ++ 0x0a :: r) ∧ (0x0a : Byte) ∉ spec := by
  rw [firstChunk] at hshort hbad
  split_ifs at hshort hbad with hfour hstart
  · exact (hshort rfl).elim
  · exact (hbad rfl).elim
  · have hmem : (0x0a : Byte) ∈ s.drop 2 := by
      by_contra hmem
      rw [header_eq_none_iff.mpr hmem] at hshort
      exact hshort rfl
    obtain ⟨spec, r, hdrop, hspec⟩ := List.eq_append_cons_of_mem hmem
    refine ⟨spec, r, ?_, hspec⟩
    rw [← hdrop, ← not_not.mp hstart, List.take_append_drop]

theorem firstChunk_eq_data_iff : firstChunk s = .data c rest ↔ IsChunk c s rest := by
  constructor
  · intro h
    obtain ⟨spec, r, rfl, hspec⟩ :=
      exists_spec_of_firstChunk (s := s) (by rw [h]; exact nofun) (by rw [h]; exact nofun)
    rw [firstChunk_of_spec hspec] at h
    split_ifs at h with hnil
    rcases hh : headerOf (chunkStart ++ (spec ++ 0x0a :: r)) spec r with b | r' | ⟨sz, r'⟩
    · exact nomatch (by rw [hh] at h; exact h : Parsed.bad = .data c rest)
    · exact nomatch (by rw [hh] at h; exact h : Parsed.eom r' = .data c rest)
    · rw [hh] at h
      simp only at h
      split_ifs at h with hlen
      obtain ⟨rfl, rfl⟩ := Parsed.data.inj h
      obtain ⟨rfl, hten, hint, hpos, hmax⟩ := headerOf_eq_size_iff.mp hh
      have hsz : (r.take sz).length = sz := by
        rw [List.length_take]
        omega
      refine ⟨spec, ?_, hspec, hten, ?_, ?_, ?_⟩
      · rw [List.take_append_drop]
      all_goals rwa [hsz]
  · rintro ⟨spec, rfl, hspec, hten, hint, hpos, hmax⟩
    have hne : ¬(spec = [] ∧ c ++ rest = []) := by
      rintro ⟨rfl, -⟩
      exact nomatch pyInt_nil.symm.trans hint
    rw [firstChunk_of_spec hspec, if_neg hne,
      headerOf_eq_size_iff.mpr ⟨rfl, hten, hint, hpos, hmax⟩]
    simp only
    rw [if_neg (by rw [List.length_append]; omega), List.take_left, List.drop_left]

theorem firstChunk_eq_eom_iff : firstChunk s = .eom rest ↔ s = endOfChunks ++ rest := by
  constructor
  · intro h
    obtain ⟨spec, r, rfl, hspec⟩ :=
      exists_spec_of_firstChunk (s := s) (by rw [h]; exact nofun) (by rw [h]; exact nofun)
    rw [firstChunk_of_spec hspec] at h
    split_ifs at h with hnil
    rcases hh : headerOf (chunkStart ++ (spec ++ 0x0a :: r)) spec r with b | r' | ⟨sz, r'⟩
    · exact nomatch (by rw [hh] at h; exact h : Parsed.bad = .eom rest)
    · rw [hh] at h
      obtain rfl := Parsed.eom.inj h
      obtain ⟨rfl, rfl⟩ := headerOf_eq_eom_iff.mp hh
      rfl
    · rw [hh] at h
      simp only at h
      split_ifs at h
  · rintro rfl
    have hspec : (0x0a : Byte) ∉ [(0x23 : Byte)] := by decide
    exact (firstChunk_of_spec (r := rest) hspec).trans rfl

/-- The chunks of a message, its end, and what follows. -/
def IsMessage : List (List Byte) → List Byte → List Byte → Prop
  | [], s, rest => s = endOfChunks ++ rest
  | c :: cs, s, rest => ∃ s', IsChunk c s s' ∧ IsMessage cs s' rest

/-! ## Reading a message -/

theorem recvChunkBytes_of_chunked (hframing : t.framing = .chunked) :
    recvChunkBytes t src = recvChunkBytesChunked t src := by
  rw [recvChunkBytes, hframing]

/-- A call of `recv_chunk_bytes`, seen from the whole stream. -/
theorem agrees_recvChunkBytes (hframing : t.framing = .chunked) (htimely : ∀ a ∈ src, a.Timely)
    {chunk : Chunk} (h : recvChunkBytes t src = (chunk, t', src')) :
    Agrees (chunk, t', src') (firstChunk (t.bufBytes ++ arrived src)) ∧ t'.framing = .chunked ∧
      ∀ a ∈ src', a.Timely := by
  obtain ⟨hagrees, hframing', hsuffix⟩ := agrees_recvChunkBytesChunked (t := t) htimely
  rw [← recvChunkBytes_of_chunked hframing, h] at hagrees hframing' hsuffix
  exact ⟨hagrees, hframing'.trans hframing, fun a ha ↦ htimely a (hsuffix.subset ha)⟩

theorem isChunk_iff (hframing : t.framing = .chunked) (htimely : ∀ a ∈ src, a.Timely) :
    IsChunk c (t.bufBytes ++ arrived src) rest ↔
      ∃ t' src', recvChunkBytes t src = (.data c, t', src') ∧
        t'.bufBytes ++ arrived src' = rest := by
  rw [← firstChunk_eq_data_iff]
  constructor
  · intro hparsed
    rcases hrecv : recvChunkBytes t src with ⟨chunk, t', src'⟩
    obtain ⟨hagrees, -, -⟩ := agrees_recvChunkBytes hframing htimely hrecv
    rw [hparsed] at hagrees
    rcases chunk with _ | _ | _ | _ | _
    · obtain ⟨rfl, hrest⟩ := hagrees
      exact ⟨t', src', rfl, hrest⟩
    all_goals exact hagrees.elim
  · rintro ⟨t', src', hrecv, rfl⟩
    obtain ⟨hagrees, -, -⟩ := agrees_recvChunkBytes hframing htimely hrecv
    rcases hparsed : firstChunk (t.bufBytes ++ arrived src) with ⟨c', r⟩ | _ | _ | _
    all_goals rw [hparsed] at hagrees
    · obtain ⟨rfl, rfl⟩ := hagrees
      rfl
    all_goals exact hagrees.elim

theorem isEnd_iff (hframing : t.framing = .chunked) (htimely : ∀ a ∈ src, a.Timely) :
    t.bufBytes ++ arrived src = endOfChunks ++ rest ↔
      ∃ t' src', recvChunkBytes t src = (.eom, t', src') ∧ t'.bufBytes ++ arrived src' = rest := by
  rw [← firstChunk_eq_eom_iff]
  constructor
  · intro hparsed
    rcases hrecv : recvChunkBytes t src with ⟨chunk, t', src'⟩
    obtain ⟨hagrees, -, -⟩ := agrees_recvChunkBytes hframing htimely hrecv
    rw [hparsed] at hagrees
    rcases chunk with _ | _ | _ | _ | _
    · exact hagrees.elim
    · exact ⟨t', src', rfl, hagrees⟩
    all_goals exact hagrees.elim
  · rintro ⟨t', src', hrecv, rfl⟩
    obtain ⟨hagrees, -, -⟩ := agrees_recvChunkBytes hframing htimely hrecv
    rcases hparsed : firstChunk (t.bufBytes ++ arrived src) with _ | r | _ | _
    all_goals rw [hparsed] at hagrees
    · exact hagrees.elim
    · rw [← show _ = r from hagrees]
    all_goals exact hagrees.elim

theorem reads_iff {cs : List (List Byte)} (hframing : t.framing = .chunked)
    (htimely : ∀ a ∈ src, a.Timely) :
    (∃ t' src', Reads t src cs t' src' ∧ t'.bufBytes ++ arrived src' = rest) ↔
      IsMessage cs (t.bufBytes ++ arrived src) rest := by
  induction cs generalizing t src with
  | nil =>
    rw [IsMessage, isEnd_iff hframing htimely]
    constructor
    · rintro ⟨t', src', hreads, hrest⟩
      rcases hreads with ⟨h⟩
      exact ⟨t', src', h, hrest⟩
    · rintro ⟨t', src', h, hrest⟩
      exact ⟨t', src', .eom h, hrest⟩
  | cons c cs ih =>
    rw [IsMessage]
    constructor
    · rintro ⟨t', src', hreads, hrest⟩
      rcases hreads with _ | @⟨_, _, t₁, src₁, _, _, _, _, h, hreads⟩
      obtain ⟨-, hframing₁, htimely₁⟩ := agrees_recvChunkBytes hframing htimely h
      exact ⟨_, (isChunk_iff hframing htimely).mpr ⟨t₁, src₁, h, rfl⟩,
        (ih hframing₁ htimely₁).mp ⟨t', src', hreads, hrest⟩⟩
    · rintro ⟨s', hchunk, hmessage⟩
      obtain ⟨t₁, src₁, h, rfl⟩ := (isChunk_iff hframing htimely).mp hchunk
      obtain ⟨-, hframing₁, htimely₁⟩ := agrees_recvChunkBytes hframing htimely h
      obtain ⟨t', src', hreads, hrest⟩ := (ih hframing₁ htimely₁).mpr hmessage
      exact ⟨t', src', .data h hreads, hrest⟩

/-- There is one way to read a stream. -/
theorem isMessage_unique {cs cs' : List (List Byte)} {rest' : List Byte} (h : IsMessage cs s rest)
    (h' : IsMessage cs' s rest') : cs = cs' ∧ rest = rest' := by
  induction cs generalizing s cs' with
  | nil =>
    have hend := firstChunk_eq_eom_iff.mpr h
    rcases cs' with _ | ⟨c', cs'⟩
    · exact ⟨rfl, Parsed.eom.inj (hend.symm.trans (firstChunk_eq_eom_iff.mpr h'))⟩
    · obtain ⟨s', hchunk, -⟩ := h'
      exact nomatch hend.symm.trans (firstChunk_eq_data_iff.mpr hchunk)
  | cons c cs ih =>
    obtain ⟨s₁, hchunk, hmessage⟩ := h
    have hdata := firstChunk_eq_data_iff.mpr hchunk
    rcases cs' with _ | ⟨c', cs'⟩
    · exact nomatch hdata.symm.trans (firstChunk_eq_eom_iff.mpr h')
    · obtain ⟨s₂, hchunk', hmessage'⟩ := h'
      obtain ⟨rfl, rfl⟩ := Parsed.data.inj (hdata.symm.trans (firstChunk_eq_data_iff.mpr hchunk'))
      obtain ⟨rfl, rfl⟩ := ih hmessage hmessage'
      exact ⟨rfl, rfl⟩

/-- **The messages that are read are those of the format**, whatever the pieces are, and no stream
has two messages at its beginning. -/
theorem reads_iff_isMessage {cs : List (List Byte)} (hframing : t.framing = .chunked)
    (htimely : ∀ a ∈ src, a.Timely) :
    ((∃ t' src', Reads t src cs t' src' ∧ t'.bufBytes ++ arrived src' = rest) ↔
      IsMessage cs (t.bufBytes ++ arrived src) rest) ∧
    ∀ cs' rest', IsMessage cs (t.bufBytes ++ arrived src) rest →
      IsMessage cs' (t.bufBytes ++ arrived src) rest' → cs = cs' ∧ rest = rest' :=
  ⟨reads_iff hframing htimely, fun _ _ ↦ isMessage_unique⟩

theorem reads_chunk_in_two_pieces : ∃ t' src', Reads (.fresh .chunked)
      [.data [0x0a, 0x23, 0x31] (List.cons_ne_nil _ _),
        .data [0x0a, 0x41, 0x0a, 0x23, 0x23, 0x0a] (List.cons_ne_nil _ _)] [[0x41]] t' src' ∧
    t'.bufBytes ++ arrived src' = [] := by
  refine (reads_iff_isMessage rfl ?_).1.mpr ⟨endOfChunks, ⟨[0x31], rfl, ?_⟩, rfl⟩
  · exact List.forall_mem_cons.mpr ⟨trivial, List.forall_mem_singleton.mpr trivial⟩
  · exact ⟨by decide, by decide, by decide, by decide, by decide⟩

end ConfdDemos.NetconfConsole
