import Mathlib.Algebra.Ring.Int.Defs
import Mathlib.Data.List.DropRight
import ConfdDemos.Foundation.Arrivals

/-!
# The transport of `netconf-console`

`NetconfSSHLikeTransport` receives NETCONF messages in one of two framings. In the old one a message
ends with `]]>]]>`. In the new one it is a sequence of chunks, each behind its size, and ends with
`LF ## LF`. Whatever has been received and is not part of the result stays in `buf_bytes`.

## Outcomes

`recv_chunk_bytes` returns a code and some bytes: `1` with data, `0` at the end of a message, `-1`
when the peer has closed and `-2` when the framing is broken. It raises `socket.timeout` when the
socket does, and what it has collected until then is in no variable that lives on.

Bytes become text chunk by chunk, and `str_data` raises an error if the bytes of a chunk are not
UTF-8 by themselves.
-/

namespace ConfdDemos.NetconfConsole

abbrev Byte := UInt8

/-! ## Text -/

/-- `bin_data`. -/
def binData (t : List Char) : List Byte := t.flatMap String.utf8EncodeChar

theorem binData_append (t u : List Char) : binData (t ++ u) = binData t ++ binData u :=
  List.flatMap_append

/-- `str_data`; there is no result if the bytes are not UTF-8. -/
def strData (b : List Byte) : Option (List Char) := b.toByteArray.utf8Decode?.map Array.toList

theorem strData_binData (t : List Char) : strData (binData t) = some t := by
  have hdecode : t.utf8Encode.utf8Decode? = some t.toArray := List.utf8Decode?_utf8Encode
  rw [List.utf8Encode] at hdecode
  rw [strData, binData, hdecode, Option.map_some]

theorem binData_of_strData {b : List Byte} {t : List Char} (h : strData b = some t) :
    binData t = b := by
  obtain ⟨a, ha, rfl⟩ := Option.map_eq_some_iff.mp h
  have hsome : b.toByteArray.utf8Decode?.isSome := Option.isSome_of_eq_some ha
  have hget : (b.toByteArray.utf8Decode?.get hsome).toList.utf8Encode = b.toByteArray :=
    ByteArray.utf8Encode_get_utf8Decode?
  rw [Option.get_of_eq_some hsome ha, List.utf8Encode] at hget
  exact List.toByteArray_inj.mp hget

/-! ### ASCII -/

section Ascii

variable {m : List Char}

def Ascii (m : List Char) : Prop := ∀ c ∈ m, c.val ≤ 127

instance : DecidablePred Ascii := fun m ↦ List.decidableBAll _ m

theorem binData_of_ascii (h : Ascii m) : binData m = m.map fun c ↦ c.val.toUInt8 := by
  induction m with
  | nil => rfl
  | cons c m ih =>
    have hc : c.utf8Size = 1 := Char.utf8Size_eq_one_iff.mpr (h c List.mem_cons_self)
    rw [binData, List.flatMap_cons, ← binData, String.utf8EncodeChar_eq_singleton hc,
      ih fun c hc ↦ h c (List.mem_cons_of_mem _ hc)]
    rfl

theorem length_binData_of_ascii (h : Ascii m) : (binData m).length = m.length := by
  rw [binData_of_ascii h, List.length_map]

theorem Ascii.take (h : Ascii m) (k : ℕ) : Ascii (m.take k) :=
  fun c hc ↦ h c (List.take_subset k m hc)

theorem Ascii.drop (h : Ascii m) (k : ℕ) : Ascii (m.drop k) :=
  fun c hc ↦ h c (List.drop_subset k m hc)

theorem Ascii.take_binData (h : Ascii m) (k : ℕ) : (binData m).take k = binData (m.take k) := by
  rw [binData_of_ascii h, binData_of_ascii (h.take k), List.map_take]

theorem Ascii.drop_binData (h : Ascii m) (k : ℕ) : (binData m).drop k = binData (m.drop k) := by
  rw [binData_of_ascii h, binData_of_ascii (h.drop k), List.map_drop]

theorem length_le_length_binData (m : List Char) : m.length ≤ (binData m).length := by
  induction m with
  | nil => exact Nat.le_refl _
  | cons c m ih =>
    rw [binData, List.flatMap_cons, List.length_append, String.length_utf8EncodeChar, ← binData,
      List.length_cons]
    have hpos := c.utf8Size_pos
    omega

/-- A text is ASCII if it has as many bytes as characters. -/
theorem ascii_of_length_binData (h : (binData m).length ≤ m.length) : Ascii m := by
  induction m with
  | nil => exact fun c hc ↦ (nomatch hc)
  | cons c m ih =>
    rw [binData, List.flatMap_cons, List.length_append, String.length_utf8EncodeChar, ← binData,
      List.length_cons] at h
    have hpos := c.utf8Size_pos
    have hle := length_le_length_binData m
    refine List.forall_mem_cons.mpr ⟨?_, ih (by omega)⟩
    exact Char.utf8Size_eq_one_iff.mp (by omega)

theorem ascii_of_length_le_one (h : (binData m).length ≤ 1) : Ascii m := by
  rcases m with _ | ⟨c, m⟩
  · exact fun c hc ↦ (nomatch hc)
  · exact ascii_of_length_binData (h.trans (Nat.succ_le_succ (Nat.zero_le _)))

end Ascii

/-! ## Numbers -/

def isSpace (b : Byte) : Bool := b = 0x20 || (0x09 ≤ b && b ≤ 0x0d)

def isDigit (b : Byte) : Bool := 0x30 ≤ b && b ≤ 0x39

/-- The digits behind the first; an underscore may stand between two of them. -/
def digitsFrom (n : ℕ) : List Byte → Option ℕ
  | [] => some n
  | c :: cs =>
    if isDigit c then digitsFrom (10 * n + (c.toNat - 0x30)) cs
    else if c = 0x5f then
      match cs with
      | [] => none
      | d :: ds => if isDigit d then digitsFrom (10 * n + (d.toNat - 0x30)) ds else none
    else none

def digits : List Byte → Option ℕ
  | [] => none
  | c :: cs => if isDigit c then digitsFrom (c.toNat - 0x30) cs else none

/-- Python's `int` of a byte string: space around the number and a sign are allowed. -/
def pyInt (s : List Byte) : Option ℤ :=
  match (s.dropWhile isSpace).rdropWhile isSpace with
  | [] => none
  | c :: cs =>
    if c = 0x2d then (digits cs).map fun n : ℕ ↦ -(n : ℤ)
    else if c = 0x2b then (digits cs).map fun n : ℕ ↦ (n : ℤ)
    else (digits (c :: cs)).map fun n : ℕ ↦ (n : ℤ)

/-! ## Receiving -/

inductive Framing where
  /-- `FRAMING_1_0`. -/
  | endMarker
  /-- `FRAMING_1_1`. -/
  | chunked
  deriving DecidableEq, Repr

structure Transport where
  bufBytes : List Byte
  framing : Framing
  eomFound : Bool
  deriving DecidableEq, Repr

/-- A transport as `__init__` makes it. -/
def Transport.fresh (framing : Framing) : Transport := ⟨[], framing, false⟩

/-- What `recv_chunk_bytes` returns or raises. -/
inductive Chunk where
  | data (bytes : List Byte)
  | eom
  | eof (bytes : List Byte)
  | framingError (bytes : List Byte)
  | timeout
  deriving DecidableEq, Repr

abbrev Source := List (Arrival Byte)

def bufsiz : ℕ := 16384

/-- The stream arrives as this source: data comes in time, at most `bufsiz` bytes at once. -/
def Delivers (src : Source) (stream : List Byte) : Prop :=
  arrived src = stream ∧ ∀ a ∈ src, a.Timely ∧ a.items.length ≤ bufsiz

/-- The stream comes in byte by byte. -/
def singles (s : List Byte) : Source := s.map fun b ↦ .data [b] (List.cons_ne_nil _ _)

theorem arrived_singles (s : List Byte) : arrived (singles s) = s := by
  induction s with
  | nil => rfl
  | cons b s ih => rw [singles, List.map_cons, ← singles, arrived_data, ih, List.singleton_append]

theorem delivers_singles (s : List Byte) : Delivers (singles s) s := by
  refine ⟨arrived_singles s, fun a ha ↦ ?_⟩
  obtain ⟨b, -, rfl⟩ := List.mem_map.mp ha
  exact ⟨trivial, by simp [Arrival.items, bufsiz]⟩

/-- `]]>]]>` -/
def endMarker : List Byte := [0x5d, 0x5d, 0x3e, 0x5d, 0x5d, 0x3e]

/-- `LF #` -/
def chunkStart : List Byte := [0x0a, 0x23]

def maxUint32 : ℤ := 2 ^ 32 - 1

/-- `while len(bytes) < n`. -/
def enough (n : ℕ) (bytes : List Byte) : Option (List Byte) :=
  if n ≤ bytes.length then some bytes else none

theorem enough_eq_some {n : ℕ} {b c : List Byte} (h : enough n b = some c) :
    c = b ∧ n ≤ b.length := by
  rw [enough] at h
  split_ifs at h with hn
  · exact ⟨(Option.some_inj.mp h).symm, hn⟩

theorem stable_enough (n : ℕ) : Stable (enough n) (· ++ ·) := by
  intro acc y b h
  obtain ⟨rfl, hn⟩ := enough_eq_some h
  rw [enough, if_pos (by rw [List.length_append]; omega)]

/-- Enough bytes are there in time. -/
theorem exists_readUntil_enough {n : ℕ} {src : Source} {acc : List Byte}
    (htimely : ∀ a ∈ src, a.Timely) (hlen : n ≤ (acc ++ arrived src).length) :
    ∃ bytes src', readUntil (enough n) acc src = .done bytes src' ∧ src' <:+ src ∧
      bytes ++ arrived src' = acc ++ arrived src ∧ n ≤ bytes.length := by
  have hans : enough n (acc ++ arrived src) = some (acc ++ arrived src) := if_pos hlen
  obtain ⟨bytes, src', h, hsuffix, harr⟩ := (stable_enough n).exists_readUntil htimely hans
  obtain ⟨pre, -, -, hans'⟩ := exists_of_readUntil_done h
  obtain ⟨rfl, hn⟩ := enough_eq_some hans'
  exact ⟨_, src', h, hsuffix, harr, hn⟩

/-- `recv_chunk_bytes_framing_1_0`. -/
def recvChunkBytesEndMarker (t : Transport) (src : Source) : Chunk × Transport × Source :=
  if t.eomFound then (.eom, { t with eomFound := false }, src)
  else
    match readUntil (enough 6) t.bufBytes src with
    | .closed bytes => (.eof bytes, { t with bufBytes := [] }, [])
    | .late _ src => (.timeout, { t with bufBytes := [] }, src)
    | .done bytes src =>
      match find endMarker bytes with
      | some idx =>
        (.data (bytes.take idx), { t with bufBytes := bytes.drop (idx + 6), eomFound := true }, src)
      | none =>
        -- the last five bytes may be the beginning of the marker
        (.data (bytes.take (bytes.length - 5)),
          { t with bufBytes := bytes.drop (bytes.length - 5) }, src)

/-- What the line with the size says. -/
inductive Header where
  | error (bytes : List Byte)
  | eom (rest : List Byte)
  | size (sz : ℕ) (rest : List Byte)
  deriving DecidableEq, Repr

/-- The loop that reads the chunk size, once the terminating LF has been found. -/
def header (bytes : List Byte) : Option Header :=
  ((bytes.drop 2).idxOf? 0x0a).map fun j ↦
    if 12 < j + 2 then .error bytes
    else
      match pyInt ((bytes.drop 2).take j) with
      | some sz =>
        if sz < 1 ∨ maxUint32 < sz then .error bytes else .size sz.toNat (bytes.drop (j + 3))
      | none =>
        if (bytes.drop 2).take j = [0x23] then .eom (bytes.drop (j + 3)) else .error bytes

/-- `recv_chunk_bytes_framing_1_1`. -/
def recvChunkBytesChunked (t : Transport) (src : Source) : Chunk × Transport × Source :=
  let t₀ := { t with bufBytes := [] }
  match readUntil (enough 4) t.bufBytes src with
  | .closed bytes => (.eof bytes, t₀, [])
  | .late _ src => (.timeout, t₀, src)
  | .done bytes src =>
    if bytes.take 2 ≠ chunkStart then (.framingError bytes, t₀, src)
    else
      match readUntil header bytes src with
      | .closed bytes => (.eof bytes, t₀, [])
      | .late _ src => (.timeout, t₀, src)
      | .done (.error bytes) src => (.framingError bytes, t₀, src)
      | .done (.eom rest) src => (.eom, { t with bufBytes := rest }, src)
      | .done (.size sz rest) src =>
        match readUntil (enough sz) rest src with
        | .closed bytes => (.eof bytes, t₀, [])
        | .late _ src => (.timeout, t₀, src)
        | .done bytes src => (.data (bytes.take sz), { t with bufBytes := bytes.drop sz }, src)

/-- `recv_chunk_bytes`. -/
def recvChunkBytes (t : Transport) (src : Source) : Chunk × Transport × Source :=
  match t.framing with
  | .endMarker => recvChunkBytesEndMarker t src
  | .chunked => recvChunkBytesChunked t src

/-- Calls of `recv_chunk_bytes` up to the end of a message. -/
inductive Reads : Transport → Source → List (List Byte) → Transport → Source → Prop
  | eom {t src t' src'} (h : recvChunkBytes t src = (.eom, t', src')) : Reads t src [] t' src'
  | data {t src t₁ src₁ t' src' c cs} (h : recvChunkBytes t src = (.data c, t₁, src₁))
      (hreads : Reads t₁ src₁ cs t' src') : Reads t src (c :: cs) t' src'

/-! ## Messages -/

/-- The loop of `recv_msg`, with a bound on its rounds. The text is missing when an exception is
raised. -/
def recvMsgLoop : ℕ → List Char → Transport → Source →
    Option (Option (List Char) × Transport × Source)
  | 0, _, _, _ => none
  | fuel + 1, msg, t, src =>
    match recvChunkBytes t src with
    | (.data bytes, t, src) =>
      match strData bytes with
      | some text => recvMsgLoop fuel (msg ++ text) t src
      | none => some (none, t, src)
    | (.eom, t, src) => some (some msg, t, src)
    | (.eof bytes, t, src) => some ((strData bytes).map (msg ++ ·), t, src)
    | (.framingError bytes, t, src) => some ((strData bytes).map (msg ++ ·), t, src)
    | (.timeout, t, src) => some (none, t, src)

section Rounds

variable {fuel : ℕ} {msg text : List Char} {t t₁ : Transport} {src src₁ : Source}
  {bytes : List Byte} {r : Option (List Char) × Transport × Source}

theorem recvMsgLoop_data (h : recvChunkBytes t src = (.data bytes, t₁, src₁))
    (htext : strData bytes = some text) :
    recvMsgLoop (fuel + 1) msg t src = recvMsgLoop fuel (msg ++ text) t₁ src₁ := by
  simp only [recvMsgLoop, h, htext]

theorem recvMsgLoop_eom (h : recvChunkBytes t src = (.eom, t₁, src₁)) :
    recvMsgLoop (fuel + 1) msg t src = some (some msg, t₁, src₁) := by
  simp only [recvMsgLoop, h]

/-- The message goes on behind a chunk of data only if the chunk can be decoded. -/
theorem exists_of_recvMsgLoop_data (h : recvChunkBytes t src = (.data bytes, t₁, src₁))
    (hloop : recvMsgLoop fuel msg t src = some r) (hr : r.1.isSome) :
    ∃ f text, fuel = f + 1 ∧ strData bytes = some text ∧
      recvMsgLoop f (msg ++ text) t₁ src₁ = some r := by
  rcases fuel with _ | fuel
  · exact nomatch hloop
  · rcases htext : strData bytes with _ | text
    · simp only [recvMsgLoop, h, htext, Option.some_inj] at hloop
      rw [← hloop] at hr
      exact nomatch hr
    · exact ⟨fuel, text, rfl, rfl, (recvMsgLoop_data h htext).symm.trans hloop⟩

theorem eq_of_recvMsgLoop_eom (h : recvChunkBytes t src = (.eom, t₁, src₁))
    (hloop : recvMsgLoop fuel msg t src = some r) : r = (some msg, t₁, src₁) := by
  rcases fuel with _ | fuel
  · exact nomatch hloop
  · exact Option.some_inj.mp (hloop.symm.trans (recvMsgLoop_eom h))

theorem recvMsgLoop_of_reads {ts : List (List Char)} (h : Reads t src (ts.map binData) t₁ src₁)
    (hfuel : ts.length < fuel) :
    recvMsgLoop fuel msg t src = some (some (msg ++ ts.flatten), t₁, src₁) := by
  induction ts generalizing fuel msg t src with
  | nil =>
    obtain ⟨fuel, rfl⟩ : ∃ f, fuel = f + 1 := ⟨fuel - 1, by omega⟩
    rcases h with ⟨h⟩
    rw [recvMsgLoop_eom h, List.flatten_nil, List.append_nil]
  | cons m ts ih =>
    rw [List.length_cons] at hfuel
    obtain ⟨fuel, rfl⟩ : ∃ f, fuel = f + 1 := ⟨fuel - 1, by omega⟩
    rcases h with _ | ⟨h, hreads⟩
    rw [recvMsgLoop_data h (strData_binData m), ih hreads (by omega), List.flatten_cons,
      List.append_assoc]

end Rounds

/-- Every chunk but the last one has at least one byte. -/
def rounds (t : Transport) (src : Source) : ℕ := t.bufBytes.length + (arrived src).length + 2

/-- `recv_msg`. -/
def recvMsg (t : Transport) (src : Source) : Option (Option (List Char) × Transport × Source) :=
  recvMsgLoop (rounds t src) [] t src

/-- The messages come in with one call of `recv_msg` each. -/
def Receives : Transport → Source → List (List Char) → Prop
  | _, _, [] => True
  | t, src, m :: ms => ∃ t' src', recvMsg t src = some (some m, t', src') ∧ Receives t' src' ms

end ConfdDemos.NetconfConsole
