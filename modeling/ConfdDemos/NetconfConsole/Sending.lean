import ConfdDemos.Foundation.Decimal
import ConfdDemos.Foundation.Delimited
import ConfdDemos.NetconfConsole.Chunks

/-!
# Sending over SSH

`NetconfSSH` collects what is to be sent in `saved` and hands `BUFSIZ` characters at a time to the
channel. The rest follows with the end of the message.

A request is text, or the bytes of a file. In chunks each call of `send` is a chunk, and the size
that stands before it is `len(request)`: the characters of a text and the bytes of a file. The
receiver counts bytes.
-/

namespace ConfdDemos.NetconfConsole

/-- A string or a byte string. -/
inductive Data where
  | text (t : List Char)
  | bytes (b : List Byte)
  deriving DecidableEq, Repr

namespace Data

def length : Data → ℕ
  | text t => t.length
  | bytes b => b.length

/-- `+`; there is no result where a string meets a byte string. -/
def append : Data → Data → Option Data
  | text t, text u => some (.text (t ++ u))
  | bytes b, bytes d => some (.bytes (b ++ d))
  | _, _ => none

def take (n : ℕ) : Data → Data
  | text t => .text (t.take n)
  | bytes b => .bytes (b.take n)

def drop (n : ℕ) : Data → Data
  | text t => .text (t.drop n)
  | bytes b => .bytes (b.drop n)

/-- `str_data`. -/
def str : Data → Option (List Char)
  | text t => some t
  | bytes b => strData b

/-- What the channel makes of it. -/
def wire : Data → List Byte
  | text t => binData t
  | bytes b => b

end Data

/-- The sender, and all that the channel has been given. -/
structure Ssh where
  saved : Data
  framing : Framing
  sent : List Byte
  deriving DecidableEq, Repr

def Ssh.fresh (framing : Framing) : Ssh := ⟨.text [], framing, []⟩

/-- `_get_eom`. -/
def getEom : Framing → List Char
  | .endMarker => "]]>]]>".toList
  | .chunked => "\n##\n".toList

namespace Ssh

/-- `_send`; there is no result when a `TypeError` is raised. -/
def sendRaw (c : Ssh) (buf : Data) : Option Ssh :=
  (if c.saved.length = 0 then some buf else c.saved.append buf).map fun buf ↦
    if buf.length < bufsiz then { c with saved := buf }
    else { c with sent := c.sent ++ (buf.take bufsiz).wire, saved := buf.drop bufsiz }

/-- `send`; in chunks a byte string has to be UTF-8. -/
def send (c : Ssh) (request : Data) : Option Ssh :=
  match c.framing with
  | .endMarker => c.sendRaw request
  | .chunked =>
    request.str.bind fun text ↦
      c.sendRaw (.text ("\n#".toList ++ Nat.toDigits 10 request.length ++ '\n' :: text))

/-- `_send_eom`. -/
def sendEom (c : Ssh) : Option Ssh :=
  (c.saved.append (.text (getEom c.framing))).map fun buf ↦
    { c with sent := c.sent ++ buf.wire, saved := .text [] }

/-- `send` for each part of a message. -/
def sendAll (c : Ssh) : List Data → Option Ssh
  | [] => some c
  | p :: ps => (c.send p).bind fun c ↦ c.sendAll ps

/-- A message in parts. -/
def sendMsg (c : Ssh) (parts : List Data) : Option Ssh := (c.sendAll parts).bind sendEom

end Ssh

/-! ## Numbers -/

variable {t : List Char} {c : Char} {n : ℕ}

theorem ascii_of_isDigit (h : ∀ c ∈ t, c.isDigit) : Ascii t := by
  intro c hc
  have hdigit := h c hc
  simp only [Char.isDigit, Bool.and_eq_true, decide_eq_true_eq] at hdigit
  exact UInt32.le_trans hdigit.2 (by decide)

theorem digit_byte (h : c.isDigit) : isDigit c.val.toUInt8 = true ∧
    c.val.toUInt8.toNat - 0x30 = c.toNat - '0'.toNat := by
  simp only [Char.isDigit, Bool.and_eq_true, decide_eq_true_eq] at h
  have hlo : 48 ≤ c.val.toNat := UInt32.le_iff_toNat_le.mp h.1
  have hhi : c.val.toNat ≤ 57 := UInt32.le_iff_toNat_le.mp h.2
  have hmod : c.val.toUInt8.toNat = c.val.toNat := by
    rw [UInt32.toNat_toUInt8]
    omega
  refine ⟨?_, by rw [hmod]; rfl⟩
  simp only [isDigit, Bool.and_eq_true, decide_eq_true_eq, UInt8.le_iff_toNat_le, hmod]
  exact ⟨hlo, hhi⟩

theorem digitsFrom_of_isDigit (h : ∀ c ∈ t, c.isDigit) :
    digitsFrom n (t.map fun c ↦ c.val.toUInt8) = some (Nat.ofDigitChars 10 t n) := by
  induction t generalizing n with
  | nil => rw [List.map_nil, digitsFrom, Nat.ofDigitChars_nil]
  | cons c t ih =>
    obtain ⟨hdigit, hval⟩ := digit_byte (h c List.mem_cons_self)
    rw [List.map_cons, digitsFrom.eq_def]
    simp only [hdigit, if_true, hval]
    rw [ih fun c hc ↦ h c (List.mem_cons_of_mem _ hc), Nat.ofDigitChars_cons]

theorem isSpace_of_isDigit {b : Byte} (h : isDigit b = true) : isSpace b = false := by
  simp only [isDigit, Bool.and_eq_true, decide_eq_true_eq, UInt8.le_iff_toNat_le] at h
  have hlast : (0x0d : Byte).toNat = 13 := rfl
  have hzero : (0x30 : Byte).toNat = 48 := rfl
  have hspace : b ≠ 0x20 := by
    rintro rfl
    exact absurd h (by decide)
  simp only [isSpace, Bool.or_eq_false_iff, decide_eq_false_iff_not, Bool.and_eq_false_iff,
    UInt8.le_iff_toNat_le]
  exact ⟨hspace, .inr (by omega)⟩

theorem pyInt_of_isDigit {s : List Byte} (h : ∀ b ∈ s, isDigit b = true) (hs : s ≠ []) :
    pyInt s = (digits s).map fun n : ℕ ↦ (n : ℤ) := by
  have hleft : s.dropWhile isSpace = s := by
    refine List.dropWhile_eq_self_iff.mpr fun hpos ↦ ?_
    rw [isSpace_of_isDigit (h _ (List.getElem_mem hpos))]
    exact Bool.false_ne_true
  have hright : s.rdropWhile isSpace = s := by
    refine List.rdropWhile_eq_self_iff.mpr fun hne ↦ ?_
    rw [isSpace_of_isDigit (h _ (List.getLast_mem hne))]
    exact Bool.false_ne_true
  rw [pyInt, hleft, hright]
  rcases s with _ | ⟨b, s⟩
  · exact (hs rfl).elim
  · have hb := h b List.mem_cons_self
    have hminus : b ≠ 0x2d := by
      rintro rfl
      exact absurd hb (by decide)
    have hplus : b ≠ 0x2b := by
      rintro rfl
      exact absurd hb (by decide)
    simp only [if_neg hminus, if_neg hplus]

/-- What `format` has written, `int` reads. -/
theorem pyInt_toDigits (n : ℕ) : pyInt (binData (Nat.toDigits 10 n)) = some (n : ℤ) := by
  have hall : ∀ c ∈ Nat.toDigits 10 n, c.isDigit :=
    fun c hc ↦ Nat.isDigit_of_mem_toDigits (by decide) le_rfl hc
  have hne : Nat.toDigits 10 n ≠ [] := Nat.toDigits_ne_nil
  have hvalue := Nat.ofDigitChars_ten_toDigits (n := n)
  rw [binData_of_ascii (ascii_of_isDigit hall), pyInt_of_isDigit]
  · rcases hdigits : Nat.toDigits 10 n with _ | ⟨c, t⟩
    · exact (hne hdigits).elim
    · rw [hdigits] at hall hvalue
      obtain ⟨hdigit, hval⟩ := digit_byte (hall c List.mem_cons_self)
      rw [List.map_cons, digits, if_pos hdigit, hval,
        digitsFrom_of_isDigit fun c hc ↦ hall c (List.mem_cons_of_mem _ hc)]
      rw [Nat.ofDigitChars_cons, Nat.mul_zero, Nat.zero_add] at hvalue
      rw [hvalue, Option.map_some]
  · intro b hb
    obtain ⟨c, hc, rfl⟩ := List.mem_map.mp hb
    exact (digit_byte (hall c hc)).1
  · exact fun h ↦ hne (List.map_eq_nil_iff.mp h)

/-! ## What the channel is given -/

variable {s : List Char} {b tail rest : List Byte} {ps : List Data} {p : Data} {x y : Ssh}

/-- A part as it should be sent. -/
def frameOf (p : Data) : List Byte :=
  chunkStart ++ (binData (Nat.toDigits 10 p.length) ++ 0x0a :: p.wire)

theorem Data.wire_of_str {p : Data} (h : p.str = some t) : binData t = p.wire := by
  rcases p with u | d
  · rw [Option.some_inj.mp h]
    rfl
  · exact binData_of_strData h

/-- Nothing is lost between `saved` and the channel. -/
theorem sendRaw_text (hx : x.saved = .text s) :
    ∃ y s', x.sendRaw (.text t) = some y ∧ y.saved = .text s' ∧ y.framing = x.framing ∧
      y.sent ++ binData s' = x.sent ++ (binData s ++ binData t) := by
  have hbuf : (if x.saved.length = 0 then some (.text t) else x.saved.append (.text t)) =
      some (.text (s ++ t)) := by
    rw [hx]
    split_ifs with h
    · rw [List.length_eq_zero_iff.mp h, List.nil_append]
    · rfl
  rw [Ssh.sendRaw, hbuf, Option.map_some, ← binData_append]
  split_ifs with hlen
  · exact ⟨_, s ++ t, rfl, rfl, rfl, rfl⟩
  · refine ⟨_, (s ++ t).drop bufsiz, rfl, rfl, rfl, ?_⟩
    simp only [Data.take, Data.wire]
    rw [List.append_assoc, ← binData_append, List.take_append_drop]

theorem send_chunked (hx : x.saved = .text s) (hframing : x.framing = .chunked)
    (hp : p.str.isSome) :
    ∃ y s', x.send p = some y ∧ y.saved = .text s' ∧ y.framing = .chunked ∧
      y.sent ++ binData s' = x.sent ++ (binData s ++ frameOf p) := by
  obtain ⟨t, ht⟩ := Option.isSome_iff_exists.mp hp
  obtain ⟨y, s', hsend, hsaved, hframing', hsent⟩ := sendRaw_text (x := x)
    (t := "\n#".toList ++ Nat.toDigits 10 p.length ++ '\n' :: t) hx
  refine ⟨y, s', ?_, hsaved, hframing'.trans hframing, ?_⟩
  · simp only [Ssh.send, hframing, ht, Option.bind_some, hsend]
  · have hstart : binData "\n#".toList = chunkStart := by decide
    have hline : binData ('\n' :: t) = 0x0a :: p.wire := by
      rw [← Data.wire_of_str ht]
      rfl
    rw [hsent, binData_append, binData_append, hstart, hline, frameOf, List.append_assoc chunkStart]

theorem sendAll_chunked (hx : x.saved = .text s) (hframing : x.framing = .chunked)
    (hps : ∀ p ∈ ps, p.str.isSome) :
    ∃ y s', x.sendAll ps = some y ∧ y.saved = .text s' ∧ y.framing = .chunked ∧
      y.sent ++ binData s' = x.sent ++ (binData s ++ ps.flatMap frameOf) := by
  induction ps generalizing x s with
  | nil => exact ⟨x, s, rfl, hx, hframing, by rw [List.flatMap_nil, List.append_nil]⟩
  | cons p ps ih =>
    obtain ⟨y, s₁, hsend, hy, hframing₁, hsent₁⟩ :=
      send_chunked hx hframing (hps p List.mem_cons_self)
    obtain ⟨z, s₂, hall, hz, hframing₂, hsent₂⟩ :=
      ih hy hframing₁ fun q hq ↦ hps q (List.mem_cons_of_mem _ hq)
    refine ⟨z, s₂, ?_, hz, hframing₂, ?_⟩
    · rw [Ssh.sendAll, hsend, Option.bind_some, hall]
    · rw [hsent₂, ← List.append_assoc, hsent₁, List.flatMap_cons]
      simp only [List.append_assoc]

theorem isSome_str_of_sendAll (hframing : x.framing = .chunked) (h : x.sendAll ps = some y) :
    ∀ p ∈ ps, p.str.isSome := by
  induction ps generalizing x with
  | nil => exact fun p hp ↦ (nomatch hp)
  | cons p ps ih =>
    obtain ⟨z, hsend, hall⟩ := Option.bind_eq_some_iff.mp h
    simp only [Ssh.send, hframing] at hsend
    obtain ⟨t, ht, hraw⟩ := Option.bind_eq_some_iff.mp hsend
    have hz : z.framing = .chunked := by
      obtain ⟨buf, -, rfl⟩ := Option.map_eq_some_iff.mp hraw
      split_ifs <;> exact hframing
    exact List.forall_mem_cons.mpr ⟨Option.isSome_of_eq_some ht, ih hz hall⟩

/-- A message is sent if every byte string in it is UTF-8, and then the channel has its frames. -/
theorem sendMsg_chunked_iff :
    (Ssh.fresh .chunked).sendMsg ps = some y ↔ (∀ p ∈ ps, p.str.isSome) ∧
      y = ⟨.text [], .chunked, ps.flatMap frameOf ++ endOfChunks⟩ := by
  have hmsg (hps : ∀ p ∈ ps, p.str.isSome) : (Ssh.fresh .chunked).sendMsg ps =
      some ⟨.text [], .chunked, ps.flatMap frameOf ++ endOfChunks⟩ := by
    obtain ⟨z, s', hall, hz, hframing, hsent⟩ := sendAll_chunked (x := .fresh .chunked) rfl rfl hps
    have heom : binData (getEom .chunked) = endOfChunks := by decide
    rw [Ssh.sendMsg, hall, Option.bind_some, Ssh.sendEom, hz, hframing]
    simp only [Data.append, Option.map_some, Data.wire]
    rw [binData_append, heom, ← List.append_assoc, hsent]
    rfl
  constructor
  · intro h
    obtain ⟨z, hall, -⟩ := Option.bind_eq_some_iff.mp h
    have hps := isSome_str_of_sendAll (x := .fresh .chunked) rfl hall
    exact ⟨hps, Option.some_inj.mp (h.symm.trans (hmsg hps))⟩
  · rintro ⟨hps, rfl⟩
    exact hmsg hps

/-! ## What the receiver makes of it -/

/-- A part that comes out as it went in. -/
def Data.Fits : Data → Prop
  | text t => t ≠ [] ∧ Ascii t ∧ (t.length : ℤ) ≤ maxUint32
  | bytes b => b ≠ [] ∧ (strData b).isSome ∧ (b.length : ℤ) ≤ maxUint32

theorem Data.fits_iff : p.Fits ↔ p.str.isSome ∧ 1 ≤ p.wire.length ∧ p.length = p.wire.length ∧
    (p.wire.length : ℤ) ≤ maxUint32 := by
  rcases p with t | d
  · have hle := length_le_length_binData t
    simp only [Fits, str, wire, Data.length, Option.isSome_some, true_and]
    constructor
    · rintro ⟨hne, hascii, hmax⟩
      rw [length_binData_of_ascii hascii]
      exact ⟨List.length_pos_iff.mpr hne, rfl, hmax⟩
    · rintro ⟨hpos, hlen, hmax⟩
      refine ⟨?_, ascii_of_length_binData hlen.ge, hlen ▸ hmax⟩
      rintro rfl
      exact absurd hpos (by decide)
  · simp only [Fits, str, wire, Data.length, true_and]
    rw [← List.length_pos_iff]
    exact and_left_comm

/-- No line feed among the digits of a size. -/
theorem notMem_size (n : ℕ) : (0x0a : Byte) ∉ binData (Nat.toDigits 10 n) := by
  have hall : ∀ c ∈ Nat.toDigits 10 n, c.isDigit :=
    fun c hc ↦ Nat.isDigit_of_mem_toDigits (by decide) le_rfl hc
  rw [binData_of_ascii (ascii_of_isDigit hall)]
  intro hmem
  obtain ⟨c, hc, hlf⟩ := List.mem_map.mp hmem
  have hdigit := (digit_byte (hall c hc)).1
  rw [hlf] at hdigit
  exact absurd hdigit (by decide)

/-- A frame is the chunk of its part if the size that was written is that of the part. -/
theorem isChunk_frameOf_iff :
    IsChunk p.wire (frameOf p ++ tail) rest ↔ rest = tail ∧ 1 ≤ p.wire.length ∧
      p.length = p.wire.length ∧ (p.wire.length : ℤ) ≤ maxUint32 := by
  rw [frameOf, List.append_assoc, List.append_assoc, List.cons_append]
  constructor
  · rintro ⟨spec, heq, hspec, -, hint, hpos, hmax⟩
    have hhead (l : List Byte) : ∀ b ∈ (0x0a :: l).head?, b = 0x0a :=
      fun b hb ↦ (Option.some_inj.mp (Option.mem_def.mp hb)).symm
    obtain ⟨rfl, htail⟩ := @append_inj_of_stop _ (fun b : Byte ↦ b = 0x0a) _ _ _ _
      (by rintro b hb rfl; exact notMem_size p.length hb) (by rintro b hb rfl; exact hspec hb)
      (hhead _) (hhead _) (List.append_cancel_left heq)
    refine ⟨(List.append_cancel_left (List.cons.inj htail).2).symm, hpos, ?_, hmax⟩
    rw [pyInt_toDigits, Option.some_inj] at hint
    exact Int.ofNat.inj hint
  · rintro ⟨rfl, hpos, hlen, hmax⟩
    refine ⟨_, rfl, notMem_size _, ?_, by rw [pyInt_toDigits, hlen], hpos, hmax⟩
    have hall : ∀ c ∈ Nat.toDigits 10 p.length, c.isDigit :=
      fun c hc ↦ Nat.isDigit_of_mem_toDigits (by decide) le_rfl hc
    rw [length_binData_of_ascii (ascii_of_isDigit hall),
      Nat.length_toDigits_le_iff (by decide) (by decide), hlen]
    rw [maxUint32] at hmax
    omega

theorem isMessage_frames_iff :
    IsMessage (ps.map Data.wire) (ps.flatMap frameOf ++ endOfChunks ++ tail) rest ↔
      rest = tail ∧ ∀ p ∈ ps, 1 ≤ p.wire.length ∧ p.length = p.wire.length ∧
        (p.wire.length : ℤ) ≤ maxUint32 := by
  induction ps with
  | nil =>
    rw [List.map_nil, IsMessage, List.flatMap_nil, List.nil_append, List.append_cancel_left_eq]
    exact ⟨fun h ↦ ⟨h.symm, List.forall_mem_nil _⟩, fun h ↦ h.1.symm⟩
  | cons p ps ih =>
    rw [List.map_cons, IsMessage, List.flatMap_cons, List.append_assoc, List.append_assoc,
      ← List.append_assoc (ps.flatMap frameOf), List.forall_mem_cons]
    constructor
    · rintro ⟨s', hchunk, hmessage⟩
      obtain ⟨rfl, hp⟩ := isChunk_frameOf_iff.mp hchunk
      obtain ⟨hrest, hps⟩ := ih.mp hmessage
      exact ⟨hrest, hp, hps⟩
    · rintro ⟨hrest, hp, hps⟩
      exact ⟨_, isChunk_frameOf_iff.mpr ⟨rfl, hp⟩, ih.mpr ⟨hrest, hps⟩⟩

/-- **A message in parts arrives as it was sent** if and only if no part is empty or too long, every
text is ASCII and every byte string is UTF-8: the size counts the characters of a text. -/
theorem arrives_iff_fits (ps : List Data) :
    (∃ y, (Ssh.fresh .chunked).sendMsg ps = some y ∧ ∀ src, Delivers src y.sent →
      ∃ t' src', Reads (.fresh .chunked) src (ps.map Data.wire) t' src') ↔
        ∀ p ∈ ps, p.Fits := by
  have hframes (src : Source) (hsrc : Delivers src (ps.flatMap frameOf ++ endOfChunks)) :
      (∃ t' src', Reads (.fresh .chunked) src (ps.map Data.wire) t' src') ↔
        ∀ p ∈ ps, 1 ≤ p.wire.length ∧ p.length = p.wire.length ∧
          (p.wire.length : ℤ) ≤ maxUint32 := by
    have hread (rest : List Byte) : (∃ t' src',
        Reads (.fresh .chunked) src (ps.map Data.wire) t' src' ∧
        t'.bufBytes ++ arrived src' = rest) ↔ IsMessage (ps.map Data.wire)
          ((Transport.fresh .chunked).bufBytes ++ arrived src) rest :=
      reads_iff rfl fun a ha ↦ (hsrc.2 a ha).1
    have hstream : (Transport.fresh .chunked).bufBytes ++ arrived src =
        ps.flatMap frameOf ++ endOfChunks ++ [] := by
      rw [hsrc.1, List.append_nil]
      rfl
    simp only [hstream, isMessage_frames_iff] at hread
    constructor
    · rintro ⟨t', src', h⟩
      exact ((hread _).mp ⟨t', src', h, rfl⟩).2
    · intro h
      obtain ⟨t', src', hreads, -⟩ := (hread []).mpr ⟨rfl, h⟩
      exact ⟨t', src', hreads⟩
  constructor
  · rintro ⟨y, hsend, harrives⟩ p hp
    obtain ⟨hstr, rfl⟩ := sendMsg_chunked_iff.mp hsend
    exact Data.fits_iff.mpr ⟨hstr p hp, (hframes _ (delivers_singles _)).mp
      (harrives _ (delivers_singles _)) p hp⟩
  · intro hfits
    exact ⟨_, sendMsg_chunked_iff.mpr ⟨fun p hp ↦ (Data.fits_iff.mp (hfits p hp)).1, rfl⟩,
      fun src hsrc ↦ (hframes src hsrc).mpr fun p hp ↦ (Data.fits_iff.mp (hfits p hp)).2⟩

end ConfdDemos.NetconfConsole
