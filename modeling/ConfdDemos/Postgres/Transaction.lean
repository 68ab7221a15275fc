import Mathlib.Data.Multiset.Filter
import ConfdDemos.Postgres.Servers

/-!
# Transactions on the servers

ConfD hands the provider the items of a transaction. `t_write_start` begins a database transaction,
`t_prepare` sends one SQL command for each item, and `t_commit` or `t_abort` ends it.

A command is a text into which `do_psqlcmd` prints the values of an item. The name of the server
comes from `key2str`, which has a buffer of `SERVER_NAME_LEN` bytes, and nothing quotes the
apostrophes in it. So a command may speak of another server than its item, or be no command of the
four at all.

## PostgreSQL

A literal ends at the next apostrophe that is not doubled. `Database` is what is open: which
statements it refuses, and what it makes of any text other than the commands of the provider. Names
are YANG strings, so there is no zero byte in them; a text is the list of its bytes.
-/

namespace ConfdDemos.Postgres

/-! ## Literals -/

abbrev Text := List Char

def apostrophe : Char := Char.ofNat 39

/-- The literal behind an opening apostrophe, and the text behind its closing one. -/
def readLiteral : Text → Option (Text × Text)
  | [] => none
  | [c] => if c = apostrophe then some ([], []) else none
  | c :: d :: rest =>
    if c ≠ apostrophe then (readLiteral (d :: rest)).map fun q ↦ (c :: q.1, q.2)
    else if d = apostrophe then (readLiteral rest).map fun q ↦ (apostrophe :: q.1, q.2)
    else some ([], d :: rest)

theorem readLiteral_cons {c : Char} (hc : c ≠ apostrophe) (rest : Text) :
    readLiteral (c :: rest) = (readLiteral rest).map fun q ↦ (c :: q.1, q.2) := by
  cases rest with
  | nil => exact if_neg hc
  | cons d rest => rw [readLiteral, if_pos hc]

/-- A text without apostrophes is read as it is. -/
theorem readLiteral_append {v rest : Text} (hv : apostrophe ∉ v)
    (hrest : rest.head? ≠ some apostrophe) :
    readLiteral (v ++ apostrophe :: rest) = some (v, rest) := by
  induction v with
  | nil =>
    cases rest with
    | nil => rfl
    | cons d rest =>
      have hd : d ≠ apostrophe := fun h ↦ hrest (by rw [h]; rfl)
      rw [List.nil_append, readLiteral, if_neg (not_not.2 rfl), if_neg hd]
  | cons c v ih =>
    rw [List.mem_cons, not_or] at hv
    rw [List.cons_append, readLiteral_cons (Ne.symm hv.1), ih hv.2]
    rfl

/-- Every apostrophe of a literal takes two characters. -/
theorem length_of_readLiteral {text v rest : Text} (h : readLiteral text = some (v, rest)) :
    text.length = v.length + v.count apostrophe + 1 + rest.length := by
  induction text using readLiteral.induct generalizing v rest with
  | case1 => simp [readLiteral] at h
  | case2 =>
    obtain ⟨rfl, rfl⟩ : [] = v ∧ [] = rest := by simpa [readLiteral] using h
    rfl
  | case3 c hc => simp [readLiteral, hc] at h
  | case4 c d text hc ih =>
    rw [readLiteral, if_pos hc] at h
    obtain ⟨q, hq, heq⟩ := Option.map_eq_some_iff.1 h
    obtain ⟨rfl, rfl⟩ := Prod.mk.inj heq
    have hlen := ih hq
    rw [List.count_cons_of_ne hc]
    simp only [List.length_cons] at hlen ⊢
    omega
  | case5 c text hc ih =>
    rw [readLiteral, if_neg hc, if_pos rfl] at h
    obtain ⟨q, hq, heq⟩ := Option.map_eq_some_iff.1 h
    obtain ⟨rfl, rfl⟩ := Prod.mk.inj heq
    have hlen := ih hq
    rw [List.count_cons_self]
    simp only [List.length_cons]
    omega
  | case6 c d text hc hd =>
    rw [readLiteral, if_neg hc, if_neg hd] at h
    obtain ⟨rfl, rfl⟩ := Prod.mk.inj (Option.some.inj h)
    simp only [List.length_cons, List.length_nil, List.count_nil]
    omega

/-- Literals other than clean ones are shorter than their text. -/
theorem ne_of_readLiteral {n m v tail : Text} (hm : m.length ≤ n.length)
    (h : readLiteral (m ++ apostrophe :: tail) = some (v, tail))
    (hn : m.length < n.length ∨ apostrophe ∈ n) : v ≠ n := by
  rintro rfl
  have hlen := length_of_readLiteral h
  rw [List.length_append, List.length_cons] at hlen
  obtain hshort | hquote := hn
  · omega
  · have hpos : 0 < v.count apostrophe := List.count_pos_iff.2 hquote
    omega

/-! ## Statements -/

/-- The statements of the provider on the table. -/
inductive Statement where
  | updateIp (ip name : Text)
  | updatePort (port name : Text)
  | insert (name : Text)
  | delete (name : Text)
  deriving DecidableEq, Repr

/-- The rows of the table, in no order. A column that was not set reads as the empty text. -/
abbrev Rows := Multiset (Row Text)

def Statement.apply : Statement → Rows → Rows
  | updateIp ip name, t => t.map fun r ↦ if r.name = name then { r with ip } else r
  | updatePort port name, t => t.map fun r ↦ if r.name = name then { r with port } else r
  | insert name, t => ⟨name, [], []⟩ ::ₘ t
  | delete name, t => t.filter fun r ↦ r.name ≠ name

/-- The text behind a word it begins with. -/
def strip (w text : Text) : Option Text :=
  if w.isPrefixOf text then some (text.drop w.length) else none

def parseUpdate (head text : Text) : Option (Text × Text) := do
  let text ← strip head text
  let (val, text) ← readLiteral text
  let text ← strip " WHERE name='".toList text
  let (name, text) ← readLiteral text
  if text = [] then some (val, name) else none

def parseName (head tail text : Text) : Option Text := do
  let text ← strip head text
  let (name, text) ← readLiteral text
  if text = tail then some name else none

/-- The statement that a text is, if it is one of the four. -/
def parse (text : Text) : Option Statement :=
  ((parseUpdate "UPDATE servers SET ip='".toList text).map fun q ↦ .updateIp q.1 q.2) <|>
  ((parseUpdate "UPDATE servers SET port='".toList text).map fun q ↦ .updatePort q.1 q.2) <|>
  ((parseName "INSERT INTO servers (name) VALUES('".toList ")".toList text).map .insert) <|>
  (parseName "DELETE FROM servers WHERE name = '".toList [] text).map .delete

theorem strip_append (w text : Text) : strip w (w ++ text) = some text := by
  rw [strip, if_pos (List.isPrefixOf_iff_prefix.2 (List.prefix_append w text)),
    List.drop_left]

/-! ## The database -/

/-- The transaction of a connection. -/
inductive Trans where
  | idle
  | active (work : Rows)
  /-- A statement has failed; nothing but the end of the transaction is accepted. -/
  | failed
  deriving DecidableEq

structure Conn where
  /-- What has been committed. -/
  table : Rows
  trans : Trans
  deriving DecidableEq

/-- What is open about PostgreSQL. -/
structure Database where
  /-- The statement breaks a constraint of the table. -/
  refuses : Statement → Rows → Bool
  /-- What becomes of a text that is none of the commands, and whether it succeeds. -/
  other : Text → Conn → Conn × Bool

namespace Database

variable (D : Database)

/-- A statement on the table. -/
def run (s : Statement) (c : Conn) : Conn × Bool :=
  match c.trans with
  | .idle => if D.refuses s c.table then (c, false) else (⟨s.apply c.table, .idle⟩, true)
  | .active work =>
    if D.refuses s work then (⟨c.table, .failed⟩, false)
    else (⟨c.table, .active (s.apply work)⟩, true)
  | .failed => (c, false)

theorem run_active (s : Statement) (t work : Rows) :
    D.run s ⟨t, .active work⟩ = if D.refuses s work then (⟨t, .failed⟩, false)
      else (⟨t, .active (s.apply work)⟩, true) := rfl

/-- `PQexec`, and whether the status is `PGRES_COMMAND_OK`. -/
def pqexec (text : Text) (c : Conn) : Conn × Bool :=
  if text = "BEGIN".toList then
    match c.trans with
    | .idle => (⟨c.table, .active c.table⟩, true)
    -- a warning inside a transaction, an error in a failed one
    | .active _ => (c, true)
    | .failed => (c, false)
  else if text = "COMMIT".toList then
    match c.trans with
    | .active work => (⟨work, .idle⟩, true)
    | _ => (⟨c.table, .idle⟩, true)
  else if text = "ABORT".toList then (⟨c.table, .idle⟩, true)
  else match parse text with
    | some s => D.run s c
    | none => D.other text c

end Database

/-! ## The provider -/

/-- An address as `inet:ip-address` has it: four bytes, or eight groups of two. -/
inductive IpAddress where
  | v4 (a b c d : UInt8)
  | v6 (g₀ g₁ g₂ g₃ g₄ g₅ g₆ g₇ : UInt16)
  deriving DecidableEq

/-- `inet_ntoa`. -/
def inetNtoa (a b c d : UInt8) : Text :=
  Nat.toDigits 10 a.toNat ++ '.' :: (Nat.toDigits 10 b.toNat ++ '.' ::
    (Nat.toDigits 10 c.toNat ++ '.' :: Nat.toDigits 10 d.toNat))

/-- The text of an address. -/
def IpAddress.text : IpAddress → Text
  | v4 a b c d => inetNtoa a b c d
  | v6 g₀ g₁ g₂ g₃ g₄ g₅ g₆ g₇ => [':'].intercalate
      ([g₀, g₁, g₂, g₃, g₄, g₅, g₆, g₇].map fun g ↦ Nat.toDigits 16 g.toNat)

/-- `inet_ntoa(CONFD_GET_IPV4(val))`. An address of the other kind lies in the same memory, so its
first four bytes are taken. -/
def IpAddress.ipv4Text : IpAddress → Text
  | v4 a b c d => inetNtoa a b c d
  | v6 g₀ g₁ _ _ _ _ _ _ =>
    inetNtoa (g₀.toNat / 256).toUInt8 g₀.toUInt8 (g₁.toNat / 256).toUInt8 g₁.toUInt8

/-- `%hu`. -/
def portText (port : UInt16) : Text := Nat.toDigits 10 port.toNat

/-- What an item does with a server. -/
inductive Edit where
  | setIp (val : IpAddress)
  | setPort (val : UInt16)
  | create
  | remove
  deriving DecidableEq

/-- An accumulated item of a transaction. -/
inductive Item where
  | edit (name : Text) (e : Edit)
  /-- `C_SET_ELEM` for a leaf without a case of its own. -/
  | setOther (name : Text)
  /-- Any other operation. -/
  | other
  deriving DecidableEq

def serverNameLen : ℕ := 32

/-- `key2str`: what `confd_val2str` leaves of a name in the buffer, before the zero byte. -/
def key2str (name : Text) : Text := name.take (serverNameLen - 1)

/-- The command of `t_prepare` for a server. -/
def command (name : Text) : Edit → Text
  | .setIp val => "UPDATE servers SET ip='".toList ++ val.ipv4Text ++
      "' WHERE name='".toList ++ key2str name ++ "'".toList
  | .setPort val => "UPDATE servers SET port='".toList ++ portText val ++
      "' WHERE name='".toList ++ key2str name ++ "'".toList
  | .create => "INSERT INTO servers (name) VALUES('".toList ++ key2str name ++ "')".toList
  | .remove => "DELETE FROM servers WHERE name = '".toList ++ key2str name ++ "'".toList

/-- `CONFD_OK` or `CONFD_ERR`. -/
inductive Status where
  | ok
  | err
  deriving DecidableEq, Repr

variable (D : Database)

/-- `do_psqlcmd` without a result. The buffer grows until the command fits. -/
def doPsqlcmd (cmd : Text) (c : Conn) : Conn × Status :=
  let (c, ok) := D.pqexec cmd c
  (c, if ok then .ok else .err)

def tWriteStart (c : Conn) : Conn × Status := doPsqlcmd D "BEGIN".toList c

def tAbort (c : Conn) : Conn × Status := doPsqlcmd D "ABORT".toList c

def tCommit (c : Conn) : Conn × Status := doPsqlcmd D "COMMIT".toList c

/-- One round of the loop of `t_prepare`. -/
def prepareItem (item : Item) (c : Conn) : Conn × Status :=
  match item with
  | .edit name e => doPsqlcmd D (command name e) c
  | .setOther _ => (c, .ok)
  | .other => (c, .err)

/-- `t_prepare`. -/
def tPrepare : List Item → Conn → Conn × Status
  | [], c => (c, .ok)
  | item :: items, c =>
    match prepareItem D item c with
    | (c, .err) => (c, .err)
    | (c, .ok) => tPrepare items c

/-- A whole transaction on a table: the status of `t_prepare`, and the connection after `t_commit`
or `t_abort`. -/
def transaction (items : List Item) (t : Rows) : Conn × Status :=
  let (c, status) := tPrepare D items (tWriteStart D ⟨t, .idle⟩).1
  match status with
  | .ok => ((tCommit D c).1, .ok)
  | .err => ((tAbort D c).1, .err)

/-! ## What the items ask for -/

/-- The statement that an edit of a server asks for. -/
def Edit.statement (name : Text) : Edit → Statement
  | setIp val => .updateIp val.text name
  | setPort val => .updatePort (portText val) name
  | create => .insert name
  | remove => .delete name

/-- The table with an item applied to the rows of its name. -/
def Item.apply : Item → Rows → Rows
  | edit name e, t => (e.statement name).apply t
  | setOther _, t | other, t => t

def applyItems (items : List Item) (t : Rows) : Rows := items.foldl (fun t item ↦ item.apply t) t

/-- A transaction that succeeds applies the items, and one that fails leaves the table as it is. -/
def Meets (items : List Item) (t : Rows) : Prop :=
  ((transaction D items t).2 = .ok → (transaction D items t).1.table = applyItems items t) ∧
    ((transaction D items t).2 = .err → (transaction D items t).1.table = t)

/-! ## How a command is read -/

/-- The name that PostgreSQL reads in a command, with `k` pasted into it. -/
def readName (k tail : Text) : Option Text :=
  (readLiteral (k ++ apostrophe :: tail)).bind fun q ↦ if q.2 = tail then some q.1 else none

theorem readName_of_clean {k tail : Text} (hk : apostrophe ∉ k)
    (htail : tail.head? ≠ some apostrophe) : readName k tail = some k := by
  rw [readName, readLiteral_append hk htail, Option.bind_some, if_pos rfl]

/-- A name that is cut or holds an apostrophe is not read as itself. -/
theorem readName_ne {k n tail : Text} (hk : k.length ≤ n.length)
    (hn : k.length < n.length ∨ apostrophe ∈ n) : readName k tail ≠ some n := by
  intro h
  obtain ⟨⟨v, rest⟩, hread, hv⟩ := Option.bind_eq_some_iff.1 h
  split_ifs at hv with hrest
  obtain rfl : rest = tail := hrest
  exact ne_of_readLiteral hk hread hn (Option.some.inj hv)

theorem parseUpdate_append {head val : Text} (hval : apostrophe ∉ val) (k : Text) :
    parseUpdate head (head ++ val ++ "' WHERE name='".toList ++ k ++ "'".toList) =
      (readName k []).map fun v ↦ (val, v) := by
  have hsplit : head ++ val ++ "' WHERE name='".toList ++ k ++ "'".toList =
      head ++ (val ++ apostrophe :: (" WHERE name='".toList ++ (k ++ [apostrophe]))) := by
    simp [apostrophe]
  have hread : readLiteral (val ++ apostrophe :: (" WHERE name='".toList ++ (k ++ [apostrophe]))) =
      some (val, " WHERE name='".toList ++ (k ++ [apostrophe])) :=
    readLiteral_append hval (by simp [apostrophe])
  simp only [parseUpdate, hsplit, strip_append, hread, bind, Option.bind_some, readName]
  cases readLiteral (k ++ [apostrophe]) with
  | none => rfl
  | some q =>
    simp only [Option.bind_some]
    split_ifs
    · rfl
    · rfl

theorem parseName_append (head tail k : Text) :
    parseName head tail (head ++ (k ++ apostrophe :: tail)) = readName k tail := by
  simp only [parseName, strip_append, bind, Option.bind_some, readName]

/-- A text that differs from a word within its length does not begin with it. -/
theorem strip_eq_none {w head : Text} (h : ¬ w <+: head) (hlen : ¬ head <+: w) (rest : Text) :
    strip w (head ++ rest) = none := by
  refine if_neg fun hw ↦ ?_
  rw [List.isPrefixOf_iff_prefix] at hw
  obtain hle | hle := Nat.le_total w.length head.length
  · exact h (List.prefix_of_prefix_length_le hw (List.prefix_append head rest) hle)
  · exact hlen (List.prefix_of_prefix_length_le (List.prefix_append head rest) hw hle)

theorem parseUpdate_eq_none {w head : Text} (h : ¬ w <+: head) (hlen : ¬ head <+: w)
    (rest : Text) : parseUpdate w (head ++ rest) = none := by
  simp only [parseUpdate, strip_eq_none h hlen, bind, Option.bind_none]

theorem parseName_eq_none {w head : Text} (h : ¬ w <+: head) (hlen : ¬ head <+: w)
    (tail rest : Text) : parseName w tail (head ++ rest) = none := by
  simp only [parseName, strip_eq_none h hlen, bind, Option.bind_none]

theorem parse_updateIp {val : Text} (hval : apostrophe ∉ val) (k : Text) :
    parse ("UPDATE servers SET ip='".toList ++ val ++ "' WHERE name='".toList ++ k ++
      "'".toList) = (readName k []).map fun v ↦ .updateIp val v := by
  rw [parse, parseUpdate_append hval]
  simp only [List.append_assoc]
  rw [parseUpdate_eq_none (by decide) (by decide), parseName_eq_none (by decide) (by decide),
    parseName_eq_none (by decide) (by decide)]
  cases readName k [] <;> rfl

theorem parse_updatePort {val : Text} (hval : apostrophe ∉ val) (k : Text) :
    parse ("UPDATE servers SET port='".toList ++ val ++ "' WHERE name='".toList ++ k ++
      "'".toList) = (readName k []).map fun v ↦ .updatePort val v := by
  rw [parse, parseUpdate_append hval]
  simp only [List.append_assoc]
  rw [parseUpdate_eq_none (by decide) (by decide), parseName_eq_none (by decide) (by decide),
    parseName_eq_none (by decide) (by decide)]
  cases readName k [] <;> rfl

theorem parse_insert (k : Text) :
    parse ("INSERT INTO servers (name) VALUES('".toList ++ k ++ "')".toList) =
      (readName k ")".toList).map .insert := by
  have hsplit : "INSERT INTO servers (name) VALUES('".toList ++ k ++ "')".toList =
      "INSERT INTO servers (name) VALUES('".toList ++ (k ++ apostrophe :: ")".toList) := by
    simp [apostrophe]
  rw [hsplit, parse, parseUpdate_eq_none (by decide) (by decide),
    parseUpdate_eq_none (by decide) (by decide), parseName_append,
    parseName_eq_none (by decide) (by decide)]
  cases readName k ")".toList <;> rfl

theorem parse_delete (k : Text) :
    parse ("DELETE FROM servers WHERE name = '".toList ++ k ++ "'".toList) =
      (readName k []).map .delete := by
  have hsplit : "DELETE FROM servers WHERE name = '".toList ++ k ++ "'".toList =
      "DELETE FROM servers WHERE name = '".toList ++ (k ++ apostrophe :: []) := by
    simp [apostrophe]
  rw [hsplit, parse, parseUpdate_eq_none (by decide) (by decide),
    parseUpdate_eq_none (by decide) (by decide), parseName_eq_none (by decide) (by decide),
    parseName_append]
  cases readName k [] <;> rfl

/-- The statement that PostgreSQL reads for an edit, with the name that it reads. -/
def Edit.sent : Edit → Text → Statement
  | setIp val, v => .updateIp val.ipv4Text v
  | setPort val, v => .updatePort (portText val) v
  | create, v => .insert v
  | remove, v => .delete v

/-- What a command has behind the closing apostrophe of the name. -/
def Edit.tail : Edit → Text
  | create => ")".toList
  | _ => []

theorem apostrophe_notMem_toDigits (n : ℕ) : apostrophe ∉ Nat.toDigits 10 n := by
  intro h
  exact absurd (Nat.isDigit_of_mem_toDigits (by decide) (by decide) h) (by decide)

theorem notMem_inetNtoa {x : Char} (hdot : x ≠ '.') (hdigit : x.isDigit = false)
    (a b c d : UInt8) : x ∉ inetNtoa a b c d := by
  have hbyte : ∀ n : ℕ, x ∉ Nat.toDigits 10 n := by
    intro n h
    rw [Nat.isDigit_of_mem_toDigits (by decide) (by decide) h] at hdigit
    exact absurd hdigit (by simp)
  simp [inetNtoa, hdot, hbyte]

/-- **How a command is read**: as the statement of its edit, for the name that is read. -/
theorem parse_command (name : Text) (e : Edit) :
    parse (command name e) = (readName (key2str name) e.tail).map e.sent := by
  cases e with
  | setIp val =>
    refine parse_updateIp ?_ (key2str name)
    cases val <;> exact notMem_inetNtoa (by decide) (by decide) _ _ _ _
  | setPort val => exact parse_updatePort (apostrophe_notMem_toDigits _) (key2str name)
  | create => exact parse_insert (key2str name)
  | remove => exact parse_delete (key2str name)

theorem head?_append_of {w : Text} {x : Char} (h : w.head? = some x) (rest : Text) :
    (w ++ rest).head? = some x := by
  rw [List.head?_append, h, Option.some_or]

/-- A command is executed as it is read. -/
theorem pqexec_command (name : Text) (e : Edit) (c : Conn) :
    D.pqexec (command name e) c = match (readName (key2str name) e.tail).map e.sent with
      | some s => D.run s c
      | none => D.other (command name e) c := by
  have hip : "UPDATE servers SET ip='".toList.head? = some 'U' := by decide
  have hport : "UPDATE servers SET port='".toList.head? = some 'U' := by decide
  have hinsert : "INSERT INTO servers (name) VALUES('".toList.head? = some 'I' := by decide
  have hdelete : "DELETE FROM servers WHERE name = '".toList.head? = some 'D' := by decide
  have hhead : (command name e).head? = some 'U' ∨ (command name e).head? = some 'I' ∨
      (command name e).head? = some 'D' := by
    cases e with
    | setIp val =>
      exact .inl (head?_append_of (head?_append_of (head?_append_of (head?_append_of hip _) _) _) _)
    | setPort val =>
      exact .inl (head?_append_of (head?_append_of (head?_append_of (head?_append_of hport _) _) _)
        _)
    | create => exact .inr (.inl (head?_append_of (head?_append_of hinsert _) _))
    | remove => exact .inr (.inr (head?_append_of (head?_append_of hdelete _) _))
  have hne : ∀ w : Text, w.head? = some 'B' ∨ w.head? = some 'C' ∨ w.head? = some 'A' →
      command name e ≠ w := by
    rintro w hw rfl
    obtain h | h | h := hhead <;> simp [h] at hw
  have hbegin := hne "BEGIN".toList (by simp)
  have hcommit := hne "COMMIT".toList (by simp)
  have habort := hne "ABORT".toList (by simp)
  rw [Database.pqexec, if_neg hbegin, if_neg hcommit, if_neg habort, parse_command]

/-! ## Faithful items -/

/-- The name fits into the buffer and needs no quoting. -/
def Fits (name : Text) : Prop := name.length < serverNameLen ∧ apostrophe ∉ name

instance (name : Text) : Decidable (Fits name) := inferInstanceAs (Decidable (_ ∧ _))

def IpAddress.isV4 : IpAddress → Bool
  | v4 _ _ _ _ => true
  | v6 _ _ _ _ _ _ _ _ => false

/-- The value is one that the command has room for. -/
def Edit.isPlain : Edit → Bool
  | setIp val => val.isV4
  | _ => true

/-- The command of the item speaks of the item. -/
def Item.Faithful : Item → Prop
  | edit name e => Fits name ∧ e.isPlain = true
  | _ => True

theorem key2str_of_fits {name : Text} (h : Fits name) : key2str name = name :=
  List.take_of_length_le (Nat.le_pred_of_lt h.1)

theorem sent_eq_statement {e : Edit} (h : e.isPlain = true) (name : Text) :
    e.sent name = e.statement name := by
  cases e with
  | setIp val =>
    cases val with
    | v4 a b c d => rfl
    | v6 => exact absurd h (by simp [Edit.isPlain, IpAddress.isV4])
  | setPort val => rfl
  | create => rfl
  | remove => rfl

theorem tail_head?_ne (e : Edit) : e.tail.head? ≠ some apostrophe := by
  cases e with
  | create => decide
  | setIp | setPort | remove => exact Option.some_ne_none apostrophe |>.symm

/-- **A faithful command is executed as the statement of its edit.** -/
theorem pqexec_of_fits {name : Text} {e : Edit} (hname : Fits name) (he : e.isPlain = true)
    (c : Conn) : D.pqexec (command name e) c = D.run (e.statement name) c := by
  rw [pqexec_command, key2str_of_fits hname, readName_of_clean hname.2 (tail_head?_ne e),
    Option.map_some, sent_eq_statement he]

/-- One item inside a transaction: it is applied to the rows the transaction works on, or it fails.
What has been committed is not touched. -/
theorem prepareItem_active {item : Item} (h : item.Faithful) (t work : Rows) :
    prepareItem D item ⟨t, .active work⟩ = (⟨t, .active (item.apply work)⟩, .ok) ∨
      ∃ c, prepareItem D item ⟨t, .active work⟩ = (c, .err) ∧ c.table = t := by
  cases item with
  | edit name e =>
    rw [prepareItem, doPsqlcmd, pqexec_of_fits D h.1 h.2, D.run_active]
    split_ifs
    · exact Or.inr ⟨⟨t, .failed⟩, rfl, rfl⟩
    · exact Or.inl rfl
  | setOther name => exact Or.inl rfl
  | other => exact Or.inr ⟨_, rfl, rfl⟩

/-- The items inside a transaction. -/
theorem tPrepare_active {items : List Item} (h : ∀ item ∈ items, item.Faithful) (t work : Rows) :
    tPrepare D items ⟨t, .active work⟩ = (⟨t, .active (applyItems items work)⟩, .ok) ∨
      ∃ c, tPrepare D items ⟨t, .active work⟩ = (c, .err) ∧ c.table = t := by
  induction items generalizing work with
  | nil => exact Or.inl rfl
  | cons item items ih =>
    obtain ⟨hitem, hitems⟩ := List.forall_mem_cons.1 h
    rw [tPrepare]
    obtain hok | ⟨c, herr, hc⟩ := prepareItem_active D hitem t work
    · rw [hok]
      exact ih hitems (item.apply work)
    · rw [herr]
      exact Or.inr ⟨c, rfl, hc⟩

theorem tWriteStart_idle (t : Rows) :
    (tWriteStart D ⟨t, .idle⟩).1 = ⟨t, .active t⟩ := by
  rw [tWriteStart, doPsqlcmd, Database.pqexec, if_pos rfl]

theorem tCommit_active (t work : Rows) : (tCommit D ⟨t, .active work⟩).1 = ⟨work, .idle⟩ := by
  rw [tCommit, doPsqlcmd, Database.pqexec, if_neg (by decide), if_pos rfl]

theorem tAbort_table (c : Conn) : (tAbort D c).1.table = c.table := by
  rw [tAbort, doPsqlcmd, Database.pqexec, if_neg (by decide), if_neg (by decide), if_pos rfl]

/-- **A transaction of faithful items is applied as a whole or not at all.** -/
theorem meets_of_faithful {items : List Item} (h : ∀ item ∈ items, item.Faithful) (t : Rows) :
    Meets D items t := by
  rw [Meets, transaction, tWriteStart_idle]
  obtain hok | ⟨c, herr, hc⟩ := tPrepare_active D h t t
  · rw [hok]
    refine ⟨fun _ ↦ ?_, fun hstatus ↦ absurd hstatus (by simp)⟩
    rw [tCommit_active]
  · rw [herr]
    refine ⟨fun hstatus ↦ absurd hstatus (by simp), fun _ ↦ ?_⟩
    rw [tAbort_table, hc]

/-! ## Other items -/

/-- A row of a server that nothing else is known of. -/
def bareRow (name : Text) : Row Text := ⟨name, [], []⟩

/-- A database that accepts everything, and where any other text leaves one row. -/
def strayDatabase (stray : Text) : Database where
  refuses _ _ := false
  other _ c := (⟨c.table, .active {bareRow stray}⟩, true)

/-- The table after a transaction of one edit. -/
theorem transaction_singleton (stray name : Text) (e : Edit) (t : Rows) :
    transaction (strayDatabase stray) [.edit name e] t =
      (⟨match readName (key2str name) e.tail with
        | some v => (e.sent v).apply t
        | none => {bareRow stray}, .idle⟩, .ok) := by
  have hcommit : ∀ work, tPrepare (strayDatabase stray) [.edit name e] ⟨t, .active t⟩ =
      (⟨t, .active work⟩, .ok) →
      transaction (strayDatabase stray) [.edit name e] t = (⟨work, .idle⟩, .ok) := by
    intro work h
    rw [transaction, tWriteStart_idle, h]
    exact congrArg (·, Status.ok) (tCommit_active _ t work)
  cases hread : readName (key2str name) e.tail with
  | some v =>
    refine hcommit _ ?_
    rw [tPrepare, prepareItem, doPsqlcmd, pqexec_command, hread]
    rfl
  | none =>
    refine hcommit _ ?_
    rw [tPrepare, prepareItem, doPsqlcmd, pqexec_command, hread]
    rfl

theorem text_ne_nil (val : IpAddress) : val.text ≠ [] := by
  cases val <;> simp [IpAddress.text, inetNtoa]

theorem not_fits {name : Text} (h : ¬ Fits name) :
    (key2str name).length < name.length ∨ apostrophe ∈ name := by
  by_cases hlen : name.length < serverNameLen
  · exact Or.inr (not_not.1 fun hquote ↦ h ⟨hlen, hquote⟩)
  · refine Or.inl ?_
    rw [key2str, List.length_take]
    simp only [serverNameLen] at hlen ⊢
    omega

/-- A statement for another name does not do what the edit asks for. -/
theorem sent_apply_ne {name v : Text} (e : Edit) (hv : v ≠ name) :
    (e.sent v).apply {bareRow name} ≠ (e.statement name).apply {bareRow name} := by
  cases e with
  | setIp val => simp [Edit.sent, Edit.statement, Statement.apply, bareRow, Ne.symm hv, text_ne_nil]
  | setPort val => simp [Edit.sent, Edit.statement, Statement.apply, bareRow, Ne.symm hv, portText]
  | create => simp [Edit.sent, Edit.statement, Statement.apply, bareRow, hv]
  | remove =>
    simp [Edit.sent, Edit.statement, Statement.apply, bareRow, Ne.symm hv,
      Multiset.filter_singleton]

/-- A text that is no command does not do what the edit asks for. -/
theorem stray_ne {name stray : Text} (e : Edit) (hstray : stray ≠ name) :
    ({bareRow stray} : Rows) ≠ (e.statement name).apply 0 := by
  cases e with
  | setIp val => simp [Edit.statement, Statement.apply]
  | setPort val => simp [Edit.statement, Statement.apply]
  | create => simp [Edit.statement, Statement.apply, bareRow, hstray]
  | remove => simp [Edit.statement, Statement.apply]

/-- An address of eight groups is not the text of four bytes. -/
theorem sent_v6_apply_ne (name : Text) {e : Edit} (he : e.isPlain ≠ true) :
    (e.sent name).apply {bareRow name} ≠ (e.statement name).apply {bareRow name} := by
  cases e with
  | setIp val =>
    cases val with
    | v4 => exact absurd rfl he
    | v6 g₀ g₁ g₂ g₃ g₄ g₅ g₆ g₇ =>
      have hcolon : ':' ∈ (IpAddress.v6 g₀ g₁ g₂ g₃ g₄ g₅ g₆ g₇).text := by
        simp [IpAddress.text]
      have hfree : ':' ∉ (IpAddress.v6 g₀ g₁ g₂ g₃ g₄ g₅ g₆ g₇).ipv4Text :=
        notMem_inetNtoa (by decide) (by decide) _ _ _ _
      have hne : (IpAddress.v6 g₀ g₁ g₂ g₃ g₄ g₅ g₆ g₇).ipv4Text ≠
          (IpAddress.v6 g₀ g₁ g₂ g₃ g₄ g₅ g₆ g₇).text := by
        intro h
        exact hfree (h ▸ hcolon)
      simp [Edit.sent, Edit.statement, Statement.apply, bareRow, hne]
  | setPort val => exact absurd rfl he
  | create => exact absurd rfl he
  | remove => exact absurd rfl he

theorem faithful_of_meets {item : Item} (h : ∀ D t, Meets D [item] t) : item.Faithful := by
  cases item with
  | edit name e =>
    have happly : ∀ stray t, (match readName (key2str name) e.tail with
        | some v => (e.sent v).apply t
        | none => {bareRow stray}) = (e.statement name).apply t := by
      intro stray t
      have hmeets := (h (strayDatabase stray) t).1
      rw [transaction_singleton] at hmeets
      exact hmeets rfl
    have hfits : Fits name := by
      by_contra hnot
      have hcut : (key2str name).length ≤ name.length := List.length_take_le' _ name
      cases hread : readName (key2str name) e.tail with
      | none =>
        -- a name that is not read back makes the statement write a stray row
        have hstray := happly (name ++ ['x']) 0
        rw [hread] at hstray
        exact stray_ne e (by simp) hstray
      | some v =>
        -- a name that is cut is another name, and the row with the whole name shows it
        have hv : v ≠ name := by
          rintro rfl
          exact readName_ne hcut (not_fits hnot) hread
        have hother := happly [] {bareRow name}
        rw [hread] at hother
        exact sent_apply_ne e hv hother
    refine ⟨hfits, ?_⟩
    by_contra hplain
    -- an address of the other family is not sent as it is
    have hsent := happly [] {bareRow name}
    rw [key2str_of_fits hfits, readName_of_clean hfits.2 (tail_head?_ne e)] at hsent
    exact sent_v6_apply_ne name hplain hsent
  | setOther name => trivial
  | other => trivial

/-- **When a transaction is applied as it stands.** Items that fit, with names that need no quoting
and addresses of four bytes, are applied in order by a transaction that succeeds, and one that fails
leaves the table as it is; and a transaction of one item does so on every table of every database
only if the item is of this kind. On one given table and database the items behind the first refused
statement do not matter, since they are never sent. -/
theorem transaction_meets_iff (items : List Item) :
    ((∀ item ∈ items, item.Faithful) → ∀ D t, Meets D items t) ∧
      ∀ item : Item, (∀ D t, Meets D [item] t) ↔ item.Faithful := by
  refine ⟨fun h D t ↦ meets_of_faithful D h t, fun item ↦ ⟨faithful_of_meets, ?_⟩⟩
  intro h D t
  exact meets_of_faithful D (by simpa using h) t

/-- A server of the initial configuration. -/
def smtpItems : List Item :=
  [.edit "smtp".toList .create, .edit "smtp".toList (.setIp (.v4 192 168 128 1)),
    .edit "smtp".toList (.setPort 25)]

theorem transaction_meets_smtp :
    (∀ item ∈ smtpItems, item.Faithful) ∧ Meets (strayDatabase []) smtpItems 0 := by
  have hfits : Fits "smtp".toList := by decide
  have hall : ∀ item ∈ smtpItems, item.Faithful := by
    intro item hitem
    simp only [smtpItems, List.mem_cons, List.not_mem_nil, or_false] at hitem
    obtain rfl | rfl | rfl := hitem
    · exact ⟨hfits, rfl⟩
    · exact ⟨hfits, rfl⟩
    · exact ⟨hfits, rfl⟩
  exact ⟨hall, (transaction_meets_iff smtpItems).1 hall _ _⟩

/-- A name of 32 letters is created as another name, of 31. -/
theorem transaction_cuts_name :
    ¬ Meets (strayDatabase []) [.edit (List.replicate 32 'a') .create] 0 := by
  intro h
  have hcut : key2str (List.replicate 32 'a') = List.replicate 31 'a' := by decide
  have hread : readName (List.replicate 31 'a') Edit.create.tail =
      some (List.replicate 31 'a') := readName_of_clean (by decide) (by decide)
  have htable := h.1
  rw [transaction_singleton, hcut, hread] at htable
  exact absurd (htable rfl) (by decide)

end ConfdDemos.Postgres
