import Mathlib.Data.String.Basic
import Mathlib.Order.Bounds.Basic
import ConfdDemos.CdbOper.ListIteration

/-!
# The servers in a database

The provider keeps the list of servers in a table and reads all of it, sorted by name, for every
request. Four callbacks let ConfD go through the list: by position, one key (`get_next_cb`) or all
the entries (`get_next_object_cb`) at a time, and behind a key, the next one (`find_next_cb`) or all
of them (`find_next_object_cb`).

## Which of them are right

Only `get_next_cb` is, for every table. The loop of `get_next_object_cb` has a `pos` of its own that
hides the position ConfD asks for. `find_next_cb` never looks at the key: it searches for the text
of `kp->v[0][0]`, the tag of the list, and if it finds this text it goes on three rows further and
replies an address; for `CONFD_FIND_SAME_OR_NEXT` it forgets what it has found.
`find_next_object_cb` does the same search, but the case for one key runs into the case for a wrong
number of keys.

## What is left open

`confd_val2str` for a tag is a call into ConfD's library. Here its result is a parameter, also when
there is none: nothing below depends on it.
-/

namespace ConfdDemos.Postgres

open CdbOper (FindNextType)

variable {T : Type*}

/-- A row of the table `servers`: the texts of its columns. -/
structure Row (T : Type*) where
  name : T
  ip : T
  port : T
  deriving DecidableEq, Repr

/-- The columns of `SELECT *`. -/
inductive Column
  | name
  | ip
  | port
  deriving DecidableEq, Repr

/-- The text of a column. -/
def Row.text (row : Row T) : Column → T
  | .name => row.name
  | .ip => row.ip
  | .port => row.port

/-- `PQgetvalue`: a null pointer for a row that is not there. -/
def pqGetvalue (res : List (Row T)) (row : ℤ) (column : Column) : Option T :=
  if row < 0 then none else (res[row.toNat]?).map fun r ↦ r.text column

/-- A `confd_value_t` in an object. -/
inductive Value (T : Type*)
  | str (p : Option T)
  /-- The address that `inet_aton` reads in a text. -/
  | ipv4 (p : Option T)
  /-- The number that `atoi` reads in a text. -/
  | uint16 (p : Option T)
  /-- Memory that nothing was written to. -/
  | unset
  deriving DecidableEq, Repr

/-- What a callback replies to ConfD. -/
inductive Reply (T : Type*)
  /-- `confd_data_reply_next_key` with a key, which may be a null pointer. -/
  | nextKey (key : Option T) (next : ℤ)
  /-- `confd_data_reply_next_key` and `confd_data_reply_next_object_array` with `NULL`. -/
  | endOfList
  /-- `confd_data_reply_next_object_arrays`, and whether the last object is the end marker. -/
  | objects (objs : List (List (Value T))) (last : Bool)
  /-- `CONFD_ERR`, with the text of `confd_trans_seterr`. -/
  | err (message : Option String)
  deriving DecidableEq, Repr

/-- A call: its reply, and the rows it has read on the way. -/
structure Outcome (T : Type*) where
  reply : Reply T
  reads : List ℤ
  deriving DecidableEq, Repr

/-! ## The callbacks

`res` is the result of `do_psqlcmd`, or nothing if the command fails. -/

/-- `ROW_NUMBER ()`, which counts from one. -/
def rowNumber (row : ℤ) : ℤ := row + 1

/-- `get_next_cb`. -/
def getNextCb (res : Option (List (Row T))) (next : ℤ) : Outcome T :=
  match res with
  | none => ⟨.err none, []⟩
  | some res =>
    if next = -1 then
      if res.length = 0 then ⟨.endOfList, []⟩
      else ⟨.nextKey (pqGetvalue res 0 .name) (rowNumber 0), [0, 0]⟩
    else if next ≥ res.length then ⟨.endOfList, []⟩
    else ⟨.nextKey (pqGetvalue res next .name) (rowNumber next), [next, next]⟩

/-- The leaves of a row, in the order of the schema. -/
def rowValues (res : List (Row T)) (row : ℤ) : List (Value T) :=
  [.str (pqGetvalue res row .name), .ipv4 (pqGetvalue res row .ip),
    .uint16 (pqGetvalue res row .port)]

/-- `get_next_object_cb`. -/
def getNextObjectCb (res : Option (List (Row T))) (next : ℤ) : Outcome T :=
  match res with
  | none => ⟨.err none, []⟩
  | some res =>
    if next = -1 ∨ next < res.length then
      let pos := if next = -1 then 0 else next
      -- the rounds of the loop over `pos + i < rows`
      let n := (res.length - pos).toNat
      -- in the loop there is another `pos`, which is zero
      ⟨.objects ((List.range n).map fun (i : ℕ) ↦ rowValues res (0 + i))
          (decide (pos + n = res.length)),
        (List.range n).flatMap fun (i : ℕ) ↦ [0 + (i : ℤ), 0 + (i : ℤ), 0 + (i : ℤ)]⟩
    else ⟨.endOfList, []⟩

section Search

variable [DecidableEq T]

/-- The loop that looks for a name: the row where it stops. -/
def scan (res : List (Row T)) (b : T) : Option ℕ := res.findIdx? fun row ↦ b = row.name

/-- The rows the loop reads. -/
def scanReads (res : List (Row T)) (b : T) : List ℤ :=
  (List.range (((scan res b).map (· + 1)).getD res.length)).map fun (i : ℕ) ↦ (i : ℤ)

/-- `switch (type)` of both callbacks: `pos`, and the rows that are read. -/
def findPos (res : List (Row T)) (b : T) : FindNextType → ℤ × List ℤ
  | .next =>
    match scan res b with
    | some i => ((i : ℤ) + 3, scanReads res b ++ [(i : ℤ) + 3])
    | none => (-1, scanReads res b)
  | .sameOrNext => (-1, scanReads res b)

/-- The text for `confd_trans_seterr`. -/
def invalidNumberOfKeys (nkeys : ℕ) : String := "invalid number of keys: " ++ toString nkeys

/-- `find_next_cb`, where `b` is what `key2str` makes of `kp->v[0][0]`. -/
def findNextCb (b : Option T) (res : Option (List (Row T))) (type : FindNextType) (keys : List T) :
    Outcome T :=
  match b, res with
  | some b, some res =>
    match keys.length with
    | 0 =>
      if res.length > 0 then ⟨.nextKey (pqGetvalue res 0 .name) (-1), [0]⟩ else ⟨.endOfList, []⟩
    | 1 =>
      let (pos, reads) := findPos res b type
      ⟨if pos ≥ 0 then .nextKey (pqGetvalue res pos .ip) (-1) else .endOfList, reads⟩
    | nkeys => ⟨.err (some (invalidNumberOfKeys nkeys)), []⟩
  | _, _ => ⟨.err none, []⟩

/-- `find_next_object_cb`. -/
def findNextObjectCb (b : Option T) (res : Option (List (Row T))) (type : FindNextType)
    (keys : List T) : Outcome T :=
  match b, res with
  | some b, some res =>
    match keys.length with
    | 0 =>
      if res.length > 0 then
        -- the address goes where the name was, and the last leaf is never set
        ⟨.objects ((List.range res.length).map fun (i : ℕ) ↦
            [.ipv4 (pqGetvalue res i .ip), .uint16 (pqGetvalue res i .port), .unset]) true,
          (List.range res.length).flatMap fun (i : ℕ) ↦ [(i : ℤ), (i : ℤ)]⟩
      else ⟨.endOfList, []⟩
    -- there is no `break` behind the search
    | 1 => ⟨.err (some (invalidNumberOfKeys 1)), (findPos res b type).2⟩
    | nkeys => ⟨.err (some (invalidNumberOfKeys nkeys)), []⟩
  | _, _ => ⟨.err none, []⟩

end Search

/-! ## What they are for -/

/-- The table as every request reads it. -/
structure Table (T : Type*) [LinearOrder T] where
  rows : List (Row T)
  sorted : rows.Pairwise fun r r' ↦ r.name < r'.name

/-- The values of a row, name, address and port. -/
def Row.values (row : Row T) : List (Value T) :=
  [.str (some row.name), .ipv4 (some row.ip), .uint16 (some row.port)]

/-- No row outside of the table was read. -/
def InTable (res : List (Row T)) (reads : List ℤ) : Prop :=
  ∀ row ∈ reads, 0 ≤ row ∧ row < res.length

/-- The entries of a reply that goes up to the end of the list. -/
def Reply.entries : Reply T → Option (List (List (Value T)))
  | .endOfList => some []
  | .objects objs true => some objs
  | _ => none

/-- ConfD asks for the next key with the position of the last reply. What is not a key is no
name. -/
def getNextCursor (res : List (Row T)) (next : ℤ) : List (Option T) × Option ℤ :=
  match (getNextCb (some res) next).reply with
  | .nextKey key next' => ([key], some next')
  | .endOfList => ([], none)
  | _ => ([none], none)

section Spec

variable [LinearOrder T] (table : Table T)

/-- The names that ConfD may mean: behind a key, or also the key itself. -/
def Behind (type : FindNextType) (k name : T) : Prop :=
  match type with
  | .next => k < name
  | .sameOrNext => k ≤ name

instance (type : FindNextType) (k name : T) : Decidable (Behind type k name) :=
  match type with
  | .next => inferInstanceAs (Decidable (k < name))
  | .sameOrNext => inferInstanceAs (Decidable (k ≤ name))

/-- One key at a time, every name comes once and in order, and then the end. -/
def GetNextRight : Prop :=
  Collects (getNextCursor table.rows) (-1) (table.rows.map fun row ↦ some row.name) ∧
    ∀ next ≥ -1, InTable table.rows (getNextCb (some table.rows) next).reads

/-- The rows from a position on, each with its own values, and the end. -/
def GetNextObjectRight : Prop :=
  ∀ next ≥ -1,
    (getNextObjectCb (some table.rows) next).reply.entries =
        some ((table.rows.drop next.toNat).map Row.values) ∧
      InTable table.rows (getNextObjectCb (some table.rows) next).reads

/-- The least name behind a key, or the end if there is none. -/
def FindNextRight (b : Option T) : Prop :=
  ∀ type k,
    ((∃ name next, (findNextCb b (some table.rows) type [k]).reply = .nextKey (some name) next ∧
          IsLeast {n | (∃ row ∈ table.rows, row.name = n) ∧ Behind type k n} name) ∨
        (findNextCb b (some table.rows) type [k]).reply = .endOfList ∧
          ∀ row ∈ table.rows, ¬Behind type k row.name) ∧
      InTable table.rows (findNextCb b (some table.rows) type [k]).reads

/-- All the rows behind a key, and the end. -/
def FindNextObjectRight (b : Option T) : Prop :=
  ∀ type k,
    (findNextObjectCb b (some table.rows) type [k]).reply.entries =
        some ((table.rows.filter fun row ↦ Behind type k row.name).map Row.values) ∧
      InTable table.rows (findNextObjectCb b (some table.rows) type [k]).reads

/-- The four callbacks agree on the order of the list. -/
structure Agree (b : Option T) : Prop where
  getNext : GetNextRight table
  getNextObject : GetNextObjectRight table
  findNext : FindNextRight table b
  findNextObject : FindNextObjectRight table b

end Spec

/-! ## By position -/

theorem pqGetvalue_natCast {res : List (Row T)} {i : ℕ} (hi : i < res.length) (column : Column) :
    pqGetvalue res i column = some (res[i].text column) := by
  have hpos : ¬((i : ℤ) < 0) := by omega
  rw [pqGetvalue, if_neg hpos, Int.toNat_natCast, List.getElem?_eq_getElem hi, Option.map_some]

theorem rowValues_natCast {res : List (Row T)} {i : ℕ} (hi : i < res.length) :
    rowValues res i = res[i].values := by
  rw [rowValues, pqGetvalue_natCast hi, pqGetvalue_natCast hi, pqGetvalue_natCast hi]
  rfl

/-- The positions ConfD asks with: minus one for the first row, else the number of the last one. -/
def position : ℕ → ℤ
  | 0 => -1
  | i + 1 => (i + 1 : ℕ)

theorem getNextCb_position {res : List (Row T)} {i : ℕ} (hi : i < res.length) :
    (getNextCb (some res) (position i)).reply = .nextKey (some res[i].name) (position (i + 1)) := by
  cases i with
  | zero =>
    have hne : res.length ≠ 0 := Nat.ne_of_gt hi
    rw [position, getNextCb, if_pos rfl, if_neg hne]
    exact congrArg (Reply.nextKey · 1) (pqGetvalue_natCast hi .name)
  | succ i =>
    have hstart : ¬(((i + 1 : ℕ) : ℤ) = -1) := by omega
    have hlt : ¬(((i + 1 : ℕ) : ℤ) ≥ res.length) := by omega
    rw [position, getNextCb, if_neg hstart, if_neg hlt]
    exact congrArg (Reply.nextKey · (i + 1 + 1 : ℕ)) (pqGetvalue_natCast hi .name)

theorem getNextCb_end (res : List (Row T)) :
    (getNextCb (some res) (position res.length)).reply = .endOfList := by
  cases hlength : res.length with
  | zero => rw [position, getNextCb, if_pos rfl, if_pos hlength]
  | succ n =>
    have hstart : ¬(((n + 1 : ℕ) : ℤ) = -1) := by omega
    have hend : ((n + 1 : ℕ) : ℤ) ≥ res.length := by omega
    rw [position, getNextCb, if_neg hstart, if_pos hend]

theorem inTable_getNextCb (res : List (Row T)) {next : ℤ} (hnext : next ≥ -1) :
    InTable res (getNextCb (some res) next).reads := by
  intro row hrow
  simp only [getNextCb] at hrow
  split_ifs at hrow with hstart hempty hend
  · exact absurd hrow List.not_mem_nil
  · have hzero : row = 0 := by simpa using hrow
    omega
  · exact absurd hrow List.not_mem_nil
  · have heq : row = next := by simpa using hrow
    omega

/-- `get_next_cb` goes through every table. -/
theorem getNextRight [LinearOrder T] (table : Table T) : GetNextRight table := by
  refine ⟨Collects.of_each _ position (fun i hi ↦ ?_) ?_, fun next ↦ inTable_getNextCb table.rows⟩
  · rw [List.length_map] at hi
    rw [getNextCursor, getNextCb_position hi, List.getElem_map]
  · rw [List.length_map, getNextCursor, getNextCb_end]

/-- `get_next_object_cb` replies as many rows as there are from a position on, but it takes the
first ones. -/
theorem entries_getNextObjectCb (res : List (Row T)) {next : ℤ} (hnext : next ≥ -1) :
    (getNextObjectCb (some res) next).reply.entries =
      some ((res.take (res.length - next.toNat)).map Row.values) := by
  by_cases hlt : next = -1 ∨ next < res.length
  · have hpos : (if next = -1 then 0 else next) = next.toNat := by
      split_ifs <;> omega
    have hn : (res.length - (next.toNat : ℤ)).toNat = res.length - next.toNat := by omega
    have hend : (next.toNat : ℤ) + (res.length - next.toNat : ℕ) = res.length := by omega
    simp only [getNextObjectCb, if_pos hlt, hpos, hn, decide_eq_true hend, Reply.entries]
    refine congrArg some ?_
    refine List.ext_getElem (by simp) fun i hi hi' ↦ ?_
    have hi'' : i < res.length := by
      rw [List.length_map, List.length_take] at hi'
      omega
    simp [rowValues_natCast hi'']
  · have hzero : res.length - next.toNat = 0 := by omega
    rw [getNextObjectCb, if_neg hlt, hzero]
    rfl

theorem inTable_getNextObjectCb (res : List (Row T)) {next : ℤ} (hnext : next ≥ -1) :
    InTable res (getNextObjectCb (some res) next).reads := by
  intro row hrow
  simp only [getNextObjectCb] at hrow
  split_ifs at hrow with hlt hstart
  · obtain ⟨i, hi, hrow⟩ := List.mem_flatMap.mp hrow
    have heq : row = i := by simpa using hrow
    rw [List.mem_range] at hi
    omega
  · obtain ⟨i, hi, hrow⟩ := List.mem_flatMap.mp hrow
    have heq : row = i := by simpa using hrow
    rw [List.mem_range] at hi
    omega
  · exact absurd hrow List.not_mem_nil

section Right

variable [LinearOrder T] (table : Table T)

/-- Two rows have different values. -/
theorem values_ne {i j : ℕ} (hij : i < j) (hj : j < table.rows.length) :
    (table.rows[i]).values ≠ (table.rows[j]).values := by
  intro heq
  have hlt := List.pairwise_iff_getElem.mp table.sorted i j (by omega) hj hij
  simp only [Row.values, List.cons.injEq, Value.str.injEq, Option.some_inj] at heq
  exact absurd heq.1 hlt.ne

/-- `get_next_object_cb` is right as long as no position but the first one is in the table. -/
theorem getNextObjectRight_iff : GetNextObjectRight table ↔ table.rows.length ≤ 1 := by
  constructor
  · intro h
    by_contra hlength
    have hentries := (h 1 (by omega)).1
    rw [entries_getNextObjectCb table.rows (by omega), Option.some_inj] at hentries
    have hpos : 0 < table.rows.length - 1 := by omega
    have hzero : 0 < table.rows.length := by omega
    have hone : 1 < table.rows.length := by omega
    -- the first row stands where the second one belongs
    have hhead : (table.rows[0]).values = (table.rows[1]).values := by
      have hget := congrArg (fun entries ↦ entries[0]?) hentries
      simpa only [Int.toNat_one, List.getElem?_map, List.getElem?_take, List.getElem?_drop,
        if_pos hpos, List.getElem?_eq_getElem hzero, List.getElem?_eq_getElem hone,
        Option.map_some, Option.some_inj] using hget
    exact values_ne table Nat.zero_lt_one hone hhead
  · intro h next hnext
    refine ⟨?_, inTable_getNextObjectCb table.rows hnext⟩
    rw [entries_getNextObjectCb table.rows hnext]
    rcases Nat.eq_zero_or_pos next.toNat with hzero | hpos
    · rw [hzero, List.drop_zero, Nat.sub_zero, List.take_length]
    · have hzero : table.rows.length - next.toNat = 0 := by omega
      rw [hzero, List.take_zero, List.drop_of_length_le (by omega)]

/-! ## Behind a key -/

/-- For `CONFD_FIND_SAME_OR_NEXT` there is never an entry. -/
theorem findNextCb_sameOrNext (b : T) (res : List (Row T)) (k : T) :
    (findNextCb (some b) (some res) .sameOrNext [k]).reply = .endOfList := rfl

theorem findNextCb_nil (b : T) (type : FindNextType) (k : T) :
    findNextCb (some b) (some []) type [k] = ⟨.endOfList, []⟩ := by
  cases type with
  | next => rfl
  | sameOrNext => rfl

/-- `find_next_cb` is right on the empty table only, and only if the tag of the list has a text. -/
theorem findNextRight_iff [Inhabited T] (b : Option T) :
    FindNextRight table b ↔ b.isSome ∧ table.rows = [] := by
  cases b with
  | none =>
    have hnot : ¬FindNextRight table none := fun h ↦ by
      obtain ⟨⟨name, next, hreply, -⟩ | ⟨hreply, -⟩, -⟩ := h .next default
      · exact absurd hreply nofun
      · exact absurd hreply nofun
    simpa using hnot
  | some b =>
    rw [Option.isSome_some, eq_self_iff_true, true_and]
    constructor
    · intro h
      rw [List.eq_nil_iff_forall_not_mem]
      intro row hrow
      obtain ⟨⟨name, next, hreply, -⟩ | ⟨-, hnone⟩, -⟩ := h .sameOrNext row.name
      · rw [findNextCb_sameOrNext] at hreply
        exact absurd hreply (by simp)
      · exact hnone row hrow (le_refl row.name)
    · intro hempty type k
      rw [hempty, findNextCb_nil]
      exact ⟨.inr ⟨rfl, fun row hrow ↦ absurd hrow List.not_mem_nil⟩,
        fun row hrow ↦ absurd hrow List.not_mem_nil⟩

/-- `find_next_object_cb` with a key is always an error. -/
theorem findNextObjectCb_key (b : Option T) (res : Option (List (Row T))) (type : FindNextType)
    (k : T) : ∃ message, (findNextObjectCb b res type [k]).reply = .err message := by
  cases b with
  | none => exact ⟨_, rfl⟩
  | some b =>
    cases res with
    | none => exact ⟨_, rfl⟩
    | some res => exact ⟨_, rfl⟩

theorem not_findNextObjectRight [Inhabited T] (b : Option T) : ¬FindNextObjectRight table b := by
  intro h
  obtain ⟨message, hreply⟩ := findNextObjectCb_key b (some table.rows) .next default
  have hentries := (h .next default).1
  rw [hreply] at hentries
  exact absurd hentries (by simp [Reply.entries])

/-- **The four callbacks.** They agree on no table: one is right on every table, one on a table with
at most one row, one on the empty table, and one never. -/
theorem not_agree [Inhabited T] (b : Option T) :
    ¬Agree table b ∧ GetNextRight table ∧
      (GetNextObjectRight table ↔ table.rows.length ≤ 1) ∧
      (FindNextRight table b ↔ b.isSome ∧ table.rows = []) ∧ ¬FindNextObjectRight table b :=
  ⟨fun h ↦ not_findNextObjectRight table b h.findNextObject, getNextRight table,
    getNextObjectRight_iff table, findNextRight_iff table b, not_findNextObjectRight table b⟩

end Right

/-- The servers that the demo starts with. -/
def initServers : Table String where
  rows := [⟨"smtp", "192.168.128.1", "25"⟩, ⟨"ssh", "192.168.128.1", "22"⟩,
    ⟨"www", "192.168.128.11", "80"⟩]
  sorted := by decide

/-- Behind `smtp` there are two more servers, and the reply is an error. -/
theorem not_agree_initServers : ¬Agree initServers (some "server") := by
  intro h
  have hentries := (h.findNextObject .next "smtp").1
  exact absurd hentries nofun

end ConfdDemos.Postgres
