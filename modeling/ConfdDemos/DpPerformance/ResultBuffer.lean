import Mathlib.Logic.Function.Basic
import ConfdDemos.Foundation.Doubling
import ConfdDemos.Foundation.Forest

/-!
# The result buffer of maapi-get-objects

The demo reads a subtree over MAAPI and writes it into an array of tagged values: a begin and an end
for each container and list entry, and a value for each leaf. An entry with nothing in it is taken
back. The array is doubled when a call of `traverse_cs_nodes` finds more than half of it in use, and
at no other time, so there has to be room for all that is written until the next call.

## Two layers

`traverseCsNodes` is the function. It keeps a record of its writes, each with the length of the
array at that moment. `shape` is what it writes, and `emit` the same record made from the shape
alone. Lengths are C integers; a length that cannot be represented wraps around.

## What has to fit

`places` lists the tags of a shape, each by the number of tags before it and by the furthest begin
before it, where the array was looked at last. The empty entries count here too, since their begin
is written before it is taken back.
-/

namespace ConfdDemos.DpPerformance

open Doubling

variable {N T V : Type*}

/-! ## Schema and data -/

/-- The bits of `info.flags` that are tested. -/
structure Flags where
  isList : Bool
  isContainer : Bool
  isAction : Bool
  isParam : Bool
  isResult : Bool
  isNotif : Bool
  isWrite : Bool
  deriving DecidableEq

/-- A schema node; `nkeys` is the length of `info.keys`, and the nodes below it and next to it are
those of the forest. -/
structure CsNode (N T : Type*) where
  tag : T
  ns : N
  flags : Flags
  nkeys : ℕ
  deriving DecidableEq

/-- No bit of `mask` is set. -/
def CsNode.isLeaf (a : CsNode N T) : Bool :=
  !(a.flags.isAction || a.flags.isParam || a.flags.isResult || a.flags.isNotif)

/-- A step of a path: a node, or the keys of a list entry. -/
inductive PathStep (N T V : Type*)
  | node (ns : N) (tag : T)
  | keys (values : List V)

abbrev Path (N T V : Type*) := List (PathStep N T V)

/-- The data: the entries of a list, and the values of an entry and of a container. -/
structure Maapi (N T V : Type*) where
  numInstances : Path N T V → ℕ
  getObjects : Path N T V → ℕ → ℕ → V
  getObject : Path N T V → ℕ → V

inductive TagType (V : Type*)
  | xmlBegin
  | xmlEnd
  | value (v : V)

/-- A tagged value. `CONFD_SET_TAG_VALUE` gives no namespace. -/
structure TagValue (N T V : Type*) where
  tag : T
  ns : Option N
  v : TagType V

/-! ## The buffer -/

/-- `tvs` and `tv_alloc_len`, with the writes so far: the index, and the length at that moment. -/
structure Buffer (N T V : Type*) where
  tvs : ℕ → Option (TagValue N T V)
  tvAllocLen : ℤ
  writes : List (ℕ × ℤ)
  exited : Bool

/-- `tv_alloc_len *= 2` if the index is behind the middle. -/
def check (len : ℤ) (j : ℕ) : ℤ := if len.tdiv 2 < j then (2 * len).bmod (2 ^ 32) else len

namespace Buffer

def set (b : Buffer N T V) (j : ℕ) (tv : TagValue N T V) : Buffer N T V :=
  { b with tvs := Function.update b.tvs j (some tv), writes := b.writes ++ [(j, b.tvAllocLen)] }

/-- The `realloc` at the beginning of a call. -/
def reserve (b : Buffer N T V) (j : ℕ) : Buffer N T V :=
  { b with tvAllocLen := check b.tvAllocLen j }

end Buffer

def tvBufLen : ℕ := 1024

/-- A container or a list entry, with a call for what is in it. -/
def element (csNode : CsNode N T) (call : Buffer N T V → ℕ → Buffer N T V × ℕ)
    (b : Buffer N T V) (j : ℕ) : Buffer N T V × ℕ :=
  let b := b.set j ⟨csNode.tag, some csNode.ns, .xmlBegin⟩
  let tmpj := j + 1
  let (b, j) := call b tmpj
  if j = tmpj then (b, j - 1)
  else (b.set j ⟨csNode.tag, some csNode.ns, .xmlEnd⟩, j + 1)

/-- The loop of `traverse_cs_nodes`; a call is the loop after `reserve`. Only the first call has no
values, so the loop that a leaf ends with `confd_fatal` is the outermost one. -/
def traverseCsNodes (ms : Maapi N T V) : Forest (CsNode N T) → Path N T V → Option (ℕ → V) → ℕ →
    ℕ → Buffer N T V → ℕ → Buffer N T V × ℕ
  | .nil, _, _, _, _, b, j => (b, j)
  | .node csNode children next, path, values, nval, keyleafs, b, j =>
    let subpath := path ++ [.node csNode.ns csNode.tag]
    if csNode.flags.isList then
      let (b, j) := (List.range (ms.numInstances subpath)).foldl (fun (b, j) i ↦
        let subvals := ms.getObjects subpath i
        let keys := (List.range csNode.nkeys).map subvals
        element csNode (fun b j ↦ traverseCsNodes ms children (subpath ++ [.keys keys])
          (some subvals) 0 csNode.nkeys (b.reserve j) j) b j) (b, j)
      traverseCsNodes ms next path values (nval + 1) keyleafs b j
    else if csNode.flags.isContainer then
      let (b, j) := element csNode (fun b j ↦ traverseCsNodes ms children subpath
        (some (ms.getObject subpath)) 0 0 (b.reserve j) j) b j
      traverseCsNodes ms next path values (nval + 1) keyleafs b j
    else if csNode.isLeaf then
      match values with
      | some values' =>
        if !csNode.flags.isWrite || decide (0 < keyleafs) then
          traverseCsNodes ms next path values (nval + 1) (keyleafs - 1)
            (b.set j ⟨csNode.tag, none, .value (values' nval)⟩) (j + 1)
        else traverseCsNodes ms next path values (nval + 1) keyleafs b j
      | none => ({ b with exited := true }, j)
    else traverseCsNodes ms next path values (nval + 1) keyleafs b j

/-- The call in `main`. -/
def run (ms : Maapi N T V) (csNodes : Forest (CsNode N T)) (path : Path N T V) :
    Buffer N T V × ℕ :=
  let b : Buffer N T V := ⟨fun _ ↦ none, tvBufLen, [], false⟩
  traverseCsNodes ms csNodes path none 0 0 (b.reserve 0) 0

/-! ## What is written -/

/-- A value, or a begin and an end around what is in between. -/
inductive Output
  | item
  | group
  deriving DecidableEq

/-- What `traverse_cs_nodes` shows of the data. -/
def shape (ms : Maapi N T V) : Forest (CsNode N T) → Path N T V → Bool → ℕ → Forest Output
  | .nil, _, _, _ => .nil
  | .node csNode children next, path, values, keyleafs =>
    let subpath := path ++ [.node csNode.ns csNode.tag]
    if csNode.flags.isList then
      (List.range (ms.numInstances subpath)).foldr (fun i rest ↦
        let keys := (List.range csNode.nkeys).map (ms.getObjects subpath i)
        .node .group (shape ms children (subpath ++ [.keys keys]) true csNode.nkeys) rest)
        (shape ms next path values keyleafs)
    else if csNode.flags.isContainer then
      .node .group (shape ms children subpath true 0) (shape ms next path values keyleafs)
    else if csNode.isLeaf then
      if values then
        if !csNode.flags.isWrite || decide (0 < keyleafs) then
          .node .item .nil (shape ms next path values (keyleafs - 1))
        else shape ms next path values keyleafs
      else .nil
    else shape ms next path values keyleafs

/-- The number of tags. A group with nothing in it has none. -/
def size : Forest Output → ℕ
  | .nil => 0
  | .node .item _ rest => 1 + size rest
  | .node .group inner rest => (if size inner = 0 then 0 else size inner + 2) + size rest

/-- The writes, and the length of the array afterwards. -/
def emit : Forest Output → ℤ → ℕ → List (ℕ × ℤ) × ℤ
  | .nil, len, _ => ([], len)
  | .node .item _ rest, len, j => ((j, len) :: (emit rest len (j + 1)).1, (emit rest len (j + 1)).2)
  | .node .group inner rest, len, j =>
    let (writes, len') := emit inner (check len (j + 1)) (j + 1)
    if size inner = 0 then ((j, len) :: (writes ++ (emit rest len' j).1), (emit rest len' j).2)
    else
      let k := j + 1 + size inner
      ((j, len) :: (writes ++ (k, len') :: (emit rest len' (k + 1)).1), (emit rest len' (k + 1)).2)

/-! ## What has to fit -/

/-- The furthest begin, by the number of tags with it. -/
def furthest : Forest Output → ℕ → ℕ → ℕ
  | .nil, e, _ => e
  | .node .item _ rest, e, j => furthest rest e (j + 1)
  | .node .group inner rest, e, j =>
    let e' := furthest inner (max e (j + 1)) (j + 1)
    if size inner = 0 then furthest rest e' j else furthest rest e' (j + 1 + size inner + 1)

/-- The tags, each by the number of tags before it and the furthest begin before it. -/
def places : Forest Output → ℕ → ℕ → List (ℕ × ℕ)
  | .nil, _, _ => []
  | .node .item _ rest, e, j => (j, e) :: places rest e (j + 1)
  | .node .group inner rest, e, j =>
    let e' := furthest inner (max e (j + 1)) (j + 1)
    if size inner = 0 then
      (j, e) :: (places inner (max e (j + 1)) (j + 1) ++ places rest e' j)
    else
      let k := j + 1 + size inner
      (j, e) :: (places inner (max e (j + 1)) (j + 1) ++ (k, e') :: places rest e' (k + 1))

/-- The tag is within the array as it is after the furthest begin, and that length can be
represented. -/
def Fits (p : ℕ × ℕ) : Prop :=
  p.1 < capacity tvBufLen p.2 ∧ capacity tvBufLen p.2 < 2 ^ 31

/-- All writes are inside of the array. -/
def InBounds (writes : List (ℕ × ℤ)) : Prop := ∀ w ∈ writes, (w.1 : ℤ) < w.2

/-! ## The length of the array -/

/-- The length is the one after the furthest begin, and what was written is in it, or it has wrapped
around. -/
def Tracks (e : ℕ) (len : ℤ) (j : ℕ) : Prop :=
  (capacity tvBufLen e < 2 ^ 31 ∧ len = capacity tvBufLen e ∧ j ≤ capacity tvBufLen e) ∨
    (2 ^ 31 ≤ capacity tvBufLen e ∧ len = -2 ^ 31)

section Tracks

variable {e j : ℕ} {len : ℤ}

theorem Tracks.lt_iff (h : Tracks e len j) (k : ℕ) : (k : ℤ) < len ↔ Fits (k, e) := by
  rw [Fits]
  rcases h with ⟨hcap, rfl, -⟩ | ⟨hcap, rfl⟩
  · rw [Int.ofNat_lt]
    exact (and_iff_left hcap).symm
  · refine iff_of_false ?_ fun h ↦ Nat.not_lt.mpr hcap h.2
    omega

theorem Tracks.written (h : Tracks e len j) (hj : (j : ℤ) < len) :
    capacity tvBufLen e < 2 ^ 31 ∧ len = capacity tvBufLen e ∧ j + 1 ≤ capacity tvBufLen e := by
  obtain ⟨hlt, hcap⟩ := (h.lt_iff j).mp hj
  rcases h with ⟨-, hlen, -⟩ | ⟨hcap', -⟩
  · exact ⟨hcap, hlen, hlt⟩
  · exact absurd hcap (Nat.not_lt.mpr hcap')

theorem Tracks.succ (h : Tracks e len j) (hj : (j : ℤ) < len) : Tracks e len (j + 1) :=
  .inl (h.written hj)

theorem Tracks.pred (h : Tracks e len (j + 1)) : Tracks e len j :=
  h.imp_left fun ⟨hcap, hlen, hj⟩ ↦ ⟨hcap, hlen, (Nat.le_succ j).trans hj⟩

theorem check_natCast (len j : ℕ) :
    check len j = if len < 2 * j then (2 * (len : ℤ)).bmod (2 ^ 32) else len := by
  rw [check, Int.tdiv_eq_ediv_of_nonneg (Int.natCast_nonneg len)]
  exact if_congr (by omega) rfl rfl

/-- The greatest length that can be represented and is half of one that cannot. -/
theorem capacity_eq_of_wrap (hcap : capacity tvBufLen e < 2 ^ 31)
    (hwrap : 2 ^ 31 ≤ 2 * capacity tvBufLen e) : capacity tvBufLen e = 2 ^ 30 := by
  obtain ⟨d, hd⟩ := exists_capacity_eq tvBufLen e
  have hpow : capacity tvBufLen e = 2 ^ (10 + d) := by
    rw [hd, Nat.pow_add]
    rfl
  rw [hpow] at hcap hwrap ⊢
  rw [← Nat.pow_succ', Nat.pow_le_pow_iff_right Nat.one_lt_two] at hwrap
  rw [Nat.pow_lt_pow_iff_right Nat.one_lt_two] at hcap
  congr 1
  omega

/-- A call after a begin. -/
theorem Tracks.check (h : Tracks e len j) (hj : (j : ℤ) < len) :
    Tracks (max e (j + 1)) (check len (j + 1)) (j + 1) := by
  have hbase : 0 < tvBufLen := Nat.zero_lt_succ _
  obtain ⟨hcap, rfl, hle⟩ := h.written hj
  rw [check_natCast]
  by_cases hhalf : capacity tvBufLen e < 2 * (j + 1)
  · rw [if_pos hhalf, Tracks, capacity_max_of_lt hbase hhalf hle]
    rcases Nat.lt_or_ge (2 * capacity tvBufLen e) (2 ^ 31) with hlt | hge
    · refine .inl ⟨hlt, ?_, by omega⟩
      rw [Int.bmod_eq_of_le (by omega) (by omega)]
      rfl
    · rw [capacity_eq_of_wrap hcap hge]
      exact .inr ⟨by decide, by decide⟩
  · rw [if_neg hhalf, Tracks, capacity_max_of_le hbase (Nat.not_lt.mp hhalf)]
    exact .inl ⟨hcap, rfl, hle⟩

end Tracks

/-! ## Writes and places -/

section Emit

variable {F inner rest : Forest Output} {e j : ℕ} {len : ℤ}

/-- Writing a shape stays inside of the array if every tag of it fits, and then the length is known
afterwards. -/
def Sound (F : Forest Output) : Prop := ∀ e len j, Tracks e len j →
  (InBounds (emit F len j).1 ↔ ∀ p ∈ places F e j, Fits p) ∧
    ((∀ p ∈ places F e j, Fits p) → Tracks (furthest F e j) (emit F len j).2 (j + size F))

theorem inBounds_cons {w : ℕ × ℤ} {l : List (ℕ × ℤ)} :
    InBounds (w :: l) ↔ (w.1 : ℤ) < w.2 ∧ InBounds l := List.forall_mem_cons

theorem inBounds_append {l l' : List (ℕ × ℤ)} :
    InBounds (l ++ l') ↔ InBounds l ∧ InBounds l' := List.forall_mem_append

theorem sound_item (c : Forest Output) (ih : Sound rest) : Sound (.node .item c rest) := by
  intro e len j h
  rw [emit, places, furthest, size]
  rw [inBounds_cons, List.forall_mem_cons, h.lt_iff j]
  refine ⟨and_congr_right fun hfits ↦ ?_, fun hfits ↦ ?_⟩
  · exact (ih e len (j + 1) (h.succ ((h.lt_iff j).mpr hfits))).1
  · rw [← Nat.add_assoc]
    exact (ih e len (j + 1) (h.succ ((h.lt_iff j).mpr hfits.1))).2 hfits.2

/-- A group with nothing in it: its begin is taken back. -/
theorem sound_empty (hempty : size inner = 0) (ihi : Sound inner) (ihr : Sound rest) :
    Sound (.node .group inner rest) := by
  intro e len j h
  rw [emit, places, furthest, size]
  dsimp only
  rw [if_pos hempty, if_pos hempty, if_pos hempty, if_pos hempty, Nat.zero_add]
  rw [inBounds_cons, List.forall_mem_cons, inBounds_append, List.forall_mem_append, h.lt_iff j]
  have hinner (hfits : Fits (j, e)) := ihi _ _ _ (h.check ((h.lt_iff j).mpr hfits))
  have hrest (hfits : Fits (j, e))
      (hall : ∀ p ∈ places inner (max e (j + 1)) (j + 1), Fits p) :=
    ihr _ _ j (Tracks.pred (hempty ▸ (hinner hfits).2 hall))
  refine ⟨and_congr_right fun hfits ↦ ?_, fun hfits ↦ ?_⟩
  · rw [(hinner hfits).1]
    exact and_congr_right fun hall ↦ (hrest hfits hall).1
  · exact (hrest hfits.1 hfits.2.1).2 hfits.2.2

theorem sound_group (hne : size inner ≠ 0) (ihi : Sound inner) (ihr : Sound rest) :
    Sound (.node .group inner rest) := by
  intro e len j h
  rw [emit, places, furthest, size]
  dsimp only
  rw [if_neg hne, if_neg hne, if_neg hne, if_neg hne]
  rw [inBounds_cons, List.forall_mem_cons, inBounds_append, List.forall_mem_append, inBounds_cons,
    List.forall_mem_cons, h.lt_iff j]
  have hinner (hfits : Fits (j, e)) := ihi _ _ _ (h.check ((h.lt_iff j).mpr hfits))
  have hrest (hfits : Fits (j, e))
      (hall : ∀ p ∈ places inner (max e (j + 1)) (j + 1), Fits p) := (hinner hfits).2 hall
  refine ⟨and_congr_right fun hfits ↦ ?_, fun hfits ↦ ?_⟩
  · rw [(hinner hfits).1]
    refine and_congr_right fun hall ↦ ?_
    have hend := hrest hfits hall
    rw [hend.lt_iff]
    exact and_congr_right fun hk ↦ (ihr _ _ _ (hend.succ ((hend.lt_iff _).mpr hk))).1
  · obtain ⟨hj, hall, hk, hafter⟩ := hfits
    have hend := hrest hj hall
    have := (ihr _ _ _ (hend.succ ((hend.lt_iff _).mpr hk))).2 hafter
    convert this using 1
    omega

theorem sound (F : Forest Output) : Sound F := by
  induction F with
  | nil =>
    intro e len j h
    refine ⟨iff_of_true ?_ ?_, fun _ ↦ h⟩
    · exact fun w hw ↦ absurd hw List.not_mem_nil
    · exact fun p hp ↦ absurd hp List.not_mem_nil
  | node o inner rest ihi ihr =>
    rcases o with - | -
    · exact sound_item inner ihr
    · by_cases hempty : size inner = 0
      · exact sound_empty hempty ihi ihr
      · exact sound_group hempty ihi ihr

end Emit

/-! ## The function and its writes -/

section Emits

variable {S inner rest : Forest Output} {f g call : Buffer N T V → ℕ → Buffer N T V × ℕ}

/-- `f` writes the shape, whatever the buffer is. -/
def Emits (S : Forest Output) (f : Buffer N T V → ℕ → Buffer N T V × ℕ) : Prop := ∀ b j,
  (f b j).2 = j + size S ∧ (f b j).1.writes = b.writes ++ (emit S b.tvAllocLen j).1 ∧
    (f b j).1.tvAllocLen = (emit S b.tvAllocLen j).2

theorem size_append (F G : Forest Output) : size (F.append G) = size F + size G := by
  induction F with
  | nil => exact (Nat.zero_add _).symm
  | node o inner rest _ ih =>
    rcases o with - | -
    · rw [Forest.append, size, size, ih, Nat.add_assoc]
    · rw [Forest.append, size, size, ih, Nat.add_assoc]

theorem emit_append (F G : Forest Output) (len : ℤ) (j : ℕ) : emit (F.append G) len j =
    ((emit F len j).1 ++ (emit G (emit F len j).2 (j + size F)).1,
      (emit G (emit F len j).2 (j + size F)).2) := by
  induction F generalizing len j with
  | nil => rfl
  | node o inner rest _ ih =>
    rcases o with - | -
    · simp only [Forest.append, emit, size, ih, List.cons_append, Nat.add_assoc]
    · simp only [Forest.append, emit, size, ih]
      by_cases hempty : size inner = 0
      · simp only [if_pos hempty, List.cons_append, List.append_assoc, Nat.zero_add]
      · have hpos : j + 1 + size inner + 1 + size rest = j + (size inner + 2 + size rest) := by
          omega
        simp only [if_neg hempty, List.cons_append, List.append_assoc, hpos]

theorem Emits.append (hf : Emits S f) (hg : Emits rest g) :
    Emits (S.append rest) fun b j ↦ g (f b j).1 (f b j).2 := by
  intro b j
  obtain ⟨hj, hwrites, hlen⟩ := hf b j
  obtain ⟨hj', hwrites', hlen'⟩ := hg (f b j).1 (f b j).2
  rw [emit_append, hj', hwrites', hlen', hj, hwrites, hlen, size_append]
  exact ⟨Nat.add_assoc _ _ _, List.append_assoc _ _ _, rfl⟩

theorem emits_nil : Emits .nil (fun (b : Buffer N T V) j ↦ (b, j)) :=
  fun b _ ↦ ⟨rfl, (List.append_nil b.writes).symm, rfl⟩

theorem emits_set (tv : TagValue N T V) :
    Emits (.node .item .nil .nil) fun b j ↦ (b.set j tv, j + 1) :=
  fun _ _ ↦ ⟨rfl, rfl, rfl⟩

theorem emits_element (csNode : CsNode N T) (hcall : Emits inner call) :
    Emits (.node .group inner .nil) (element csNode fun b j ↦ call (b.reserve j) j) := by
  intro b j
  obtain ⟨hj, hwrites, hlen⟩ :=
    hcall ((b.set j ⟨csNode.tag, some csNode.ns, .xmlBegin⟩).reserve (j + 1)) (j + 1)
  rw [element]
  generalize call ((b.set j ⟨csNode.tag, some csNode.ns, .xmlBegin⟩).reserve (j + 1)) (j + 1) = r
    at hj hwrites hlen
  rcases r with ⟨b', j'⟩
  dsimp only at hj hwrites hlen ⊢
  have hbegin : b'.writes = b.writes ++ (j, b.tvAllocLen) ::
      (emit inner (check b.tvAllocLen (j + 1)) (j + 1)).1 :=
    hwrites.trans (List.append_assoc _ _ _)
  rw [emit, size]
  dsimp only
  by_cases hempty : size inner = 0
  · obtain rfl : j' = j + 1 := by omega
    rw [if_pos rfl, if_pos hempty, if_pos hempty]
    refine ⟨rfl, ?_, hlen⟩
    rw [hbegin, emit, List.append_nil]
  · rw [if_neg (by omega), if_neg hempty, if_neg hempty]
    refine ⟨?_, ?_, hlen⟩
    · rw [hj, size]
      omega
    · rw [Buffer.set, hbegin, hlen, hj, List.append_assoc]
      rfl

/-- The entries of a list, one after the other. -/
theorem emits_foldl {ι : Type*} (F : ι → Forest Output)
    (entry : ι → Buffer N T V → ℕ → Buffer N T V × ℕ)
    (hentry : ∀ i, Emits (.node .group (F i) .nil) (entry i)) (hg : Emits rest g) (l : List ι) :
    Emits (l.foldr (fun i rest ↦ .node .group (F i) rest) rest) fun b j ↦
      let r := l.foldl (fun r i ↦ entry i r.1 r.2) (b, j)
      g r.1 r.2 := by
  induction l with
  | nil => exact hg
  | cons i l ih => exact (hentry i).append ih

theorem emits_traverseCsNodes (ms : Maapi N T V) (F : Forest (CsNode N T)) (path : Path N T V)
    (values : Option (ℕ → V)) (nval keyleafs : ℕ) :
    Emits (shape ms F path values.isSome keyleafs)
      (traverseCsNodes ms F path values nval keyleafs) := by
  induction F generalizing path values nval keyleafs with
  | nil => exact emits_nil
  | node csNode children next ihc ihn =>
    have hnext (k : ℕ) := ihn path values (nval + 1) k
    intro b j
    by_cases hlist : csNode.flags.isList = true
    · simp only [shape, traverseCsNodes, hlist, if_true]
      exact emits_foldl _ _ (fun i ↦ emits_element csNode (ihc _ (some _) 0 _)) (hnext _) _ b j
    by_cases hcontainer : csNode.flags.isContainer = true
    · simp only [shape, traverseCsNodes, hlist, hcontainer, if_true]
      exact (emits_element csNode (ihc _ (some _) 0 0)).append (hnext _) b j
    by_cases hleaf : csNode.isLeaf = true
    · simp only [shape, traverseCsNodes, hlist, hcontainer, hleaf, if_true]
      rcases values with - | values'
      · exact ⟨rfl, (List.append_nil b.writes).symm, rfl⟩
      · by_cases hkey : (!csNode.flags.isWrite || decide (0 < keyleafs)) = true
        · simp only [hkey, Option.isSome_some, if_true]
          exact (emits_set _).append (hnext _) b j
        · simp only [hkey, Option.isSome_some, if_true]
          exact hnext _ b j
    · simp only [shape, traverseCsNodes, hlist, hcontainer, hleaf]
      exact hnext _ b j

end Emits

/-! ## The run -/

section Run

variable (ms : Maapi N T V) (csNodes : Forest (CsNode N T)) (path : Path N T V)

theorem writes_run :
    (run ms csNodes path).1.writes = (emit (shape ms csNodes path false 0) tvBufLen 0).1 :=
  (emits_traverseCsNodes ms csNodes path none 0 0 _ 0).2.1

/-- **What has to fit is what is written.** -/
theorem inBounds_run_iff : InBounds (run ms csNodes path).1.writes ↔
    ∀ p ∈ places (shape ms csNodes path false 0) 0 0, Fits p := by
  have hstart : Tracks 0 tvBufLen 0 := by
    rw [Tracks, capacity_zero]
    exact .inl ⟨by decide, rfl, Nat.zero_le _⟩
  rw [writes_run]
  exact (sound _ 0 tvBufLen 0 hstart).1

end Run

/-! ## Too many leaves -/

def operFlags : Flags := ⟨false, false, false, false, false, false, false⟩

/-- Operational leaves next to each other. -/
def leaves : ℕ → Forest (CsNode ℕ ℕ)
  | 0 => .nil
  | n + 1 => .node ⟨n, 0, operFlags, 0⟩ .nil (leaves n)

/-- A container of leaves. -/
def containerOf (n : ℕ) : Forest (CsNode ℕ ℕ) :=
  .node ⟨n, 0, { operFlags with isContainer := true }, 0⟩ (leaves n) .nil

def zeros : Maapi ℕ ℕ ℕ := ⟨fun _ ↦ 0, fun _ _ _ ↦ 0, fun _ _ ↦ 0⟩

theorem mem_emit_leaves (path : Path ℕ ℕ ℕ) (len : ℤ) (n j k : ℕ) (hj : j ≤ k) (hk : k < j + n) :
    (k, len) ∈ (emit (shape zeros (leaves n) path true 0) len j).1 := by
  induction n generalizing j with
  | zero => omega
  | succ n ih =>
    change (k, len) ∈ (j, len) :: (emit (shape zeros (leaves n) path true 0) len (j + 1)).1
    rcases Nat.eq_or_lt_of_le hj with rfl | hlt
    · exact List.mem_cons_self
    · exact List.mem_cons_of_mem _ (ih (j + 1) hlt (by omega))

theorem size_leaves (path : Path ℕ ℕ ℕ) (n : ℕ) :
    size (shape zeros (leaves n) path true 0) = n := by
  induction n with
  | zero => rfl
  | succ n ih =>
    change 1 + size (shape zeros (leaves n) path true 0) = n + 1
    rw [ih, Nat.add_comm]

theorem mem_emit_containerOf (n k : ℕ) (hpos : 0 < k) (hk : k < 1 + n) :
    (k, (tvBufLen : ℤ)) ∈ (emit (shape zeros (containerOf n) [] false 0) tvBufLen 0).1 := by
  have hcheck : check tvBufLen 1 = tvBufLen := by decide
  have hshape : shape zeros (containerOf n) [] false 0 =
      .node .group (shape zeros (leaves n) [.node 0 n] true 0) .nil := rfl
  have hne : size (shape zeros (leaves n) [.node 0 n] true 0) ≠ 0 := by
    rw [size_leaves]
    omega
  rw [hshape, emit, Nat.zero_add, hcheck]
  dsimp only
  rw [if_neg hne]
  exact List.mem_cons_of_mem _ (List.mem_append_left _ (mem_emit_leaves _ _ n 1 k hpos hk))

/-- The buffer is looked at behind the begin of the container, and has room for 1023 leaves then. -/
theorem not_inBounds_run_containerOf : ¬InBounds (run zeros (containerOf 1024) []).1.writes := by
  intro h
  rw [writes_run] at h
  have hwrite := h _ (mem_emit_containerOf 1024 1024 (by decide) (by decide))
  exact absurd hwrite (lt_irrefl _)

end ConfdDemos.DpPerformance
