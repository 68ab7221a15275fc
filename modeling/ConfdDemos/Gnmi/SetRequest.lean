import Mathlib.Algebra.Order.BigOperators.Group.List
import Mathlib.Algebra.Order.Group.Nat
import ConfdDemos.Gnmi.Structured

/-!
# The Set RPC

`ConfDgNMIServicer.Set` checks the encoding of every update, then calls `set` and `delete` of the
adapter. On the API adapter these are two transactions, one after the other: when the second is
refused, the first stays applied.

## Encodings

The server looks at which field of the `oneof` is set; `set_update` at which of two fields is not
empty. They disagree on `json_val`, which the server lets through and `set_update` does not look at,
and on an empty `json_ietf_val`. Such an update is reported as done with nothing written.
-/

namespace ConfdDemos.Gnmi

/-! ## The server -/

/-- `Encoding`. -/
inductive Encoding
  | json
  | bytes
  | proto
  | ascii
  | jsonIetf
  deriving DecidableEq, Repr

/-- An encoding as Python prints it: its number, or `None`. -/
def encodingText : Option Encoding → String
  | some .json => "0"
  | some .bytes => "1"
  | some .proto => "2"
  | some .ascii => "3"
  | some .jsonIetf => "4"
  | none => "None"

def getValEncoding : TypedValue → Option Encoding
  | .jsonVal _ => some .json
  | .jsonIetfVal _ => some .jsonIetf
  | .asciiVal => some .ascii
  | .bytesVal => some .bytes
  | .stringVal _ => some .proto
  | .intVal => some .proto
  | .uintVal => some .proto
  | .boolVal => some .proto
  | .floatVal => some .proto
  | .leaflistVal => some .proto
  | .doubleVal => none
  | .decimalVal => none
  | .anyVal => none
  | .protoBytes => none
  | .unset => none

/-- `encodings` of the API adapter. -/
def encodings : List Encoding := [.json, .jsonIetf]

/-- `_ensure_encoding_supported`. -/
def ensureEncodingSupported (encoding : Option Encoding) : Except SetError Unit :=
  if encoding ∈ encodings.map some then .ok ()
  else .error (.unimplemented ("gNMI: unsupported encoding: " ++ encodingText encoding))

def verifyUpdatesEncodingSupported : List Update → Except SetError Unit
  | [] => .ok ()
  | up :: updates => do
    ensureEncodingSupported (getValEncoding up.val)
    verifyUpdatesEncodingSupported updates

structure SetRequest where
  pfx : Path
  update : List Update
  delete : List Path
  deriving DecidableEq, Repr

structure SetResponse where
  pfx : Path
  response : List (Path × UpdateOp)
  deriving DecidableEq, Repr

section Server

variable {N D : Type} (loads : List UInt8 → Option Json) (m : Maapi N D)

/-- `Set`, with the datastore it leaves behind. -/
def Maapi.setRequest (s : Datastore D) (req : SetRequest) :
    Except SetError SetResponse × Datastore D :=
  match verifyUpdatesEncodingSupported req.update with
  | .error e => (.error e, s)
  | .ok () =>
    match m.set loads s req.pfx req.update with
    | .error e => (.error e, s)
    | .ok (s₁, ops) =>
      match m.deleteAll s₁ req.pfx req.delete with
      -- the transaction of the updates has been applied
      | .error e => (.error e, s₁)
      | .ok (s₂, ops') => (.ok ⟨req.pfx, ops ++ ops'⟩, s₂)

end Server

/-! ## No update is dropped -/

/-- A value the server lets through to the API adapter. -/
def TypedValue.Supported (val : TypedValue) : Prop :=
  ensureEncodingSupported (getValEncoding val) = .ok ()

theorem TypedValue.supported_iff {val : TypedValue} :
    val.Supported ↔ (∃ bytes, val = .jsonVal bytes) ∨ ∃ bytes, val = .jsonIetfVal bytes := by
  cases val <;> simp [TypedValue.Supported, ensureEncodingSupported, getValEncoding, encodings]

/-- Whatever ConfD answers, `set_update` raises or writes the leaves of the value, and at least one,
at the path of the update. -/
def TypedValue.WritesOrRaises (loads : List UInt8 → Option Json) (val : TypedValue) : Prop :=
  ∀ (N D : Type) (m : Maapi N D) (d : D) (t t' : Trans) (pfx path : Path) (op : UpdateOp),
    m.setUpdate loads d t pfx path val = .ok (t', op) →
      ∃ jval edits, val.decoded loads = some jval ∧ t'.edits = t.edits ++ edits ∧ edits ≠ [] ∧
        edits.Perm (jval.leaves m (m.place pfx path) (m.node pfx path))

/-- A path longer than every member name, so that no name leads back to it. -/
def farPath (names : List (List Char)) : Path :=
  ⟨[⟨List.replicate (names.map List.length).sum 'x', []⟩]⟩

theorem openMaapi_avoids_farPath {names : List (List Char)} {name : List Char}
    (h : name ∈ names) :
    openMaapi.prefixes.fixPathPrefixes name ≠ (openMaapi.place ⟨[]⟩ (farPath names)).base := by
  have hfix (path : List Char) : openMaapi.prefixes.fixPathPrefixes path = path := by
    rw [Prefixes.fixPathPrefixes, Prefixes.fixFrom_of_none fun _ ↦ rfl]
    rfl
  intro heq
  rw [hfix, Maapi.place, Maapi.pathStr, hfix] at heq
  have hlen := congrArg List.length heq
  have hle : name.length ≤ (names.map List.length).sum :=
    List.le_sum_of_mem (List.mem_map_of_mem h)
  simp [makeFormattedPath, makeStringPath, makePath, elemText, farPath] at hlen
  omega

section Dropped

variable {N D : Type} {loads : List UInt8 → Option Json}

/-- A value of which nothing is written fails already at a ConfD that accepts everything. -/
theorem TypedValue.WritesOrRaises.setValue_ne {val : TypedValue} (h : val.WritesOrRaises loads) :
    openMaapi.setValue loads () .init (openMaapi.pathStr ⟨[]⟩ pathX) val ≠ .ok .init := by
  intro hval
  obtain ⟨jval, edits, -, hedits, hne, -⟩ := h Unit Unit openMaapi () .init .init ⟨[]⟩ pathX .update
    (bind_eq_ok.mpr ⟨.init, hval, rfl⟩)
  exact hne hedits.symm

/-- A value that is written at a ConfD that accepts everything has its leaves before its objects. -/
theorem TypedValue.WritesOrRaises.inPlace {bytes : List UInt8} {jval : Json}
    (h : (TypedValue.jsonIetfVal bytes).WritesOrRaises loads) (hne : bytes ≠ [])
    (hloads : loads bytes = some jval) :
    jval.hasLeaf = true ∧ jval.ordered = true ∧ jval.relative = true := by
  have hknown : jval.Known openMaapi
      (openMaapi.csNodeCd none (openMaapi.pathStr ⟨[]⟩ (farPath jval.names))) :=
    jval.known_openMaapi
  obtain ⟨t', ht'⟩ := openMaapi_acceptsAll.updatePaths (t := .init) hknown
  have hrun : openMaapi.setUpdate loads () .init ⟨[]⟩ (farPath jval.names) (.jsonIetfVal bytes)
      = .ok (t', .update) := by
    refine bind_eq_ok.mpr ⟨t', ?_, rfl⟩
    simpa [Maapi.setValue, hne, hloads] using ht'
  obtain ⟨jval', edits, hdec, hedits, hedits_ne, hperm⟩ :=
    h Unit Unit openMaapi () .init t' ⟨[]⟩ _ _ hrun
  obtain rfl : jval = jval' := Option.some_inj.mp (hloads.symm.trans hdec)
  have hwritten := (Maapi.setUpdate_eq_ok ⟨farPath jval.names, .jsonIetfVal bytes⟩ hrun).1
  obtain rfl := List.append_cancel_left (hedits.symm.trans hwritten)
  simp only [Maapi.written, if_neg hne, hloads, Option.map_some, Option.getD_some]
    at hedits_ne hperm
  have heq := Json.placed_eq_leaves_of_perm (fun name hname ↦ openMaapi_avoids_farPath hname) hperm
  obtain ⟨hord, hrel⟩ :=
    Json.ordered_of_placed_eq heq fun name hname ↦ openMaapi_avoids_farPath hname
  exact ⟨Json.hasLeaf_iff.mpr (heq ▸ hedits_ne), hord, hrel⟩

/-- **Dropped updates.** A value the server lets through is written by `set_update` unless it
raises, whatever ConfD answers, if and only if it is a non-empty `json_ietf_val` that does not
decode, or decodes to a value with a leaf, with no leaf after an object member and no absolute path
as a member name on the way to a leaf. -/
theorem writesOrRaises_iff (loads : List UInt8 → Option Json) (val : TypedValue)
    (hsupp : val.Supported) :
    val.WritesOrRaises loads ↔ ∃ bytes, val = .jsonIetfVal bytes ∧ bytes ≠ [] ∧
      ∀ jval, loads bytes = some jval →
        jval.hasLeaf = true ∧ jval.ordered = true ∧ jval.relative = true := by
  constructor
  · intro h
    rcases TypedValue.supported_iff.mp hsupp with ⟨bytes, rfl⟩ | ⟨bytes, rfl⟩
    · exact absurd rfl h.setValue_ne
    · have hne : bytes ≠ [] := fun hnil ↦ h.setValue_ne (by simp [Maapi.setValue, hnil])
      exact ⟨bytes, rfl, hne, fun jval hloads ↦ h.inPlace hne hloads⟩
  · rintro ⟨bytes, rfl, hne, hvalue⟩ N D m d t t' pfx path op hrun
    have hwritten := (Maapi.setUpdate_eq_ok ⟨path, .jsonIetfVal bytes⟩ hrun).1
    cases hloads : loads bytes with
    | none =>
      obtain ⟨t₁, hval, -⟩ := bind_eq_ok.mp hrun
      exact absurd hval (by simp [Maapi.setValue, hne, hloads])
    | some jval =>
      obtain ⟨hleaf, hord, hrel⟩ := hvalue jval hloads
      simp only [Maapi.written, if_neg hne, hloads, Option.map_some, Option.getD_some,
        Json.placed_eq_leaves hord hrel] at hwritten
      exact ⟨jval, _, hloads, hwritten, Json.hasLeaf_iff.mp hleaf, List.Perm.refl _⟩

end Dropped

theorem writesOrRaises_leafFirst :
    (TypedValue.jsonIetfVal leafFirst).WritesOrRaises loadsBoth := by
  refine (writesOrRaises_iff loadsBoth (.jsonIetfVal leafFirst) rfl).mpr
    ⟨leafFirst, rfl, by decide, fun jval hloads ↦ ?_⟩
  obtain rfl : leafFirstValue = jval := Option.some_inj.mp hloads
  decide

/-- A `json_val` is let through and reported as done, and nothing is written. -/
theorem not_writesOrRaises_jsonVal :
    ¬ ∀ (loads : List UInt8 → Option Json) (val : TypedValue), val.Supported →
      val.WritesOrRaises loads := by
  intro h
  exact (h loadsBoth (.jsonVal leafFirst) rfl).setValue_ne rfl

/-! ## Atomicity -/

section Atomicity

variable {N D : Type} (loads : List UInt8 → Option Json) (m : Maapi N D)

/-- The deletes of a request. -/
def Maapi.deletes (req : SetRequest) : List Edit :=
  req.delete.map fun path ↦ .delete (m.place req.pfx path)

/-- `Set` leaves the datastore as it was when it raises, and has made every edit the request asks
for when it returns. -/
def Maapi.SetAtomic (s : Datastore D) (req : SetRequest) : Prop :=
  match m.setRequest loads s req with
  | (.error _, s') => s'.data = s.data
  | (.ok _, s') =>
    (∀ up ∈ req.update, (up.val.decoded loads).isSome = true) ∧
      s'.committed = s.committed ++ req.update.flatMap (m.intended loads req.pfx) ++ m.deletes req

/-- ConfD takes one edit after the other in a transaction that has made `done`. -/
def Maapi.acceptsFrom (d : D) (done : List Edit) : List Edit → Bool
  | [] => true
  | e :: edits => m.editOk d done e && acceptsFrom d (done ++ [e]) edits

/-- ConfD takes the edits, one after the other, in one transaction. -/
def Maapi.commits (d : D) (edits : List Edit) : Bool :=
  m.acceptsFrom d [] edits && m.applyOk d edits

/-- ConfD takes the members of an object, in a transaction that has made `done` and is at `pos`. -/
def Members.Accepted (d : D) (done : List Edit) (pos : Location) (node : Option N) :
    Members → Prop
  | .nil => True
  | .leaf name v rest =>
    let place := pos.resolve (m.prefixes.fixPathPrefixes name)
    let child := m.csNodeCd node (m.prefixes.fixPathPrefixes name)
    m.Takes child v ∧ m.editOk d done (.set place (m.value child v)) = true ∧
      rest.Accepted d (done ++ [.set place (m.value child v)]) pos node
  | .obj name members rest =>
    let place := pos.resolve (m.prefixes.fixPathPrefixes name)
    let child := m.csNodeCd node (m.prefixes.fixPathPrefixes name)
    m.pushdOk d done place = true ∧ members.Accepted d done place child ∧
      rest.Accepted d (done ++ members.placed m place child) (members.lastDir m.prefixes place)
        node

/-- ConfD takes a value at `place`. -/
def Json.Accepted (d : D) (done : List Edit) (place : Location) (node : Option N) : Json → Prop
  | .leaf v => m.Takes node v ∧ m.editOk d done (.set place (m.value node v)) = true
  | .obj members => m.pushdOk d done place = true ∧ members.Accepted m d done place node

/-- Every `json_ietf_val` that is not empty decodes to a value that ConfD takes, in a transaction
that has made `done`. -/
def Maapi.AcceptsUpdates (d : D) (pfx : Path) : List Edit → List Update → Prop
  | _, [] => True
  | done, up :: updates =>
    (∀ bytes, up.val = .jsonIetfVal bytes → bytes ≠ [] → ∃ jval, loads bytes = some jval ∧
        jval.Accepted m d done (m.place pfx up.path) (m.node pfx up.path)) ∧
      AcceptsUpdates d pfx (done ++ m.written loads pfx up) updates

/-- The updates of the request are refused: one has an unsupported encoding, or ConfD or
`json.loads` does not take them. -/
def Maapi.UpdatesRefused (d : D) (req : SetRequest) : Prop :=
  (∃ up ∈ req.update, ¬ up.val.Supported) ∨ ¬ m.AcceptsUpdates loads d req.pfx [] req.update ∨
    m.applyOk d (req.update.flatMap (m.written loads req.pfx)) = false

/-- What the updates of the request make of the data. -/
def Maapi.updated (d : D) (req : SetRequest) : D :=
  (req.update.flatMap (m.written loads req.pfx)).foldl m.perform d

/-- The update is written as it stands: its value decodes, and if it has leaves it is a
`json_ietf_val` that is not empty, with every leaf in its place (`Json.inPlace_iff`). -/
def Maapi.Honours (pfx : Path) (up : Update) : Prop :=
  ∃ jval, up.val.decoded loads = some jval ∧
    (jval.hasLeaf = false ∨ (∃ bytes, up.val = .jsonIetfVal bytes ∧ bytes ≠ []) ∧
      jval.InPlace m.prefixes (m.place pfx up.path))

variable {loads m}

theorem verifyUpdates_eq_ok_iff {updates : List Update} :
    verifyUpdatesEncodingSupported updates = .ok () ↔ ∀ up ∈ updates, up.val.Supported := by
  induction updates with
  | nil => simp [verifyUpdatesEncodingSupported]
  | cons up updates ih =>
    rw [verifyUpdatesEncodingSupported, bind_eq_ok, List.forall_mem_cons, ← ih]
    exact ⟨fun ⟨_, hup, hrest⟩ ↦ ⟨hup, hrest⟩, fun ⟨hup, hrest⟩ ↦ ⟨(), hup, hrest⟩⟩

theorem Maapi.apply_eq_ok {s s' : Datastore D} {t : Trans} :
    m.apply s t = .ok s' ↔ m.applyOk s.data t.edits = true ∧
      ⟨t.edits.foldl m.perform s.data, s.committed ++ t.edits⟩ = s' := by
  rw [Maapi.apply, ite_eq_ok]

theorem Maapi.set_eq_ok {s s' : Datastore D} {pfx : Path} {updates : List Update}
    {ops : List (Path × UpdateOp)} (h : m.set loads s pfx updates = .ok (s', ops)) :
    s'.data = (updates.flatMap (m.written loads pfx)).foldl m.perform s.data ∧
      s'.committed = s.committed ++ updates.flatMap (m.written loads pfx) := by
  rw [Maapi.set, bind_eq_ok] at h
  obtain ⟨⟨t, ops'⟩, hups, h⟩ := h
  rw [bind_eq_ok] at h
  obtain ⟨s₁, happly, hret⟩ := h
  cases hret
  obtain ⟨-, rfl⟩ := Maapi.apply_eq_ok.mp happly
  have hedits := (Maapi.setUpdates_eq_ok hups).1
  rw [Trans.init, List.nil_append] at hedits
  rw [hedits]
  exact ⟨rfl, rfl⟩

theorem Maapi.deletePaths_eq_ok {d : D} {pfx : Path} {t t' : Trans} {paths : List Path}
    {ops : List (Path × UpdateOp)} :
    m.deletePaths d pfx t paths = .ok (t', ops) ↔
      m.acceptsFrom d t.edits (paths.map fun path ↦ .delete (m.place pfx path)) = true ∧
        t' = ⟨t.dirs, t.edits ++ paths.map fun path ↦ .delete (m.place pfx path)⟩ ∧
        ops = paths.map fun path ↦ (path, .delete) := by
  induction paths generalizing t ops with
  | nil => simp [Maapi.deletePaths, Maapi.acceptsFrom, eq_comm]
  | cons path paths ih =>
    have hplace := Location.resolve_of_isAbsolute (m.isAbsolute_pathStr pfx path) t.position
    simp only [Maapi.deletePaths, Maapi.delete, hplace, bind_eq_ok, Maapi.edit_eq_ok]
    simp only [List.map_cons, Maapi.acceptsFrom, Bool.and_eq_true]
    constructor
    · rintro ⟨t₁, ⟨hok, rfl⟩, ⟨t₂, ops₂⟩, hrest, hret⟩
      cases hret
      obtain ⟨haccepts, rfl, rfl⟩ := ih.mp hrest
      exact ⟨⟨hok, haccepts⟩, by simp [Maapi.place], rfl⟩
    · rintro ⟨⟨hok, haccepts⟩, ht', rfl⟩
      refine ⟨_, ⟨hok, rfl⟩, (t', _), ih.mpr ⟨haccepts, ?_, rfl⟩, rfl⟩
      simp [ht', Maapi.place]

theorem Maapi.deleteAll_eq_ok {s s' : Datastore D} {req : SetRequest}
    {ops : List (Path × UpdateOp)} :
    m.deleteAll s req.pfx req.delete = .ok (s', ops) ↔
      m.commits s.data (m.deletes req) = true ∧
        s' = ⟨(m.deletes req).foldl m.perform s.data, s.committed ++ m.deletes req⟩ ∧
        ops = req.delete.map fun path ↦ (path, .delete) := by
  simp only [Maapi.deleteAll, bind_eq_ok, Maapi.commits, Bool.and_eq_true]
  constructor
  · rintro ⟨⟨t, ops'⟩, hdels, s₁, happly, hret⟩
    cases hret
    obtain ⟨haccepts, rfl, rfl⟩ := Maapi.deletePaths_eq_ok.mp hdels
    obtain ⟨hok, rfl⟩ := Maapi.apply_eq_ok.mp happly
    exact ⟨⟨haccepts, hok⟩, rfl, rfl⟩
  · rintro ⟨⟨haccepts, hok⟩, rfl, rfl⟩
    exact ⟨_, Maapi.deletePaths_eq_ok.mpr ⟨haccepts, rfl, rfl⟩, _,
      Maapi.apply_eq_ok.mpr ⟨hok, rfl⟩, rfl⟩

/-- An update whose value decodes has at most as many writes as its value has leaves. -/
theorem Maapi.length_written_le {pfx : Path} {up : Update}
    (h : (up.val.decoded loads).isSome = true) :
    (m.written loads pfx up).length ≤ (m.intended loads pfx up).length := by
  obtain ⟨path, val⟩ := up
  obtain ⟨jval, hdec⟩ := Option.isSome_iff_exists.mp h
  cases val with
  | stringVal text => exact absurd hdec (by simp [TypedValue.decoded])
  | jsonIetfVal bytes =>
    simp only [TypedValue.decoded] at hdec
    simp only [Maapi.written, Maapi.intended, TypedValue.decoded, hdec, Option.map_some,
      Option.getD_some]
    split_ifs
    · exact Nat.zero_le _
    · exact Nat.le_of_eq (jval.length_placed _ _ _)
  | _ => exact Nat.zero_le _

/-- Nothing is written for an update that is not a `json_ietf_val` or is empty. -/
theorem Maapi.written_eq_nil {pfx : Path} {up : Update} {jval : Json}
    (hdec : up.val.decoded loads = some jval)
    (hbytes : ¬ ∃ bytes, up.val = .jsonIetfVal bytes ∧ bytes ≠ []) :
    m.written loads pfx up = [] := by
  obtain ⟨path, val⟩ := up
  cases val with
  | stringVal text => exact absurd hdec (by simp [TypedValue.decoded])
  | jsonIetfVal bytes =>
    have hnil : bytes = [] := by
      by_contra hne
      exact hbytes ⟨bytes, rfl, hne⟩
    exact if_pos hnil
  | _ => rfl

/-- An update is honoured exactly when its value decodes and the writes are its leaves. -/
theorem Maapi.honours_iff_written {pfx : Path} {up : Update} :
    m.Honours loads pfx up ↔
      (up.val.decoded loads).isSome = true ∧ m.written loads pfx up = m.intended loads pfx up := by
  rw [Maapi.Honours, Maapi.intended]
  rcases hdec : up.val.decoded loads with _ | jval
  · simp
  simp only [Option.some_inj, exists_eq_left', Option.isSome_some, true_and, Option.map_some,
    Option.getD_some]
  by_cases hbytes : ∃ bytes, up.val = .jsonIetfVal bytes ∧ bytes ≠ []
  · rw [and_iff_right hbytes]
    obtain ⟨bytes, hval, hne⟩ := hbytes
    have hloads : loads bytes = some jval := by rwa [hval] at hdec
    have hwritten : m.written loads pfx up =
        jval.placed m (m.place pfx up.path) (m.node pfx up.path) := by
      simp only [Maapi.written, hval, if_neg hne, hloads, Option.map_some, Option.getD_some]
    rw [hwritten, Json.placed_eq_leaves_iff]
    exact or_iff_right_of_imp Json.inPlace_of_not_hasLeaf
  · have hleaf : jval.hasLeaf = true ↔
        jval.leaves m (m.place pfx up.path) (m.node pfx up.path) ≠ [] := Json.hasLeaf_iff
    rw [Maapi.written_eq_nil hdec hbytes, iff_false_intro hbytes, false_and, or_false,
      ← Bool.not_eq_true, hleaf, not_not, eq_comm]

/-- All edits of the updates are right exactly when each update is honoured. -/
theorem Maapi.honours_iff {pfx : Path} {updates : List Update} :
    ((∀ up ∈ updates, (up.val.decoded loads).isSome = true) ∧
        updates.flatMap (m.written loads pfx) = updates.flatMap (m.intended loads pfx)) ↔
      ∀ up ∈ updates, m.Honours loads pfx up := by
  constructor
  · rintro ⟨hdec, heq⟩ up hup
    have hlen : ∀ up ∈ updates,
        (m.written loads pfx up).length ≤ (m.intended loads pfx up).length :=
      fun up hup ↦ m.length_written_le (hdec up hup)
    exact Maapi.honours_iff_written.mpr ⟨hdec up hup, eq_of_flatMap_eq hlen heq up hup⟩
  · intro h
    exact ⟨fun up hup ↦ (Maapi.honours_iff_written.mp (h up hup)).1,
      List.flatMap_congr fun up hup ↦ (Maapi.honours_iff_written.mp (h up hup)).2⟩

/-- ConfD takes every step of `update_paths` through an object. -/
theorem Maapi.exists_updateMembers_iff {d : D} {t : Trans} {node : Option N} {members : Members} :
    (∃ t', m.updateMembers d t node members = .ok t') ↔
      members.Accepted m d t.edits t.position node := by
  induction members generalizing t node with
  | nil => exact iff_of_true ⟨t, rfl⟩ trivial
  | leaf name v rest ih =>
    simp only [Maapi.updateMembers, bind_eq_ok, Maapi.setLeaf_eq_ok, Maapi.edit_eq_ok,
      Members.Accepted]
    constructor
    · rintro ⟨t', t₁, ⟨htakes, hok, rfl⟩, hrest⟩
      exact ⟨htakes, hok, ih.mp ⟨t', hrest⟩⟩
    · rintro ⟨htakes, hok, hrest⟩
      obtain ⟨t', hrest⟩ := (ih (t := ⟨t.dirs, _⟩)).mpr hrest
      exact ⟨t', _, ⟨htakes, hok, rfl⟩, hrest⟩
  | obj name members rest ihm ihr =>
    simp only [Maapi.updateMembers, bind_eq_ok, Maapi.pushd_eq_ok, Members.Accepted]
    have hiff := @ihm ⟨t.position.resolve (m.prefixes.fixPathPrefixes name) :: t.dirs, t.edits⟩
      (m.csNodeCd node (m.prefixes.fixPathPrefixes name))
    constructor
    · rintro ⟨t', t₁, ⟨hok, rfl⟩, t₂, hrun, hrest⟩
      obtain ⟨hedits, hpos⟩ := Maapi.updateMembers_eq_ok hrun
      have hrest := ihr.mp ⟨t', hrest⟩
      rw [hedits, hpos] at hrest
      exact ⟨hok, ihm.mp ⟨t₂, hrun⟩, hrest⟩
    · rintro ⟨hok, haccepted, hrest⟩
      obtain ⟨t₂, hrun⟩ := hiff.mpr haccepted
      obtain ⟨hedits, hpos⟩ := Maapi.updateMembers_eq_ok hrun
      obtain ⟨t', hrest⟩ := (ihr (t := t₂)).mpr (by rw [hedits, hpos]; exact hrest)
      exact ⟨t', _, ⟨hok, rfl⟩, t₂, hrun, hrest⟩

theorem Maapi.exists_updatePaths_iff {d : D} {t : Trans} {path : List Char} {jval : Json} :
    (∃ t', m.updatePaths d t path none jval = .ok t') ↔
      jval.Accepted m d t.edits (t.position.resolve path) (m.csNodeCd none path) := by
  cases jval with
  | leaf v =>
    simp only [Maapi.updatePaths, Maapi.setLeaf_eq_ok, Maapi.edit_eq_ok, Json.Accepted]
    constructor
    · rintro ⟨t', htakes, hok, -⟩
      exact ⟨htakes, hok⟩
    · rintro ⟨htakes, hok⟩
      exact ⟨_, htakes, hok, rfl⟩
  | obj members =>
    simp only [Maapi.updatePaths, bind_eq_ok, Maapi.pushd_eq_ok, Json.Accepted]
    constructor
    · rintro ⟨t', t₁, ⟨hok, rfl⟩, hrun⟩
      exact ⟨hok, Maapi.exists_updateMembers_iff.mp ⟨t', hrun⟩⟩
    · rintro ⟨hok, haccepted⟩
      obtain ⟨t', hrun⟩ := (Maapi.exists_updateMembers_iff
        (t := ⟨t.position.resolve path :: t.dirs, t.edits⟩)).mpr haccepted
      exact ⟨t', _, ⟨hok, rfl⟩, hrun⟩

/-- `set_update` on a value the server lets through. -/
theorem Maapi.exists_setUpdate_iff {d : D} {t : Trans} {pfx : Path} {up : Update}
    (hsupp : up.val.Supported) :
    (∃ t', m.setUpdate loads d t pfx up.path up.val = .ok (t', .update)) ↔
      ∀ bytes, up.val = .jsonIetfVal bytes → bytes ≠ [] → ∃ jval, loads bytes = some jval ∧
        jval.Accepted m d t.edits (m.place pfx up.path) (m.node pfx up.path) := by
  have hrun (t' : Trans) : m.setUpdate loads d t pfx up.path up.val = .ok (t', .update) ↔
      m.setValue loads d t (m.pathStr pfx up.path) up.val = .ok t' := by
    rw [Maapi.setUpdate, bind_eq_ok]
    constructor
    · rintro ⟨t₁, hval, hret⟩
      cases hret
      exact hval
    · exact fun hval ↦ ⟨t', hval, rfl⟩
  simp only [hrun]
  rcases TypedValue.supported_iff.mp hsupp with ⟨bytes, hval⟩ | ⟨bytes, hval⟩
  · rw [hval]
    refine iff_of_true ⟨t, rfl⟩ ?_
    rintro bytes' ⟨⟩
  · simp only [hval, Maapi.setValue, TypedValue.jsonIetfVal.injEq, forall_eq']
    by_cases hnil : bytes = []
    · rw [if_pos hnil]
      exact iff_of_true ⟨t, rfl⟩ fun hne ↦ absurd hnil hne
    · rw [if_neg hnil, forall_prop_of_true hnil]
      rcases loads bytes with _ | jval
      · simp
      · -- the path of an update is absolute, so the position does not matter
        simp only [Option.some_inj, exists_eq_left']
        rw [Maapi.exists_updatePaths_iff,
          Location.resolve_of_isAbsolute (m.isAbsolute_pathStr pfx up.path) t.position]
        rfl

theorem Maapi.exists_setUpdates_iff {d : D} {t : Trans} {pfx : Path} {updates : List Update}
    (hsupp : ∀ up ∈ updates, up.val.Supported) :
    (∃ t' ops, m.setUpdates loads d pfx t updates = .ok (t', ops)) ↔
      m.AcceptsUpdates loads d pfx t.edits updates := by
  induction updates generalizing t with
  | nil => exact iff_of_true ⟨t, [], rfl⟩ trivial
  | cons up updates ih =>
    rw [List.forall_mem_cons] at hsupp
    rw [Maapi.AcceptsUpdates, ← Maapi.exists_setUpdate_iff hsupp.1]
    simp only [Maapi.setUpdates, bind_eq_ok]
    constructor
    · rintro ⟨t', ops, ⟨t₁, op⟩, hup, ⟨t₂, ops₂⟩, hrest, -⟩
      obtain ⟨hedits, rfl⟩ := Maapi.setUpdate_eq_ok up hup
      have hrest := (ih hsupp.2).mp ⟨t₂, ops₂, hrest⟩
      rw [hedits] at hrest
      exact ⟨⟨t₁, hup⟩, hrest⟩
    · rintro ⟨⟨t₁, hup⟩, hrest⟩
      rw [← (Maapi.setUpdate_eq_ok up hup).1] at hrest
      obtain ⟨t₂, ops₂, hrest⟩ := (ih hsupp.2).mpr hrest
      exact ⟨t₂, _, (t₁, .update), hup, (t₂, ops₂), hrest, rfl⟩

/-- `set` returns exactly when ConfD takes the updates. -/
theorem Maapi.exists_set_iff {s : Datastore D} {pfx : Path} {updates : List Update}
    (hsupp : ∀ up ∈ updates, up.val.Supported) :
    (∃ r, m.set loads s pfx updates = .ok r) ↔
      m.AcceptsUpdates loads s.data pfx [] updates ∧
        m.applyOk s.data (updates.flatMap (m.written loads pfx)) = true := by
  have hups : (∃ t ops, m.setUpdates loads s.data pfx .init updates = .ok (t, ops)) ↔
      m.AcceptsUpdates loads s.data pfx [] updates := Maapi.exists_setUpdates_iff hsupp
  rw [← hups]
  simp only [Maapi.set, bind_eq_ok]
  constructor
  · rintro ⟨r, ⟨t, ops⟩, hrun, s₁, happly, -⟩
    have hedits := (Maapi.setUpdates_eq_ok hrun).1
    rw [Trans.init, List.nil_append] at hedits
    rw [← hedits]
    exact ⟨⟨t, ops, hrun⟩, (Maapi.apply_eq_ok.mp happly).1⟩
  · rintro ⟨⟨t, ops, hrun⟩, happly⟩
    have hedits := (Maapi.setUpdates_eq_ok hrun).1
    rw [Trans.init, List.nil_append] at hedits
    rw [← hedits] at happly
    exact ⟨_, (t, ops), hrun, _, Maapi.apply_eq_ok.mpr ⟨happly, rfl⟩, rfl⟩

theorem Maapi.updatesRefused_iff {s : Datastore D} {req : SetRequest} :
    m.UpdatesRefused loads s.data req ↔
      ¬(verifyUpdatesEncodingSupported req.update = .ok () ∧
        ∃ r, m.set loads s req.pfx req.update = .ok r) := by
  rw [Maapi.UpdatesRefused, verifyUpdates_eq_ok_iff]
  by_cases hsupp : ∀ up ∈ req.update, up.val.Supported
  · rw [Maapi.exists_set_iff hsupp, and_iff_right hsupp, not_and_or, Bool.not_eq_true]
    refine or_iff_right ?_
    rintro ⟨up, hup, hno⟩
    exact hno (hsupp up hup)
  · refine iff_of_true (.inl ?_) fun h ↦ hsupp h.1
    push Not at hsupp
    exact hsupp

theorem Maapi.setAtomic_of_updatesRefused {s : Datastore D} {req : SetRequest}
    (h : m.UpdatesRefused loads s.data req) : m.SetAtomic loads s req := by
  unfold Maapi.SetAtomic Maapi.setRequest
  rcases hverify : verifyUpdatesEncodingSupported req.update with e | u
  · rfl
  · rcases hset : m.set loads s req.pfx req.update with e | r
    · rfl
    · exact absurd ⟨hverify, r, hset⟩ (Maapi.updatesRefused_iff.mp h)

/-- **Atomicity.** `Set` is atomic on a request if and only if the updates are refused, or ConfD
takes the deletes after the updates and every update is honoured, or ConfD does not take the deletes
and the updates have left the data as it was. -/
theorem setAtomic_iff (loads : List UInt8 → Option Json) (m : Maapi N D) (s : Datastore D)
    (req : SetRequest) :
    m.SetAtomic loads s req ↔
      m.UpdatesRefused loads s.data req ∨
      (m.commits (m.updated loads s.data req) (m.deletes req) = true ∧
        ∀ up ∈ req.update, m.Honours loads req.pfx up) ∨
      (m.commits (m.updated loads s.data req) (m.deletes req) = false ∧
        m.updated loads s.data req = s.data) := by
  by_cases hrefused : m.UpdatesRefused loads s.data req
  · exact iff_of_true (Maapi.setAtomic_of_updatesRefused hrefused) (Or.inl hrefused)
  · obtain ⟨hverify, ⟨s₁, ops⟩, hset⟩ := not_not.mp (mt Maapi.updatesRefused_iff.mpr hrefused)
    obtain ⟨hdata, hcommitted⟩ := Maapi.set_eq_ok hset
    change s₁.data = m.updated loads s.data req at hdata
    rw [or_iff_right hrefused, ← hdata]
    cases hdel : m.deleteAll s₁ req.pfx req.delete with
    | error e =>
      -- the updates are applied and stay so
      have hno : m.commits s₁.data (m.deletes req) = false := by
        by_contra hyes
        rw [Bool.not_eq_false] at hyes
        rw [Maapi.deleteAll_eq_ok.mpr ⟨hyes, rfl, rfl⟩] at hdel
        cases hdel
      simp [Maapi.SetAtomic, Maapi.setRequest, hverify, hset, hdel, hno]
    | ok r =>
      obtain ⟨hyes, hs₂, -⟩ := Maapi.deleteAll_eq_ok.mp hdel
      rw [← Maapi.honours_iff]
      simp only [Maapi.SetAtomic, Maapi.setRequest, hverify, hset, hdel, hs₂, hyes, hcommitted,
        List.append_cancel_right_eq, List.append_cancel_left_eq, true_and, Bool.true_eq_false,
        false_and, or_false]

end Atomicity

/-- A ConfD that knows every name and whose data are leaves with values. Only a leaf that exists
can be deleted. -/
def leafMaapi : Maapi Unit (List (Location × Leaf)) where
  prefixes := noPrefixes
  csNodeCd _ _ := some ()
  identityref _ := false
  pushdOk _ _ _ := true
  editOk d _ e :=
    match e with
    | .set _ _ => true
    | .delete place => d.any fun q ↦ q.1 = place
  applyOk _ _ := true
  perform d e :=
    match e with
    | .set place v => d.filter (fun q ↦ q.1 ≠ place) ++ [(place, v)]
    | .delete place => d.filter fun q ↦ q.1 ≠ place

/-- `json.loads` on the text `7`. -/
def loadsSeven (bytes : List UInt8) : Option Json :=
  if bytes = [55] then some (.leaf (.num ['7'])) else none

/-- Sets `/x` to `7` and deletes `/y`. -/
def updateAndDelete : SetRequest where
  pfx := ⟨[]⟩
  update := [⟨pathX, .jsonIetfVal [55]⟩]
  delete := [⟨[⟨['y'], []⟩]⟩]

/-- The delete of a leaf that does not exist is refused after the update has been applied. -/
theorem not_setAtomic_updateAndDelete :
    ¬ ∀ (loads : List UInt8 → Option Json) (m : Maapi Unit (List (Location × Leaf)))
      (s : Datastore (List (Location × Leaf))) (req : SetRequest), m.SetAtomic loads s req := by
  intro h
  have hatomic := h loadsSeven leafMaapi ⟨[], []⟩ updateAndDelete
  have hrun : leafMaapi.setRequest loadsSeven ⟨[], []⟩ updateAndDelete =
      (.error .refused, ⟨[(⟨['/', 'x'], []⟩, .num ['7'])],
        [.set ⟨['/', 'x'], []⟩ (.num ['7'])]⟩) := rfl
  rw [Maapi.SetAtomic, hrun] at hatomic
  exact absurd hatomic (by simp)

end ConfdDemos.Gnmi
