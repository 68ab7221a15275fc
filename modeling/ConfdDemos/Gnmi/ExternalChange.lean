import Mathlib.Data.Int.Notation
import ConfdDemos.Foundation.Delimited
import ConfdDemos.Gnmi.ApiStream
import ConfdDemos.Gnmi.RoundTrip
import ConfdDemos.Gnmi.Structured

/-!
# Changes from outside of ConfD

A data provider reports changes on a socket of its own. A message consists of fields, three for each
change: the operation, the path and the value. `process_external_change` receives at most 1024
bytes, splits them at every newline and takes the pieces three at a time.

## Two framings

The provider in the repository joins the fields with newlines. The guide shows a newline behind
every field, the last one included. With that newline there is one piece more, an empty one, so the
number of pieces is not a multiple of three and the assertion on it fails: `splitOn_documented`.

What a change is converted to depends on ConfD, so the schema and the values are parameters, and the
statement is that the changes converted are the changes sent.
-/

namespace ConfdDemos.Gnmi

/-! ## Messages -/

structure ExtChange where
  op : List Char
  xpath : List Char
  value : List Char
  deriving DecidableEq, Repr

/-- The fields of a change in the order in which they are sent. -/
def ExtChange.fields (c : ExtChange) : List (List Char) := [c.op, c.xpath, c.value]

/-- The message of `generate_changes`: one newline behind each change, and the last letter removed
again. -/
def generatedMsg (changes : List ExtChange) : List Char :=
  let msgs := changes.map fun c ↦ c.op ++ '\n' :: c.xpath ++ '\n' :: c.value
  (msgs.flatMap (· ++ ['\n'])).dropLast

/-- The message of the guide: one newline behind each field. -/
def documentedMsg (changes : List ExtChange) : List Char :=
  (changes.flatMap ExtChange.fields).flatMap (· ++ ['\n'])

inductive Framing
  | generated
  | documented
  deriving DecidableEq, Repr

def Framing.msg : Framing → List ExtChange → List Char
  | generated => generatedMsg
  | documented => documentedMsg

/-- `msg.encode("utf-8")`. -/
def Framing.encode (framing : Framing) (changes : List ExtChange) : ByteArray :=
  (String.ofList (framing.msg changes)).toByteArray

/-! ## The receiver -/

/-- The types of values that `make_gnmi_json_value` tells apart. -/
inductive ConfdType
  | int
  | bool
  | identityref
  | other
  deriving DecidableEq, Repr

/-- What the conversion of a change asks ConfD for. `cs_node_cd`, `str2val` and the lookup of a
prefix have no result where the call raises, or returns nothing that can be used. -/
structure ExtApi (N V : Type) where
  prefixes : Prefixes
  pfxToModule : List Char → Option (List Char)
  csNodeCd : List Char → Option N
  /-- With the type of the node. -/
  str2val : List Char → N → Option V
  confdType : V → ConfdType
  int : V → List Char
  bool : V → Bool
  val2str : V → N → List Char
  dumps : Leaf → List UInt8

inductive ExtError
  /-- The bytes are not UTF-8. -/
  | decode
  /-- `assert len(data) % 3 == 0`. -/
  | assertion
  /-- A path or a value that ConfD does not know. -/
  | conversion
  deriving DecidableEq, Repr

/-- `EXT_SPOINT`. -/
def extSpoint : ℤ := -1

/-- An entry of a batch in `change_db`: operation, path and value. -/
abbrev Change := List Char × Path × TypedValue

/-- `zip` of one iterator with itself three times. -/
def zipThree {α : Type*} : List α → List (α × α × α)
  | a :: b :: c :: rest => (a, b, c) :: zipThree rest
  | _ => []

/-- `connection.recv(n)`, when everything sent has arrived. -/
def recv (n : ℕ) (sent : ByteArray) : ByteArray := sent.extract 0 n

namespace ExtApi

variable {N V : Type} (A : ExtApi N V)

/-- `make_gnmi_json_value`. -/
def makeGnmiJsonValue (value : V) (csnode : N) : Option TypedValue :=
  match A.confdType value with
  | .int => some (.jsonIetfVal (A.dumps (.num (A.int value))))
  | .bool => some (.jsonIetfVal (A.dumps (.bool (A.bool value))))
  | .identityref =>
    match (A.val2str value csnode).splitOn ':' with
    | [pfx, idref] =>
      (A.pfxToModule pfx).map fun name ↦
        .jsonIetfVal (A.dumps (.str (name ++ ':' :: idref)))
    | _ => none
  | .other => some (.jsonIetfVal (A.dumps (.str (A.val2str value csnode))))

/-- The body of the loop of `_external_changes`. -/
def convert (c : List Char × List Char × List Char) : Except ExtError Change :=
  let result := do
    let csnode ← A.csNodeCd (A.prefixes.fixPathPrefixes c.2.1)
    let path ← makeGnmiPath c.2.1
    let cval ← A.str2val c.2.2 csnode
    let jsonValue ← A.makeGnmiJsonValue cval csnode
    some (c.1, path, jsonValue)
  match result with
  | some change => .ok change
  | none => .error .conversion

/-- `_external_changes`, read to its end. -/
def externalChanges (data : List (List Char)) : Except ExtError (List Change) :=
  (zipThree data).mapM A.convert

/-- `_append_changes` with the post that follows it. -/
def report (chan : Channel (ℤ × List Change)) (changes : List Change) :
    Channel (ℤ × List Change) :=
  Channel.putEvent { chan with changeDb := chan.changeDb ++ [(extSpoint, changes)] } .sendChanges

/-- `process_external_change`, for a message of which `sent` are the bytes. -/
def processExternalChange (chan : Channel (ℤ × List Change)) (sent : ByteArray) :
    Except ExtError (Channel (ℤ × List Change)) :=
  match (recv 1024 sent).utf8Decode? with
  | none => .error .decode
  | some text =>
    let data := text.toList.splitOn '\n'
    if data.length % 3 = 0 then (A.externalChanges data).map (report chan)
    else .error .assertion

end ExtApi

/-! ## What the receiver makes of a framing -/

section Framings

variable {changes : List ExtChange}

/-- Fields with a newline behind each are fields with a newline in front of each but the first, and
an empty field at the end. -/
theorem flatMap_newline (first : List Char) (fields : List (List Char)) :
    (first :: fields).flatMap (· ++ ['\n']) = first ++ (fields ++ [[]]).flatMap ('\n' :: ·) := by
  induction fields generalizing first with
  | nil => simp
  | cons field fields ih => rw [List.flatMap_cons, ih field]; simp

theorem generatedMsg_eq (changes : List ExtChange) :
    generatedMsg changes = (documentedMsg changes).dropLast := by
  rw [generatedMsg, documentedMsg]
  congr 1
  induction changes with
  | nil => rfl
  | cons c changes ih =>
    rw [List.map_cons, List.flatMap_cons, ih, List.flatMap_cons, List.flatMap_append]
    simp [ExtChange.fields]

/-- No field contains a newline. -/
def OneLine (changes : List ExtChange) : Prop := ∀ c ∈ changes, ∀ f ∈ c.fields, '\n' ∉ f

theorem OneLine.notMem {f : List Char} (h : OneLine changes)
    (hf : f ∈ changes.flatMap ExtChange.fields) : '\n' ∉ f := by
  obtain ⟨c, hc, hfc⟩ := List.mem_flatMap.mp hf
  exact h c hc f hfc

theorem exists_first_field (hne : changes ≠ []) :
    ∃ first rest, changes.flatMap ExtChange.fields = first :: rest := by
  obtain ⟨c, changes, rfl⟩ := List.exists_cons_of_ne_nil hne
  exact ⟨c.op, _, rfl⟩

/-- The newline at the end makes an empty piece. -/
theorem splitOn_documented (hne : changes ≠ []) (hline : OneLine changes) :
    (documentedMsg changes).splitOn '\n' = changes.flatMap ExtChange.fields ++ [[]] := by
  obtain ⟨first, rest, hfields⟩ := exists_first_field hne
  have hmem : ∀ f ∈ first :: rest, '\n' ∉ f := fun f hf ↦ hline.notMem (hfields ▸ hf)
  rw [documentedMsg, hfields, flatMap_newline,
    splitOn_append_flatMap (hmem first List.mem_cons_self), List.cons_append]
  intro piece hpiece
  rcases List.mem_append.mp hpiece with hpiece | hpiece
  · exact hmem piece (List.mem_cons_of_mem _ hpiece)
  · rw [List.mem_singleton.mp hpiece]
    exact List.not_mem_nil

theorem splitOn_generated (hne : changes ≠ []) (hline : OneLine changes) :
    (generatedMsg changes).splitOn '\n' = changes.flatMap ExtChange.fields := by
  obtain ⟨first, rest, hfields⟩ := exists_first_field hne
  have hmem : ∀ f ∈ first :: rest, '\n' ∉ f := fun f hf ↦ hline.notMem (hfields ▸ hf)
  have hmsg : generatedMsg changes = first ++ rest.flatMap ('\n' :: ·) := by
    rw [generatedMsg_eq, documentedMsg, hfields, flatMap_newline, List.flatMap_append]
    simp [← List.append_assoc]
  rw [hmsg, hfields, splitOn_append_flatMap (hmem first List.mem_cons_self)]
  exact fun f hf ↦ hmem f (List.mem_cons_of_mem _ hf)

theorem zipThree_fields (changes : List ExtChange) :
    zipThree (changes.flatMap ExtChange.fields) = changes.map fun c ↦ (c.op, c.xpath, c.value) := by
  induction changes with
  | nil => rfl
  | cons c changes ih => simp [ExtChange.fields, zipThree, ih]

theorem length_fields (changes : List ExtChange) :
    (changes.flatMap ExtChange.fields).length = 3 * changes.length := by
  induction changes with
  | nil => rfl
  | cons c changes ih =>
    rw [List.flatMap_cons, List.length_append, ih, List.length_cons]
    simp only [ExtChange.fields, List.length_cons, List.length_nil]
    omega

/-- A message that fits is received as it was sent. -/
theorem recv_decode {framing : Framing} (hsize : (framing.encode changes).size ≤ 1024) :
    (recv 1024 (framing.encode changes)).utf8Decode? = some (framing.msg changes).toArray := by
  have hwhole : recv 1024 (framing.encode changes) = framing.encode changes := by
    rw [recv, ← Nat.max_eq_left hsize, ByteArray.extract_zero_max_size]
  rw [hwhole, Framing.encode, String.toByteArray_ofList, List.utf8Decode?_utf8Encode]

end Framings

section Receiver

variable {N V : Type} (A : ExtApi N V) {changes : List ExtChange} {framing : Framing}

namespace ExtApi

/-- The changes sent, each converted. -/
def converted (changes : List ExtChange) : Except ExtError (List Change) :=
  (changes.map fun c ↦ (c.op, c.xpath, c.value)).mapM A.convert

/-- What is sent arrives: the changes converted and reported are the changes sent, in one batch and
with one post, unless ConfD refuses one of them. -/
def Decodes (framing : Framing) (changes : List ExtChange) : Prop :=
  ∀ chan, A.processExternalChange chan (framing.encode changes)
    = (A.converted changes).map (report chan)

variable {A}

theorem processExternalChange_generated (chan : Channel (ℤ × List Change)) (hne : changes ≠ [])
    (hline : OneLine changes) (hsize : (Framing.generated.encode changes).size ≤ 1024) :
    A.processExternalChange chan (Framing.generated.encode changes)
      = (A.converted changes).map (report chan) := by
  have hlen : (changes.flatMap ExtChange.fields).length % 3 = 0 := by
    rw [length_fields, Nat.mul_mod_right]
  rw [processExternalChange, recv_decode hsize]
  simp only [Framing.msg, splitOn_generated hne hline]
  rw [if_pos hlen, externalChanges, zipThree_fields, converted]

theorem processExternalChange_documented (chan : Channel (ℤ × List Change)) (hne : changes ≠ [])
    (hline : OneLine changes) (hsize : (Framing.documented.encode changes).size ≤ 1024) :
    A.processExternalChange chan (Framing.documented.encode changes) = .error .assertion := by
  have hlen : ¬ (changes.flatMap ExtChange.fields ++ [[]]).length % 3 = 0 := by
    rw [List.length_append, length_fields, List.length_singleton]
    omega
  rw [processExternalChange, recv_decode hsize]
  simp only [Framing.msg, splitOn_documented hne hline]
  rw [if_neg hlen]

theorem convert_ne_assertion (c : List Char × List Char × List Char) :
    A.convert c ≠ .error .assertion := by
  rw [convert]
  split <;> simp

/-- A conversion that fails is not the assertion. -/
theorem mapM_convert_ne_assertion (l : List (List Char × List Char × List Char)) :
    l.mapM A.convert ≠ .error .assertion := by
  induction l with
  | nil => simp [pure, Except.pure]
  | cons c l ih =>
    rw [List.mapM_cons]
    intro h
    cases hc : A.convert c with
    | error e =>
      simp only [hc, bind, Except.bind, Except.error.injEq] at h
      exact convert_ne_assertion c (h ▸ hc)
    | ok change =>
      cases hl : l.mapM A.convert with
      | error e =>
        simp only [hc, hl, bind, Except.bind, Except.error.injEq] at h
        exact ih (h ▸ hl)
      | ok changes => simp [hc, hl, bind, Except.bind, pure, Except.pure] at h

theorem converted_ne_assertion (chan : Channel (ℤ × List Change)) :
    (A.converted changes).map (report chan) ≠ .error .assertion := by
  intro h
  cases hl : A.converted changes with
  | error e =>
    simp only [hl, Except.map, Except.error.injEq] at h
    exact mapM_convert_ne_assertion _ (h ▸ hl)
  | ok l => simp [hl, Except.map] at h

/-- **External changes.** What is sent arrives exactly when no newline follows the last field. -/
theorem decodes_iff (hne : changes ≠ []) (hline : OneLine changes)
    (hsize : (framing.encode changes).size ≤ 1024) :
    A.Decodes framing changes ↔ framing = .generated := by
  cases framing with
  | generated =>
    exact iff_of_true (fun chan ↦ processExternalChange_generated chan hne hline hsize) rfl
  | documented =>
    refine iff_of_false (fun h ↦ ?_) (by simp)
    have hassert := processExternalChange_documented (A := A) .init hne hline hsize
    exact converted_ne_assertion .init ((h .init).symm.trans hassert)

end ExtApi

end Receiver

/-- A report is what the change thread does for a batch, when nobody else holds the lock. -/
theorem runFrom_report (s : ApiStream (ℤ × List Change)) (changes : List Change)
    (hidle : s.producer = .idle) (hlock : s.chan.lock = none) :
    apiMachine.runFrom s [.pass (extSpoint, changes), .acquire, .append, .release, .post]
      = some { s with
          chan := ExtApi.report s.chan changes, passed := s.passed ++ [(extSpoint, changes)] } := by
  obtain ⟨⟨changeDb, lock, readQueue, reader, turned⟩, producer, passed⟩ := s
  obtain rfl : lock = none := hlock
  obtain rfl : producer = .idle := hidle
  rfl

/-- A ConfD with the leaves of `route-status`, which are integers. -/
def routeApi : ExtApi Unit (List Char) where
  prefixes := noPrefixes
  pfxToModule := fun _ ↦ none
  csNodeCd := fun path ↦ if "/route-status".toList.isPrefixOf path then some () else none
  str2val := fun value _ ↦ if value ≠ [] ∧ value.all Char.isDigit then some value else none
  confdType := fun _ ↦ .int
  int := id
  bool := fun _ ↦ false
  val2str := fun v _ ↦ v
  dumps := fun
    | .num text => text.map fun c ↦ c.toNat.toUInt8
    | _ => []

/-- The two changes of the example in the guide. -/
def guideChanges : List ExtChange :=
  [⟨"mod".toList, "/route-status[route=61rt2]/leaf1".toList, "9".toList⟩,
    ⟨"mod".toList, "/route-status[route=45rt1]/leaf1".toList, "6".toList⟩]

theorem oneLine_guideChanges : OneLine guideChanges := by
  simp [OneLine, guideChanges, ExtChange.fields]

theorem size_guideChanges (framing : Framing) :
    (framing.encode guideChanges).size ≤ 1024 := by
  cases framing <;> decide +kernel

/-- The provider of the repository is understood. -/
theorem decodes_guideChanges :
    routeApi.Decodes .generated guideChanges ∧
      routeApi.converted guideChanges = .ok
        [("mod".toList, ⟨[⟨"route-status".toList, [("route".toList, "61rt2".toList)]⟩,
            ⟨"leaf1".toList, []⟩]⟩, .jsonIetfVal [57]),
          ("mod".toList, ⟨[⟨"route-status".toList, [("route".toList, "45rt1".toList)]⟩,
            ⟨"leaf1".toList, []⟩]⟩, .jsonIetfVal [54])] := by
  refine ⟨(ExtApi.decodes_iff (by decide) oneLine_guideChanges (size_guideChanges _)).mpr rfl, ?_⟩
  rfl

/-- The message that the guide prints is not. -/
theorem not_decodes_documented :
    guideChanges ≠ [] ∧ OneLine guideChanges ∧
      (Framing.documented.encode guideChanges).size ≤ 1024 ∧
      routeApi.processExternalChange .init (Framing.documented.encode guideChanges)
        = .error .assertion ∧
      ¬ routeApi.Decodes .documented guideChanges := by
  have hassert := ExtApi.processExternalChange_documented (A := routeApi) .init
    (by decide) oneLine_guideChanges (size_guideChanges .documented)
  refine ⟨by decide, oneLine_guideChanges, size_guideChanges _, hassert, fun h ↦ ?_⟩
  exact ExtApi.converted_ne_assertion .init ((h .init).symm.trans hassert)

end ConfdDemos.Gnmi
