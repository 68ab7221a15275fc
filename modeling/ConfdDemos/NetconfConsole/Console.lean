import ConfdDemos.NetconfConsole.Replies
import ConfdDemos.SyncNc.TwoPhase

/-!
# A command session and what the synchronizer sees of it

`cdbl-sync-nc.py` runs `netconf-console -` and gives it a whole session of requests on its standard
input. The console then speaks NETCONF 1.0, parses the hello and skips it and, in the default style,
pretty-prints one reply through `xmllint` and skips the rest. `send_netconf_operation` looks for
`<rpc-error>` in what has been printed and for anything on the standard error, where a traceback
stands when the hello could not be parsed.

The first request of an edit is `discard-changes`, so the handler of `SUB_PREPARE` decides on the
replies to that one, and those to `edit-config` and `validate` are not looked at
(`vote_iff_first_replies`).
-/

namespace ConfdDemos.NetconfConsole

open SyncNc (Reply)

/-! ## The session -/

section Session

-- `xmllint` is what `xmllint --format -` prints, if it does not end with an error, and `helloError`
-- the exception that `parseString` or the walk over the capabilities behind it raises for a hello.
variable (xmllint helloError : List Char → Option (List Char))

def noData : List Char := "No data received in the reply.\n".toList

def xmllintFailed : List Char := "xmllint failed. Is the returned XML ok?\n".toList

def traceback (exception : List Char) : List Char :=
  "Traceback (most recent call last):\n".toList ++ exception

theorem traceback_ne_nil (exception : List Char) : traceback exception ≠ [] :=
  List.append_ne_nil_of_left_ne_nil (by decide) _

theorem noData_ne_nil : noData ≠ [] := by decide +kernel

theorem xmllintFailed_ne_nil : xmllintFailed ≠ [] := by decide +kernel

/-- The loop over the replies, with a bound on its rounds. There is no result where a reply is not
UTF-8. -/
def sessionLoop : ℕ → Bool → Bool → List Char → Transport → Source → Option Reply
  | 0, _, _, _, _, _ => none
  | fuel + 1, doPrint, hasReceivedData, output, t, src =>
    match reply t src with
    | none => none
    | some (.decodeError, _, _) => none
    | some (.stderrError message, _, _) => some ⟨output, message ++ ['\n']⟩
    | some (.message printed, t, src) =>
      if doPrint then
        match xmllint printed with
        | some pretty => sessionLoop fuel false true (output ++ pretty) t src
        | none => some ⟨output, xmllintFailed⟩
      else sessionLoop fuel false true output t src
    | some (.closed printed, _, _) =>
      if doPrint then
        some ⟨output ++ (xmllint printed).getD [], if hasReceivedData then [] else noData⟩
      else some ⟨output, []⟩

/-- `main` for a command file, once it is connected: the hello, which it parses, and the replies. -/
def runSession (src : Source) : Option Reply :=
  match recvMsg (.fresh .endMarker) src with
  | some (some hello, t, src) =>
    match helloError hello with
    | some exception => some ⟨[], traceback exception⟩
    | none => sessionLoop xmllint (rounds t src) true false [] t src
  | _ => none

/-- What is left of the replies of a session. -/
def printedReply : List (List Char) → Reply
  | [] => ⟨(xmllint []).getD [], noData⟩
  | r :: _ =>
    match xmllint r with
    | some pretty => ⟨pretty, []⟩
    | none => ⟨[], xmllintFailed⟩

/-- What is left of a session. -/
def sessionReply (hello : List Char) (replies : List (List Char)) : Reply :=
  match helloError hello with
  | some exception => ⟨[], traceback exception⟩
  | none => printedReply xmllint replies

end Session

variable {xmllint helloError : List Char → Option (List Char)} {t : Transport} {src : Source}
  {m output : List Char} {rest : List Byte} {rs : List (List Char)} {fuel : ℕ}

theorem reply_of_unmarked (hframing : t.framing = .endMarker) (heom : t.eomFound = false)
    (htimely : ∀ a ∈ src, a.Timely) (hstream : t.bufBytes ++ arrived src = markedMsg m ++ rest)
    (hascii : Ascii m) (hunmarked : Unmarked m) :
    ∃ buf src', reply t src = some (.message m, { t with bufBytes := buf }, src') ∧
      buf ++ arrived src' = rest ∧ src' <:+ src := by
  obtain ⟨ts, buf, src', hreads, rfl, hts, hrest⟩ :=
    reads_of_unmarked hframing heom htimely hstream hascii hunmarked
  refine ⟨buf, src', replyLoop_of_reads hreads ?_, hrest⟩
  have hlen := congrArg List.length hstream
  have hm := length_binData_of_ascii hascii
  rw [List.length_append, List.length_append, length_markedMsg] at hlen
  rw [rounds]
  omega

theorem reply_of_nothing (hframing : t.framing = .endMarker) (heom : t.eomFound = false)
    (htimely : ∀ a ∈ src, a.Timely) (hstream : t.bufBytes ++ arrived src = []) :
    ∃ t' src', reply t src = some (.closed [], t', src') := by
  obtain ⟨hbuf, harr⟩ := List.append_eq_nil_iff.mp hstream
  obtain rfl := eq_nil_of_arrived htimely harr
  obtain ⟨buf, framing, eomFound⟩ := t
  obtain rfl : buf = [] := hbuf
  obtain rfl : framing = .endMarker := hframing
  obtain rfl : eomFound = false := heom
  exact ⟨_, _, rfl⟩

/-- Once a reply has been printed, the others are read and nothing is done with them. -/
theorem sessionLoop_of_printed (hframing : t.framing = .endMarker) (heom : t.eomFound = false)
    (htimely : ∀ a ∈ src, a.Timely) (hstream : t.bufBytes ++ arrived src = rs.flatMap markedMsg)
    (hrs : ∀ r ∈ rs, Ascii r ∧ Unmarked r) (hfuel : rs.length < fuel) :
    sessionLoop xmllint fuel false true output t src = some ⟨output, []⟩ := by
  induction rs generalizing fuel t src with
  | nil =>
    obtain ⟨fuel, rfl⟩ : ∃ f, fuel = f + 1 := ⟨fuel - 1, by omega⟩
    obtain ⟨t', src', hreply⟩ := reply_of_nothing hframing heom htimely hstream
    simp only [sessionLoop, hreply, Bool.false_eq_true, if_false]
  | cons r rs ih =>
    rw [List.length_cons] at hfuel
    obtain ⟨fuel, rfl⟩ : ∃ f, fuel = f + 1 := ⟨fuel - 1, by omega⟩
    obtain ⟨hascii, hunmarked⟩ := hrs r List.mem_cons_self
    obtain ⟨buf, src', hreply, harr, hsuffix⟩ :=
      reply_of_unmarked hframing heom htimely hstream hascii hunmarked
    simp only [sessionLoop, hreply, Bool.false_eq_true, if_false]
    exact ih hframing heom (fun a ha ↦ htimely a (hsuffix.subset ha)) harr
      (fun r hr ↦ hrs r (List.mem_cons_of_mem _ hr)) (by omega)

theorem length_le_length_flatMap_markedMsg (rs : List (List Char)) :
    rs.length ≤ (rs.flatMap markedMsg).length := by
  induction rs with
  | nil => exact Nat.le_refl _
  | cons r rs ih =>
    rw [List.flatMap_cons, List.length_append, length_markedMsg, List.length_cons]
    omega

/-- Of the replies that come in, only the first is printed. -/
theorem sessionLoop_eq (hframing : t.framing = .endMarker) (heom : t.eomFound = false)
    (htimely : ∀ a ∈ src, a.Timely) (hstream : t.bufBytes ++ arrived src = rs.flatMap markedMsg)
    (hrs : ∀ r ∈ rs, Ascii r ∧ Unmarked r) :
    sessionLoop xmllint (rounds t src) true false [] t src = some (printedReply xmllint rs) := by
  have hlen := length_le_length_flatMap_markedMsg rs
  rw [← hstream, List.length_append] at hlen
  rw [rounds, sessionLoop]
  rcases rs with _ | ⟨r, rs⟩
  · obtain ⟨t', src', hreply⟩ := reply_of_nothing hframing heom htimely hstream
    simp only [hreply, if_true, printedReply, Bool.false_eq_true, if_false, List.nil_append]
  · obtain ⟨hascii, hunmarked⟩ := hrs r List.mem_cons_self
    obtain ⟨buf, src', hreply, harr, hsuffix⟩ :=
      reply_of_unmarked hframing heom htimely hstream hascii hunmarked
    rcases hpretty : xmllint r with _ | pretty
    · simp only [hreply, if_true, printedReply, hpretty]
    · simp only [hreply, if_true, printedReply, hpretty, List.nil_append]
      refine sessionLoop_of_printed hframing heom (fun a ha ↦ htimely a (hsuffix.subset ha)) harr
        (fun r hr ↦ hrs r (List.mem_cons_of_mem _ hr)) ?_
      rw [List.length_cons] at hlen
      omega

/-- **A session is its hello and its first reply.** -/
theorem runSession_eq {hello : List Char} (hhello : Ascii hello ∧ Unmarked hello)
    (hrs : ∀ r ∈ rs, Ascii r ∧ Unmarked r)
    (hsrc : Delivers src ((hello :: rs).flatMap markedMsg)) :
    runSession xmllint helloError src = some (sessionReply xmllint helloError hello rs) := by
  have htimely : ∀ a ∈ src, a.Timely := fun a ha ↦ (hsrc.2 a ha).1
  have hstream : (Transport.fresh .endMarker).bufBytes ++ arrived src =
      markedMsg hello ++ rs.flatMap markedMsg := hsrc.1.trans List.flatMap_cons
  obtain ⟨buf, src₁, hrecv, harr₁, hsuffix₁⟩ :=
    recvMsg_of_unmarked rfl rfl htimely hstream hhello.1 hhello.2
  rcases herror : helloError hello with _ | exception
  · simp only [runSession, hrecv, sessionReply, herror]
    exact sessionLoop_eq rfl rfl (fun a ha ↦ htimely a (hsuffix₁.subset ha)) harr₁ hrs
  · simp only [runSession, hrecv, sessionReply, herror]

/-! ## The vote -/

section Vote

variable {τ : Type*} {servers : List ℤ} {reply : ℕ → SyncNc.Request τ → Reply} {mods : ℤ → List τ}
  {sids : List ℤ} {op : SyncNc.Request τ} {sid : ℤ}

theorem put_send_eq_none_iff : (SyncNc.sendNetconfOperation servers reply op sid).put = none ↔
    ∀ q, (SyncNc.sendNetconfOperation servers reply op sid).sent = some q →
      (reply q.1 q.2).failed = false := by
  rw [SyncNc.put_sendNetconfOperation, SyncNc.sent_sendNetconfOperation]
  constructor
  · intro h q hq
    obtain ⟨i, hi, rfl⟩ := Option.map_eq_some_iff.mp hq
    exact h i hi
  · intro h i hi
    exact h (i, op) (by rw [hi, Option.map_some])

theorem put_processModifications_eq_none_iff {modifications : List τ} :
    (SyncNc.processModifications servers reply modifications sid).put = none ↔
      ∀ q, (SyncNc.processModifications servers reply modifications sid).sent = some q →
        (reply q.1 q.2).failed = false := by
  rw [SyncNc.processModifications]
  split_ifs
  · exact ⟨fun _ q hq ↦ hq.elim, fun _ ↦ rfl⟩
  · exact put_send_eq_none_iff

/-- The queue stays empty when no child reports a failure. -/
theorem filterMap_put_eq_nil_iff {children : List (SyncNc.Child τ)}
    (h : ∀ c ∈ children, c.put = none ↔ ∀ q, c.sent = some q → (reply q.1 q.2).failed = false) :
    children.filterMap (·.put) = [] ↔
      ∀ q ∈ children.filterMap (·.sent), (reply q.1 q.2).failed = false := by
  rw [List.filterMap_eq_nil_iff]
  constructor
  · intro hput q hq
    obtain ⟨c, hc, hsent⟩ := List.mem_filterMap.mp hq
    exact (h c hc).mp (hput c hc) q hsent
  · intro hsent c hc
    exact (h c hc).mpr fun q hq ↦ hsent q (List.mem_filterMap.mpr ⟨c, hc, hq⟩)

/-- The handler votes for the transaction when no request that it would make fails. -/
theorem vote_iff_not_failed :
    .syncSubscriptionSocket ∈ (SyncNc.handleSubPrepare servers reply mods sids).calls ↔
      ∀ q ∈ SyncNc.bothSent servers reply mods sids, (reply q.1 q.2).failed = false := by
  have hedits : (SyncNc.editChildren servers reply mods sids).filterMap (·.put) = [] ↔
      ∀ q ∈ (SyncNc.editChildren servers reply mods sids).filterMap (·.sent),
        (reply q.1 q.2).failed = false := by
    refine filterMap_put_eq_nil_iff fun c hc ↦ ?_
    obtain ⟨sid, -, rfl⟩ := List.mem_map.mp hc
    exact put_processModifications_eq_none_iff
  have hcommits : (sids.map (SyncNc.commit servers reply)).filterMap (·.put) = [] ↔
      ∀ q ∈ (sids.map (SyncNc.commit servers reply)).filterMap (·.sent),
        (reply q.1 q.2).failed = false := by
    refine filterMap_put_eq_nil_iff fun c hc ↦ ?_
    obtain ⟨sid, -, rfl⟩ := List.mem_map.mp hc
    exact put_send_eq_none_iff
  rw [SyncNc.bothSent, List.forall_mem_append, ← hedits, ← hcommits, SyncNc.handleSubPrepare]
  simp only
  split_ifs with hedit hcommit
  · exact ⟨fun h ↦ (List.not_mem_nil h).elim, fun h ↦ (hedit h.1).elim⟩
  · exact ⟨fun h ↦ (List.not_mem_nil h).elim, fun h ↦ (hcommit h.2).elim⟩
  · exact ⟨fun _ ↦ ⟨not_not.mp hedit, not_not.mp hcommit⟩, fun _ ↦ List.mem_singleton.mpr rfl⟩

/-- The first reply of a session has been printed, and is not an error. -/
def FirstPasses (xmllint : List Char → Option (List Char)) (session : List (List Char)) : Prop :=
  ∃ r rs pretty, session = r :: rs ∧ xmllint r = some pretty ∧
    ¬"<rpc-error>".toList <:+: pretty

theorem failed_eq_false_iff {r : Reply} :
    r.failed = false ↔ ¬"<rpc-error>".toList <:+: r.output ∧ r.errors = [] := by
  unfold Reply.failed
  rw [Bool.or_eq_false_iff, decide_eq_false_iff_not, decide_eq_false_iff_not, not_not]

theorem failed_printedReply_iff {session : List (List Char)} :
    (printedReply xmllint session).failed = false ↔ FirstPasses xmllint session := by
  rw [failed_eq_false_iff]
  rcases session with _ | ⟨r, rs⟩
  · refine ⟨fun h ↦ (noData_ne_nil h.2).elim, ?_⟩
    rintro ⟨r, rs, pretty, hsession, -⟩
    exact nomatch hsession
  · rcases hpretty : xmllint r with _ | pretty
    · simp only [printedReply, hpretty]
      refine ⟨fun h ↦ (xmllintFailed_ne_nil h.2).elim, ?_⟩
      rintro ⟨r', rs', pretty, hsession, hsome, -⟩
      obtain ⟨rfl, rfl⟩ := List.cons.inj hsession
      exact nomatch hpretty.symm.trans hsome
    · simp only [printedReply, hpretty, and_true]
      constructor
      · intro h
        exact ⟨r, rs, pretty, rfl, hpretty, h⟩
      · rintro ⟨r', rs', pretty', hsession, hsome, h⟩
        obtain ⟨rfl, rfl⟩ := List.cons.inj hsession
        rwa [Option.some_inj.mp (hpretty.symm.trans hsome)]

theorem failed_sessionReply_iff {hello : List Char} {session : List (List Char)} :
    (sessionReply xmllint helloError hello session).failed = false ↔
      helloError hello = none ∧ FirstPasses xmllint session := by
  rw [sessionReply]
  rcases helloError hello with _ | exception
  · rw [eq_self, true_and]
    exact failed_printedReply_iff
  · rw [failed_eq_false_iff]
    exact ⟨fun h ↦ (traceback_ne_nil exception h.2).elim, fun h ↦ nomatch h.1⟩

/-- **The vote is on the first replies.** Each child runs a session with its server; the handler
votes for the transaction if and only if the hello of each can be parsed and its first reply passes,
whatever comes behind. -/
theorem vote_iff_first_replies {hello : ℕ → SyncNc.Request τ → List Char}
    {session : ℕ → SyncNc.Request τ → List (List Char)}
    (hplain : ∀ i op, ∀ r ∈ hello i op :: session i op, Ascii r ∧ Unmarked r)
    (hreply : ∀ i op, ∃ src, Delivers src ((hello i op :: session i op).flatMap markedMsg) ∧
      runSession xmllint helloError src = some (reply i op)) :
    .syncSubscriptionSocket ∈ (SyncNc.handleSubPrepare servers reply mods sids).calls ↔
      ∀ q ∈ SyncNc.bothSent servers reply mods sids,
        helloError (hello q.1 q.2) = none ∧ FirstPasses xmllint (session q.1 q.2) := by
  have heq (i : ℕ) (op : SyncNc.Request τ) :
      reply i op = sessionReply xmllint helloError (hello i op) (session i op) := by
    obtain ⟨src, hsrc, hrun⟩ := hreply i op
    obtain ⟨hhello, hrs⟩ := List.forall_mem_cons.mp (hplain i op)
    exact Option.some_inj.mp (hrun.symm.trans (runSession_eq hhello hrs hsrc))
  rw [vote_iff_not_failed]
  refine forall₂_congr fun q _ ↦ ?_
  rw [heq, failed_sessionReply_iff]

def xmlHeader : List Char := "<?xml version=\"1.0\" encoding=\"UTF-8\"?>\n".toList

def serverHello : List Char :=
  xmlHeader ++ "<hello xmlns=\"urn:ietf:params:xml:ns:netconf:base:1.0\"><capabilities>".toList ++
    "<capability>urn:ietf:params:netconf:base:1.0</capability></capabilities>".toList ++
    "<session-id>4</session-id></hello>".toList

/-- A reply with what stands before and behind its content. -/
def rpcReply (content : List Char) : List Char :=
  xmlHeader ++ "<rpc-reply xmlns=\"urn:ietf:params:xml:ns:netconf:base:1.0\">".toList ++ content ++
    "</rpc-reply>".toList

def okReply : List Char := rpcReply "<ok/>".toList

def okPretty : List Char := rpcReply "\n  <ok/>\n".toList ++ ['\n']

def errorReply : List Char :=
  rpcReply "<rpc-error><error-tag>access-denied</error-tag></rpc-error>".toList

def errorPretty : List Char := rpcReply
  ("\n  <rpc-error>\n    <error-tag>access-denied</error-tag>\n  </rpc-error>\n".toList) ++ ['\n']

/-- `xmllint` on the texts of the session below; others are not XML. -/
def lint (text : List Char) : Option (List Char) :=
  if text = okReply then some okPretty else if text = errorReply then some errorPretty else none

/-- The parser on the hello of the session below. -/
def expatError (hello : List Char) : Option (List Char) :=
  if hello = serverHello then none else some "xml.parsers.expat.ExpatError: syntax error".toList

/-- The server has refused to edit, and the handler votes for the transaction. -/
theorem vote_with_error_behind : .syncSubscriptionSocket ∈
    (SyncNc.handleSubPrepare [1] (fun _ _ ↦ sessionReply lint expatError serverHello
      [okReply, errorReply, okReply, okReply]) (fun _ ↦ [5, 6]) [1]).calls := by
  have hplain : ∀ r ∈ [serverHello, okReply, errorReply, okReply, okReply],
      Ascii r ∧ Unmarked r := by decide +kernel
  refine (vote_iff_first_replies (fun _ _ ↦ hplain) fun _ _ ↦ ⟨_, delivers_singles _,
    runSession_eq (hplain _ List.mem_cons_self) (fun r hr ↦ hplain r (List.mem_cons_of_mem _ hr))
      (delivers_singles _)⟩).mpr fun q _ ↦ ?_
  refine ⟨if_pos rfl, okReply, _, okPretty, rfl, if_pos rfl, ?_⟩
  decide +kernel

end Vote

end ConfdDemos.NetconfConsole
