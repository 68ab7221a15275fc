import ConfdDemos.Aasync.Daemon
import ConfdDemos.Aasync.LocalMember
import ConfdDemos.Foundation.Descriptors
import ConfdDemos.Foundation.Machine

/-!
# The sockets of the members

Every member has a field for the socket of its MAAPI session. `maapi_socket` writes a new descriptor
into it, whether or not the connection then succeeds, and nothing clears it when the socket is
closed. The daemon closes "the sockets of all peers" in five places, and each of them is right only
if every peer has had one opened since the last time.

## The machine

The control flow is that of `Phase`; here the calls also act on a descriptor table that the
standard streams, the subscription socket, the control socket and the worker socket share with the
members. Between two handlers the callbacks may change `aasync_usr` and `t_lock` may open a new
socket for the local member.

## The discipline

`Disciplined` is a condition on a step in the state before it: a failed `PREPARE` has opened a
socket for every peer before it gives up, and `ABORT` and a closing `COMMIT` follow a `PREPARE`
that has opened them. Together with a startup that has opened the socket of every member it makes
every close right (`closing_owned`).
-/

namespace ConfdDemos.Aasync

/-- What a descriptor was opened for. -/
inductive Owner
  | standard
  | subsockCfg
  | ctlsock
  | workersock
  | maapi (r : Ref)
  deriving DecidableEq, Repr

/-- A cell of the member list with its id. -/
abbrev Member := Ref × ℤ

/-- Where the daemon is: in the loop that closes the sockets used at startup, or in the poll
loop. -/
inductive Point
  | closing (r : Ref) (rest : List Ref)
  | serving (phase : Phase Member)
  deriving DecidableEq, Repr

structure Sockets where
  nodes : NodeList
  table : Descriptors Owner
  aasyncUsr : Bool
  nvals : ℕ
  point : Point
  deriving DecidableEq, Repr

/-- What the daemon meets. -/
inductive SocketEvent
  /-- The next `close` of the startup loop. -/
  | closeInit
  /-- A callback has set or cleared `aasync_usr`. -/
  | usr (b : Bool)
  /-- `t_lock` of a session of another daemon. -/
  | tLock
  /-- `CDB_SUB_PREPARE`, with the modifications. -/
  | prepare (tvals : List TagValue)
  /-- `CDB_SUB_COMMIT`. -/
  | commit
  /-- `CDB_SUB_ABORT`. -/
  | abort
  /-- The call that the handler is at returns. -/
  | call (ok : Bool)
  /-- The modifications of the node list, if they can be read. -/
  | settle (val : Option (List TagValue))
  deriving DecidableEq, Repr

/-- The cells a loop over the member list visits. -/
def NodeList.members (l : NodeList) : List Member := l.cells.map fun c ↦ (c.1, c.2.nodeid)

/-- `node->nodeid == local_nodeid`. -/
def Member.isLocal (localNodeid : ℤ) (p : Member) : Bool := p.2 == localNodeid

/-- The loop that closes the sockets used at startup, or the poll loop behind it. -/
def closeInitLoop : List Ref → Point
  | [] => .serving .committed
  | r :: rest => .closing r rest

/-- The handlers have returned to the poll loop. -/
def Phase.AtRest : Phase Member → Bool
  | .validated => true
  | .refused => true
  | .prepared => true
  | .cancelled => true
  | .committed => true
  | _ => false

namespace Sockets

/-- `maapi_socket`, up to the connection. -/
def maapiSocket (s : Sockets) (r : Ref) : Option Sockets := do
  let nodes ← s.nodes.update r fun n ↦ { n with maapiSocket := s.table.free }
  return { s with nodes := nodes, table := s.table.socket (.maapi r) }

/-- `close(node->maapi_socket)`. -/
def closeSocket (s : Sockets) (r : Ref) : Option Sockets := do
  let c ← s.nodes.cells.find? fun c ↦ c.1 == r
  return { s with table := s.table.close c.2.maapiSocket }

/-- What a call does to the descriptors. -/
def applyCall (s : Sockets) (c : Call) (p : Member) : Option Sockets :=
  match c with
  | .socket => s.maapiSocket p.1
  | .close => s.closeSocket p.1
  | _ => some s

/-- The step of the daemon. -/
def step (localNodeid : ℤ) (s : Sockets) (e : SocketEvent) : Option Sockets :=
  let isLocal := Member.isLocal localNodeid
  match s.point, e with
  | .closing r rest, .closeInit => do
    let s' ← s.closeSocket r
    return { s' with point := closeInitLoop rest }
  | .serving phase, .usr b => if phase.AtRest then some { s with aasyncUsr := b } else none
  | .serving phase, .tLock => if phase.AtRest then s.maapiSocket aasyncLocalNode else none
  | .serving phase, .prepare tvals =>
    if phase.AtRest then
      let (nvals, phase') := subPrepare isLocal s.nodes.members s.aasyncUsr tvals
      some { s with nvals := nvals, point := .serving phase' }
    else none
  | .serving phase, .commit =>
    if phase.AtRest then
      some { s with point := .serving (subCommit isLocal s.nodes.members s.aasyncUsr s.nvals) }
    else none
  | .serving phase, .abort =>
    if phase.AtRest then some { s with point := .serving (subAbort isLocal s.nodes.members) }
    else none
  | .serving phase, .call ok => do
    let (c, p) ← phase.call
    let s' ← s.applyCall c p
    return { s' with point := .serving (phase.next isLocal s.nodes.members ok) }
  | .serving .settling, .settle none => some { s with point := .serving .committed }
  | .serving .settling, .settle (some val) => do
    let nodes ← handleAaclusterModifications s.nodes val
    return { s with nodes := nodes, nvals := val.length, point := .serving .committed }
  | _, _ => none

/-- The daemon as a machine. -/
def daemon (localNodeid : ℤ) : Machine Sockets SocketEvent := ⟨step localNodeid⟩

/-- The cell whose socket the next step closes. -/
def closing (s : Sockets) : Option Ref :=
  match s.point with
  | .closing r _ => some r
  | .serving phase => match phase.call with
    | some (.close, p) => some p.1
    | _ => none

/-- The socket of a cell is open, and was opened for this cell. -/
def Owns (s : Sockets) (r : Ref) : Prop :=
  ∃ n, (r, n) ∈ s.nodes.cells ∧ s.table.owner n.maapiSocket = some (.maapi r)

instance (s : Sockets) (r : Ref) : Decidable (s.Owns r) :=
  decidable_of_iff (∃ c ∈ s.nodes.cells, c.1 = r ∧ s.table.owner c.2.maapiSocket = some (.maapi r))
    ⟨fun ⟨c, hc, hr, howner⟩ ↦ ⟨c.2, hr ▸ hc, howner⟩, fun ⟨_, hn, howner⟩ ↦ ⟨_, hn, rfl, howner⟩⟩

/-- The condition on a step, in the state before it. -/
def disciplined (localNodeid : ℤ) (s : Sockets) (e : SocketEvent) : Bool :=
  let isLocal := Member.isLocal localNodeid
  match s.point, e with
  -- `PREPARE` gives up in its first loop only at the last peer
  | .serving (.preparing .socket _ rest), .call false => (nextPeer isLocal rest).isNone
  | .serving (.preparing .session _ rest), .call false => (nextPeer isLocal rest).isNone
  | .serving (.preparing (.lock i) _ rest), .call false =>
    i != numLockRetries || (nextPeer isLocal rest).isNone
  -- the sockets that `COMMIT` and `ABORT` close have been opened by the `PREPARE` before it
  | .serving phase, .commit =>
    phase == .prepared || s.nvals == 0 || s.aasyncUsr || (nextPeer isLocal s.nodes.members).isNone
  | .serving phase, .abort =>
    phase == .prepared && s.nvals != 0 || (nextPeer isLocal s.nodes.members).isNone
  | _, _ => true

/-- Every step of the run is one of these. -/
def Disciplined (localNodeid : ℤ) (s : Sockets) (e : SocketEvent) : Prop :=
  disciplined localNodeid s e = true

instance (localNodeid : ℤ) (s : Sockets) (e : SocketEvent) :
    Decidable (Disciplined localNodeid s e) :=
  inferInstanceAs (Decidable (_ = true))

end Sockets

/-! ## Startup -/

/-- The members whose sockets startup opens, in this order. -/
def startupSockets (join : Bool) (localNodeid initNodeid : ℤ) (l : NodeList) : List Ref :=
  [aasyncLocalNode] ++
    (if localNodeid = initNodeid then
      (l.cells.filter fun c ↦ c.2.nodeid ≠ localNodeid).map Prod.fst
    else (l.find initNodeid).toList) ++
    (if join ∧ localNodeid ≠ initNodeid then
      (l.cells.filter fun c ↦ c.2.nodeid ≠ localNodeid ∧ c.2.nodeid ≠ initNodeid).map Prod.fst
    else [])

/-- Open the sockets of some members. -/
def Sockets.openAll (s : Sockets) (rs : List Ref) : Option Sockets :=
  rs.foldlM Sockets.maapiSocket s

/-- The daemon behind `start_phase2_aasync`. -/
def startDaemon (join : Bool) (localNodeid initNodeid : ℤ) (cdb remote : NodeConfig) :
    Option Sockets := do
  let s ← startup join localNodeid initNodeid cdb remote
  let standard : Descriptors Owner := ⟨[some .standard, some .standard, some .standard]⟩
  let d ← Sockets.openAll ⟨s.nodes, standard, false, 0, .serving .committed⟩
    (startupSockets join localNodeid initNodeid s.nodes)
  let table := ((d.table.socket .subsockCfg).socket .ctlsock).socket .workersock
  return { d with table := table, point := closeInitLoop d.nodes.refs }

/-! ## Opening and closing -/

namespace Sockets

variable {s s' : Sockets} {r q : Ref} {localNodeid : ℤ}

/-- The cell of an address is determined. -/
theorem eq_of_ref (hl : s.nodes.Sound) {n n' : Aanode} (h : (r, n) ∈ s.nodes.cells)
    (h' : (r, n') ∈ s.nodes.cells) : n = n' := by
  have := List.inj_on_of_nodup_map hl.nodup h h' rfl
  exact (Prod.mk.injEq _ _ _ _ ▸ this).2

theorem map_fst_members (l : NodeList) : l.members.map Prod.fst = l.refs := by
  rw [NodeList.members, List.map_map]
  rfl

/-- Opening a socket for a cell gives it one and takes none from the others. -/
theorem maapiSocket_spec (hl : s.nodes.Sound) (h : s.maapiSocket r = some s') :
    s'.nodes.Sound ∧ s'.nodes.members = s.nodes.members ∧ s'.nvals = s.nvals ∧
      s'.point = s.point ∧ s'.Owns r ∧ ∀ q, s.Owns q → s'.Owns q := by
  rw [maapiSocket, Option.bind_eq_bind, Option.bind_eq_some_iff] at h
  obtain ⟨nodes, hupdate, heq⟩ := h
  obtain rfl := Option.some_inj.mp heq
  have hmem : r ∈ s.nodes.refs := by
    rw [NodeList.update] at hupdate
    exact (Option.ite_none_right_eq_some.mp hupdate).1
  obtain ⟨⟨r', n⟩, hc, rfl⟩ := List.mem_map.mp hmem
  obtain ⟨as, bs, hcells⟩ := List.append_of_mem hc
  rw [NodeList.update_eq hl hcells, Option.some_inj] at hupdate
  subst hupdate
  have hself : (s.table.socket (.maapi r')).owner s.table.free = some (.maapi r') := by
    rw [Descriptors.owner_socket, if_pos rfl]
  refine ⟨hl.set hcells _, ?_, rfl, rfl, ⟨_, List.mem_append_right _ List.mem_cons_self, hself⟩, ?_⟩
  · simp [NodeList.members, hcells]
  · rintro q ⟨m, hm, howner⟩
    by_cases hq : q = r'
    · rw [hq]
      exact ⟨_, List.mem_append_right _ List.mem_cons_self, hself⟩
    · refine ⟨m, ?_, ?_⟩
      · rw [hcells, List.mem_append, List.mem_cons] at hm
        rw [List.mem_append, List.mem_cons]
        exact hm.imp_right fun h ↦ h.imp_left fun h ↦ absurd (congrArg Prod.fst h) hq
      · -- an open descriptor is not the free one
        rw [Descriptors.owner_socket, if_neg, howner]
        rintro hfree
        rw [hfree, Descriptors.owner_free] at howner
        exact absurd howner (by simp)

/-- Closing the socket of a cell that owns it takes none from the others. -/
theorem closeSocket_spec (hl : s.nodes.Sound) (hown : s.Owns r) (h : s.closeSocket r = some s') :
    s'.nodes = s.nodes ∧ s'.nvals = s.nvals ∧ s'.point = s.point ∧
      ∀ q ≠ r, s.Owns q → s'.Owns q := by
  rw [closeSocket, Option.bind_eq_bind, Option.bind_eq_some_iff] at h
  obtain ⟨⟨r', n⟩, hfind, heq⟩ := h
  obtain rfl := Option.some_inj.mp heq
  obtain rfl : r' = r := by simpa using List.find?_some hfind
  obtain ⟨n', hn', howner⟩ := hown
  obtain rfl := eq_of_ref hl (List.mem_of_find?_eq_some hfind) hn'
  refine ⟨rfl, rfl, rfl, ?_⟩
  rintro q hq ⟨m, hm, hm'⟩
  refine ⟨m, hm, ?_⟩
  rw [Descriptors.owner_close_of_ne, hm']
  intro hfd
  rw [hfd, howner, Option.some_inj, Owner.maapi.injEq] at hm'
  exact hq hm'.symm

/-! ## The invariant -/

/-- Every peer of a list has its socket open. -/
def PeersOwn (localNodeid : ℤ) (s : Sockets) (l : List Member) : Prop :=
  ∀ p ∈ l, Member.isLocal localNodeid p = false → s.Owns p.1

/-- What is open at each program point of the handlers. In the first loop of `PREPARE` it is the
sockets of the peers that the loop has passed, in a closing loop those of the peers it has still to
visit. -/
def Ready (localNodeid : ℤ) (s : Sockets) : Phase Member → Prop
  | .preparing .socket p rest => p :: rest <:+ s.nodes.members ∧
    PeersOwn localNodeid s (s.nodes.members.filter fun q ↦ q ∉ p :: rest)
  | .preparing .session p rest => p :: rest <:+ s.nodes.members ∧
    PeersOwn localNodeid s (s.nodes.members.filter fun q ↦ q ∉ rest)
  | .preparing (.lock _) p rest => p :: rest <:+ s.nodes.members ∧
    PeersOwn localNodeid s (s.nodes.members.filter fun q ↦ q ∉ rest)
  | .preparing _ _ _ => PeersOwn localNodeid s s.nodes.members
  | .aborting p rest => Member.isLocal localNodeid p = false ∧ p :: rest <:+ s.nodes.members ∧
    PeersOwn localNodeid s (p :: rest)
  | .cancelling p rest => Member.isLocal localNodeid p = false ∧ p :: rest <:+ s.nodes.members ∧
    PeersOwn localNodeid s (p :: rest)
  | .committing .close p rest => Member.isLocal localNodeid p = false ∧
    p :: rest <:+ s.nodes.members ∧ PeersOwn localNodeid s (p :: rest)
  | .committing _ _ _ => PeersOwn localNodeid s s.nodes.members
  | .prepared => s.nvals ≠ 0 → PeersOwn localNodeid s s.nodes.members
  | _ => True

/-- The invariant of a run. -/
structure Inv (localNodeid : ℤ) (s : Sockets) : Prop where
  sound : s.nodes.Sound
  closing : ∀ r rest, s.point = .closing r rest → (r :: rest).Nodup ∧ ∀ q ∈ r :: rest, s.Owns q
  ready : ∀ phase, s.point = .serving phase → Ready localNodeid s phase

/-! ## The loops -/

section Loops

variable {l : List Member}

theorem peersOwn_of_nextPeer_none (h : nextPeer (Member.isLocal localNodeid) l = none) :
    PeersOwn localNodeid s l := by
  intro p hp hlocal
  have := isLocal_of_nextPeer_none h hp
  rw [hlocal] at this
  exact absurd this (by simp)

/-- A closing loop goes on with what is open for the rest of its list. -/
theorem closingLoop_rule {body : Member → List Member → Phase Member} {after : Phase Member}
    (hbody : ∀ p rest, Member.isLocal localNodeid p = false → p :: rest <:+ s.nodes.members →
      PeersOwn localNodeid s (p :: rest) → Ready localNodeid s (body p rest))
    (hafter : Ready localNodeid s after) (hl : l <:+ s.nodes.members)
    (hown : PeersOwn localNodeid s l) :
    Ready localNodeid s (loopFrom (Member.isLocal localNodeid) body after l) := by
  refine loopFrom_rule (fun p rest hnext ↦ ?_) fun _ ↦ hafter
  obtain ⟨hlocal, hsuf, -⟩ := nextPeer_some hnext
  exact hbody p rest hlocal (hsuf.trans hl) fun q hq ↦ hown q (hsuf.subset hq)

theorem ready_abortLoop (hl : l <:+ s.nodes.members) (hown : PeersOwn localNodeid s l) :
    Ready localNodeid s (abortLoop (Member.isLocal localNodeid) l) :=
  closingLoop_rule (fun _ _ h₁ h₂ h₃ ↦ ⟨h₁, h₂, h₃⟩) trivial hl hown

theorem ready_cancelLoop (hl : l <:+ s.nodes.members) (hown : PeersOwn localNodeid s l) :
    Ready localNodeid s (cancelLoop (Member.isLocal localNodeid) l) :=
  closingLoop_rule (fun _ _ h₁ h₂ h₃ ↦ ⟨h₁, h₂, h₃⟩) trivial hl hown

theorem ready_closeLoop (hl : l <:+ s.nodes.members) (hown : PeersOwn localNodeid s l) :
    Ready localNodeid s (closeLoop (Member.isLocal localNodeid) l) :=
  closingLoop_rule (fun _ _ h₁ h₂ h₃ ↦ ⟨h₁, h₂, h₃⟩) trivial hl hown

/-- The loops between the opening and the closing ones need every peer's socket. -/
theorem ready_prepareLoop (hown : PeersOwn localNodeid s s.nodes.members) :
    Ready localNodeid s (prepareLoop (Member.isLocal localNodeid) l) :=
  loopFrom_rule (fun _ _ _ ↦ hown) fun _ _ ↦ hown

theorem ready_writeLoop (hown : PeersOwn localNodeid s s.nodes.members) :
    Ready localNodeid s (writeLoop (Member.isLocal localNodeid) s.nodes.members l) :=
  loopFrom_rule (fun _ _ _ ↦ hown) fun _ ↦ ready_prepareLoop hown

theorem ready_commitLoop (hown : PeersOwn localNodeid s s.nodes.members) :
    Ready localNodeid s (commitLoop (Member.isLocal localNodeid) s.nodes.members l) :=
  loopFrom_rule (fun _ _ _ ↦ hown) fun _ ↦ ready_closeLoop (List.suffix_refl _) hown

/-- The peers outside the rest of the list are all peers when the rest has none. -/
theorem peersOwn_members (hnone : nextPeer (Member.isLocal localNodeid) l = none)
    (hown : PeersOwn localNodeid s (s.nodes.members.filter fun q ↦ q ∉ l)) :
    PeersOwn localNodeid s s.nodes.members := by
  intro p hp hlocal
  by_cases hpl : p ∈ l
  · exact peersOwn_of_nextPeer_none hnone p hpl hlocal
  · exact hown p (List.mem_filter.mpr ⟨hp, by simpa using hpl⟩) hlocal

theorem ready_lockLoop (hl : l <:+ s.nodes.members)
    (hown : PeersOwn localNodeid s (s.nodes.members.filter fun q ↦ q ∉ l)) :
    Ready localNodeid s (lockLoop (Member.isLocal localNodeid) s.nodes.members l) := by
  refine loopFrom_rule (fun p rest hnext ↦ ?_) fun hnone ↦
    ready_writeLoop (peersOwn_members hnone hown)
  obtain ⟨-, hsuf, hall⟩ := nextPeer_some hnext
  refine ⟨hsuf.trans hl, fun q hq hlocal ↦ ?_⟩
  rw [List.mem_filter, decide_eq_true_iff] at hq
  refine hown q (List.mem_filter.mpr ⟨hq.1, decide_eq_true fun hql ↦ hq.2 ?_⟩) hlocal
  exact List.mem_cons.mpr (hall q hql hlocal)

end Loops

/-! ## One step -/

theorem PeersOwn.mono {l : List Member} (h : PeersOwn localNodeid s l)
    (hown : ∀ q, s.Owns q → s'.Owns q) : PeersOwn localNodeid s' l :=
  fun p hp hlocal ↦ hown p.1 (h p hp hlocal)

/-- More open sockets do no harm. -/
theorem Ready.mono {phase : Phase Member} (h : Ready localNodeid s phase)
    (hmembers : s'.nodes.members = s.nodes.members) (hnvals : s'.nvals = s.nvals)
    (hown : ∀ q, s.Owns q → s'.Owns q) : Ready localNodeid s' phase := by
  cases phase with
  | preparing step p rest =>
    cases step <;> simp only [Ready, hmembers] at h ⊢
    case socket => exact ⟨h.1, h.2.mono hown⟩
    case session => exact ⟨h.1, h.2.mono hown⟩
    case lock => exact ⟨h.1, h.2.mono hown⟩
    all_goals exact h.mono hown
  | aborting p rest =>
    simp only [Ready, hmembers] at h ⊢
    exact ⟨h.1, h.2.1, h.2.2.mono hown⟩
  | cancelling p rest =>
    simp only [Ready, hmembers] at h ⊢
    exact ⟨h.1, h.2.1, h.2.2.mono hown⟩
  | committing step p rest =>
    cases step <;> simp only [Ready, hmembers] at h ⊢
    case close => exact ⟨h.1, h.2.1, h.2.2.mono hown⟩
    all_goals exact h.mono hown
  | prepared =>
    simp only [Ready, hmembers, hnvals] at h ⊢
    exact fun hne ↦ (h hne).mono hown
  | _ => trivial

/-- A closing step leaves open what the loop has still to visit. -/
theorem peersOwn_of_close {p : Member} {rest : List Member} (hl : s.nodes.Sound)
    (hlocal : Member.isLocal localNodeid p = false) (hsuf : p :: rest <:+ s.nodes.members)
    (hown : PeersOwn localNodeid s (p :: rest)) (h : s.closeSocket p.1 = some s') :
    s'.nodes = s.nodes ∧ rest <:+ s'.nodes.members ∧ PeersOwn localNodeid s' rest := by
  obtain ⟨hnodes, -, -, hothers⟩ := closeSocket_spec hl (hown p List.mem_cons_self hlocal) h
  have hnodup : ((p :: rest).map Prod.fst).Nodup := by
    refine List.Nodup.sublist (hsuf.sublist.map _) ?_
    rw [map_fst_members]
    exact hl.nodup
  rw [List.map_cons, List.nodup_cons] at hnodup
  refine ⟨hnodes, hnodes ▸ (List.suffix_cons p rest).trans hsuf, fun q hq hq' ↦ ?_⟩
  refine hothers q.1 (fun heq ↦ hnodup.1 ?_) (hown q (List.mem_cons_of_mem _ hq) hq')
  exact List.mem_map.mpr ⟨q, hq, heq⟩

/-- A call of `PREPARE` that gives up in the first loop has no peer left to open. -/
def Covered (localNodeid : ℤ) (step : PrepareStep) (rest : List Member) (ok : Bool) : Prop :=
  ok = false → step = .socket ∨ step = .session ∨ step = .lock numLockRetries →
    nextPeer (Member.isLocal localNodeid) rest = none

/-- The first call of `PREPARE` opens the socket of its peer. -/
theorem ready_socket_call {p : Member} {rest : List Member} {ok : Bool} (hl : s.nodes.Sound)
    (hready : Ready localNodeid s (.preparing .socket p rest))
    (hcov : Covered localNodeid .socket rest ok) (h : s.maapiSocket p.1 = some s') :
    s'.nodes.Sound ∧ Ready localNodeid s'
      ((Phase.preparing .socket p rest).next (Member.isLocal localNodeid) s.nodes.members ok) := by
  obtain ⟨hsuf, hown⟩ := hready
  obtain ⟨hl', hmembers, -, -, hself, hothers⟩ := maapiSocket_spec hl h
  have hopen : PeersOwn localNodeid s' (s'.nodes.members.filter fun q ↦ q ∉ rest) := by
    intro q hq hlocal
    rw [hmembers, List.mem_filter, decide_eq_true_iff] at hq
    by_cases hqp : q = p
    · exact hqp ▸ hself
    · have hnot : q ∉ p :: rest := fun hmem ↦ (List.mem_cons.mp hmem).elim hqp hq.2
      exact hothers q.1 (hown q (List.mem_filter.mpr ⟨hq.1, decide_eq_true hnot⟩) hlocal)
  refine ⟨hl', ?_⟩
  cases ok with
  | true => exact ⟨hmembers ▸ hsuf, hopen⟩
  | false =>
    have hall := peersOwn_members (hcov rfl (.inl rfl)) hopen
    exact hmembers ▸ ready_abortLoop (List.suffix_refl _) hall

/-- The calls of `PREPARE`. -/
theorem ready_prepare_call {step : PrepareStep} {p : Member} {rest : List Member} {ok : Bool}
    (hl : s.nodes.Sound) (hready : Ready localNodeid s (.preparing step p rest))
    (hcov : Covered localNodeid step rest ok) (h : s.applyCall step.call p = some s') :
    s'.nodes.Sound ∧ Ready localNodeid s'
      ((Phase.preparing step p rest).next (Member.isLocal localNodeid) s.nodes.members ok) := by
  by_cases hsocket : step = .socket
  · subst hsocket
    exact ready_socket_call hl hready hcov h
  · -- the other calls change nothing here
    obtain rfl : s' = s := by
      cases step <;> first | exact absurd rfl hsocket | exact (Option.some_inj.mp h).symm
    refine ⟨hl, ?_⟩
    cases step with
    | socket => exact absurd rfl hsocket
    | session =>
      cases ok with
      | true => exact hready
      | false =>
        exact ready_abortLoop (List.suffix_refl _)
          (peersOwn_members (hcov rfl (.inr (.inl rfl))) hready.2)
    | lock i =>
      cases ok with
      | true => exact ready_lockLoop ((List.suffix_cons p rest).trans hready.1) hready.2
      | false =>
        rw [Phase.next, if_neg (by simp), PrepareStep.onErr]
        split_ifs with hi
        · exact ready_abortLoop (List.suffix_refl _)
            (peersOwn_members (hcov rfl (.inr (.inr (by rw [hi])))) hready.2)
        · exact hready
    | startTrans =>
      cases ok with
      | true => exact hready
      | false => exact ready_abortLoop (List.suffix_refl _) hready
    | setValues =>
      cases ok with
      | true => exact hready
      | false => exact ready_abortLoop (List.suffix_refl _) hready
    | validate =>
      cases ok with
      | true => exact ready_writeLoop hready
      | false => exact ready_abortLoop (List.suffix_refl _) hready
    | prepare =>
      cases ok with
      | true => exact ready_prepareLoop hready
      | false => exact ready_abortLoop (List.suffix_refl _) hready

/-- The calls of all handlers. -/
theorem ready_call {phase : Phase Member} {c : Call} {p : Member} {ok : Bool}
    (hl : s.nodes.Sound) (hready : Ready localNodeid s phase)
    (hcov : ∀ step p rest, phase = .preparing step p rest → Covered localNodeid step rest ok)
    (hcall : phase.call = some (c, p)) (h : s.applyCall c p = some s') :
    s'.nodes.Sound ∧
      Ready localNodeid s' (phase.next (Member.isLocal localNodeid) s.nodes.members ok) := by
  cases phase with
  | preparing step q rest =>
    obtain ⟨rfl, rfl⟩ := Prod.mk.inj (Option.some_inj.mp hcall)
    exact ready_prepare_call hl hready (hcov step q rest rfl) h
  | aborting q rest =>
    obtain ⟨rfl, rfl⟩ := Prod.mk.inj (Option.some_inj.mp hcall)
    obtain ⟨hnodes, hsuf, hown⟩ := peersOwn_of_close hl hready.1 hready.2.1 hready.2.2 h
    exact ⟨hnodes ▸ hl, ready_abortLoop hsuf hown⟩
  | cancelling q rest =>
    obtain ⟨rfl, rfl⟩ := Prod.mk.inj (Option.some_inj.mp hcall)
    obtain ⟨hnodes, hsuf, hown⟩ := peersOwn_of_close hl hready.1 hready.2.1 hready.2.2 h
    exact ⟨hnodes ▸ hl, ready_cancelLoop hsuf hown⟩
  | committing step q rest =>
    obtain ⟨rfl, rfl⟩ := Prod.mk.inj (Option.some_inj.mp hcall)
    cases step with
    | commit =>
      obtain rfl := Option.some_inj.mp h
      exact ⟨hl, hready⟩
    | finish =>
      obtain rfl := Option.some_inj.mp h
      exact ⟨hl, ready_commitLoop hready⟩
    | close =>
      obtain ⟨hnodes, hsuf, hown⟩ := peersOwn_of_close hl hready.1 hready.2.1 hready.2.2 h
      exact ⟨hnodes ▸ hl, ready_closeLoop hsuf hown⟩
  | _ => exact absurd hcall (by simp [Phase.call])

theorem Inv.serving {phase : Phase Member} (hl : s.nodes.Sound) (hpoint : s.point = .serving phase)
    (hready : Ready localNodeid s phase) : Inv localNodeid s := by
  refine ⟨hl, fun r rest h ↦ ?_, fun phase' h ↦ ?_⟩
  · rw [hpoint] at h
    exact absurd h (by simp)
  · rw [hpoint] at h
    exact Point.serving.inj h ▸ hready

theorem covered_of_disciplined {step : PrepareStep} {p : Member} {rest : List Member} {ok : Bool}
    (hpoint : s.point = .serving (.preparing step p rest))
    (h : Disciplined localNodeid s (.call ok)) : Covered localNodeid step rest ok := by
  rintro rfl (rfl | rfl | rfl)
  · simpa [Disciplined, disciplined, hpoint] using h
  · simpa [Disciplined, disciplined, hpoint] using h
  · simpa [Disciplined, disciplined, hpoint] using h

/-- The startup loop needs what it has still to close. -/
theorem Inv.closeInitLoop {rs : List Ref} (hl : s.nodes.Sound) (hnodup : rs.Nodup)
    (hown : ∀ q ∈ rs, s.Owns q) : Inv localNodeid { s with point := closeInitLoop rs } := by
  cases rs with
  | nil => exact .serving hl rfl trivial
  | cons r rest =>
    refine ⟨hl, fun q l heq ↦ ?_, fun phase heq ↦ absurd heq (by simp [Aasync.closeInitLoop])⟩
    obtain ⟨rfl, rfl⟩ := Point.closing.inj heq
    exact ⟨hnodup, hown⟩

theorem Inv.closeInit {r : Ref} {rest : List Ref} (hI : Inv localNodeid s)
    (hpoint : s.point = .closing r rest) (h : s.closeSocket r = some s') :
    Inv localNodeid { s' with point := Aasync.closeInitLoop rest } := by
  obtain ⟨hnodup, hown⟩ := hI.closing r rest hpoint
  obtain ⟨hnodes, -, -, hothers⟩ := closeSocket_spec hI.sound (hown r List.mem_cons_self) h
  rw [List.nodup_cons] at hnodup
  refine .closeInitLoop (hnodes ▸ hI.sound) hnodup.2 fun q hq ↦ ?_
  exact hothers q (fun heq ↦ hnodup.1 (heq ▸ hq)) (hown q (List.mem_cons_of_mem _ hq))

/-- `PREPARE` opens from the beginning of the list. -/
theorem ready_subPrepare (tvals : List TagValue) :
    let p := subPrepare (Member.isLocal localNodeid) s.nodes.members s.aasyncUsr tvals
    Ready localNodeid { s with nvals := p.1, point := .serving p.2 } p.2 := by
  rw [subPrepare]
  split_ifs with husr hlen
  · exact fun h ↦ absurd rfl h
  · exact fun h ↦ absurd hlen h
  · refine ready_lockLoop (s := { s with nvals := _, point := _ }) (List.suffix_refl _) ?_
    intro q hq
    rw [List.mem_filter, decide_eq_true_iff] at hq
    exact absurd hq.1 hq.2

/-- A closing `COMMIT` finds the sockets of all peers open. -/
theorem ready_subCommit {phase : Phase Member} (hready : Ready localNodeid s phase)
    (hpoint : s.point = .serving phase) (hP : Disciplined localNodeid s .commit) :
    Ready localNodeid s
      (subCommit (Member.isLocal localNodeid) s.nodes.members s.aasyncUsr s.nvals) := by
  rw [subCommit]
  split_ifs with hclose
  · refine ready_commitLoop ?_
    simp only [gt_iff_lt, Bool.and_eq_true, decide_eq_true_eq, Bool.not_eq_true'] at hclose
    have hne : s.nvals ≠ 0 := Nat.ne_of_gt hclose.1
    simp only [Disciplined, disciplined, hpoint, Bool.or_eq_true, beq_iff_eq, hne, hclose.2,
      or_false, Option.isNone_iff_eq_none, Bool.false_eq_true] at hP
    rcases hP with rfl | hnone
    · exact hready hne
    · exact peersOwn_of_nextPeer_none hnone
  · trivial

theorem ready_subAbort {phase : Phase Member} (hready : Ready localNodeid s phase)
    (hpoint : s.point = .serving phase) (hP : Disciplined localNodeid s .abort) :
    Ready localNodeid s (subAbort (Member.isLocal localNodeid) s.nodes.members) := by
  refine ready_cancelLoop (List.suffix_refl _) ?_
  simp only [Disciplined, disciplined, hpoint, Bool.or_eq_true, Bool.and_eq_true, beq_iff_eq,
    bne_iff_ne, Option.isNone_iff_eq_none] at hP
  rcases hP with ⟨rfl, hnvals⟩ | hnone
  · exact hready hnvals
  · exact peersOwn_of_nextPeer_none hnone

/-- **One step.** A disciplined step keeps the invariant. -/
theorem Inv.step {e : SocketEvent} (hI : Inv localNodeid s) (hP : Disciplined localNodeid s e)
    (h : step localNodeid s e = some s') : Inv localNodeid s' := by
  cases hpoint : s.point with
  | closing r rest =>
    cases e with
    | closeInit =>
      simp only [Sockets.step, hpoint, Option.bind_eq_bind, Option.bind_eq_some_iff,
        Option.pure_def, Option.some_inj] at h
      obtain ⟨s₁, hclose, rfl⟩ := h
      exact hI.closeInit hpoint hclose
    | _ => simp [Sockets.step, hpoint] at h
  | serving phase =>
    have hready := hI.ready phase hpoint
    cases e with
    | closeInit => simp [Sockets.step, hpoint] at h
    | usr b =>
      simp only [Sockets.step, hpoint, Option.ite_none_right_eq_some, Option.some_inj] at h
      obtain ⟨-, rfl⟩ := h
      exact .serving hI.sound rfl (hready.mono rfl rfl fun _ ↦ id)
    | tLock =>
      simp only [Sockets.step, hpoint, Option.ite_none_right_eq_some] at h
      obtain ⟨hl', hmembers, hnvals, hpoint', -, hothers⟩ := maapiSocket_spec hI.sound h.2
      exact .serving hl' (hpoint'.trans hpoint) (hready.mono hmembers hnvals hothers)
    | prepare tvals =>
      simp only [Sockets.step, hpoint, Option.ite_none_right_eq_some, Option.some_inj] at h
      obtain ⟨-, rfl⟩ := h
      exact .serving hI.sound rfl (ready_subPrepare tvals)
    | commit =>
      simp only [Sockets.step, hpoint, Option.ite_none_right_eq_some, Option.some_inj] at h
      obtain ⟨-, rfl⟩ := h
      exact .serving hI.sound rfl ((ready_subCommit hready hpoint hP).mono rfl rfl fun _ ↦ id)
    | abort =>
      simp only [Sockets.step, hpoint, Option.ite_none_right_eq_some, Option.some_inj] at h
      obtain ⟨-, rfl⟩ := h
      exact .serving hI.sound rfl ((ready_subAbort hready hpoint hP).mono rfl rfl fun _ ↦ id)
    | call ok =>
      simp only [Sockets.step, hpoint, Option.bind_eq_bind, Option.bind_eq_some_iff,
        Option.pure_def, Option.some_inj] at h
      obtain ⟨⟨c, p⟩, hcall, s₁, happly, rfl⟩ := h
      -- a failure in the first loop is only allowed when all other sockets have been opened
      have hcov : ∀ step p rest, phase = .preparing step p rest →
          Covered localNodeid step rest ok :=
        fun step p rest heq ↦ covered_of_disciplined (heq ▸ hpoint) hP
      obtain ⟨hl', hready'⟩ := ready_call hI.sound hready hcov hcall happly
      exact .serving hl' rfl (hready'.mono rfl rfl fun _ ↦ id)
    | settle val =>
      cases phase with
      | settling =>
        cases val with
        | none =>
          obtain rfl : _ = s' := by simpa [Sockets.step, hpoint] using h
          exact .serving hI.sound rfl trivial
        | some val =>
          simp only [Sockets.step, hpoint, Option.bind_eq_bind, Option.bind_eq_some_iff,
            Option.pure_def, Option.some_inj] at h
          obtain ⟨nodes, hnodes, rfl⟩ := h
          exact .serving (handleAaclusterModifications_sound hI.sound hnodes) rfl trivial
      | _ => simp [Sockets.step, hpoint] at h

/-- Where the invariant holds, the next close is right. -/
theorem Inv.owns_closing (hI : Inv localNodeid s) (h : s.closing = some r) : s.Owns r := by
  rw [Sockets.closing] at h
  split at h
  case h_1 q rest hpoint =>
    obtain rfl := Option.some_inj.mp h
    exact (hI.closing q rest hpoint).2 q List.mem_cons_self
  case h_2 phase hpoint =>
    have hready := hI.ready phase hpoint
    split at h
    case h_1 p hcall =>
      obtain rfl := Option.some_inj.mp h
      cases phase with
      | preparing step q rest => cases step <;> simp [Phase.call, PrepareStep.call] at hcall
      | aborting q rest =>
        obtain rfl := (Prod.mk.inj (Option.some_inj.mp hcall)).2
        exact hready.2.2 q List.mem_cons_self hready.1
      | cancelling q rest =>
        obtain rfl := (Prod.mk.inj (Option.some_inj.mp hcall)).2
        exact hready.2.2 q List.mem_cons_self hready.1
      | committing step q rest =>
        cases step with
        | close =>
          obtain rfl := (Prod.mk.inj (Option.some_inj.mp hcall)).2
          exact hready.2.2 q List.mem_cons_self hready.1
        | _ => simp [Phase.call, CommitStep.call] at hcall
      | _ => simp [Phase.call] at hcall
    case h_2 => exact absurd h (by simp)

/-! ## After startup -/

theorem openAll_spec {rs : List Ref} (hl : s.nodes.Sound) (h : s.openAll rs = some s') :
    s'.nodes.Sound ∧ s'.nodes.members = s.nodes.members ∧ (∀ r ∈ rs, s'.Owns r) ∧
      ∀ q, s.Owns q → s'.Owns q := by
  induction rs generalizing s with
  | nil =>
    obtain rfl : s = s' := Option.some_inj.mp h
    exact ⟨hl, rfl, fun r hr ↦ absurd hr (by simp), fun q ↦ id⟩
  | cons r rs ih =>
    rw [openAll, List.foldlM_cons, Option.bind_eq_bind, Option.bind_eq_some_iff] at h
    obtain ⟨s₁, hopen, h⟩ := h
    obtain ⟨hl₁, hmembers₁, -, -, hself, hothers₁⟩ := maapiSocket_spec hl hopen
    obtain ⟨hl', hmembers, hrs, hothers⟩ := ih hl₁ h
    refine ⟨hl', hmembers.trans hmembers₁, ?_, fun q hq ↦ hothers q (hothers₁ q hq)⟩
    exact List.forall_mem_cons.mpr ⟨hothers r hself, hrs⟩

theorem owns_socket (o : Owner) {q : Ref} (h : s.Owns q) :
    Owns { s with table := s.table.socket o } q := by
  obtain ⟨n, hn, howner⟩ := h
  refine ⟨n, hn, ?_⟩
  rw [Descriptors.owner_socket, if_neg, howner]
  intro hfree
  rw [hfree, Descriptors.owner_free] at howner
  exact absurd howner (by simp)

end Sockets

section Start

variable {join : Bool} {localNodeid initNodeid x : ℤ} {cdb remote : NodeConfig} {s : Startup}
  {d : Ref × Aanode} {skip : ℤ → Bool} {l : NodeList} {d₀ d' : Sockets}

theorem mem_of_mem_joinEntries (hskip : skip d.2.nodeid = true) (es : List ((_ : ℤ) × ℕ × ℕ))
    (hd : d ∈ (joinEntries skip l es).cells) : d ∈ l.cells := by
  induction es generalizing l with
  | nil => exact hd
  | cons e es ih =>
    rw [joinEntries, List.foldl_cons, ← joinEntries] at hd
    have hd' := ih hd
    split_ifs at hd' with he
    · exact hd'
    · rcases List.mem_cons.mp hd' with rfl | hmem
      · exact absurd hskip he
      · exact hmem

/-- The lookup of the init node finds the one cell it has. -/
theorem find_initNodeid (h : startup join localNodeid initNodeid cdb remote = some s)
    (hd : d ∈ s.nodes.cells) (hid : d.2.nodeid = initNodeid) :
    s.nodes.find initNodeid = some d.1 := by
  obtain ⟨l, hl, hcase⟩ := startup_cases h
  have hkeep : ∀ c ∈ s.nodes.cells, c.2.nodeid = initNodeid → c ∈ l.cells := by
    intro c hc hcid
    rcases hcase with rfl | ⟨-, -, hjoin⟩
    · exact hc
    · rw [(joinCluster_eq hjoin).1] at hc
      exact mem_of_mem_joinEntries (by simp [hcid]) _ hc
  obtain ⟨r, hr⟩ : ∃ r, s.nodes.find initNodeid = some r := by
    rw [← Option.ne_none_iff_exists', Ne, NodeList.find_eq_none_iff, not_not]
    exact List.mem_map.mpr ⟨d, hd, hid⟩
  obtain ⟨as, n, bs, hcells, hn, -⟩ := NodeList.exists_of_find hr
  have hc : (r, n) ∈ s.nodes.cells := hcells ▸ List.mem_append_right _ List.mem_cons_self
  have heq := List.inj_on_of_nodup_map (nodup_initNodes hl) (hkeep _ hc hn) (hkeep d hd hid)
    (hn.trans hid.symm)
  rw [hr, ← heq]

/-- Startup opens a socket for every member, except for the nodes that a cluster init through
another node does not connect to. -/
theorem mem_startupSockets (h : startup join localNodeid initNodeid cdb remote = some s)
    (hstart : join = true ∨ localNodeid = initNodeid ∨
      ∀ x ∈ cdb, x = localNodeid ∨ x = initNodeid)
    (hd : d ∈ s.nodes.cells) : d.1 ∈ startupSockets join localNodeid initNodeid s.nodes := by
  rw [startupSockets, List.mem_append, List.mem_append]
  by_cases hlocal : d.2.nodeid = localNodeid
  · exact .inl (.inl (List.mem_singleton.mpr (((anchored_startup h).nodeid_iff d hd).mp hlocal)))
  · by_cases heq : localNodeid = initNodeid
    · refine .inl (.inr ?_)
      rw [if_pos heq]
      exact List.mem_map_of_mem (List.mem_filter.mpr ⟨hd, by simpa using hlocal⟩)
    · by_cases hinit : d.2.nodeid = initNodeid
      · refine .inl (.inr ?_)
        rw [if_neg heq, find_initNodeid h hd hinit]
        exact List.mem_singleton_self _
      · refine .inr ?_
        have hjoin : join = true := by
          by_contra hjoin
          obtain ⟨l, hl, rfl | ⟨hjoin', -⟩⟩ := startup_cases h
          · have hcdb : ∀ x ∈ cdb, x = localNodeid ∨ x = initNodeid :=
              (hstart.resolve_left hjoin).resolve_left heq
            rcases (mem_initNodes hl).mp (List.mem_map_of_mem hd) with hx | hx
            · exact hlocal hx
            · exact (hcdb _ hx).elim hlocal hinit
          · exact hjoin hjoin'
        rw [if_pos ⟨hjoin, heq⟩]
        exact List.mem_map_of_mem (List.mem_filter.mpr ⟨hd, by simp [hlocal, hinit]⟩)

theorem startDaemon_inv (h : startDaemon join localNodeid initNodeid cdb remote = some d₀)
    (hstart : join = true ∨ localNodeid = initNodeid ∨
      ∀ x ∈ cdb, x = localNodeid ∨ x = initNodeid) : Sockets.Inv localNodeid d₀ := by
  simp only [startDaemon, Option.bind_eq_bind, Option.bind_eq_some_iff, Option.pure_def,
    Option.some_inj] at h
  obtain ⟨s, hs, d', hopen, rfl⟩ := h
  obtain ⟨hl, hmembers, hrs, -⟩ := Sockets.openAll_spec (anchored_startup hs).sound hopen
  have hrefs : d'.nodes.refs = s.nodes.refs := by
    rw [← Sockets.map_fst_members, hmembers, Sockets.map_fst_members]
  have hown : ∀ r ∈ d'.nodes.refs, d'.Owns r := by
    intro r hr
    rw [hrefs] at hr
    obtain ⟨d, hd, rfl⟩ := List.mem_map.mp hr
    exact hrs d.1 (mem_startupSockets hs hstart hd)
  have hown' : ∀ r ∈ d'.nodes.refs, Sockets.Owns { d' with
      table := ((d'.table.socket .subsockCfg).socket .ctlsock).socket .workersock } r :=
    fun r hr ↦ Sockets.owns_socket _ (Sockets.owns_socket _ (Sockets.owns_socket _ (hown r hr)))
  exact @Sockets.Inv.closeInitLoop { d' with
      table := ((d'.table.socket .subsockCfg).socket .ctlsock).socket .workersock }
    localNodeid _ hl hl.nodup hown'

/-- **The sockets.** In every disciplined run from a startup that has opened the socket of every
member, what the daemon closes as a member's socket is a descriptor that was opened for this member
and is still open. -/
theorem closing_owned (h : startDaemon join localNodeid initNodeid cdb remote = some d₀)
    (hstart : join = true ∨ localNodeid = initNodeid ∨
      ∀ x ∈ cdb, x = localNodeid ∨ x = initNodeid)
    (hrun : (Sockets.daemon localNodeid).Reach (Sockets.Disciplined localNodeid) d₀ d') :
    ∀ r, d'.closing = some r → d'.Owns r := by
  have hI := hrun.invariant (startDaemon_inv h hstart) fun s e s' hI hP hs ↦ hI.step hP hs
  exact fun r hr ↦ hI.owns_closing hr

end Start

/-- The init node of a cluster of two, behind its startup. -/
def pairDaemon : Sockets :=
  (startDaemon false 0 0 (clusterConfig [0, 1]) (clusterConfig [0, 1])).get (by decide)

/-- The events of a replicated change, up to the end of the peer's transaction. -/
def commitRun : List SocketEvent :=
  [.closeInit, .closeInit, .prepare [⟨.other 0, .xmlTag⟩], .call true, .call true, .call false,
    .call true, .call true, .call true, .call true, .call true, .commit, .call true, .call true]

/-- The init node replicates a change and closes the socket of its peer. -/
theorem closing_owned_commit :
    ∃ d', (Sockets.daemon 0).Reach (Sockets.Disciplined 0) pairDaemon d' ∧
      d'.closing = some 1 ∧ d'.Owns 1 := by
  have hstart : startDaemon false 0 0 (clusterConfig [0, 1]) (clusterConfig [0, 1])
      = some pairDaemon := (Option.some_get _).symm
  have hrun : (((Sockets.daemon 0).restrict (Sockets.Disciplined 0)).runFrom pairDaemon
      commitRun).any (fun d ↦ d.closing == some 1) = true := by decide
  obtain ⟨d', hd', hclosing⟩ := Machine.exists_reach_of_any hrun
  rw [beq_iff_eq] at hclosing
  exact ⟨d', hd', hclosing, closing_owned hstart (.inr (.inl rfl)) hd' 1 hclosing⟩

/-- Another node of a cluster of three, which connects to the init node only. -/
def otherDaemon : Sockets :=
  (startDaemon false 1 0 (clusterConfig [0, 1, 2]) (clusterConfig [0, 1, 2])).get (by decide)

/-- The init node of the same cluster. -/
def initDaemon : Sockets :=
  (startDaemon false 0 0 (clusterConfig [0, 1, 2]) (clusterConfig [0, 1, 2])).get (by decide)

/-- The first peer cannot be reached in `PREPARE`. -/
def refusedRun : List SocketEvent :=
  [.closeInit, .closeInit, .closeInit, .prepare [⟨.other 0, .xmlTag⟩], .call false, .call true]

/-- **Wrong closes.** At the end of a cluster init a node closes its standard input as the socket of
a peer it has never connected to, and a `PREPARE` that fails at the first peer closes the socket of
the second, which has been closed before. -/
theorem not_closing_owned :
    (∃ d', (Sockets.daemon 1).Reachable otherDaemon d' ∧
      ∃ n, d'.closing = some 2 ∧ (2, n) ∈ d'.nodes.cells ∧
        d'.table.owner n.maapiSocket = some .standard) ∧
    ∃ d', (Sockets.daemon 0).Reachable initDaemon d' ∧ d'.closing = some 1 ∧ ¬d'.Owns 1 := by
  constructor
  · refine ⟨otherDaemon, .refl, ⟨2, confdIp, 4585, 0, 0⟩, ?_⟩
    decide
  · have hrun : (((Sockets.daemon 0).restrict fun _ _ ↦ True).runFrom initDaemon refusedRun).any
        (fun d ↦ decide (d.closing = some 1 ∧ ¬d.Owns 1)) = true := by decide
    obtain ⟨d', hd', htest⟩ := Machine.exists_reach_of_any hrun
    exact ⟨d', hd', of_decide_eq_true htest⟩

end ConfdDemos.Aasync
