import ConfdDemos.Aasync.Daemon
import ConfdDemos.Foundation.Machine
import Mathlib.Data.List.Nodup

/-!
# Replication of one local transaction

The subscriber of one node replicates an operator's transaction to every other member while any of
its MAAPI calls may fail. The peers are known here only by what they hold for us: a connection, a
session, the lock, a transaction, and the changes we have committed. A stream of replies decides the
result of each call, so a statement about every stream covers every pattern of failures.

## Cells, not node ids

A peer is a cell of the member list, because a socket belongs to a cell. Pairing each node id with
its position makes the cells distinct without asking that the ids be.

## Shape of the argument

Each of the three handlers has its own invariant, one clause for each program point, that says what
every peer holds in terms of the part of the list the current loop has still to visit. Each call is
one step of the machine, and a measure on program points bounds the number of calls.
-/

namespace ConfdDemos.Aasync

/-! ## What a peer holds -/

inductive RemoteStage
  | started
  | validated
  | prepared
  | committed
  deriving DecidableEq, Repr

/-- A transaction of ours on a peer, with the values written into it. -/
structure RemoteTrans where
  values : List TagValue
  stage : RemoteStage
  deriving DecidableEq, Repr

/-- What the ConfD of one peer holds for us. -/
structure PeerSide where
  socket : Bool
  session : Bool
  lock : Bool
  trans : Option RemoteTrans
  /-- The changes we have committed there, in order. -/
  running : List (List TagValue)
  deriving DecidableEq, Repr

/-- Nothing of ours is left on the peer: no session, no lock, no transaction. -/
def PeerSide.Clear (p : PeerSide) : Prop := p.session = false ∧ p.lock = false ∧ p.trans = none

/-- The peer holds a transaction of ours with exactly these values. -/
def PeerSide.Holds (p : PeerSide) (values : List TagValue) (stage : RemoteStage) : Prop :=
  p.trans = some ⟨values, stage⟩

/-- A peer before the first call: it only has what was committed earlier. -/
def PeerSide.idle (running : List (List TagValue)) : PeerSide :=
  ⟨false, false, false, none, running⟩

/-- The outcome of a call. The daemon of the peer may release our lock while we validate. -/
structure Reply where
  ok : Bool
  unlocked : Bool
  deriving DecidableEq, Repr

/-- The effect of a call on the peer it goes to. A commit of a prepared transaction takes effect,
and closing the socket discards the session with its lock and its transaction. -/
def applyCall (tvals : List TagValue) (c : Call) (r : Reply) (p : PeerSide) : PeerSide :=
  match c with
  | .socket => { p with socket := r.ok }
  | .session => { p with session := p.session || r.ok }
  | .lock => { p with lock := p.lock || r.ok }
  | .startTrans => if r.ok then { p with trans := some ⟨[], .started⟩ } else p
  | .setValues =>
    if r.ok then { p with trans := p.trans.map fun t ↦ { t with values := t.values ++ tvals } }
    else p
  | .validate =>
    { p with
      lock := p.lock && !r.unlocked
      trans := if r.ok then p.trans.map fun t ↦ { t with stage := .validated } else p.trans }
  | .prepare =>
    if r.ok then { p with trans := p.trans.map fun t ↦ { t with stage := .prepared } } else p
  | .commit =>
    match p.trans with
    | some ⟨values, .prepared⟩ =>
      { p with trans := some ⟨values, .committed⟩, running := p.running ++ [values] }
    | _ => p
  | .finish => { p with trans := none }
  | .close => .idle p.running

/-! ## The machine -/

/-- A cell of the member list: the node id and its position. -/
abbrev Cell := ℤ × ℕ

structure Replica where
  nvals : ℕ
  phase : Phase Cell
  peer : Cell → PeerSide

section Machine

variable (localNodeid : ℤ) (nodeids : List ℤ) (tvals : List TagValue)

def Cell.isLocal (c : Cell) : Bool := c.1 == localNodeid

/-- The cells of the member list. -/
def memberCells : List Cell := nodeids.zipIdx

def replicaStep (s : Replica) (r : Reply) : Option Replica :=
  s.phase.call.map fun cn ↦
    { s with
      phase := s.phase.next (Cell.isLocal localNodeid) (memberCells nodeids) r.ok
      peer := Function.update s.peer cn.2 (applyCall tvals cn.1 r (s.peer cn.2)) }

/-- The subscriber of one node, driven by the outcomes of its calls. -/
def replicaMachine : Machine Replica Reply := ⟨replicaStep localNodeid nodeids tvals⟩

/-- `CDB_SUB_PREPARE` with `aasync_usr = 0`, on peers that hold nothing of ours. -/
def startPrepare (running : Cell → List (List TagValue)) : Replica where
  nvals := (subPrepare (Cell.isLocal localNodeid) (memberCells nodeids) false tvals).1
  phase := (subPrepare (Cell.isLocal localNodeid) (memberCells nodeids) false tvals).2
  peer := fun c ↦ .idle (running c)

/-- `CDB_SUB_COMMIT` with `aasync_usr = 0`. -/
def startCommit (s : Replica) : Replica :=
  { s with phase := subCommit (Cell.isLocal localNodeid) (memberCells nodeids) false s.nvals }

/-- `CDB_SUB_ABORT`. -/
def startAbort (s : Replica) : Replica :=
  { s with phase := subAbort (Cell.isLocal localNodeid) (memberCells nodeids) }

/-- The cell is a peer: a member other than the local node. -/
def IsPeer (c : Cell) : Prop := c ∈ memberCells nodeids ∧ c.isLocal localNodeid = false

end Machine

theorem nodup_memberCells (nodeids : List ℤ) : (memberCells nodeids).Nodup := by
  refine List.Nodup.of_map Prod.snd ?_
  rw [memberCells, List.zipIdx_map_snd]
  exact List.nodup_range'

/-! ## The three invariants

`n` is the cell of the current call and `rest` what its loop has not visited. -/

section Invariants

variable (localNodeid : ℤ) (nodeids : List ℤ) (tvals : List TagValue)

/-- What a peer holds while `CDB_SUB_PREPARE` runs. -/
def PrepareExpect (step : PrepareStep) (n : Cell) (rest : List Cell) (m : Cell) (p : PeerSide) :
    Prop :=
  match step with
  | .socket => True
  | .session => True
  | .lock i => i ≤ numLockRetries
  | .startTrans => m = n ∨ m ∈ rest ∨ p.Holds tvals .validated
  | .setValues => if m = n then p.Holds [] .started else m ∈ rest ∨ p.Holds tvals .validated
  | .validate => if m = n then p.Holds tvals .started else m ∈ rest ∨ p.Holds tvals .validated
  | .prepare => p.Holds tvals (if m = n ∨ m ∈ rest then .validated else .prepared)

/-- The invariant of `CDB_SUB_PREPARE`. -/
def PrepareInv (peer : Cell → PeerSide) : Phase Cell → Prop
  | .preparing step n rest => tvals ≠ [] ∧ n :: rest <:+ memberCells nodeids ∧
      n.isLocal localNodeid = false ∧
      ∀ m, IsPeer localNodeid nodeids m → PrepareExpect tvals step n rest m (peer m)
  | .aborting n rest => n :: rest <:+ memberCells nodeids ∧
      ∀ m, IsPeer localNodeid nodeids m → m = n ∨ m ∈ rest ∨ (peer m).Clear
  | .refused => ∀ m, IsPeer localNodeid nodeids m → (peer m).Clear
  | .prepared => tvals ≠ [] → ∀ m, IsPeer localNodeid nodeids m → (peer m).Holds tvals .prepared
  | _ => False

/-- The invariant of `CDB_SUB_COMMIT`, entered when every peer has prepared. -/
def CommitInv (running : Cell → List (List TagValue)) (peer : Cell → PeerSide) : Phase Cell → Prop
  | .committing .commit n rest => n :: rest <:+ memberCells nodeids ∧
      ∀ m, IsPeer localNodeid nodeids m →
        if m = n ∨ m ∈ rest then (peer m).Holds tvals .prepared ∧ (peer m).running = running m
        else (peer m).running = running m ++ [tvals]
  | .committing .finish n rest => n :: rest <:+ memberCells nodeids ∧
      ∀ m, IsPeer localNodeid nodeids m →
        if m ∈ rest then (peer m).Holds tvals .prepared ∧ (peer m).running = running m
        else (peer m).running = running m ++ [tvals]
  | .committing .close n rest => n :: rest <:+ memberCells nodeids ∧
      ∀ m, IsPeer localNodeid nodeids m →
        (m = n ∨ m ∈ rest ∨ (peer m).Clear) ∧ (peer m).running = running m ++ [tvals]
  | .settling => ∀ m, IsPeer localNodeid nodeids m →
      (peer m).Clear ∧ (peer m).running = running m ++ [tvals]
  | _ => False

/-- The invariant of `CDB_SUB_ABORT`, from any state of the peers. -/
def AbortInv (running : Cell → List (List TagValue)) (peer : Cell → PeerSide) : Phase Cell → Prop
  | .cancelling n rest => n :: rest <:+ memberCells nodeids ∧
      ∀ m, IsPeer localNodeid nodeids m →
        (m = n ∨ m ∈ rest ∨ (peer m).Clear) ∧ (peer m).running = running m
  | .cancelled => ∀ m, IsPeer localNodeid nodeids m →
      (peer m).Clear ∧ (peer m).running = running m
  | _ => False

end Invariants

section Peers

variable {localNodeid : ℤ} {nodeids : List ℤ} {tvals : List TagValue} {peer : Cell → PeerSide}
  {running : Cell → List (List TagValue)} {n m : Cell} {rest l : List Cell} {r : Reply}

theorem clear_close (p : PeerSide) : (applyCall tvals .close r p).Clear := ⟨rfl, rfl, rfl⟩

/-- The current cell is not visited again. -/
theorem notMem_rest (h : n :: rest <:+ memberCells nodeids) : n ∉ rest :=
  (List.nodup_cons.mp ((nodup_memberCells nodeids).sublist h.sublist)).1

/-! ## Entering a loop -/

theorem prepareInv_abortLoop (hl : l <:+ memberCells nodeids)
    (hpeer : ∀ m, IsPeer localNodeid nodeids m → m ∈ l ∨ (peer m).Clear) :
    PrepareInv localNodeid nodeids tvals peer (abortLoop (Cell.isLocal localNodeid) l) := by
  refine loopFrom_rule (Q := PrepareInv localNodeid nodeids tvals peer) ?_ ?_
  · intro n rest h
    refine ⟨(nextPeer_some h).2.1.trans hl, fun m hm ↦ ?_⟩
    rw [← or_assoc, ← mem_iff_of_nextPeer h hm.2]
    exact hpeer m hm
  · intro h m hm
    exact (hpeer m hm).resolve_left (notMem_of_nextPeer_none h hm.2)

theorem prepareInv_prepareLoop (hne : tvals ≠ []) (hl : l <:+ memberCells nodeids)
    (hpeer : ∀ m, IsPeer localNodeid nodeids m →
      (peer m).Holds tvals (if m ∈ l then .validated else .prepared)) :
    PrepareInv localNodeid nodeids tvals peer (prepareLoop (Cell.isLocal localNodeid) l) := by
  refine loopFrom_rule (Q := PrepareInv localNodeid nodeids tvals peer) ?_ ?_
  · intro n rest h
    obtain ⟨hloc, hsuf, -⟩ := nextPeer_some h
    refine ⟨hne, hsuf.trans hl, hloc, fun m hm ↦ ?_⟩
    simp only [PrepareExpect, ← mem_iff_of_nextPeer h hm.2]
    exact hpeer m hm
  · intro h _ m hm
    have := hpeer m hm
    rwa [if_neg (notMem_of_nextPeer_none h hm.2)] at this

theorem prepareInv_writeLoop (hne : tvals ≠ []) (hl : l <:+ memberCells nodeids)
    (hpeer : ∀ m, IsPeer localNodeid nodeids m → m ∈ l ∨ (peer m).Holds tvals .validated) :
    PrepareInv localNodeid nodeids tvals peer
      (writeLoop (Cell.isLocal localNodeid) (memberCells nodeids) l) := by
  refine loopFrom_rule (Q := PrepareInv localNodeid nodeids tvals peer) ?_ ?_
  · intro n rest h
    obtain ⟨hloc, hsuf, -⟩ := nextPeer_some h
    refine ⟨hne, hsuf.trans hl, hloc, fun m hm ↦ ?_⟩
    rw [PrepareExpect, ← or_assoc, ← mem_iff_of_nextPeer h hm.2]
    exact hpeer m hm
  · intro h
    refine prepareInv_prepareLoop hne (List.suffix_refl _) fun m hm ↦ ?_
    rw [if_pos hm.1]
    exact (hpeer m hm).resolve_left (notMem_of_nextPeer_none h hm.2)

theorem prepareInv_lockLoop (hne : tvals ≠ []) (hl : l <:+ memberCells nodeids) :
    PrepareInv localNodeid nodeids tvals peer
      (lockLoop (Cell.isLocal localNodeid) (memberCells nodeids) l) := by
  refine loopFrom_rule (Q := PrepareInv localNodeid nodeids tvals peer) ?_ ?_
  · intro n rest h
    obtain ⟨hloc, hsuf, -⟩ := nextPeer_some h
    exact ⟨hne, hsuf.trans hl, hloc, fun _ _ ↦ trivial⟩
  · intro _
    exact prepareInv_writeLoop hne (List.suffix_refl _) fun m hm ↦ Or.inl hm.1

/-! ## One call of `CDB_SUB_PREPARE` -/

/-- A failed call either retries the lock or enters the closing loop for the whole list. -/
theorem prepareInv_onErr {step : PrepareStep} {peer' : Cell → PeerSide}
    (h : PrepareInv localNodeid nodeids tvals peer (.preparing step n rest))
    (hp : IsPeer localNodeid nodeids n) :
    PrepareInv localNodeid nodeids tvals peer'
      (step.onErr (Cell.isLocal localNodeid) (memberCells nodeids) n rest) := by
  have habort : PrepareInv localNodeid nodeids tvals peer'
      (abortLoop (Cell.isLocal localNodeid) (memberCells nodeids)) :=
    prepareInv_abortLoop (List.suffix_refl _) fun m hm ↦ Or.inl hm.1
  obtain ⟨hne, hsuf, hloc, hpeer⟩ := h
  cases step with
  | lock i =>
    rw [PrepareStep.onErr]
    have hi : i ≤ numLockRetries := hpeer n hp
    by_cases hlast : i = numLockRetries
    · rw [if_pos hlast]
      exact habort
    · rw [if_neg hlast]
      refine ⟨hne, hsuf, hloc, fun _ _ ↦ ?_⟩
      exact Nat.succ_le_of_lt (lt_of_le_of_ne hi hlast)
  | _ => exact habort

theorem prepareInv_onOk {step : PrepareStep} (hr : r.ok = true)
    (h : PrepareInv localNodeid nodeids tvals peer (.preparing step n rest)) :
    PrepareInv localNodeid nodeids tvals
      (Function.update peer n (applyCall tvals step.call r (peer n)))
      (step.onOk (Cell.isLocal localNodeid) (memberCells nodeids) n rest) := by
  obtain ⟨hne, hsuf, hloc, hpeer⟩ := h
  have hrest : rest <:+ memberCells nodeids := (List.suffix_cons n rest).trans hsuf
  have hn : IsPeer localNodeid nodeids n := ⟨hsuf.subset List.mem_cons_self, hloc⟩
  -- in the last three steps the call moves the transaction of `n` on and leaves the others alone
  cases step with
  | socket => exact ⟨hne, hsuf, hloc, fun _ _ ↦ trivial⟩
  | session => exact ⟨hne, hsuf, hloc, fun _ _ ↦ Nat.zero_le _⟩
  | lock i => exact prepareInv_lockLoop hne hrest
  | startTrans =>
    refine ⟨hne, hsuf, hloc, fun m hm ↦ ?_⟩
    rw [PrepareExpect]
    by_cases hmn : m = n
    · subst hmn
      rw [if_pos rfl, Function.update_self]
      simp [applyCall, PrepareStep.call, hr, PeerSide.Holds]
    · rw [if_neg hmn, Function.update_of_ne hmn]
      exact (hpeer m hm).resolve_left hmn
  | setValues =>
    refine ⟨hne, hsuf, hloc, fun m hm ↦ ?_⟩
    have hold := hpeer m hm
    simp only [PrepareExpect] at hold ⊢
    by_cases hmn : m = n
    · subst hmn
      rw [if_pos rfl] at hold ⊢
      rw [Function.update_self]
      rw [PeerSide.Holds] at hold
      simp [applyCall, PrepareStep.call, hr, PeerSide.Holds, hold]
    · rw [if_neg hmn] at hold ⊢
      rwa [Function.update_of_ne hmn]
  | validate =>
    refine prepareInv_writeLoop hne hrest fun m hm ↦ ?_
    have hold := hpeer m hm
    rw [PrepareExpect] at hold
    by_cases hmn : m = n
    · subst hmn
      rw [if_pos rfl, PeerSide.Holds] at hold
      rw [Function.update_self]
      simp [applyCall, PrepareStep.call, hr, PeerSide.Holds, hold]
    · rw [if_neg hmn] at hold
      rwa [Function.update_of_ne hmn]
  | prepare =>
    refine prepareInv_prepareLoop hne hrest fun m hm ↦ ?_
    have hold := hpeer m hm
    rw [PrepareExpect] at hold
    by_cases hmn : m = n
    · subst hmn
      rw [if_pos (Or.inl rfl), PeerSide.Holds] at hold
      rw [Function.update_self, if_neg (notMem_rest hsuf)]
      simp [applyCall, PrepareStep.call, hr, PeerSide.Holds, hold]
    · simp only [hmn, false_or] at hold
      rwa [Function.update_of_ne hmn]

/-! ## One call of the closing and committing loops -/

theorem commitInv_closeLoop (hl : l <:+ memberCells nodeids)
    (hpeer : ∀ m, IsPeer localNodeid nodeids m →
      (m ∈ l ∨ (peer m).Clear) ∧ (peer m).running = running m ++ [tvals]) :
    CommitInv localNodeid nodeids tvals running peer
      (closeLoop (Cell.isLocal localNodeid) l) := by
  refine loopFrom_rule (Q := CommitInv localNodeid nodeids tvals running peer) ?_ ?_
  · intro n rest h
    refine ⟨(nextPeer_some h).2.1.trans hl, fun m hm ↦ ?_⟩
    rw [← or_assoc, ← mem_iff_of_nextPeer h hm.2]
    exact hpeer m hm
  · intro h m hm
    obtain ⟨hclear, hrun⟩ := hpeer m hm
    exact ⟨hclear.resolve_left (notMem_of_nextPeer_none h hm.2), hrun⟩

theorem commitInv_commitLoop (hl : l <:+ memberCells nodeids)
    (hpeer : ∀ m, IsPeer localNodeid nodeids m →
      if m ∈ l then (peer m).Holds tvals .prepared ∧ (peer m).running = running m
      else (peer m).running = running m ++ [tvals]) :
    CommitInv localNodeid nodeids tvals running peer
      (commitLoop (Cell.isLocal localNodeid) (memberCells nodeids) l) := by
  refine loopFrom_rule (Q := CommitInv localNodeid nodeids tvals running peer) ?_ ?_
  · intro n rest h
    refine ⟨(nextPeer_some h).2.1.trans hl, fun m hm ↦ ?_⟩
    simp only [← mem_iff_of_nextPeer h hm.2]
    exact hpeer m hm
  · intro h
    refine commitInv_closeLoop (List.suffix_refl _) fun m hm ↦ ⟨Or.inl hm.1, ?_⟩
    have := hpeer m hm
    rwa [if_neg (notMem_of_nextPeer_none h hm.2)] at this

theorem abortInv_cancelLoop (hl : l <:+ memberCells nodeids)
    (hpeer : ∀ m, IsPeer localNodeid nodeids m →
      (m ∈ l ∨ (peer m).Clear) ∧ (peer m).running = running m) :
    AbortInv localNodeid nodeids running peer (cancelLoop (Cell.isLocal localNodeid) l) := by
  refine loopFrom_rule (Q := AbortInv localNodeid nodeids running peer) ?_ ?_
  · intro n rest h
    refine ⟨(nextPeer_some h).2.1.trans hl, fun m hm ↦ ?_⟩
    rw [← or_assoc, ← mem_iff_of_nextPeer h hm.2]
    exact hpeer m hm
  · intro h m hm
    obtain ⟨hclear, hrun⟩ := hpeer m hm
    exact ⟨hclear.resolve_left (notMem_of_nextPeer_none h hm.2), hrun⟩

end Peers

/-! ## One step of the machine -/

section Steps

variable {localNodeid : ℤ} {nodeids : List ℤ} {tvals : List TagValue} {s s' : Replica} {r : Reply}
  {running : Cell → List (List TagValue)}

theorem replicaStep_eq_some (hs : replicaStep localNodeid nodeids tvals s r = some s') :
    ∃ c n, s.phase.call = some (c, n) ∧
      s' = { s with
        phase := s.phase.next (Cell.isLocal localNodeid) (memberCells nodeids) r.ok
        peer := Function.update s.peer n (applyCall tvals c r (s.peer n)) } := by
  rw [replicaStep, Option.map_eq_some_iff] at hs
  obtain ⟨⟨c, n⟩, hcall, rfl⟩ := hs
  exact ⟨c, n, hcall, rfl⟩

/-- Only a commit adds to what a peer runs. -/
theorem running_applyCall {c : Call} (hc : c ≠ .commit) (p : PeerSide) :
    (applyCall tvals c r p).running = p.running := by
  cases c with
  | commit => exact absurd rfl hc
  | startTrans => rw [applyCall]; split_ifs <;> rfl
  | setValues => rw [applyCall]; split_ifs <;> rfl
  | prepare => rw [applyCall]; split_ifs <;> rfl
  | _ => rfl

theorem running_update {peer : Cell → PeerSide} {c : Call} {n : Cell} (hc : c ≠ .commit)
    (m : Cell) :
    (Function.update peer n (applyCall tvals c r (peer n)) m).running = (peer m).running := by
  by_cases hmn : m = n
  · subst hmn
    rw [Function.update_self, running_applyCall hc]
  · rw [Function.update_of_ne hmn]

/-- A peer that has just been closed, or was clear before. -/
theorem mem_or_clear_update {peer : Cell → PeerSide} {n m : Cell} {rest : List Cell}
    (h : m = n ∨ m ∈ rest ∨ (peer m).Clear) :
    m ∈ rest ∨ (Function.update peer n (applyCall tvals .close r (peer n)) m).Clear := by
  by_cases hmn : m = n
  · subst hmn
    rw [Function.update_self]
    exact Or.inr (clear_close _)
  · rw [Function.update_of_ne hmn]
    exact h.resolve_left hmn

/-- The state while `CDB_SUB_PREPARE` runs: the handler's invariant, and nothing committed yet. -/
def PrepareState (localNodeid : ℤ) (nodeids : List ℤ) (tvals : List TagValue)
    (running : Cell → List (List TagValue)) (s : Replica) : Prop :=
  PrepareInv localNodeid nodeids tvals s.peer s.phase ∧ s.nvals = tvals.length ∧
    ∀ m, (s.peer m).running = running m

theorem prepareState_step (h : PrepareState localNodeid nodeids tvals running s)
    (hs : replicaStep localNodeid nodeids tvals s r = some s') :
    PrepareState localNodeid nodeids tvals running s' := by
  obtain ⟨hinv, hnvals, hrun⟩ := h
  obtain ⟨c, n, hcall, rfl⟩ := replicaStep_eq_some hs
  cases hphase : s.phase with
  | preparing step n' rest =>
    rw [hphase] at hinv hcall
    rw [Phase.call, Option.some_inj, Prod.mk.injEq] at hcall
    obtain ⟨rfl, rfl⟩ := hcall
    refine ⟨?_, hnvals, fun m ↦ ?_⟩
    · simp only [Phase.next]
      by_cases hr : r.ok = true
      · rw [if_pos hr]
        exact prepareInv_onOk hr hinv
      · rw [if_neg hr]
        exact prepareInv_onErr hinv ⟨hinv.2.1.subset List.mem_cons_self, hinv.2.2.1⟩
    · rw [← hrun m]
      exact running_update (by cases step <;> simp [PrepareStep.call]) m
  | aborting n' rest =>
    rw [hphase] at hinv hcall
    rw [Phase.call, Option.some_inj, Prod.mk.injEq] at hcall
    obtain ⟨rfl, rfl⟩ := hcall
    obtain ⟨hsuf, hpeer⟩ := hinv
    refine ⟨?_, hnvals, fun m ↦ ?_⟩
    · exact prepareInv_abortLoop ((List.suffix_cons _ rest).trans hsuf) fun m hm ↦
        mem_or_clear_update (hpeer m hm)
    · rw [← hrun m]
      exact running_update (by simp) m
  | _ =>
    rw [hphase] at hinv hcall
    first | exact hinv.elim | exact absurd hcall (by simp [Phase.call])

theorem commitInv_next {step : CommitStep} {n : Cell} {rest : List Cell} {peer : Cell → PeerSide}
    (h : CommitInv localNodeid nodeids tvals running peer (.committing step n rest)) :
    CommitInv localNodeid nodeids tvals running
      (Function.update peer n (applyCall tvals step.call r (peer n)))
      ((Phase.committing step n rest).next (Cell.isLocal localNodeid) (memberCells nodeids)
        r.ok) := by
  cases step with
  | commit =>
    obtain ⟨hsuf, hpeer⟩ := h
    refine ⟨hsuf, fun m hm ↦ ?_⟩
    have hold := hpeer m hm
    by_cases hmn : m = n
    · subst hmn
      -- the peer that is called has the values prepared, and now takes them over
      rw [if_pos (Or.inl rfl)] at hold
      obtain ⟨hholds, hrun⟩ := hold
      rw [PeerSide.Holds] at hholds
      rw [if_neg (notMem_rest hsuf), Function.update_self]
      simp [CommitStep.call, applyCall, hholds, hrun]
    · simp only [hmn, false_or] at hold
      rwa [Function.update_of_ne hmn]
  | finish =>
    obtain ⟨hsuf, hpeer⟩ := h
    refine commitInv_commitLoop ((List.suffix_cons _ rest).trans hsuf) fun m hm ↦ ?_
    have hold := hpeer m hm
    by_cases hmn : m = n
    · subst hmn
      rw [if_neg (notMem_rest hsuf)] at hold ⊢
      rwa [Function.update_self]
    · rwa [Function.update_of_ne hmn]
  | close =>
    obtain ⟨hsuf, hpeer⟩ := h
    refine commitInv_closeLoop ((List.suffix_cons _ rest).trans hsuf) fun m hm ↦ ?_
    refine ⟨mem_or_clear_update (hpeer m hm).1, ?_⟩
    rw [← (hpeer m hm).2]
    exact running_update (by simp [CommitStep.call]) m

theorem commitInv_step (h : CommitInv localNodeid nodeids tvals running s.peer s.phase)
    (hs : replicaStep localNodeid nodeids tvals s r = some s') :
    CommitInv localNodeid nodeids tvals running s'.peer s'.phase := by
  obtain ⟨c, n, hcall, rfl⟩ := replicaStep_eq_some hs
  cases hphase : s.phase with
  | committing step n' rest =>
    rw [hphase] at h hcall
    rw [Phase.call, Option.some_inj, Prod.mk.injEq] at hcall
    obtain ⟨rfl, rfl⟩ := hcall
    exact commitInv_next h
  | _ => rw [hphase] at h hcall; first | exact h.elim | exact absurd hcall (by simp [Phase.call])

theorem abortInv_step (h : AbortInv localNodeid nodeids running s.peer s.phase)
    (hs : replicaStep localNodeid nodeids tvals s r = some s') :
    AbortInv localNodeid nodeids running s'.peer s'.phase := by
  obtain ⟨c, n, hcall, rfl⟩ := replicaStep_eq_some hs
  cases hphase : s.phase with
  | cancelling n' rest =>
    rw [hphase] at h hcall
    rw [Phase.call, Option.some_inj, Prod.mk.injEq] at hcall
    obtain ⟨rfl, rfl⟩ := hcall
    obtain ⟨hsuf, hpeer⟩ := h
    refine abortInv_cancelLoop ((List.suffix_cons _ rest).trans hsuf) fun m hm ↦ ?_
    refine ⟨mem_or_clear_update (hpeer m hm).1, ?_⟩
    rw [← (hpeer m hm).2]
    exact running_update (by simp) m
  | _ => rw [hphase] at h hcall; first | exact h.elim | exact absurd hcall (by simp [Phase.call])

end Steps

/-! ## Termination

The measure counts the calls a handler can still make: five for each peer the first loop has not
visited, three in the second, one in the third, and one in the closing loop that a failure enters.
-/

section Termination

variable {localNodeid : ℤ} {nodeids : List ℤ} {tvals : List TagValue}

/-- A bound on the calls still to be made, for a member list of length `len`. -/
def callsLeft (len : ℕ) : Phase Cell → ℕ
  | .preparing step _ rest =>
    match step with
    | .socket => 5 * len + 4 + 5 * rest.length + 5
    | .session => 5 * len + 4 + 5 * rest.length + 4
    | .lock i => 5 * len + 4 + 5 * rest.length + (3 - i)
    | .startTrans => 2 * len + 2 + 3 * rest.length + 3
    | .setValues => 2 * len + 2 + 3 * rest.length + 2
    | .validate => 2 * len + 2 + 3 * rest.length + 1
    | .prepare => len + 1 + rest.length + 1
  | .aborting _ rest => rest.length + 1
  | .cancelling _ rest => rest.length + 1
  | .committing .commit _ rest => len + 1 + 2 * rest.length + 2
  | .committing .finish _ rest => len + 1 + 2 * rest.length + 1
  | .committing .close _ rest => rest.length + 1
  | _ => 0

theorem callsLeft_loopFrom {len B : ℕ} {body : Cell → List Cell → Phase Cell} {after : Phase Cell}
    {l : List Cell} (hbody : ∀ n rest, rest.length < l.length → callsLeft len (body n rest) ≤ B)
    (hafter : callsLeft len after ≤ B) :
    callsLeft len (loopFrom (Cell.isLocal localNodeid) body after l) ≤ B := by
  refine loopFrom_rule (Q := fun p ↦ callsLeft len p ≤ B) ?_ fun _ ↦ hafter
  intro n rest h
  refine hbody n rest ?_
  have := (nextPeer_some h).2.1.length_le
  rw [List.length_cons] at this
  omega

theorem callsLeft_abortLoop (localNodeid : ℤ) (len : ℕ) (l : List Cell) :
    callsLeft len (abortLoop (Cell.isLocal localNodeid) l) ≤ l.length :=
  callsLeft_loopFrom (fun _ _ h ↦ h) (Nat.zero_le _)

theorem callsLeft_closeLoop (localNodeid : ℤ) (len : ℕ) (l : List Cell) :
    callsLeft len (closeLoop (Cell.isLocal localNodeid) l) ≤ l.length :=
  callsLeft_loopFrom (fun _ _ h ↦ h) (Nat.zero_le _)

theorem callsLeft_cancelLoop (localNodeid : ℤ) (len : ℕ) (l : List Cell) :
    callsLeft len (cancelLoop (Cell.isLocal localNodeid) l) ≤ l.length :=
  callsLeft_loopFrom (fun _ _ h ↦ h) (Nat.zero_le _)

theorem callsLeft_prepareLoop (localNodeid : ℤ) (len : ℕ) (l : List Cell) :
    callsLeft len (prepareLoop (Cell.isLocal localNodeid) l) ≤ len + 1 + l.length :=
  callsLeft_loopFrom (fun _ _ h ↦ by rw [callsLeft]; omega) (Nat.zero_le _)

theorem callsLeft_writeLoop (localNodeid : ℤ) (nodes l : List Cell) :
    callsLeft nodes.length (writeLoop (Cell.isLocal localNodeid) nodes l)
      ≤ 2 * nodes.length + 2 + 3 * l.length := by
  refine callsLeft_loopFrom (fun _ _ h ↦ by rw [callsLeft]; omega) ?_
  have := callsLeft_prepareLoop localNodeid nodes.length nodes
  omega

theorem callsLeft_lockLoop (localNodeid : ℤ) (nodes l : List Cell) :
    callsLeft nodes.length (lockLoop (Cell.isLocal localNodeid) nodes l)
      ≤ 5 * nodes.length + 4 + 5 * l.length := by
  refine callsLeft_loopFrom (fun _ _ h ↦ by rw [callsLeft]; omega) ?_
  have := callsLeft_writeLoop localNodeid nodes nodes
  omega

theorem callsLeft_commitLoop (localNodeid : ℤ) (nodes l : List Cell) :
    callsLeft nodes.length (commitLoop (Cell.isLocal localNodeid) nodes l)
      ≤ nodes.length + 1 + 2 * l.length := by
  refine callsLeft_loopFrom (fun _ _ h ↦ by rw [callsLeft]; omega) ?_
  have := callsLeft_closeLoop localNodeid nodes.length nodes
  omega

/-- Every result of a call in the three loops lowers the measure. -/
theorem callsLeft_onOk {step : PrepareStep} (hi : ∀ i, step = .lock i → i ≤ numLockRetries)
    (nodes rest : List Cell) (n : Cell) :
    callsLeft nodes.length (step.onOk (Cell.isLocal localNodeid) nodes n rest)
      < callsLeft nodes.length (.preparing step n rest) := by
  cases step with
  | lock i =>
    have hi' : i ≤ 2 := hi i rfl
    refine lt_of_le_of_lt (callsLeft_lockLoop _ nodes rest) ?_
    simp only [callsLeft]
    omega
  | validate =>
    refine lt_of_le_of_lt (callsLeft_writeLoop _ nodes rest) ?_
    simp only [callsLeft]
    omega
  | prepare =>
    refine lt_of_le_of_lt (callsLeft_prepareLoop _ nodes.length rest) ?_
    simp only [callsLeft]
    omega
  | _ => simp only [PrepareStep.onOk, callsLeft]; omega

theorem callsLeft_onErr {step : PrepareStep} (hi : ∀ i, step = .lock i → i ≤ numLockRetries)
    (nodes rest : List Cell) (n : Cell) :
    callsLeft nodes.length (step.onErr (Cell.isLocal localNodeid) nodes n rest)
      < callsLeft nodes.length (.preparing step n rest) := by
  have habort := callsLeft_abortLoop localNodeid nodes.length nodes
  cases step with
  | lock i =>
    have hi' : i ≤ 2 := hi i rfl
    rw [PrepareStep.onErr]
    by_cases hlast : i = numLockRetries
    · rw [if_pos hlast]
      refine lt_of_le_of_lt habort ?_
      simp only [callsLeft]
      omega
    · have hne : i ≠ 2 := hlast
      rw [if_neg hlast]
      simp only [callsLeft]
      omega
  | _ => exact lt_of_le_of_lt habort (by simp only [callsLeft]; omega)

variable {s s' : Replica} {r : Reply} {running : Cell → List (List TagValue)}

theorem PrepareState.callsLeft_lt (h : PrepareState localNodeid nodeids tvals running s)
    (hs : replicaStep localNodeid nodeids tvals s r = some s') :
    callsLeft (memberCells nodeids).length s'.phase
      < callsLeft (memberCells nodeids).length s.phase := by
  obtain ⟨hinv, -, -⟩ := h
  obtain ⟨c, n, hcall, rfl⟩ := replicaStep_eq_some hs
  cases hphase : s.phase with
  | preparing step n' rest =>
    rw [hphase] at hinv
    have hi : ∀ i, step = .lock i → i ≤ numLockRetries := by
      rintro i rfl
      exact hinv.2.2.2 n' ⟨hinv.2.1.subset List.mem_cons_self, hinv.2.2.1⟩
    simp only [Phase.next]
    by_cases hr : r.ok = true
    · rw [if_pos hr]
      exact callsLeft_onOk hi _ rest n'
    · rw [if_neg hr]
      exact callsLeft_onErr hi _ rest n'
  | aborting n' rest =>
    exact lt_of_le_of_lt (callsLeft_abortLoop _ _ rest) (Nat.lt_succ_self _)
  | _ =>
    rw [hphase] at hinv hcall
    first | exact hinv.elim | exact absurd hcall (by simp [Phase.call])

theorem callsLeft_lt_of_commitInv
    (h : CommitInv localNodeid nodeids tvals running s.peer s.phase)
    (hs : replicaStep localNodeid nodeids tvals s r = some s') :
    callsLeft (memberCells nodeids).length s'.phase
      < callsLeft (memberCells nodeids).length s.phase := by
  obtain ⟨c, n, hcall, rfl⟩ := replicaStep_eq_some hs
  cases hphase : s.phase with
  | committing step n' rest =>
    cases step with
    | commit => simp only [Phase.next, callsLeft]; omega
    | finish =>
      refine lt_of_le_of_lt (callsLeft_commitLoop _ _ rest) ?_
      simp only [callsLeft]
      omega
    | close => exact lt_of_le_of_lt (callsLeft_closeLoop _ _ rest) (Nat.lt_succ_self _)
  | _ => rw [hphase] at h hcall; first | exact h.elim | exact absurd hcall (by simp [Phase.call])

theorem callsLeft_lt_of_abortInv (h : AbortInv localNodeid nodeids running s.peer s.phase)
    (hs : replicaStep localNodeid nodeids tvals s r = some s') :
    callsLeft (memberCells nodeids).length s'.phase
      < callsLeft (memberCells nodeids).length s.phase := by
  obtain ⟨c, n, hcall, rfl⟩ := replicaStep_eq_some hs
  cases hphase : s.phase with
  | cancelling n' rest =>
    exact lt_of_le_of_lt (callsLeft_cancelLoop _ _ rest) (Nat.lt_succ_self _)
  | _ => rw [hphase] at h hcall; first | exact h.elim | exact absurd hcall (by simp [Phase.call])

end Termination

/-! ## Whole handlers -/

section Handlers

variable {localNodeid : ℤ} {nodeids : List ℤ} {tvals : List TagValue} {s : Replica}
  {running : Cell → List (List TagValue)}

theorem halted_or_total (s : Replica) : (replicaMachine localNodeid nodeids tvals).Halted s ∨
    ∀ r, ((replicaMachine localNodeid nodeids tvals).step s r).isSome := by
  cases hcall : s.phase.call with
  | none => exact Or.inl fun r ↦ by simp [replicaMachine, replicaStep, hcall]
  | some cn => exact Or.inr fun r ↦ by simp [replicaMachine, replicaStep, hcall]

theorem call_eq_none_of_halted (h : (replicaMachine localNodeid nodeids tvals).Halted s) :
    s.phase.call = none := by
  have := h ⟨true, true⟩
  simpa [replicaMachine, replicaStep] using this

theorem prepareState_startPrepare :
    PrepareState localNodeid nodeids tvals running
      (startPrepare localNodeid nodeids tvals running) := by
  refine ⟨?_, rfl, fun m ↦ rfl⟩
  by_cases hne : tvals = []
  · subst hne
    exact fun h ↦ absurd rfl h
  · have hlen : ¬tvals.length = 0 := by simpa using hne
    simp only [startPrepare, subPrepare, Bool.false_eq_true, if_false, hlen]
    exact prepareInv_lockLoop hne (List.suffix_refl _)

/-- `CDB_SUB_PREPARE` comes to an end, by refusing or accepting the local transaction. -/
theorem exists_drive_prepare (r : ℕ → Reply)
    (h : PrepareState localNodeid nodeids tvals running s) : ∃ k,
    PrepareState localNodeid nodeids tvals running
        ((replicaMachine localNodeid nodeids tvals).drive r k s) ∧
      (((replicaMachine localNodeid nodeids tvals).drive r k s).phase = .refused ∨
        ((replicaMachine localNodeid nodeids tvals).drive r k s).phase = .prepared) := by
  obtain ⟨k, hhalt, hst⟩ :=
    Machine.drive_halts (I := PrepareState localNodeid nodeids tvals running)
    (fun s r s' h hs ↦ ⟨prepareState_step h hs, h.callsLeft_lt hs⟩)
    (fun s _ ↦ halted_or_total s) _ r h le_rfl
  refine ⟨k, hst, ?_⟩
  have hcall := call_eq_none_of_halted hhalt
  have hinv := hst.1
  cases hphase : ((replicaMachine localNodeid nodeids tvals).drive r k s).phase with
  | refused => exact Or.inl rfl
  | prepared => exact Or.inr rfl
  | _ =>
    rw [hphase] at hinv hcall
    first | exact hinv.elim | exact absurd hcall (by simp [Phase.call])

/-- `CDB_SUB_COMMIT` after every peer has prepared commits everywhere and leaves nothing behind. -/
theorem exists_drive_commit (r : ℕ → Reply) (hne : tvals ≠ []) (hnvals : s.nvals = tvals.length)
    (hpeer : ∀ m, IsPeer localNodeid nodeids m →
      (s.peer m).Holds tvals .prepared ∧ (s.peer m).running = running m) : ∃ k,
    ((replicaMachine localNodeid nodeids tvals).drive r k
        (startCommit localNodeid nodeids s)).phase = .settling ∧
      ∀ m, IsPeer localNodeid nodeids m →
        (((replicaMachine localNodeid nodeids tvals).drive r k
          (startCommit localNodeid nodeids s)).peer m).Clear ∧
        (((replicaMachine localNodeid nodeids tvals).drive r k
          (startCommit localNodeid nodeids s)).peer m).running = running m ++ [tvals] := by
  have hpos : 0 < tvals.length := List.length_pos_of_ne_nil hne
  have hstart : CommitInv localNodeid nodeids tvals running
      (startCommit localNodeid nodeids s).peer (startCommit localNodeid nodeids s).phase := by
    simp only [startCommit, subCommit, hnvals, gt_iff_lt, hpos, decide_true, Bool.not_false,
      Bool.and_self, if_true]
    refine commitInv_commitLoop (List.suffix_refl _) fun m hm ↦ ?_
    rw [if_pos hm.1]
    exact hpeer m hm
  -- no reply can stop the commit loops, so the handler reaches its end with the invariant
  obtain ⟨k, hhalt, hinv⟩ := Machine.drive_halts
    (I := fun s ↦ CommitInv localNodeid nodeids tvals running s.peer s.phase)
    (fun s r s' h hs ↦ ⟨commitInv_step h hs, callsLeft_lt_of_commitInv h hs⟩)
    (fun s _ ↦ halted_or_total s) _ r hstart le_rfl
  refine ⟨k, ?_⟩
  have hcall := call_eq_none_of_halted hhalt
  cases hphase : ((replicaMachine localNodeid nodeids tvals).drive r k
      (startCommit localNodeid nodeids s)).phase with
  | settling => rw [hphase] at hinv; exact ⟨rfl, hinv⟩
  | _ =>
    rw [hphase] at hinv hcall
    first | exact hinv.elim | exact absurd hcall (by simp [Phase.call])

/-- `CDB_SUB_ABORT` leaves nothing behind, whatever the peers held. -/
theorem exists_drive_abort (r : ℕ → Reply) (hrun : ∀ m, (s.peer m).running = running m) : ∃ k,
    ((replicaMachine localNodeid nodeids tvals).drive r k
        (startAbort localNodeid nodeids s)).phase = .cancelled ∧
      ∀ m, IsPeer localNodeid nodeids m →
        (((replicaMachine localNodeid nodeids tvals).drive r k
          (startAbort localNodeid nodeids s)).peer m).Clear ∧
        (((replicaMachine localNodeid nodeids tvals).drive r k
          (startAbort localNodeid nodeids s)).peer m).running = running m := by
  have hstart : AbortInv localNodeid nodeids running
      (startAbort localNodeid nodeids s).peer (startAbort localNodeid nodeids s).phase :=
    abortInv_cancelLoop (List.suffix_refl _) fun m hm ↦ ⟨Or.inl hm.1, hrun m⟩
  obtain ⟨k, hhalt, hinv⟩ := Machine.drive_halts
    (I := fun s ↦ AbortInv localNodeid nodeids running s.peer s.phase)
    (fun s r s' h hs ↦ ⟨abortInv_step h hs, callsLeft_lt_of_abortInv h hs⟩)
    (fun s _ ↦ halted_or_total s) _ r hstart le_rfl
  refine ⟨k, ?_⟩
  have hcall := call_eq_none_of_halted hhalt
  cases hphase : ((replicaMachine localNodeid nodeids tvals).drive r k
      (startAbort localNodeid nodeids s)).phase with
  | cancelled => rw [hphase] at hinv; exact ⟨rfl, hinv⟩
  | _ =>
    rw [hphase] at hinv hcall
    first | exact hinv.elim | exact absurd hcall (by simp [Phase.call])

end Handlers

/-! ## All or nothing -/

/-- The state in which `CDB_SUB_PREPARE` has run for `k` calls. -/
def preparedAfter (localNodeid : ℤ) (nodeids : List ℤ) (tvals : List TagValue)
    (running : Cell → List (List TagValue)) (r : ℕ → Reply) (k : ℕ) : Replica :=
  (replicaMachine localNodeid nodeids tvals).drive r k
    (startPrepare localNodeid nodeids tvals running)

/-- **All or nothing.** For every member list and every pattern of failures the handler ends.
Either it refuses the local transaction and nothing of ours is left on any peer, or it accepts it;
then every peer holds a prepared transaction with exactly the fetched modifications (with none
fetched, no peer has been contacted), `CDB_SUB_COMMIT` commits them all and leaves nothing behind,
and `CDB_SUB_ABORT` leaves nothing behind and commits nothing. -/
theorem replication_all_or_nothing (localNodeid : ℤ) (nodeids : List ℤ) (tvals : List TagValue)
    (running : Cell → List (List TagValue)) (r : ℕ → Reply) : ∃ k s,
    s = preparedAfter localNodeid nodeids tvals running r k ∧
      ((s.phase = .refused ∧ ∀ m, IsPeer localNodeid nodeids m →
          (s.peer m).Clear ∧ (s.peer m).running = running m) ∨
        (s.phase = .prepared ∧
          (tvals = [] → ∀ m, s.peer m = .idle (running m)) ∧
          (tvals ≠ [] → ∀ m, IsPeer localNodeid nodeids m → (s.peer m).Holds tvals .prepared) ∧
          (∀ r', ∃ k' t, t = (replicaMachine localNodeid nodeids tvals).drive r' k'
              (startCommit localNodeid nodeids s) ∧ t.phase = .settling ∧
            ∀ m, IsPeer localNodeid nodeids m → (t.peer m).Clear ∧
              (t.peer m).running = running m ++ if tvals = [] then [] else [tvals]) ∧
          ∀ r', ∃ k' t, t = (replicaMachine localNodeid nodeids tvals).drive r' k'
              (startAbort localNodeid nodeids s) ∧ t.phase = .cancelled ∧
            ∀ m, IsPeer localNodeid nodeids m →
              (t.peer m).Clear ∧ (t.peer m).running = running m)) := by
  by_cases hne : tvals = []
  · -- nothing fetched: the handler accepts at once and the peers are as they were
    subst hne
    refine ⟨0, _, rfl, Or.inr ⟨rfl, fun _ m ↦ rfl, fun h ↦ absurd rfl h, ?_, ?_⟩⟩
    · intro r'
      refine ⟨0, _, rfl, rfl, fun m _ ↦ ⟨⟨rfl, rfl, rfl⟩, ?_⟩⟩
      rw [if_pos rfl, List.append_nil]
      rfl
    · intro r'
      have hrun : ∀ m, ((startPrepare localNodeid nodeids [] running).peer m).running = running m :=
        fun m ↦ rfl
      obtain ⟨k', hphase, hpeer⟩ := exists_drive_abort r' hrun
      exact ⟨k', _, rfl, hphase, hpeer⟩
  · have hstart : PrepareState localNodeid nodeids tvals running
        (startPrepare localNodeid nodeids tvals running) := prepareState_startPrepare
    obtain ⟨k, ⟨hinv, hnvals, hrun⟩, hend⟩ := exists_drive_prepare r hstart
    refine ⟨k, _, rfl, ?_⟩
    rcases hend with hphase | hphase
    · -- refused: the abort loop has closed every session
      rw [hphase] at hinv
      exact Or.inl ⟨hphase, fun m hm ↦ ⟨hinv m hm, hrun m⟩⟩
    · -- prepared: either ending starts from every peer holding the transaction
      rw [hphase] at hinv
      refine Or.inr ⟨hphase, fun h ↦ absurd h hne, hinv, ?_, ?_⟩
      · intro r'
        obtain ⟨k', hphase', hpeer⟩ := exists_drive_commit r' hne hnvals
          fun m hm ↦ ⟨hinv hne m hm, hrun m⟩
        rw [if_neg hne]
        exact ⟨k', _, rfl, hphase', hpeer⟩
      · intro r'
        obtain ⟨k', hphase', hpeer⟩ := exists_drive_abort r' hrun
        exact ⟨k', _, rfl, hphase', hpeer⟩

/-- Without modifications the handler accepts although no peer holds a transaction. -/
theorem accepts_without_transaction : ¬∀ (localNodeid : ℤ) (nodeids : List ℤ)
    (tvals : List TagValue) (running : Cell → List (List TagValue)) (r : ℕ → Reply), ∃ k s,
    s = preparedAfter localNodeid nodeids tvals running r k ∧
      ((s.phase = .refused ∧ ∀ m, IsPeer localNodeid nodeids m → (s.peer m).Clear) ∨
        (s.phase = .prepared ∧
          ∀ m, IsPeer localNodeid nodeids m → (s.peer m).Holds tvals .prepared)) := by
  intro h
  obtain ⟨k, s, rfl, hs⟩ := h 0 [0, 1] [] (fun _ ↦ []) fun _ ↦ ⟨true, true⟩
  have hhalt : (replicaMachine 0 [0, 1] []).Halted (startPrepare 0 [0, 1] [] fun _ ↦ []) :=
    fun r ↦ rfl
  rw [preparedAfter, Machine.drive_of_halted hhalt] at hs
  rcases hs with ⟨hphase, -⟩ | ⟨-, hpeer⟩
  · exact absurd hphase (by decide)
  · have hholds := hpeer (1, 1) ⟨by decide, by decide⟩
    exact absurd hholds (by simp [PeerSide.Holds, startPrepare, PeerSide.idle])

end ConfdDemos.Aasync
