import ConfdDemos.Aasync.Daemon
import ConfdDemos.Foundation.Machine
import Mathlib.Logic.Function.Basic

/-!
# A cluster of active nodes

Every node runs ConfD and a daemon. An operator's transaction on any node makes that node's daemon
an initiator, which locks the other nodes one by one, writes the modifications there, and has them
prepare and commit together with the local transaction. Any number of initiators may be under way;
the machine interleaves single MAAPI calls.

## What ConfD does

A lock is refused while the node has a transaction between its `trans_lock` and its end, or is
locked by another session; no other call fails. The lock callback runs when a lock is granted,
`t_lock` when validation starts, `t_finish` when a transaction that had started ends. Closing a
session drops its lock and its transaction and runs no callback. A call that has to wait for the
daemon of the other node stays pending: `prepare` until that daemon has answered `CDB_SUB_PREPARE`,
`commit` until it has answered `CDB_SUB_COMMIT`.

The daemon of a node is busy exactly while the transaction of that node is in a phase inside a
handler, so the phase of the transaction is also the program counter of the daemon.
-/

namespace ConfdDemos.Aasync

/-! ## Nodes -/

/-- Who a session on a node belongs to: an operator, or the daemon of another node. -/
inductive Client
  | operator (usid : ℕ) (username : List Char)
  | peer (nodeid : ℤ)
  deriving DecidableEq, Repr

def Client.username : Client → List Char
  | .operator _ username => username
  | .peer nodeid => progname nodeid

/-- The transaction of a node between its `trans_lock` and its end. -/
structure Trans where
  owner : Client
  /-- The modifications under `ACTIVE_CFG_PATH`. -/
  tvals : List TagValue
  phase : Phase ℤ
  deriving DecidableEq, Repr

/-- The parts of ConfD that decide what a transaction does to the data. -/
structure Confd (D : Type*) where
  /-- The data under `ACTIVE_CFG_PATH` after modifications have been written. -/
  setValues : D → List TagValue → D
  /-- No modifications, no change. -/
  setValues_nil : ∀ d, setValues d [] = d
  /-- `cdb_get_modifications` of the same transaction at `AACLUSTER_PATH`. -/
  aaclusterPart : List TagValue → List TagValue

structure Node (D : Type*) where
  data : D
  aasyncUsr : Bool
  nvals : ℕ
  /-- `aasync_nodes`. -/
  nodes : NodeList
  /-- The holder of the global lock on the running datastore. -/
  lock : Option Client
  /-- What a peer has written into a transaction it has started here and not validated. -/
  started : ℤ → Option (List TagValue)
  crit : Option Trans

/-- The nodes by their ids. -/
abbrev Cluster (D : Type*) := ℤ → Node D

section Calls

variable {D : Type*} (C : Confd D)

/-- The lock after a client gave it up. -/
def dropLock (c : Client) (lock : Option Client) : Option Client :=
  if lock = some c then none else lock

/-- Grant the lock to a client and run the lock callback. -/
def Node.grant (id : ℤ) (c : Client) (N : Node D) : Node D :=
  { N with
    lock := some c
    aasyncUsr := globalLock id c.username .running N.aasyncUsr }

/-- A client's transaction takes the transaction lock, and `t_lock` runs. -/
def Node.enter (id : ℤ) (c : Client) (tvals : List TagValue) (N : Node D) : Node D :=
  { N with
    crit := some ⟨c, tvals, .validated⟩
    lock := if tLock id c.username then dropLock c N.lock else N.lock }

/-- The transaction of the node ends, and `t_finish` runs. -/
def Node.endTrans (id : ℤ) (c : Client) (N : Node D) : Node D :=
  { N with crit := none, aasyncUsr := tFinish id c.username N.aasyncUsr }

/-- The transaction of the node is written and `CDB_SUB_COMMIT` is delivered. -/
def Node.write (id : ℤ) (t : Trans) (N : Node D) : Node D :=
  { N with
    data := C.setValues N.data t.tvals
    crit := some { t with phase := subCommit (· == id) N.nodes.nodeids N.aasyncUsr N.nvals } }

/-- A MAAPI call by the daemon of `a`, which is replicating `tvals`, to the node `p`. A call is
disabled, or pending (no result yet), or returns whether it succeeded. -/
def Node.exec (a p : ℤ) (tvals : List TagValue) (N : Node D) : Call → Option (Option Bool × Node D)
  | .socket => some (some true, N)
  | .session => some (some true, N)
  | .lock =>
    if N.lock = none ∧ N.crit = none then some (some true, N.grant p (.peer a))
    else some (some false, N)
  | .startTrans => some (some true, { N with started := Function.update N.started a (some []) })
  | .setValues =>
    (N.started a).map fun vs ↦
      (some true, { N with started := Function.update N.started a (some (vs ++ tvals)) })
  | .validate =>
    match N.started a with
    | some vs =>
      if N.crit = none ∧ (N.lock = none ∨ N.lock = some (.peer a)) then
        some (some true, N.enter p (.peer a) vs)
      else none
    | none => none
  | .prepare =>
    match N.crit with
    | some ⟨owner, _, phase⟩ =>
      if owner = .peer a ∧ phase = .prepared then some (some true, N)
      else if owner = .peer a ∧ phase = .refused then some (some false, N)
      else none
    | none => none
  | .commit =>
    match N.crit with
    | some t =>
      if t.owner = .peer a ∧ t.phase = .prepared then some (none, N.write C p t)
      else if t.owner = .peer a ∧ t.phase = .committed then some (some true, N)
      else none
    | none => none
  | .finish =>
    match N.crit with
    | some t =>
      if t.owner = .peer a ∧ t.phase = .committed then some (some true, N.endTrans p (.peer a))
      else none
    | none => none
  | .close =>
    some (some true, { N with
      lock := dropLock (.peer a) N.lock
      started := Function.update N.started a none
      crit := N.crit.filter fun t ↦ t.owner ≠ .peer a })

end Calls

/-! ## The machine -/

inductive ClusterEvent
  /-- An operator takes the global lock. -/
  | opLock (n : ℤ) (usid : ℕ) (username : List Char)
  /-- An operator gives it up, or its session ends. -/
  | opUnlock (n : ℤ)
  /-- An operator's transaction enters validation. -/
  | opValidate (n : ℤ) (usid : ℕ) (username : List Char) (tvals : List TagValue)
  /-- The daemon receives `CDB_SUB_PREPARE`. -/
  | subPrepare (n : ℤ)
  /-- The daemon makes the MAAPI call its handler has come to. -/
  | call (n : ℤ)
  /-- The daemon updates its member list and acknowledges `CDB_SUB_COMMIT`. -/
  | settle (n : ℤ)
  /-- The operator's transaction commits; the daemon receives `CDB_SUB_COMMIT`. -/
  | opCommit (n : ℤ)
  /-- The operator's transaction is aborted; the daemon receives `CDB_SUB_ABORT`. -/
  | opAbort (n : ℤ)
  /-- The operator's transaction ends. -/
  | opFinish (n : ℤ)
  deriving DecidableEq, Repr

/-- The node an event happens on. -/
def ClusterEvent.node : ClusterEvent → ℤ
  | .opLock n _ _ => n
  | .opUnlock n => n
  | .opValidate n _ _ _ => n
  | .subPrepare n => n
  | .call n => n
  | .settle n => n
  | .opCommit n => n
  | .opAbort n => n
  | .opFinish n => n

/-- The owner of a transaction has asked for `CDB_SUB_PREPARE`: an operator's transaction goes on by
itself, a peer's when its initiator has come to the call. -/
def requested {D : Type*} (s : Cluster D) (n : ℤ) (t : Trans) : Bool :=
  match t.owner with
  | .operator _ _ => true
  | .peer a =>
    match (s a).crit with
    | some ⟨_, _, .preparing .prepare p _⟩ => p == n
    | _ => false

/-- The phases in which an operator's transaction may end. -/
def Phase.over {ν : Type*} : Phase ν → Bool
  | .validated => true
  | .refused => true
  | .cancelled => true
  | .committed => true
  | _ => false

section Machine

variable {D : Type*} (C : Confd D) (ids : List ℤ)

/-- What an event does to the node it happens on, when it touches no other node. -/
def Node.step (s : Cluster D) (N : Node D) : ClusterEvent → Option (Node D)
  | .opLock n usid username =>
    if N.lock = none ∧ N.crit = none then some (N.grant n (.operator usid username)) else none
  | .opUnlock _ =>
    match N.lock with
    | some (.operator _ _) => some { N with lock := none }
    | _ => none
  | .opValidate n usid username tvals =>
    if N.crit = none ∧ (N.lock = none ∨ N.lock = some (.operator usid username)) then
      some (N.enter n (.operator usid username) tvals)
    else none
  | .subPrepare n =>
    match N.crit with
    | some t =>
      if t.phase = .validated ∧ requested s n t then
        some { N with
          nvals := (subPrepare (· == n) N.nodes.nodeids N.aasyncUsr t.tvals).1
          crit := some
            { t with phase := (subPrepare (· == n) N.nodes.nodeids N.aasyncUsr t.tvals).2 } }
      else none
    | none => none
  | .call _ => none
  | .settle _ =>
    match N.crit with
    | some t =>
      if t.phase = .settling then
        (handleAaclusterModifications N.nodes (C.aaclusterPart t.tvals)).map fun nodes ↦
          { N with
            nodes := nodes
            nvals := (C.aaclusterPart t.tvals).length
            crit := some { t with phase := .committed } }
      else none
    | none => none
  | .opCommit n =>
    match N.crit with
    | some ⟨.operator usid username, tvals, .prepared⟩ =>
      some (N.write C n ⟨.operator usid username, tvals, .prepared⟩)
    | _ => none
  | .opAbort n =>
    match N.crit with
    | some ⟨.operator usid username, tvals, .prepared⟩ =>
      some { N with
        crit := some ⟨.operator usid username, tvals, subAbort (· == n) N.nodes.nodeids⟩ }
    | _ => none
  | .opFinish n =>
    match N.crit with
    | some ⟨.operator usid username, _, phase⟩ =>
      if phase.over then some (N.endTrans n (.operator usid username)) else none
    | _ => none

/-- The daemon of `n` makes its next call; when the call returns, its handler moves on. -/
def callStep (s : Cluster D) (n : ℤ) : Option (Cluster D) :=
  match (s n).crit with
  | some t =>
    match t.phase.call with
    | some (c, p) =>
      ((s p).exec C n p t.tvals c).map fun res ↦
        match res.1 with
        | none => Function.update s p res.2
        | some ok =>
          Function.update (Function.update s p res.2) n
            { s n with
              crit := some
                { t with phase := t.phase.next (· == n) (s n).nodes.nodeids ok } }
    | none => none
  | none => none

def clusterStep (s : Cluster D) (e : ClusterEvent) : Option (Cluster D) :=
  if e.node ∈ ids then
    match e with
    | .call n => callStep C s n
    | e => ((s e.node).step C s e).map fun N ↦ Function.update s e.node N
  else none

/-- Every interleaving of operators and daemons on the nodes `ids`. -/
def clusterMachine : Machine (Cluster D) ClusterEvent := ⟨clusterStep C ids⟩

/-! ## The statement -/

/-- Every node lists every other one, and itself. -/
def FullMesh (s : Cluster D) : Prop := ∀ n ∈ ids, (s n).nodes.nodeids.Perm ids

/-- The cluster at rest with equal data, before the first transaction. -/
structure ClusterInit (s : Cluster D) : Prop where
  nodup : ids.Nodup
  mesh : FullMesh ids s
  data_eq : ∀ n ∈ ids, ∀ m ∈ ids, (s n).data = (s m).data
  usr : ∀ n ∈ ids, (s n).aasyncUsr = false
  lock : ∀ n ∈ ids, (s n).lock = none
  crit : ∀ n ∈ ids, (s n).crit = none

/-- No transaction is in progress on any node. -/
def Quiet (s : Cluster D) : Prop := ∀ n ∈ ids, (s n).crit = none

/-- The transaction belongs to an operator. -/
def Trans.isOperator (t : Trans) : Bool :=
  match t.owner with
  | .operator _ _ => true
  | .peer _ => false

/-- A step is taken in a full mesh, and `CDB_SUB_PREPARE` of an operator's transaction is handled
only while the flag of that node is down. -/
def GuardDown (s : Cluster D) (e : ClusterEvent) : Prop :=
  FullMesh ids s ∧
    match e with
    | .subPrepare n => ∀ t ∈ (s n).crit, t.isOperator = true → (s n).aasyncUsr = false
    | _ => True

end Machine

end ConfdDemos.Aasync
