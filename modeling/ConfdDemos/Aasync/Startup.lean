import Mathlib.Algebra.Ring.Int.Defs
import Mathlib.Data.List.AList
import ConfdDemos.Aasync.Membership

/-!
# The member list at startup

`main` puts the local node into an empty list and joins the other nodes of the local node list. A
node that joins a running cluster then reads the node list of the init node, copies it into its own
CDB and joins the nodes it finds there: all but itself and the init node, which it takes to be the
only ones its list has already. `startup_cases` says what the list is in each case, and
`startup_unique_iff` when it names every node of the resulting node list once.

A call to a peer or to ConfD that fails is fatal here, so a startup that comes to its end is one
in which all of them have succeeded. What is registered on nodes other than the init node is not
looked at again and is left out.
-/

namespace ConfdDemos.Aasync

/-- The node list of a CDB: an address and a port for each id. -/
abbrev NodeConfig := AList fun _ : ℤ ↦ ℕ × ℕ

/-- `inet_addr(CONFD_IP)`, in network byte order. -/
def confdIp : ℕ := 0x0100007f

/-- `CONFD_PORT`. -/
def confdPort : ℤ := 4565

/-- The local entry, at the address ConfD listens on; `htons` takes sixteen bits. -/
def localNode (localNodeid : ℤ) : Aanode :=
  ⟨localNodeid, confdIp, ((confdPort + 10 * localNodeid) % 2 ^ 16).toNat, 0, 0⟩

/-- The loops that join the entries of a node list: `skip` is the test that passes over one. -/
def joinEntries (skip : ℤ → Bool) (l : NodeList) (es : List ((_ : ℤ) × ℕ × ℕ)) : NodeList :=
  es.foldl (fun l e ↦ if skip e.1 then l else l.join ⟨e.1, e.2.1, e.2.2, 0, 0⟩) l

/-- The list `main` reads from the local CDB. -/
def initNodes (localNodeid : ℤ) (cdb : NodeConfig) : Option NodeList :=
  if cdb.keys.length < 2 then none
  else some (joinEntries (· == localNodeid) (NodeList.join ⟨[], 0⟩ (localNode localNodeid))
    cdb.entries)

/-- What startup reads and writes: the member list, the local node list and that of the init
node. -/
structure Startup where
  nodes : NodeList
  cdb : NodeConfig
  remote : NodeConfig

/-- `maapi_set_object` for each entry in turn. -/
def setObjects (cdb : NodeConfig) (es : List ((_ : ℤ) × ℕ × ℕ)) : NodeConfig :=
  es.foldl (fun c e ↦ c.insert e.1 e.2) cdb

/-- The part of `start_phase1_aasync` that a joining node adds. -/
def joinCluster (localNodeid initNodeid : ℤ) (s : Startup) : Option Startup :=
  if s.remote.keys.length < 2 then none
  else
    let cdb := setObjects s.cdb s.remote.entries
    let nodes := joinEntries (fun i ↦ i == localNodeid || i == initNodeid) s.nodes s.remote.entries
    -- a read that finds no local entry leaves the buffer with an entry the init node has already
    let remote := match cdb.lookup localNodeid with
      | some a => s.remote.insert localNodeid a
      | none => s.remote
    some ⟨nodes, cdb, remote⟩

/-- `start_phase1_aasync`. -/
def startPhase1Aasync (join : Bool) (localNodeid initNodeid : ℤ) (s : Startup) : Option Startup :=
  if localNodeid = initNodeid then some s
  else do
    let _inode ← s.nodes.find initNodeid
    if join then joinCluster localNodeid initNodeid s else some s

/-- `main` up to the end of `start_phase1_aasync`. -/
def startup (join : Bool) (localNodeid initNodeid : ℤ) (cdb remote : NodeConfig) :
    Option Startup := do
  let nodes ← initNodes localNodeid cdb
  startPhase1Aasync join localNodeid initNodeid ⟨nodes, cdb, remote⟩

section Ids

variable {skip : ℤ → Bool} {l : NodeList} {join : Bool} {localNodeid initNodeid x : ℤ}
  {cdb remote : NodeConfig}

theorem nodeids_joinEntries (es : List ((_ : ℤ) × ℕ × ℕ)) :
    (joinEntries skip l es).nodeids = (es.keys.filter fun i ↦ !skip i).reverse ++ l.nodeids := by
  induction es generalizing l with
  | nil => rfl
  | cons e es ih =>
    rw [joinEntries, List.foldl_cons, ← joinEntries, ih, List.keys_cons]
    by_cases hskip : skip e.1 = true
    · rw [if_pos hskip, List.filter_cons_of_neg (by simp [hskip])]
    · have hcons : (l.join ⟨e.1, e.2.1, e.2.2, 0, 0⟩).nodeids = e.1 :: l.nodeids := rfl
      rw [if_neg hskip, List.filter_cons_of_pos (by simp [hskip]), List.reverse_cons,
        List.append_assoc, hcons, List.singleton_append]

theorem mem_setObjects (es : List ((_ : ℤ) × ℕ × ℕ)) :
    x ∈ setObjects cdb es ↔ x ∈ cdb ∨ x ∈ es.keys := by
  induction es generalizing cdb with
  | nil => simp [setObjects]
  | cons e es ih =>
    rw [setObjects, List.foldl_cons, ← setObjects, ih, AList.mem_insert, List.keys_cons,
      List.mem_cons]
    exact ⟨by rintro ((h | h) | h) <;> simp [h], by rintro (h | h | h) <;> simp [h]⟩

/-- The ids `main` reads: the other nodes, last entry first, and the local one. -/
theorem nodeids_initNodes (h : initNodes localNodeid cdb = some l) :
    l.nodeids = (cdb.keys.filter fun i ↦ !(i == localNodeid)).reverse ++ [localNodeid] := by
  rw [initNodes] at h
  split_ifs at h
  rw [← Option.some_inj.mp h, nodeids_joinEntries]
  rfl

theorem nodup_initNodes (h : initNodes localNodeid cdb = some l) : l.nodeids.Nodup := by
  rw [nodeids_initNodes h]
  refine List.nodup_append.mpr ⟨?_, List.nodup_singleton _, ?_⟩
  · exact List.nodup_reverse.mpr (cdb.keys_nodup.filter _)
  · intro a ha b hb
    rw [List.mem_singleton] at hb
    rintro rfl
    simp [hb] at ha

theorem mem_initNodes (h : initNodes localNodeid cdb = some l) :
    x ∈ l.nodeids ↔ x = localNodeid ∨ x ∈ cdb := by
  rw [nodeids_initNodes h, List.mem_append, List.mem_reverse, List.mem_filter, List.mem_singleton,
    AList.mem_keys]
  by_cases hx : x = localNodeid <;> simp [hx]

theorem joinCluster_eq {s s' : Startup} (h : joinCluster localNodeid initNodeid s = some s') :
    s'.nodes = joinEntries (fun i ↦ i == localNodeid || i == initNodeid) s.nodes s.remote.entries ∧
      s'.cdb = setObjects s.cdb s.remote.entries := by
  rw [joinCluster] at h
  split_ifs at h
  rw [← Option.some_inj.mp h]
  exact ⟨rfl, rfl⟩

/-- Joining a cluster adds the nodes of the init node's list, some of them a second time. -/
theorem nodeids_joinCluster {s s' : Startup} (h : joinCluster localNodeid initNodeid s = some s') :
    s'.nodes.nodeids = (s.remote.keys.filter
      fun i ↦ !(i == localNodeid || i == initNodeid)).reverse ++ s.nodes.nodeids := by
  rw [(joinCluster_eq h).1, nodeids_joinEntries]
  rfl

theorem mem_cdb_joinCluster {s s' : Startup} (h : joinCluster localNodeid initNodeid s = some s') :
    x ∈ s'.cdb ↔ x ∈ s.cdb ∨ x ∈ s.remote := by
  rw [(joinCluster_eq h).2, mem_setObjects]
  rfl

/-- Startup is the initial read, and the join of a node other than the init node. -/
theorem startup_eq (hl : initNodes localNodeid cdb = some l) (hinit : initNodeid ∈ cdb) :
    startup join localNodeid initNodeid cdb remote =
      if join = true ∧ localNodeid ≠ initNodeid then
        joinCluster localNodeid initNodeid ⟨l, cdb, remote⟩
      else some ⟨l, cdb, remote⟩ := by
  rw [startup, hl, Option.bind_eq_bind, Option.bind_some, startPhase1Aasync]
  by_cases heq : localNodeid = initNodeid
  · rw [if_pos heq, if_neg fun h ↦ h.2 heq]
  · have hmem : initNodeid ∈ l.nodeids := (mem_initNodes hl).mpr (.inr hinit)
    obtain ⟨r, hr⟩ := Option.ne_none_iff_exists'.mp
      (mt NodeList.find_eq_none_iff.mp (not_not.mpr hmem))
    rw [if_neg heq, hr, Option.bind_eq_bind, Option.bind_some]
    simp only [ne_eq, heq, not_false_eq_true, and_true]

/-- A startup that comes to its end has read the local node list, and perhaps joined a cluster. -/
theorem startup_cases {s : Startup}
    (h : startup join localNodeid initNodeid cdb remote = some s) :
    ∃ l, initNodes localNodeid cdb = some l ∧ (s = ⟨l, cdb, remote⟩ ∨ join = true ∧
      initNodeid ∈ l.nodeids ∧ joinCluster localNodeid initNodeid ⟨l, cdb, remote⟩ = some s) := by
  rw [startup, Option.bind_eq_bind, Option.bind_eq_some_iff] at h
  obtain ⟨l, hl, h⟩ := h
  refine ⟨l, hl, ?_⟩
  rw [startPhase1Aasync] at h
  by_cases heq : localNodeid = initNodeid
  · rw [if_pos heq, Option.some_inj] at h
    exact .inl h.symm
  · rw [if_neg heq, Option.bind_eq_bind, Option.bind_eq_some_iff] at h
    obtain ⟨r, hr, h⟩ := h
    split_ifs at h with hjoin
    · refine .inr ⟨hjoin, ?_, h⟩
      by_contra hmem
      rw [NodeList.find_eq_none_iff.mpr hmem] at hr
      exact absurd hr (by simp)
    · exact .inl (Option.some_inj.mp h).symm

/-- The list of a joining node names every node once when the two node lists have no further node in
common. -/
theorem nodup_joinCluster_iff {s : Startup} (hl : initNodes localNodeid cdb = some l)
    (h : joinCluster localNodeid initNodeid ⟨l, cdb, remote⟩ = some s) :
    s.nodes.nodeids.Nodup ↔ ∀ x ∈ cdb, x ∈ remote → x = localNodeid ∨ x = initNodeid := by
  rw [nodeids_joinCluster h, List.nodup_append]
  constructor
  · rintro ⟨-, -, hdisj⟩ x hx hx'
    by_contra hne
    rw [not_or] at hne
    refine hdisj x ?_ x ((mem_initNodes hl).mpr (.inr hx)) rfl
    rw [List.mem_reverse, List.mem_filter]
    exact ⟨hx', by simp [hne.1, hne.2]⟩
  · intro hcommon
    refine ⟨List.nodup_reverse.mpr (remote.keys_nodup.filter _), nodup_initNodes hl, ?_⟩
    rintro x hx y hy rfl
    rw [List.mem_reverse, List.mem_filter] at hx
    obtain ⟨hx, hskip⟩ := hx
    simp only [Bool.not_eq_true', Bool.or_eq_false_iff, beq_eq_false_iff_ne] at hskip
    rcases (mem_initNodes hl).mp hy with hloc | hcdb
    · exact hskip.1 hloc
    · exact (hcommon x hcdb hx).elim hskip.1 hskip.2

/-- Every node of the resulting node list is in the member list, and no other. -/
theorem mem_joinCluster {s : Startup} (hl : initNodes localNodeid cdb = some l)
    (hlocal : localNodeid ∈ cdb) (hinit : initNodeid ∈ cdb)
    (h : joinCluster localNodeid initNodeid ⟨l, cdb, remote⟩ = some s) :
    x ∈ s.nodes.nodeids ↔ x ∈ s.cdb := by
  rw [nodeids_joinCluster h, mem_cdb_joinCluster h, List.mem_append, List.mem_reverse,
    List.mem_filter, mem_initNodes hl, ← AList.mem_keys]
  by_cases hx : x = localNodeid
  · simp [hx, hlocal]
  · by_cases hx' : x = initNodeid
    · simp [hx', hinit]
    · simp [hx, hx', or_comm]

/-- **Startup.** The member list names the nodes of the resulting node list, each of them once, just
when the node does not join a running cluster through another node, or the two node lists have no
node in common but the local one and the init node. -/
theorem startup_unique_iff (hcdb : 2 ≤ cdb.keys.length) (hremote : 2 ≤ remote.keys.length)
    (hlocal : localNodeid ∈ cdb ∧ localNodeid ∈ remote)
    (hinit : initNodeid ∈ cdb ∧ initNodeid ∈ remote) :
    (∃ s, startup join localNodeid initNodeid cdb remote = some s ∧ s.nodes.nodeids.Nodup ∧
      ∀ x, x ∈ s.nodes.nodeids ↔ x ∈ s.cdb) ↔
    join = false ∨ localNodeid = initNodeid ∨
      ∀ x ∈ cdb, x ∈ remote → x = localNodeid ∨ x = initNodeid := by
  obtain ⟨l, hl⟩ : ∃ l, initNodes localNodeid cdb = some l := ⟨_, if_neg (not_lt.mpr hcdb)⟩
  rw [startup_eq hl hinit.1]
  by_cases hjoin : join = true ∧ localNodeid ≠ initNodeid
  · obtain ⟨s, hs⟩ : ∃ s, joinCluster localNodeid initNodeid ⟨l, cdb, remote⟩ = some s :=
      ⟨_, if_neg (not_lt.mpr hremote)⟩
    have hmem := fun x ↦ mem_joinCluster (x := x) hl hlocal.1 hinit.1 hs
    rw [if_pos hjoin, hs]
    simp only [Option.some_inj, exists_eq_left', nodup_joinCluster_iff hl hs, hmem, implies_true,
      and_true, hjoin.1, Bool.true_eq_false, hjoin.2, false_or]
  · rw [if_neg hjoin]
    refine iff_of_true ⟨_, rfl, nodup_initNodes hl, fun x ↦ ?_⟩ ?_
    · rw [mem_initNodes hl]
      exact or_iff_right_of_imp fun hx ↦ hx ▸ hlocal.1
    · rw [not_and_or, Bool.not_eq_true, not_not] at hjoin
      exact hjoin.imp_right .inl

end Ids

/-- The node list of a cluster on one host, as the example's generator writes it. -/
def clusterConfig (ids : List ℤ) : NodeConfig :=
  (ids.map fun i ↦ (⟨i, confdIp, ((confdPort + 10 * i) % 2 ^ 16).toNat⟩ : (_ : ℤ) × ℕ × ℕ)).toAList

/-- Node 3 joins the cluster of nodes 0, 1 and 2 with a node list that has only itself and the init
node 0. -/
theorem startup_unique_join :
    ∃ s, startup true 3 0 (clusterConfig [0, 3]) (clusterConfig [0, 1, 2, 3]) = some s ∧
      s.nodes.nodeids.Nodup ∧ ∀ x, x ∈ s.nodes.nodeids ↔ x ∈ s.cdb :=
  (startup_unique_iff (by decide) (by decide) ⟨by decide, by decide⟩ ⟨by decide, by decide⟩).mpr
    (.inr (.inr (by decide)))

/-- Node 3 comes back with the node list it had before: nodes 1 and 2 are members twice. -/
theorem startup_not_unique_rejoin :
    ¬∃ s, startup true 3 0 (clusterConfig [0, 1, 2, 3]) (clusterConfig [0, 1, 2, 3]) = some s ∧
      s.nodes.nodeids.Nodup ∧ ∀ x, x ∈ s.nodes.nodeids ↔ x ∈ s.cdb := by
  rintro ⟨s, hs, hnodup, -⟩
  have hids : (startup true 3 0 (clusterConfig [0, 1, 2, 3])
      (clusterConfig [0, 1, 2, 3])).map (fun s ↦ s.nodes.nodeids) = some [2, 1, 2, 1, 0, 3] := by
    decide
  rw [hs, Option.map_some, Option.some_inj] at hids
  rw [hids] at hnodup
  exact absurd hnodup (by decide)

end ConfdDemos.Aasync
