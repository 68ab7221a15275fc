import Mathlib.Algebra.GroupWithZero.Nat
import Mathlib.Algebra.Order.BigOperators.Group.List
import Mathlib.Algebra.Order.Group.Nat
import ConfdDemos.Aasync.Startup
import ConfdDemos.Foundation.Machine

/-!
# Starting a cluster

The ConfDs of a new cluster are up in start phase 0 when the daemons are started. Every daemon reads
its own node list, which must have two nodes and name the init node. Every node but the init node
replaces its routes by those it reads from the init transaction of the init node, a hundred at a
time, and then moves to phase 1. The init node asks every node of its list for its phase until all
are in phase 1, follows, and when it has registered its callbacks puts them all into phase 2 one by
one.

The init transaction is open as long as the init node is in phase 0, and a read from it fails
afterwards. `maapi_start_phase` fails when the phases are not taken in order. Both are fatal, and so
is a ConfD in the list of the init node that is not up. A node that is listed and whose daemon was
never started is asked for its phase for ever.

## Results

Where any node is in phase 2, every node of the init node's list has its routes; and if that list
has every node that was started, its ConfDs are up and the other nodes' own lists are in order, no
daemon ends (`boot_safe`). Every run comes to an end, up to questions whose answer is not phase 1,
and then all daemons serve exactly under these conditions and with every listed node started
(`boot_ends`).
-/

namespace ConfdDemos.Aasync

/-- `ENTRIES_PER_REQUEST`. -/
def entriesPerRequest : ℕ := 100

/-- The call a daemon makes next. -/
inductive StartPoint
  /-- `main` connects to its own ConfD and reads the node list. -/
  | reading
  | deleting
  /-- The cursor has passed that many routes. -/
  | copying (k : ℕ)
  | startPhase1
  /-- The nodes whose phase the init node has still to see. -/
  | polling (rest : List ℤ)
  | registering
  /-- `maapi_wait_start(2)`. -/
  | waiting
  /-- The nodes which the init node has still to put into phase 2. -/
  | starting (rest : List ℤ)
  | serving
  /-- `confd_fatal`, or the crash of `main` where it does not find the init node. -/
  | fatal
  deriving DecidableEq, Repr

variable {ρ : Type*}

structure Boot (ρ : Type*) where
  phase : ℤ → ℕ
  routes : ℤ → List ρ
  point : ℤ → StartPoint

/-- Every node is in phase 0 and has routes of its own. -/
def bootStart (routes : ℤ → List ρ) : Boot ρ := ⟨fun _ ↦ 0, routes, fun _ ↦ .reading⟩

namespace Boot

variable (s : Boot ρ)

def setPhase (n : ℤ) (p : ℕ) : Boot ρ := { s with phase := Function.update s.phase n p }

def setRoutes (n : ℤ) (r : List ρ) : Boot ρ := { s with routes := Function.update s.routes n r }

def goto (n : ℤ) (pt : StartPoint) : Boot ρ := { s with point := Function.update s.point n pt }

end Boot

section Calls

-- The init node, the node list of every CDB, the nodes whose ConfD is up, and those whose daemon is
-- started.
variable (initNodeid : ℤ) (cdb : ℤ → NodeConfig) (confds ids : List ℤ)

/-- The members in the list of a daemon; there are none where its node list is too short. -/
def ownNodes (n : ℤ) : List ℤ := ((initNodes n (cdb n)).map (·.nodeids)).getD []

/-- The nodes the init node polls. -/
def others (nodes : List ℤ) : List ℤ := nodes.filter (· ≠ initNodeid)

/-- `main` up to the first call of `start_phase1_aasync`. -/
def firstPoint (n : ℤ) : StartPoint :=
  if n ∈ confds then
    match initNodes n (cdb n) with
    | none => .fatal
    | some l =>
      if n = initNodeid then .polling (others initNodeid l.nodeids)
      else if initNodeid ∈ l.nodeids then .deleting
      else .fatal
  else .fatal

/-- The next call of the daemon of `n`; there is no result while it waits. -/
def bootCall (s : Boot ρ) (n : ℤ) : Option (Boot ρ) :=
  match s.point n with
  | .reading => some (s.goto n (firstPoint initNodeid cdb confds n))
  | .deleting => some ((s.setRoutes n []).goto n (.copying 0))
  | .copying k =>
    if s.phase initNodeid ≠ 0 ∨ initNodeid ∉ confds then some (s.goto n .fatal)
    else
      let batch := ((s.routes initNodeid).drop k).take entriesPerRequest
      some ((s.setRoutes n (s.routes n ++ batch)).goto n
        (if k + batch.length < (s.routes initNodeid).length then .copying (k + batch.length)
        else .startPhase1))
  | .startPhase1 => some ((s.setPhase n 1).goto n .registering)
  | .polling [] => some ((s.setPhase n 1).goto n .registering)
  | .polling (m :: rest) =>
    -- `cdb_connect`, and then `cdb_get_phase` again and again
    if m ∉ confds then some (s.goto n .fatal)
    else if s.phase m = 1 then some (s.goto n (.polling rest))
    else some s
  | .registering =>
    some (s.goto n (if n = initNodeid then .starting (ownNodes cdb initNodeid) else .waiting))
  | .waiting => if s.phase n = 2 then some (s.goto n .serving) else none
  | .starting [] => some (s.goto n .serving)
  | .starting (m :: rest) =>
    if s.phase m = 1 then some ((s.setPhase m 2).goto n (.starting rest))
    else some (s.goto n .fatal)
  | .serving => none
  | .fatal => none

/-- The daemons of the nodes that were started, in any order. -/
def bootMachine : Machine (Boot ρ) ℤ :=
  ⟨fun s n ↦ if n ∈ ids then bootCall initNodeid cdb confds s n else none⟩

/-- The daemon asks a node for its phase that is not in phase 1. -/
def idles (s : Boot ρ) (n : ℤ) : Bool :=
  match s.point n with
  | .polling (m :: _) => decide (m ∈ confds ∧ s.phase m ≠ 1)
  | _ => false

/-- No call is left but questions whose answer is not phase 1. -/
def Settled (s : Boot ρ) : Prop :=
  ∀ n, (bootMachine initNodeid cdb confds ids).step s n = none ∨ idles confds s n = true

/-- What the nodes of a cluster need: the ConfD of every node in the list of the init node is up,
and the list of every daemon has two nodes and names the init node. -/
structure Ready : Prop where
  confds : ∀ m ∈ ownNodes cdb initNodeid, m ∈ confds
  lists : ∀ n ∈ ids, initNodeid ∈ ownNodes cdb n

/-- A daemon gets past `main`. -/
def Startable (n : ℤ) : Prop := n ∈ confds ∧ initNodeid ∈ ownNodes cdb n

end Calls

/-! ## What holds in every state -/

variable {initNodeid : ℤ} {nodes ids confds : List ℤ} {cdb : ℤ → NodeConfig}

/-- A node other than the init node, by the call its daemon makes next. -/
def FollowerInv (r₀ r : List ρ) (p : ℕ) : StartPoint → Prop
  | .reading | .deleting => p = 0
  | .copying k => p = 0 ∧ r = r₀.take k
  | .startPhase1 => p = 0 ∧ r = r₀
  | .registering | .waiting => 1 ≤ p ∧ r = r₀
  | .serving => p = 2 ∧ r = r₀
  | .fatal => p = 0
  | .polling _ | .starting _ => False

/-- The init node. -/
def InitInv (initNodeid : ℤ) (nodes : List ℤ) (phase : ℤ → ℕ) : StartPoint → Prop
  | .reading | .fatal => phase initNodeid = 0 ∧ ∀ m, phase m ≤ 1
  | .polling rest => phase initNodeid = 0 ∧ rest <:+ others initNodeid nodes ∧
      (∀ m ∈ others initNodeid nodes, m ∈ rest ∨ phase m = 1) ∧ ∀ m, phase m ≤ 1
  | .registering => (∀ m ∈ nodes, phase m = 1) ∧ ∀ m, phase m ≤ 1
  | .starting rest => rest <:+ nodes ∧ (∀ m ∈ nodes, phase m = if m ∈ rest then 1 else 2) ∧
      ∀ m, m ∉ nodes → phase m ≤ 1
  | .serving => (∀ m ∈ nodes, phase m = 2) ∧ ∀ m, m ∉ nodes → phase m ≤ 1
  | .deleting | .copying _ | .startPhase1 | .waiting => False

structure BootInv (initNodeid : ℤ) (cdb : ℤ → NodeConfig) (confds ids : List ℤ) (r₀ : List ρ)
    (s : Boot ρ) : Prop where
  routes : s.routes initNodeid = r₀
  followers : ∀ n ≠ initNodeid, FollowerInv r₀ (s.routes n) (s.phase n) (s.point n)
  init : InitInv initNodeid (ownNodes cdb initNodeid) s.phase (s.point initNodeid)
  /-- In a cluster that has what it needs only a node that the init node does not wait for can
  fail. -/
  listed : Ready initNodeid cdb confds ids →
    ∀ n ∈ ownNodes cdb initNodeid, s.point n ≠ .fatal
  /-- A node that was not started stays where it is. -/
  absent : ∀ n, n ∉ ids → s.phase n = 0
  passed : ∀ n, s.point n = .reading ∨ s.point n = .fatal ∨ Startable initNodeid cdb confds n

section First

variable {n m : ℤ}

theorem ownNodes_eq {l : NodeList} (h : initNodes n (cdb n) = some l) :
    ownNodes cdb n = l.nodeids := by
  rw [ownNodes, h, Option.map_some, Option.getD_some]

theorem nodup_ownNodes : (ownNodes cdb n).Nodup := by
  rcases h : initNodes n (cdb n) with _ | l
  · rw [ownNodes, h]
    exact List.nodup_nil
  · rw [ownNodes_eq h]
    exact nodup_initNodes h

/-- A list that is read has the node itself. -/
theorem self_mem_ownNodes (h : m ∈ ownNodes cdb n) : n ∈ ownNodes cdb n := by
  rcases hl : initNodes n (cdb n) with _ | l
  · rw [ownNodes, hl] at h
    exact (List.not_mem_nil h).elim
  · rw [ownNodes_eq hl]
    exact (mem_initNodes hl).mpr (.inl rfl)

/-- A daemon that gets past `main` is at its first call, and the others have failed. -/
theorem firstPoint_of_startable (h : Startable initNodeid cdb confds n) :
    firstPoint initNodeid cdb confds n =
      if n = initNodeid then .polling (others initNodeid (ownNodes cdb initNodeid))
      else .deleting := by
  obtain ⟨hconfd, hmem⟩ := h
  rcases hl : initNodes n (cdb n) with _ | l
  · rw [ownNodes, hl] at hmem
    exact (List.not_mem_nil hmem).elim
  · rw [ownNodes_eq hl] at hmem
    simp only [firstPoint, hconfd, if_true, hl, hmem]
    split_ifs with hn
    · rw [← hn, ownNodes_eq hl]
    · rfl

theorem firstPoint_of_not_startable (h : ¬Startable initNodeid cdb confds n) :
    firstPoint initNodeid cdb confds n = .fatal := by
  by_cases hconfd : n ∈ confds
  · rcases hl : initNodes n (cdb n) with _ | l
    · simp only [firstPoint, if_pos hconfd, hl]
    · have hmem : initNodeid ∉ l.nodeids := by
        intro hmem
        rw [← ownNodes_eq hl] at hmem
        exact h ⟨hconfd, hmem⟩
      have hn : n ≠ initNodeid := by
        rintro rfl
        exact hmem ((mem_initNodes hl).mpr (.inl rfl))
      simp only [firstPoint, if_pos hconfd, hl, if_neg hn, if_neg hmem]
  · rw [firstPoint, if_neg hconfd]

theorem Ready.startable (h : Ready initNodeid cdb confds ids) (hn : n ∈ ids)
    (hlisted : n ∈ ownNodes cdb initNodeid) : Startable initNodeid cdb confds n :=
  ⟨h.confds n hlisted, h.lists n hn⟩

end First

section Invariant

variable {s s' : Boot ρ} {r₀ r : List ρ} {phase : ℤ → ℕ} {n m : ℤ} {p : ℕ} {pt : StartPoint}
  {rest : List ℤ}

theorem mem_others : m ∈ others initNodeid nodes ↔ m ∈ nodes ∧ m ≠ initNodeid := by
  rw [others, List.mem_filter, decide_eq_true_eq]

/-- The init node puts a follower into phase 2. -/
theorem FollowerInv.promote (h : FollowerInv r₀ r 1 pt) : FollowerInv r₀ r 2 pt := by
  rcases pt with _ | _ | k | _ | rest | _ | _ | rest | _ | _
  · exact (Nat.one_ne_zero h).elim
  · exact (Nat.one_ne_zero h).elim
  · exact absurd h.1 (by decide)
  · exact absurd h.1 (by decide)
  · exact h.elim
  · exact ⟨by decide, h.2⟩
  · exact ⟨by decide, h.2⟩
  · exact h.elim
  · exact absurd h.1 (by decide)
  · exact (Nat.one_ne_zero h).elim

theorem update_one_le (h : phase m ≤ 1) : Function.update phase n 1 m ≤ 1 := by
  rcases eq_or_ne m n with rfl | hm
  · rw [Function.update_self]
  · rwa [Function.update_of_ne hm]

/-- A follower moves to phase 1. -/
theorem InitInv.startPhase1 (h : InitInv initNodeid nodes phase pt) (hn : n ≠ initNodeid)
    (hzero : phase n = 0) : InitInv initNodeid nodes (Function.update phase n 1) pt := by
  have hle (hall : ∀ m, phase m ≤ 1) (m : ℤ) : Function.update phase n 1 m ≤ 1 :=
    update_one_le (hall m)
  have hother (hnodes : n ∉ nodes) (m : ℤ) (hm : m ∈ nodes) :
      Function.update phase n 1 m = phase m :=
    Function.update_of_ne (ne_of_mem_of_not_mem hm hnodes) _ _
  have hrest (hall : ∀ m, m ∉ nodes → phase m ≤ 1) (m : ℤ) (hm : m ∉ nodes) :
      Function.update phase n 1 m ≤ 1 := update_one_le (hall m hm)
  have hstart (hinit : phase initNodeid = 0) : Function.update phase n 1 initNodeid = 0 := by
    rw [Function.update_of_ne hn.symm, hinit]
  rcases pt with _ | _ | k | _ | rest | _ | _ | rest | _ | _
  · exact ⟨hstart h.1, hle h.2⟩
  · exact h.elim
  · exact h.elim
  · exact h.elim
  · obtain ⟨hinit, hsuffix, hseen, hall⟩ := h
    refine ⟨hstart hinit, hsuffix, fun m hm ↦ ?_, hle hall⟩
    rcases eq_or_ne m n with rfl | hmn
    · exact .inr (Function.update_self ..)
    · rw [Function.update_of_ne hmn]
      exact hseen m hm
  · obtain ⟨hone, hall⟩ := h
    have hnodes : n ∉ nodes := fun hn ↦ absurd (hone n hn) (by rw [hzero]; decide)
    exact ⟨fun m hm ↦ (hother hnodes m hm).trans (hone m hm), hle hall⟩
  · exact h.elim
  · obtain ⟨hsuffix, hphase, hall⟩ := h
    have hnodes : n ∉ nodes := fun hn ↦ by
      have := hphase n hn
      rw [hzero] at this
      split_ifs at this
    exact ⟨hsuffix, fun m hm ↦ (hother hnodes m hm).trans (hphase m hm), hrest hall⟩
  · obtain ⟨htwo, hall⟩ := h
    have hnodes : n ∉ nodes := fun hn ↦ absurd (htwo n hn) (by rw [hzero]; decide)
    exact ⟨fun m hm ↦ (hother hnodes m hm).trans (htwo m hm), hrest hall⟩
  · exact ⟨hstart h.1, hle h.2⟩

/-- A listed follower in phase 0 keeps the init node in phase 0. -/
theorem InitInv.phase_eq_zero (h : InitInv initNodeid nodes phase pt) (hn : n ∈ nodes)
    (hzero : phase n = 0) : phase initNodeid = 0 := by
  rcases pt with _ | _ | k | _ | rest | _ | _ | rest | _ | _
  · exact h.1
  · exact h.elim
  · exact h.elim
  · exact h.elim
  · exact h.1
  · exact absurd (h.1 n hn) (by rw [hzero]; decide)
  · exact h.elim
  · have := h.2.1 n hn
    rw [hzero] at this
    split_ifs at this
  · exact absurd (h.1 n hn) (by rw [hzero]; decide)
  · exact h.1

theorem BootInv.startable (h : BootInv initNodeid cdb confds ids r₀ s)
    (hpoint : s.point n ≠ .reading) (hfatal : s.point n ≠ .fatal) :
    Startable initNodeid cdb confds n :=
  ((h.passed n).resolve_left hpoint).resolve_left hfatal

/-- A daemon that goes on to a call that a listed node can make in a cluster that has what it
needs. -/
theorem BootInv.listed_goto (h : BootInv initNodeid cdb confds ids r₀ s)
    (hpoint : s'.point = Function.update s.point n pt)
    (hlisted : Ready initNodeid cdb confds ids → n ∈ ownNodes cdb initNodeid → pt ≠ .fatal)
    (hready : Ready initNodeid cdb confds ids) (hm : m ∈ ownNodes cdb initNodeid) :
    s'.point m ≠ .fatal := by
  rw [hpoint]
  rcases eq_or_ne m n with rfl | hmn
  · rw [Function.update_self]
    exact hlisted hready hm
  · rw [Function.update_of_ne hmn]
    exact h.listed hready m hm

/-- A daemon that goes on to a call behind `main`, or fails. -/
theorem BootInv.passed_goto (h : BootInv initNodeid cdb confds ids r₀ s)
    (hpoint : s'.point = Function.update s.point n pt)
    (hpassed : pt = .fatal ∨ Startable initNodeid cdb confds n) (m : ℤ) :
    s'.point m = .reading ∨ s'.point m = .fatal ∨ Startable initNodeid cdb confds m := by
  rw [hpoint]
  rcases eq_or_ne m n with rfl | hmn
  · rw [Function.update_self]
    exact .inr hpassed
  · rw [Function.update_of_ne hmn]
    exact h.passed m

/-- A call of a follower changes its own phase, routes and place. -/
theorem BootInv.follower (h : BootInv initNodeid cdb confds ids r₀ s) (hn : n ≠ initNodeid)
    (hmem : n ∈ ids) (hphase : s'.phase = Function.update s.phase n p)
    (hroutes : s'.routes = Function.update s.routes n r)
    (hpoint : s'.point = Function.update s.point n pt) (hinv : FollowerInv r₀ r p pt)
    (hinit : InitInv initNodeid (ownNodes cdb initNodeid) (Function.update s.phase n p)
      (s.point initNodeid))
    (hlisted : Ready initNodeid cdb confds ids → n ∈ ownNodes cdb initNodeid → pt ≠ .fatal)
    (hpassed : pt = .fatal ∨ Startable initNodeid cdb confds n) :
    BootInv initNodeid cdb confds ids r₀ s' where
  routes := by rw [hroutes, Function.update_of_ne hn.symm, h.routes]
  followers m hm := by
    rw [hphase, hroutes, hpoint]
    rcases eq_or_ne m n with rfl | hmn
    · simpa only [Function.update_self] using hinv
    · simpa only [Function.update_of_ne hmn] using h.followers m hm
  init := by rwa [hphase, hpoint, Function.update_of_ne hn.symm]
  listed hready _ hm := h.listed_goto hpoint hlisted hready hm
  absent m hm := by
    rw [hphase, Function.update_of_ne (ne_of_mem_of_not_mem hmem hm).symm]
    exact h.absent m hm
  passed := h.passed_goto hpoint hpassed

/-- A call of the init node that changes no phase. -/
theorem BootInv.goto (h : BootInv initNodeid cdb confds ids r₀ s)
    (hlisted : Ready initNodeid cdb confds ids → initNodeid ∈ ownNodes cdb initNodeid →
      pt ≠ .fatal)
    (hpassed : pt = .fatal ∨ Startable initNodeid cdb confds initNodeid)
    (hinit : InitInv initNodeid (ownNodes cdb initNodeid) s.phase pt) :
    BootInv initNodeid cdb confds ids r₀ (s.goto initNodeid pt) where
  routes := h.routes
  followers m hm := by
    simp only [Boot.goto, Function.update_of_ne hm]
    exact h.followers m hm
  init := by simpa only [Boot.goto, Function.update_self] using hinit
  listed hready _ hm := h.listed_goto rfl hlisted hready hm
  absent := h.absent
  passed := h.passed_goto rfl hpassed

/-- A call of the init node that changes the phase of a node. -/
theorem BootInv.setPhase (h : BootInv initNodeid cdb confds ids r₀ s) (hm : m ∈ ids)
    (hfollower : m ≠ initNodeid → FollowerInv r₀ (s.routes m) p (s.point m)) (hne : pt ≠ .fatal)
    (hpassed : Startable initNodeid cdb confds initNodeid)
    (hinit : InitInv initNodeid (ownNodes cdb initNodeid) (Function.update s.phase m p) pt) :
    BootInv initNodeid cdb confds ids r₀ ((s.setPhase m p).goto initNodeid pt) where
  routes := h.routes
  followers q hq := by
    simp only [Boot.goto, Boot.setPhase, Function.update_of_ne hq]
    rcases eq_or_ne q m with rfl | hqm
    · rw [Function.update_self]
      exact hfollower hq
    · rw [Function.update_of_ne hqm]
      exact h.followers q hq
  init := by simpa only [Boot.goto, Boot.setPhase, Function.update_self] using hinit
  listed hready _ hq := h.listed_goto rfl (fun _ _ ↦ hne) hready hq
  absent q hq := by
    simp only [Boot.goto, Boot.setPhase, Function.update_of_ne (ne_of_mem_of_not_mem hm hq).symm]
    exact h.absent q hq
  passed := h.passed_goto rfl (.inr hpassed)

/-- A batch takes the copy from one place of the cursor to the next. -/
theorem take_append_batch (r₀ : List ρ) (k : ℕ) :
    r₀.take k ++ (r₀.drop k).take entriesPerRequest =
      r₀.take (k + ((r₀.drop k).take entriesPerRequest).length) := by
  rw [List.take_add, ← List.prefix_iff_eq_take.mp (List.take_prefix ..)]

/-- Every call of a follower keeps the invariant. -/
theorem BootInv.call_follower (h : BootInv initNodeid cdb confds ids r₀ s) (hn : n ≠ initNodeid)
    (hmem : n ∈ ids) (hcall : bootCall initNodeid cdb confds s n = some s') :
    BootInv initNodeid cdb confds ids r₀ s' := by
  have hinv := h.followers n hn
  have hphase : s.phase = Function.update s.phase n (s.phase n) :=
    (Function.update_eq_self n _).symm
  have hroutes : s.routes = Function.update s.routes n (s.routes n) :=
    (Function.update_eq_self n _).symm
  have hinit := h.init
  rw [hphase] at hinit
  have hpassed := h.startable (n := n)
  rw [bootCall] at hcall
  rcases hpoint : s.point n with _ | _ | k | _ | rest | _ | _ | rest | _ | _
  all_goals
    rw [hpoint] at hinv hcall hpassed
    simp only at hcall
  case reading =>
    obtain rfl := Option.some_inj.mp hcall
    by_cases hstart : Startable initNodeid cdb confds n
    · rw [firstPoint_of_startable hstart, if_neg hn]
      exact h.follower hn hmem hphase hroutes rfl hinv hinit (fun _ _ ↦ nofun) (.inr hstart)
    · rw [firstPoint_of_not_startable hstart]
      exact h.follower hn hmem hphase hroutes rfl hinv hinit
        (fun hready hlisted ↦ (hstart (hready.startable hmem hlisted)).elim) (.inl rfl)
  case deleting =>
    obtain rfl := Option.some_inj.mp hcall
    exact h.follower hn hmem hphase rfl rfl ⟨hinv, (List.take_zero ..).symm⟩ hinit
      (fun _ _ ↦ nofun) (.inr (hpassed nofun nofun))
  case copying =>
    rw [h.routes] at hcall
    split_ifs at hcall with hfail hmore
    all_goals obtain rfl := Option.some_inj.mp hcall
    · refine h.follower hn hmem hphase hroutes rfl hinv.1 hinit (fun hready hlisted ↦ ?_) (.inl rfl)
      rcases hfail with hzero | hdown
      · exact (hzero (h.init.phase_eq_zero hlisted hinv.1)).elim
      · exact (hdown (hready.confds _ (self_mem_ownNodes hlisted))).elim
    · refine h.follower hn hmem hphase rfl rfl ⟨hinv.1, ?_⟩ hinit (fun _ _ ↦ nofun)
        (.inr (hpassed nofun nofun))
      rw [hinv.2, take_append_batch]
    · refine h.follower hn hmem hphase rfl rfl ⟨hinv.1, ?_⟩ hinit (fun _ _ ↦ nofun)
        (.inr (hpassed nofun nofun))
      rw [hinv.2, take_append_batch, List.take_of_length_le (not_lt.mp hmore)]
  case startPhase1 =>
    obtain rfl := Option.some_inj.mp hcall
    exact h.follower hn hmem rfl hroutes rfl ⟨le_rfl, hinv.2⟩ (h.init.startPhase1 hn hinv.1)
      (fun _ _ ↦ nofun) (.inr (hpassed nofun nofun))
  case polling => exact hinv.elim
  case registering =>
    obtain rfl := Option.some_inj.mp hcall
    rw [if_neg hn]
    exact h.follower hn hmem hphase hroutes rfl hinv hinit (fun _ _ ↦ nofun)
      (.inr (hpassed nofun nofun))
  case waiting =>
    split_ifs at hcall with htwo
    obtain rfl := Option.some_inj.mp hcall
    exact h.follower hn hmem hphase hroutes rfl ⟨htwo, hinv.2⟩ hinit (fun _ _ ↦ nofun)
      (.inr (hpassed nofun nofun))
  case starting => exact hinv.elim
  case serving => exact nomatch hcall
  case fatal => exact nomatch hcall

/-- Every call of the init node keeps the invariant. -/
theorem BootInv.call_init (h : BootInv initNodeid cdb confds ids r₀ s) (hmem : initNodeid ∈ ids)
    (hcall : bootCall initNodeid cdb confds s initNodeid = some s') :
    BootInv initNodeid cdb confds ids r₀ s' := by
  have hinit := h.init
  have hpassed := h.startable (n := initNodeid)
  rw [bootCall] at hcall
  rcases hpoint : s.point initNodeid with _ | _ | k | _ | ⟨_ | ⟨m, rest⟩⟩ | _ | _ |
    ⟨_ | ⟨m, rest⟩⟩ | _ | _
  all_goals
    rw [hpoint] at hinit hcall hpassed
    simp only at hcall
  case reading =>
    obtain rfl := Option.some_inj.mp hcall
    by_cases hstart : Startable initNodeid cdb confds initNodeid
    · rw [firstPoint_of_startable hstart, if_pos rfl]
      exact h.goto (fun _ _ ↦ nofun) (.inr hstart)
        ⟨hinit.1, List.suffix_rfl, fun m hm ↦ .inl hm, hinit.2⟩
    · rw [firstPoint_of_not_startable hstart]
      exact h.goto (fun hready hlisted ↦ (hstart (hready.startable hmem hlisted)).elim) (.inl rfl)
        hinit
  case polling.nil =>
    -- all others have been seen in phase 1
    obtain ⟨hzero, -, hseen, hall⟩ := hinit
    obtain rfl := Option.some_inj.mp hcall
    refine h.setPhase hmem (fun hne ↦ (hne rfl).elim) nofun (hpassed nofun nofun)
      ⟨fun m hm ↦ ?_, fun m ↦ update_one_le (hall m)⟩
    rcases eq_or_ne m initNodeid with rfl | hmi
    · rw [Function.update_self]
    · rw [Function.update_of_ne hmi]
      exact (hseen m (mem_others.mpr ⟨hm, hmi⟩)).resolve_left List.not_mem_nil
  case polling.cons =>
    obtain ⟨hzero, hsuffix, hseen, hall⟩ := hinit
    split_ifs at hcall with hup hone
    all_goals obtain rfl := Option.some_inj.mp hcall
    · refine h.goto (fun _ _ ↦ nofun) (.inr (hpassed nofun nofun))
        ⟨hzero, (List.suffix_cons m rest).trans hsuffix, fun q hq ↦ ?_, hall⟩
      rcases hseen q hq with hq | hq
      · rcases List.mem_cons.mp hq with rfl | hq
        · exact .inr hone
        · exact .inl hq
      · exact .inr hq
    · exact h
    · have hm := (mem_others.mp (hsuffix.subset List.mem_cons_self)).1
      exact h.goto (fun hready _ ↦ (hup (hready.confds m hm)).elim) (.inl rfl) ⟨hzero, hall⟩
  case registering =>
    obtain rfl := Option.some_inj.mp hcall
    rw [if_pos trivial]
    refine h.goto (fun _ _ ↦ nofun) (.inr (hpassed nofun nofun))
      ⟨List.suffix_rfl, fun m hm ↦ ?_, fun m _ ↦ hinit.2 m⟩
    rw [if_pos hm]
    exact hinit.1 m hm
  case starting.nil =>
    obtain rfl := Option.some_inj.mp hcall
    refine h.goto (fun _ _ ↦ nofun) (.inr (hpassed nofun nofun)) ⟨fun m hm ↦ ?_, hinit.2.2⟩
    exact (hinit.2.1 m hm).trans (if_neg List.not_mem_nil)
  case starting.cons =>
    -- the next node goes to phase 2
    obtain ⟨hsuffix, hphase, hall⟩ := hinit
    have hmnodes : m ∈ ownNodes cdb initNodeid := hsuffix.subset List.mem_cons_self
    have hone : s.phase m = 1 := (hphase m hmnodes).trans (if_pos List.mem_cons_self)
    rw [if_pos hone] at hcall
    obtain rfl := Option.some_inj.mp hcall
    have hmids : m ∈ ids := by
      by_contra hm
      exact absurd (h.absent m hm) (by rw [hone]; decide)
    have hnotin : m ∉ rest := (List.nodup_cons.mp (hsuffix.sublist.nodup nodup_ownNodes)).1
    refine h.setPhase hmids (fun hmi ↦ ?_) nofun (hpassed nofun nofun)
      ⟨(List.suffix_cons m rest).trans hsuffix, fun q hq ↦ ?_, fun q hq ↦ ?_⟩
    · have hinv := h.followers m hmi
      rw [hone] at hinv
      exact hinv.promote
    · rcases eq_or_ne q m with rfl | hqm
      · rw [Function.update_self, if_neg hnotin]
      · rw [Function.update_of_ne hqm, hphase q hq]
        simp only [List.mem_cons, hqm, false_or]
    · rw [Function.update_of_ne (ne_of_mem_of_not_mem hmnodes hq).symm]
      exact hall q hq
  case serving => exact nomatch hcall
  case fatal => exact nomatch hcall
  all_goals exact hinit.elim

theorem BootInv.step (h : BootInv initNodeid cdb confds ids r₀ s)
    (hstep : (bootMachine initNodeid cdb confds ids).step s n = some s') :
    BootInv initNodeid cdb confds ids r₀ s' := by
  obtain ⟨hmem, hcall⟩ := Option.ite_none_right_eq_some.mp hstep
  rcases eq_or_ne n initNodeid with rfl | hn
  · exact h.call_init hmem hcall
  · exact h.call_follower hn hmem hcall

theorem bootInv_start (routes : ℤ → List ρ) :
    BootInv initNodeid cdb confds ids (routes initNodeid) (bootStart routes) where
  routes := rfl
  followers _ _ := rfl
  init := ⟨rfl, fun _ ↦ Nat.zero_le 1⟩
  listed _ _ _ := nofun
  absent _ _ := rfl
  passed _ := .inl rfl

/-- Behind phase 1 a node has the routes of the init node. -/
theorem FollowerInv.routes_eq (h : FollowerInv r₀ r p pt) (hp : 1 ≤ p) : r = r₀ := by
  rcases pt with _ | _ | k | _ | rest | _ | _ | rest | _ | _
  · exact absurd hp (by rw [show p = 0 from h]; decide)
  · exact absurd hp (by rw [show p = 0 from h]; decide)
  · exact absurd hp (by rw [h.1]; decide)
  · exact h.2
  · exact h.elim
  · exact h.2
  · exact h.2
  · exact h.elim
  · exact h.2
  · exact absurd hp (by rw [show p = 0 from h]; decide)

/-- Once a node is in phase 2, all nodes have reached phase 1. -/
theorem InitInv.one_le (h : InitInv initNodeid nodes phase pt) (hm : phase m = 2) (hn : n ∈ nodes) :
    1 ≤ phase n := by
  rcases pt with _ | _ | k | _ | rest | _ | _ | rest | _ | _
  · exact absurd (h.2 m) (by rw [hm]; decide)
  · exact h.elim
  · exact h.elim
  · exact h.elim
  · exact absurd (h.2.2.2 m) (by rw [hm]; decide)
  · exact (h.1 n hn).ge
  · exact h.elim
  · have := h.2.1 n hn
    split_ifs at this <;> omega
  · exact (h.1 n hn).ge.trans' (by decide)
  · exact absurd (h.2 m) (by rw [hm]; decide)

end Invariant

/-! ## Calls that are left -/

/-- At most so many calls are left for a daemon, with `L` routes to copy and `N` nodes, and without
the questions whose answer is not phase 1. -/
def StartPoint.weight (L N : ℕ) : StartPoint → ℕ
  | reading => L + 2 * N + 7
  | deleting => L + N + 6
  | copying k => L - k + N + 5
  | startPhase1 => N + 4
  | polling rest => rest.length + N + 4
  | registering => N + 3
  | waiting => 1
  | starting rest => rest.length + 1
  | serving => 0
  | fatal => 0

section Ending

variable {s s' : Boot ρ} {r₀ : List ρ} {n : ℤ} {es : List ℤ}

theorem weight_firstPoint_lt (L : ℕ) :
    (firstPoint initNodeid cdb confds n).weight L (ownNodes cdb initNodeid).length <
      StartPoint.reading.weight L (ownNodes cdb initNodeid).length := by
  by_cases hstart : Startable initNodeid cdb confds n
  · have hothers : (others initNodeid (ownNodes cdb initNodeid)).length ≤
        (ownNodes cdb initNodeid).length := List.length_filter_le ..
    rw [firstPoint_of_startable hstart]
    split_ifs <;> simp only [StartPoint.weight] <;> omega
  · rw [firstPoint_of_not_startable hstart]
    exact Nat.succ_pos _

/-- Every call brings its daemon on, but for a question whose answer is not phase 1. -/
theorem weight_bootCall (hcall : bootCall initNodeid cdb confds s n = some s') :
    idles confds s n = true ∧ s' = s ∨ ∃ pt, s'.point = Function.update s.point n pt ∧
      pt.weight (s.routes initNodeid).length (ownNodes cdb initNodeid).length <
        (s.point n).weight (s.routes initNodeid).length (ownNodes cdb initNodeid).length := by
  rw [bootCall] at hcall
  rcases hpoint : s.point n with _ | _ | k | _ | ⟨_ | ⟨m, rest⟩⟩ | _ | _ | ⟨_ | ⟨m, rest⟩⟩ | _ | _
  all_goals
    rw [hpoint] at hcall
    simp only at hcall
  case reading =>
    obtain rfl := Option.some_inj.mp hcall
    exact .inr ⟨_, rfl, weight_firstPoint_lt _⟩
  case copying =>
    split_ifs at hcall with hfail hmore
    all_goals
      obtain rfl := Option.some_inj.mp hcall
      refine .inr ⟨_, rfl, ?_⟩
      simp only [StartPoint.weight]
    · omega
    · rw [List.length_take, List.length_drop, entriesPerRequest] at hmore ⊢
      omega
    · omega
  case polling.cons =>
    split_ifs at hcall with hup hone
    all_goals obtain rfl := Option.some_inj.mp hcall
    · exact .inr ⟨_, rfl, by simp only [StartPoint.weight, List.length_cons]; omega⟩
    · refine .inl ⟨?_, rfl⟩
      simp only [idles, hpoint]
      exact decide_eq_true ⟨hup, hone⟩
    · exact .inr ⟨_, rfl, by simp only [StartPoint.weight, List.length_cons]; omega⟩
  case registering =>
    obtain rfl := Option.some_inj.mp hcall
    refine .inr ⟨_, rfl, ?_⟩
    split_ifs <;> simp only [StartPoint.weight] <;> omega
  case waiting =>
    obtain ⟨-, hcall⟩ := Option.ite_none_right_eq_some.mp hcall
    obtain rfl := Option.some_inj.mp hcall
    exact .inr ⟨_, rfl, by simp only [StartPoint.weight]; omega⟩
  case starting.cons =>
    split_ifs at hcall
    all_goals
      obtain rfl := Option.some_inj.mp hcall
      exact .inr ⟨_, rfl, by simp only [StartPoint.weight, List.length_cons]; omega⟩
  case serving => exact nomatch hcall
  case fatal => exact nomatch hcall
  all_goals
    obtain rfl := Option.some_inj.mp hcall
    exact .inr ⟨_, rfl, by simp only [StartPoint.weight, List.length_nil]; omega⟩

theorem BootInv.weight_le (h : BootInv initNodeid cdb confds ids r₀ s)
    (hstep : (bootMachine initNodeid cdb confds ids).step s n = some s') :
    (if idles confds s n = false then 1 else 0) +
        (ids.map fun n ↦ (s'.point n).weight r₀.length (ownNodes cdb initNodeid).length).sum ≤
      (ids.map fun n ↦ (s.point n).weight r₀.length (ownNodes cdb initNodeid).length).sum := by
  obtain ⟨hmem, hcall⟩ := Option.ite_none_right_eq_some.mp hstep
  rcases weight_bootCall hcall with ⟨hidles, rfl⟩ | ⟨pt, hpoint, hlt⟩
  · rw [hidles, if_neg Bool.noConfusion, zero_add]
  rw [h.routes] at hlt
  have hsum : (ids.map fun n ↦ (s'.point n).weight r₀.length (ownNodes cdb initNodeid).length).sum <
      (ids.map fun n ↦ (s.point n).weight r₀.length (ownNodes cdb initNodeid).length).sum := by
    refine List.sum_lt_sum _ _ (fun m _ ↦ ?_) ⟨n, hmem, ?_⟩
    · rw [hpoint]
      rcases eq_or_ne m n with rfl | hmn
      · rw [Function.update_self]
        exact hlt.le
      · rw [Function.update_of_ne hmn]
    · rwa [hpoint, Function.update_self]
  split_ifs <;> omega

/-- What is left for a daemon that is not the init node to do when it can make no call. -/
theorem BootInv.follower_settled (h : BootInv initNodeid cdb confds ids r₀ s)
    (hn : n ≠ initNodeid) (hmem : n ∈ ids)
    (hsettled : Settled initNodeid cdb confds ids s) :
    s.point n = .waiting ∧ s.phase n ≠ 2 ∨ s.point n = .serving ∨ s.point n = .fatal := by
  have hinv := h.followers n hn
  have hcall : bootCall initNodeid cdb confds s n = none ∨ idles confds s n = true :=
    (hsettled n).imp_left (if_pos hmem).symm.trans
  rw [bootCall, idles] at hcall
  rcases hpoint : s.point n with _ | _ | k | _ | rest | _ | _ | rest | _ | _
  all_goals
    rw [hpoint] at hinv hcall
    simp only [reduceCtorEq, Bool.false_eq_true, or_false] at hcall
  case copying => split_ifs at hcall
  case polling => exact hinv.elim
  case waiting =>
    split_ifs at hcall with htwo
    exact .inl ⟨rfl, htwo⟩
  case starting => exact hinv.elim
  case serving => exact .inr (.inl rfl)
  case fatal => exact .inr (.inr rfl)

/-- Where the cluster has what it needs and all listed nodes were started, the init node serves in
the end. -/
theorem BootInv.init_settled (h : BootInv initNodeid cdb confds ids r₀ s)
    (hready : Ready initNodeid cdb confds ids) (hids : ∀ n ∈ ownNodes cdb initNodeid, n ∈ ids)
    (hinit : initNodeid ∈ ids) (hsettled : Settled initNodeid cdb confds ids s) :
    s.point initNodeid = .serving := by
  have hinv := h.init
  have hfatal := h.listed hready initNodeid (hready.lists _ hinit)
  have hcall : bootCall initNodeid cdb confds s initNodeid = none ∨
      idles confds s initNodeid = true := (hsettled initNodeid).imp_left (if_pos hinit).symm.trans
  rw [bootCall, idles] at hcall
  by_contra hserving
  rcases hpoint : s.point initNodeid with _ | _ | k | _ | ⟨_ | ⟨m, rest⟩⟩ | _ | _ |
    ⟨_ | ⟨m, rest⟩⟩ | _ | _
  all_goals
    rw [hpoint] at hinv hcall hfatal hserving
    simp only [reduceCtorEq, Bool.false_eq_true, or_false] at hcall
  case polling.cons =>
    -- the node that is polled has left phase 0, since it cannot make a call there
    obtain ⟨-, hsuffix, -, hall⟩ := hinv
    obtain ⟨hm, hmi⟩ := mem_others.mp (hsuffix.subset List.mem_cons_self)
    have hfollower := h.followers m hmi
    have hone : s.phase m ≠ 1 := by
      rcases hcall with hcall | hcall
      · split_ifs at hcall
      · exact (of_decide_eq_true hcall).2
    rcases h.follower_settled hmi (hids m hm) hsettled with ⟨hpt, -⟩ | hpt | hpt
    · rw [hpt] at hfollower
      exact hone (Nat.le_antisymm (hall m) hfollower.1)
    · rw [hpt] at hfollower
      exact absurd (hall m) (by rw [hfollower.1]; decide)
    · exact h.listed hready m hm hpt
  case starting.cons => split_ifs at hcall
  case serving => exact hserving rfl
  case fatal => exact hfatal rfl
  all_goals exact hinv.elim

/-- All daemons serve in the end exactly if the init node lists the nodes that were started and
these have what they need. -/
theorem BootInv.serving_iff (h : BootInv initNodeid cdb confds ids r₀ s) (hinit : initNodeid ∈ ids)
    (hsettled : Settled initNodeid cdb confds ids s) :
    (∀ n ∈ ids, s.point n = .serving) ↔
      (∀ n, n ∈ ids ↔ n ∈ ownNodes cdb initNodeid) ∧ Ready initNodeid cdb confds ids := by
  constructor
  · intro hserving
    have hstart (n : ℤ) (hn : n ∈ ids) : Startable initNodeid cdb confds n := by
      refine h.startable ?_ ?_
      · rw [hserving n hn]
        exact nofun
      · rw [hserving n hn]
        exact nofun
    have hinv := h.init
    rw [hserving initNodeid hinit] at hinv
    have hiff (n : ℤ) : n ∈ ids ↔ n ∈ ownNodes cdb initNodeid := by
      constructor
      · intro hn
        rcases eq_or_ne n initNodeid with rfl | hne
        · exact (hstart n hn).2
        · have hfollower := h.followers n hne
          rw [hserving n hn] at hfollower
          by_contra hnodes
          exact absurd (hinv.2 n hnodes) (by rw [hfollower.1]; decide)
      · intro hn
        by_contra hids
        exact absurd (hinv.1 n hn) (by rw [h.absent n hids]; decide)
    exact ⟨hiff, fun m hm ↦ (hstart m ((hiff m).mpr hm)).1, fun n hn ↦ (hstart n hn).2⟩
  · rintro ⟨hids, hready⟩ n hn
    have hserving := h.init_settled hready (fun n hn ↦ (hids n).mpr hn) hinit hsettled
    have hinv := h.init
    rw [hserving] at hinv
    rcases eq_or_ne n initNodeid with rfl | hne
    · exact hserving
    · have hlisted := (hids n).mp hn
      rcases h.follower_settled hne hn hsettled with ⟨-, hphase⟩ | hpt | hpt
      · exact (hphase (hinv.1 n hlisted)).elim
      · exact hpt
      · exact (h.listed hready n hlisted hpt).elim

theorem weight_start (routes : ℤ → List ρ) (L N : ℕ) :
    (ids.map fun n ↦ ((bootStart routes).point n).weight L N).sum =
      ids.length * (L + 2 * N + 7) := by
  simp only [bootStart, StartPoint.weight, List.map_const', List.sum_replicate, Nat.nsmul_eq_mul]

end Ending

/-! ## Results -/

section Results

variable {s : Boot ρ} {routes : ℤ → List ρ}

/-- **Starting a cluster is safe.** If the cluster has what it needs and the init node lists every
node that was started, no daemon ends; and in any case, once a node is in phase 2 every node in the
list of the init node has left phase 0 with its routes. -/
theorem boot_safe
    (h : (bootMachine initNodeid cdb confds ids).Reachable (bootStart routes) s) :
    (Ready initNodeid cdb confds ids → (∀ n ∈ ids, n ∈ ownNodes cdb initNodeid) →
        ∀ n ∈ ids, s.point n ≠ .fatal) ∧
      ∀ m, s.phase m = 2 → ∀ n ∈ ownNodes cdb initNodeid,
        1 ≤ s.phase n ∧ s.routes n = routes initNodeid := by
  have hinv : BootInv initNodeid cdb confds ids (routes initNodeid) s :=
    h.invariant (bootInv_start routes) fun _ _ _ hs _ hstep ↦ hs.step hstep
  refine ⟨fun hready hids n hn ↦ hinv.listed hready n (hids n hn), fun m hm n hn ↦ ?_⟩
  have hone := hinv.init.one_le hm hn
  refine ⟨hone, ?_⟩
  rcases eq_or_ne n initNodeid with rfl | hne
  · exact hinv.routes
  · exact (hinv.followers n hne).routes_eq hone

/-- Node 1 is put into phase 2 and has the route of node 0. -/
theorem boot_safe_two_nodes :
    ∃ s : Boot ℕ, (bootMachine 0 (fun _ ↦ clusterConfig [0, 1]) [0, 1] [0, 1]).Reachable
      (bootStart fun n ↦ if n = 0 then [7] else []) s ∧
      (∀ n ∈ [0, 1], s.point n ≠ .fatal) ∧ s.phase 1 = 2 ∧ s.routes 1 = [7] := by
  have hrun : (((bootMachine 0 (fun _ ↦ clusterConfig [0, 1]) [0, 1] [0, 1]).restrict
      fun _ _ ↦ True).runFrom (bootStart fun n ↦ if n = 0 then [7] else [])
        [0, 0, 1, 1, 1, 1, 0, 0, 0, 0]).any (fun s ↦ s.phase 1 = 2) = true := by decide
  obtain ⟨s, hreach, htwo⟩ := Machine.exists_reach_of_any hrun
  have htwo : s.phase 1 = 2 := of_decide_eq_true htwo
  obtain ⟨hfatal, hroutes⟩ := boot_safe hreach
  exact ⟨s, hreach, hfatal ⟨by decide, by decide⟩ (by decide), htwo,
    (hroutes 1 htwo 1 (by decide)).2⟩

/-- A ConfD that the init node lists and that is not up ends the daemon of the init node. -/
example : ((bootMachine 0 (fun _ ↦ clusterConfig [0, 1]) [0] [0]).runFrom
    (bootStart fun _ ↦ ([] : List ℕ)) [0, 0]).any (fun s ↦ decide (s.point 0 = .fatal)) = true := by
  decide

/-- **Every start comes to its end.** The routes and the nodes bound the calls other than questions
whose answer is not phase 1. When only such questions are left, all daemons serve if and only if the
init node lists the nodes that were started and these have what they need. -/
theorem boot_ends (hinit : initNodeid ∈ ids) {es : List ℤ}
    (h : (bootMachine initNodeid cdb confds ids).runFrom (bootStart routes) es = some s) :
    (bootMachine initNodeid cdb confds ids).countFrom (fun s n ↦ idles confds s n = false)
        (bootStart routes) es ≤
        ids.length * ((routes initNodeid).length + 2 * (ownNodes cdb initNodeid).length + 7) ∧
      (Settled initNodeid cdb confds ids s →
        ((∀ n ∈ ids, s.point n = .serving) ↔
          (∀ n, n ∈ ids ↔ n ∈ ownNodes cdb initNodeid) ∧ Ready initNodeid cdb confds ids)) := by
  obtain ⟨hinv, hcount⟩ := Machine.countFrom_add_le_of_runFrom
    (fun s e s' (hs : BootInv initNodeid cdb confds ids (routes initNodeid) s) hstep ↦
      ⟨hs.step hstep, hs.weight_le hstep⟩) (bootInv_start routes) h
  refine ⟨?_, hinv.serving_iff hinit⟩
  rw [← weight_start routes]
  exact Nat.le_of_add_right_le hcount

theorem boot_ends_two_nodes :
    ∃ s : Boot ℕ, (bootMachine 0 (fun _ ↦ clusterConfig [0, 1]) [0, 1] [0, 1]).runFrom
      (bootStart fun n ↦ if n = 0 then [7] else []) [0, 0, 1, 1, 1, 1, 0, 0, 0, 0, 1, 1, 0, 0] =
        some s ∧
      (Settled 0 (fun _ ↦ clusterConfig [0, 1]) [0, 1] [0, 1] s →
        ∀ n ∈ [0, 1], s.point n = .serving) := by
  have hrun : ((bootMachine 0 (fun _ ↦ clusterConfig [0, 1]) [0, 1] [0, 1]).runFrom
      (bootStart fun n ↦ if n = 0 then [7] else [])
      [0, 0, 1, 1, 1, 1, 0, 0, 0, 0, 1, 1, 0, 0]).isSome = true := by decide
  obtain ⟨s, hs⟩ := Option.isSome_iff_exists.mp hrun
  refine ⟨s, hs, fun hsettled ↦ ((boot_ends (by decide) hs).2 hsettled).mpr
    ⟨fun n ↦ ?_, ⟨by decide, by decide⟩⟩⟩
  have hnodes : ownNodes (fun _ ↦ clusterConfig [0, 1]) 0 = [1, 0] := by decide
  rw [hnodes, List.mem_pair, List.mem_pair]
  exact or_comm

end Results

end ConfdDemos.Aasync
