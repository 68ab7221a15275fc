import ConfdDemos.Aasync.Cluster
import Mathlib.Data.List.Nodup

/-!
# What the nodes hold for an initiator

Between its first lock and its last close an initiator depends only on what every other node holds
for it: nothing, its lock, or its transaction. This file says what that is at each program point of
the initiator (`Expect`), and that each call moves the node it goes to from what is expected before
the call to what is expected after it, and leaves alone what any node holds for anybody else.

## Three parts of a loop

While a loop is at the cell `n` with `rest` to come, the nodes fall into the current one, those
ahead and those behind, and an expectation is one condition for each part (`Visit`). Moving on to
the next peer turns the current node into one behind, whatever the conditions are. -/

namespace ConfdDemos.Aasync

variable {D : Type*} {C : Confd D} {ids : List ℤ}

/-! ## Holdings -/

/-- What a node holds for one peer. -/
inductive Holding
  /-- Neither the lock nor the transaction of the node is the peer's. -/
  | free
  /-- The peer has the lock, and has written this into a transaction it has started, if any. -/
  | locked (written : Option (List TagValue))
  /-- The transaction of the node is the peer's. -/
  | trans (tvals : List TagValue) (phase : Phase ℤ)
  deriving DecidableEq, Repr

def Holding.IsLocked : Holding → Prop
  | .locked _ => True
  | _ => False

/-- What the node holds for the daemon of `a`. -/
def holding (a : ℤ) (N : Node D) : Holding :=
  match N.crit with
  | some t => if t.owner = .peer a then .trans t.tvals t.phase else .free
  | none => if N.lock = some (.peer a) then .locked (N.started a) else .free

theorem holding_of_crit_some {a : ℤ} {N : Node D} {t : Trans} (h : N.crit = some t) :
    holding a N = if t.owner = .peer a then .trans t.tvals t.phase else .free := by
  rw [holding, h]

theorem holding_of_crit_none {a : ℤ} {N : Node D} (h : N.crit = none) :
    holding a N = if N.lock = some (.peer a) then .locked (N.started a) else .free := by
  rw [holding, h]

/-- A node whose transaction is an operator's holds nothing for anybody. -/
theorem holding_of_operator {a : ℤ} {N : Node D} {usid : ℕ} {username : List Char}
    {tvals : List TagValue} {phase : Phase ℤ}
    (h : N.crit = some ⟨.operator usid username, tvals, phase⟩) : holding a N = .free := by
  rw [holding_of_crit_some h, if_neg (by simp)]

/-- A node holds a transaction for a peer exactly when it is the node's. -/
theorem holding_eq_trans_iff {a : ℤ} {N : Node D} {tvals : List TagValue} {phase : Phase ℤ} :
    holding a N = .trans tvals phase ↔ N.crit = some ⟨.peer a, tvals, phase⟩ := by
  cases hc : N.crit with
  | none =>
    rw [holding_of_crit_none hc]
    split_ifs <;> simp
  | some t =>
    rw [holding_of_crit_some hc, Option.some_inj]
    obtain ⟨owner, tvals', phase'⟩ := t
    split_ifs with ho
    · simp [show owner = _ from ho]
    · simp [show ¬owner = _ from ho]

/-- A node holds a lock for a peer exactly when the peer has it and no transaction runs. -/
theorem holding_eq_locked_iff {a : ℤ} {N : Node D} {w : Option (List TagValue)} :
    holding a N = .locked w ↔ N.crit = none ∧ N.lock = some (.peer a) ∧ N.started a = w := by
  cases hc : N.crit with
  | none =>
    rw [holding_of_crit_none hc]
    split_ifs with hl <;> simp [hl]
  | some t =>
    rw [holding_of_crit_some hc]
    split_ifs <;> simp

theorem Holding.isLocked_iff {h : Holding} : h.IsLocked ↔ ∃ w, h = .locked w := by
  cases h <;> simp [Holding.IsLocked]

/-! ## Loops -/

/-- One condition for each part of a loop that is at `n` with `rest` to come. -/
structure Visit (n : ℤ) (rest : List ℤ) (p : ℤ) (A B E : Prop) : Prop where
  current : p = n → A
  ahead : p ≠ n → p ∈ rest → B
  behind : p ≠ n → p ∉ rest → E

theorem Visit.elim {n p : ℤ} {rest : List ℤ} {A B E Q : Prop} (h : Visit n rest p A B E)
    (hA : A → Q) (hB : B → Q) (hE : E → Q) : Q := by
  by_cases hn : p = n
  · exact hA (h.current hn)
  · by_cases hr : p ∈ rest
    · exact hB (h.ahead hn hr)
    · exact hE (h.behind hn hr)

/-- The first cell of a loop is one of those ahead. -/
theorem visit_of_nextPeer {isLocal : ℤ → Bool} {l rest : List ℤ} {n p : ℤ} {A B E : Prop}
    (h : nextPeer isLocal l = some (n, rest)) (hp : isLocal p = false) (hBA : B → A)
    (hin : p ∈ l → B) (hout : p ∉ l → E) : Visit n rest p A B E := by
  have hmem := mem_iff_of_nextPeer h hp
  constructor
  · exact fun hpn ↦ hBA (hin (hmem.mpr (Or.inl hpn)))
  · exact fun _ hr ↦ hin (hmem.mpr (Or.inr hr))
  · exact fun hpn hr ↦ hout fun hl ↦ (hmem.mp hl).elim hpn hr

/-! ## Expectations -/

/-- What `p` holds for an initiator that replicates `tvals` and is at a program point. -/
def Expect (tvals : List TagValue) (p : ℤ) (h : Holding) : Phase ℤ → Prop
  | .preparing .socket n rest => Visit n rest p (h = .free) (h = .free) h.IsLocked
  | .preparing .session n rest => Visit n rest p (h = .free) (h = .free) h.IsLocked
  | .preparing (.lock _) n rest => Visit n rest p (h = .free) (h = .free) h.IsLocked
  | .preparing .startTrans n rest =>
    Visit n rest p h.IsLocked h.IsLocked (h = .trans tvals .validated)
  | .preparing .setValues n rest =>
    Visit n rest p (h = .locked (some [])) h.IsLocked (h = .trans tvals .validated)
  | .preparing .validate n rest =>
    Visit n rest p (h = .locked (some tvals)) h.IsLocked (h = .trans tvals .validated)
  | .preparing .prepare n rest =>
    Visit n rest p (h = .trans tvals .validated ∨ h = .trans tvals .prepared)
      (h = .trans tvals .validated) (h = .trans tvals .prepared)
  | .aborting n rest =>
    Visit n rest p (h = .free ∨ h.IsLocked) (h = .free ∨ h.IsLocked) (h = .free)
  | .prepared => h = if tvals = [] then .free else .trans tvals .prepared
  | .cancelling n rest =>
    Visit n rest p (h = .free ∨ h = .trans tvals .prepared) (h = .free ∨ h = .trans tvals .prepared)
      (h = .free)
  | .committing .commit n rest =>
    Visit n rest p
      (h = .trans tvals .prepared ∨ h = .trans tvals .settling ∨ h = .trans tvals .committed)
      (h = .trans tvals .prepared) (h = .free)
  | .committing .finish n rest =>
    Visit n rest p (h = .trans tvals .committed) (h = .trans tvals .prepared) (h = .free)
  | _ => h = .free

section Loops

variable {isLocal : ℤ → Bool} {nodes l : List ℤ} {tvals : List TagValue} {p : ℤ} {h : Holding}

theorem expect_abortLoop (hp : isLocal p = false) (hin : p ∈ l → h = .free ∨ h.IsLocked)
    (hout : p ∉ l → h = .free) : Expect tvals p h (abortLoop isLocal l) := by
  refine loopFrom_rule (Q := Expect tvals p h) ?_ ?_
  · intro n rest hnext
    exact visit_of_nextPeer hnext hp id hin hout
  · intro hnext
    exact hout (notMem_of_nextPeer_none hnext hp)

theorem expect_cancelLoop (hp : isLocal p = false)
    (hin : p ∈ l → h = .free ∨ h = .trans tvals .prepared) (hout : p ∉ l → h = .free) :
    Expect tvals p h (cancelLoop isLocal l) := by
  refine loopFrom_rule (Q := Expect tvals p h) ?_ ?_
  · intro n rest hnext
    exact visit_of_nextPeer hnext hp id hin hout
  · intro hnext
    exact hout (notMem_of_nextPeer_none hnext hp)

theorem expect_prepareLoop (hne : tvals ≠ []) (hp : isLocal p = false)
    (hin : p ∈ l → h = .trans tvals .validated) (hout : p ∉ l → h = .trans tvals .prepared) :
    Expect tvals p h (prepareLoop isLocal l) := by
  refine loopFrom_rule (Q := Expect tvals p h) ?_ ?_
  · intro n rest hnext
    exact visit_of_nextPeer hnext hp Or.inl hin hout
  · intro hnext
    rw [Expect, if_neg hne]
    exact hout (notMem_of_nextPeer_none hnext hp)

theorem expect_writeLoop (hne : tvals ≠ []) (hp : isLocal p = false) (hmem : p ∈ nodes)
    (hin : p ∈ l → h.IsLocked) (hout : p ∉ l → h = .trans tvals .validated) :
    Expect tvals p h (writeLoop isLocal nodes l) := by
  refine loopFrom_rule (Q := Expect tvals p h) ?_ ?_
  · intro n rest hnext
    exact visit_of_nextPeer hnext hp id hin hout
  · intro hnext
    have hdone := hout (notMem_of_nextPeer_none hnext hp)
    exact expect_prepareLoop hne hp (fun _ ↦ hdone) fun hnot ↦ absurd hmem hnot

theorem expect_lockLoop (hne : tvals ≠ []) (hp : isLocal p = false) (hmem : p ∈ nodes)
    (hin : p ∈ l → h = .free) (hout : p ∉ l → h.IsLocked) :
    Expect tvals p h (lockLoop isLocal nodes l) := by
  refine loopFrom_rule (Q := Expect tvals p h) ?_ ?_
  · intro n rest hnext
    exact visit_of_nextPeer hnext hp id hin hout
  · intro hnext
    have hdone := hout (notMem_of_nextPeer_none hnext hp)
    exact expect_writeLoop hne hp hmem (fun _ ↦ hdone) fun hnot ↦ absurd hmem hnot

theorem expect_closeLoop (hfree : h = .free) : Expect tvals p h (closeLoop isLocal l) :=
  loopFrom_rule (Q := Expect tvals p h) (fun _ _ _ ↦ hfree) fun _ ↦ hfree

theorem expect_commitLoop (hp : isLocal p = false) (hin : p ∈ l → h = .trans tvals .prepared)
    (hout : p ∉ l → h = .free) : Expect tvals p h (commitLoop isLocal nodes l) := by
  refine loopFrom_rule (Q := Expect tvals p h) ?_ ?_
  · intro n rest hnext
    exact visit_of_nextPeer hnext hp Or.inl hin hout
  · intro hnext
    exact expect_closeLoop (hout (notMem_of_nextPeer_none hnext hp))

end Loops

/-! ## The effect of a call on what is held for the caller -/

/-- What a call that has returned `ok` did to what the node holds for the caller. -/
def Served (tvals : List TagValue) (ok : Bool) (h h' : Holding) : Call → Prop
  | .socket => ok = true ∧ h' = h
  | .session => ok = true ∧ h' = h
  | .lock => ok = true ∧ h'.IsLocked ∨ ok = false ∧ h' = h
  | .startTrans => ok = true ∧ (h.IsLocked → h' = .locked (some []))
  | .setValues => ok = true ∧ ∀ w, h = .locked (some w) → h' = .locked (some (w ++ tvals))
  | .validate => ok = true ∧ ∀ w, h = .locked (some w) → h' = .trans w .validated
  | .prepare => h' = h ∧ ∃ w, h = .trans w (if ok then .prepared else .refused)
  | .commit => ok = true ∧ h' = h ∧ ∃ w, h = .trans w .committed
  | .finish => ok = true ∧ h' = .free
  | .close => ok = true ∧ h' = .free

/-- The cells the running loop has still to serve, the current one first. -/
def Phase.cells {ν : Type*} : Phase ν → List ν
  | .preparing _ n rest => n :: rest
  | .aborting n rest => n :: rest
  | .cancelling n rest => n :: rest
  | .committing _ n rest => n :: rest
  | _ => []

section Next

variable {isLocal : ℤ → Bool} {nodes rest : List ℤ} {tvals : List TagValue} {n p : ℤ} {ok : Bool}
  {h h' : Holding}

/-- A condition on the nodes ahead and one on those behind, after the current node has been
served. -/
theorem Visit.served {A B E : Prop} {F G : Holding → Prop} (hv : Visit n rest p A B E)
    (hn : n ∉ rest) (hother : p ≠ n → h' = h) (hB : B → F h) (hE : E → G h)
    (hself : p = n → G h') : (p ∈ rest → F h') ∧ (p ∉ rest → G h') := by
  by_cases hpn : p = n
  · exact ⟨fun hr ↦ absurd (hpn ▸ hr) hn, fun _ ↦ hself hpn⟩
  · rw [hother hpn]
    exact ⟨fun hr ↦ hB (hv.ahead hpn hr), fun hr ↦ hE (hv.behind hpn hr)⟩

theorem expect_onOk {step : PrepareStep} (hexp : Expect tvals p h (.preparing step n rest))
    (hne : tvals ≠ []) (hn : n ∉ rest) (hp : isLocal p = false) (hmem : p ∈ nodes)
    (hother : p ≠ n → h' = h) (hself : p = n → Served tvals true h h' step.call) :
    Expect tvals p h' (step.onOk isLocal nodes n rest) := by
  cases step with
  | socket =>
    have heq : h' = h := by
      by_cases hpn : p = n
      · exact (hself hpn).2
      · exact hother hpn
    rw [heq]
    exact hexp
  | session =>
    have heq : h' = h := by
      by_cases hpn : p = n
      · exact (hself hpn).2
      · exact hother hpn
    rw [heq]
    exact hexp
  | lock i =>
    obtain ⟨hin, hout⟩ := hexp.served (F := (· = .free)) (G := Holding.IsLocked) hn hother id id
      fun hpn ↦ (hself hpn).elim (·.2) fun hfalse ↦ absurd hfalse.1 (by simp)
    exact expect_lockLoop hne hp hmem hin hout
  | startTrans =>
    refine ⟨fun hpn ↦ (hself hpn).2 (hexp.current hpn), ?_, ?_⟩
    · exact fun hpn hr ↦ hother hpn ▸ hexp.ahead hpn hr
    · exact fun hpn hr ↦ hother hpn ▸ hexp.behind hpn hr
  | setValues =>
    refine ⟨fun hpn ↦ (hself hpn).2 [] (hexp.current hpn), ?_, ?_⟩
    · exact fun hpn hr ↦ hother hpn ▸ hexp.ahead hpn hr
    · exact fun hpn hr ↦ hother hpn ▸ hexp.behind hpn hr
  | validate =>
    obtain ⟨hin, hout⟩ := hexp.served (F := Holding.IsLocked) (G := (· = .trans tvals .validated))
      hn hother id id fun hpn ↦ (hself hpn).2 tvals (hexp.current hpn)
    exact expect_writeLoop hne hp hmem hin hout
  | prepare =>
    obtain ⟨hin, hout⟩ := hexp.served (F := (· = .trans tvals .validated))
      (G := (· = .trans tvals .prepared)) hn hother id id fun hpn ↦ by
        obtain ⟨heq, w, hw⟩ := hself hpn
        -- the node has answered, so it is no longer only validated
        rcases hexp.current hpn with hv | hv
        · rw [hv] at hw
          exact absurd hw (by simp)
        · exact heq.trans hv
    exact expect_prepareLoop hne hp hin hout

/-- Only a lock attempt fails, and then nobody holds more than a lock. -/
theorem expect_onErr {step : PrepareStep} (hexp : Expect tvals p h (.preparing step n rest))
    (hp : isLocal p = false) (hmem : p ∈ nodes) (hother : p ≠ n → h' = h)
    (hself : p = n → Served tvals false h h' step.call) (hlock : ∃ i, step = .lock i) :
    Expect tvals p h' (step.onErr isLocal nodes n rest) := by
  obtain ⟨i, rfl⟩ := hlock
  have heq : h' = h := by
    by_cases hpn : p = n
    · exact (hself hpn).elim (fun htrue ↦ absurd htrue.1 (by simp)) (·.2)
    · exact hother hpn
  rw [heq, PrepareStep.onErr]
  by_cases hlast : i = numLockRetries
  · rw [if_pos hlast]
    refine expect_abortLoop hp (fun _ ↦ ?_) fun hnot ↦ absurd hmem hnot
    exact hexp.elim Or.inl Or.inl Or.inr
  · rw [if_neg hlast]
    exact hexp

theorem expect_committing {step : CommitStep}
    (hexp : Expect tvals p h (.committing step n rest)) (hn : n ∉ rest) (hp : isLocal p = false)
    (hother : p ≠ n → h' = h) (hself : p = n → Served tvals ok h h' step.call) :
    Expect tvals p h' ((Phase.committing step n rest).next isLocal nodes ok) := by
  cases step with
  | commit =>
    refine ⟨fun hpn ↦ ?_, ?_, ?_⟩
    · obtain ⟨-, heq, w, hw⟩ := hself hpn
      rcases hexp.current hpn with hv | hv | hv
      · rw [hv] at hw; exact absurd hw (by simp)
      · rw [hv] at hw; exact absurd hw (by simp)
      · exact heq.trans hv
    · exact fun hpn hr ↦ hother hpn ▸ hexp.ahead hpn hr
    · exact fun hpn hr ↦ hother hpn ▸ hexp.behind hpn hr
  | finish =>
    obtain ⟨hin, hout⟩ := hexp.served (F := (· = .trans tvals .prepared)) (G := (· = .free))
      hn hother id id fun hpn ↦ (hself hpn).2
    exact expect_commitLoop hp hin hout
  | close =>
    refine expect_closeLoop ?_
    by_cases hpn : p = n
    · exact (hself hpn).2
    · exact (hother hpn).trans hexp

/-- **A call keeps the expectations.** When the call of a program point has returned, every node
holds what is expected at the next one: the callee because it has served the call, the others
because they are ahead or behind as they were. -/
theorem expect_next {phase : Phase ℤ} {c : Call} (hcall : phase.call = some (c, n))
    (hexp : Expect tvals p h phase)
    (hne : ∀ step n rest, phase = .preparing step n rest → tvals ≠ [])
    (hnodup : phase.cells.Nodup) (hp : isLocal p = false) (hmem : p ∈ nodes)
    (hok : ok = false → c = .lock) (hother : p ≠ n → h' = h)
    (hself : p = n → Served tvals ok h h' c) :
    Expect tvals p h' (phase.next isLocal nodes ok) := by
  cases phase with
  | preparing step m rest =>
    rw [Phase.call, Option.some_inj, Prod.mk.injEq] at hcall
    obtain ⟨rfl, rfl⟩ := hcall
    have hn : m ∉ rest := (List.nodup_cons.mp hnodup).1
    cases ok with
    | true => exact expect_onOk hexp (hne _ _ _ rfl) hn hp hmem hother hself
    | false =>
      refine expect_onErr hexp hp hmem hother hself ?_
      -- only the request for a lock may be refused
      have hlock := hok rfl
      cases step with
      | lock i => exact ⟨i, rfl⟩
      | _ => exact absurd hlock (by simp [PrepareStep.call])
  | aborting m rest =>
    rw [Phase.call, Option.some_inj, Prod.mk.injEq] at hcall
    obtain ⟨rfl, rfl⟩ := hcall
    obtain ⟨hin, hout⟩ := hexp.served (F := fun h ↦ h = .free ∨ h.IsLocked) (G := (· = .free))
      (List.nodup_cons.mp hnodup).1 hother id id fun hpn ↦ (hself hpn).2
    exact expect_abortLoop hp hin hout
  | cancelling m rest =>
    rw [Phase.call, Option.some_inj, Prod.mk.injEq] at hcall
    obtain ⟨rfl, rfl⟩ := hcall
    obtain ⟨hin, hout⟩ := hexp.served (F := fun h ↦ h = .free ∨ h = .trans tvals .prepared)
      (G := (· = .free)) (List.nodup_cons.mp hnodup).1 hother id id fun hpn ↦ (hself hpn).2
    exact expect_cancelLoop hp hin hout
  | committing step m rest =>
    rw [Phase.call, Option.some_inj, Prod.mk.injEq] at hcall
    obtain ⟨rfl, rfl⟩ := hcall
    exact expect_committing hexp (List.nodup_cons.mp hnodup).1 hp hother hself
  | _ => exact absurd hcall (by simp [Phase.call])

/-- A node settles a peer's transaction only while the initiator is at the commit call to it. -/
theorem expect_committed_of_settling {vs : List TagValue} {phase : Phase ℤ}
    (hexp : Expect tvals p (.trans vs .settling) phase) :
    Expect tvals p (.trans vs .committed) phase := by
  cases phase with
  -- everywhere but at a commit call the expectation is not a settling transaction
  | preparing step n rest =>
    cases step <;>
      exact Visit.elim hexp (by simp [Holding.IsLocked]) (by simp [Holding.IsLocked])
        (by simp [Holding.IsLocked])
  | aborting n rest =>
    exact hexp.elim (by simp [Holding.IsLocked]) (by simp [Holding.IsLocked]) (by simp)
  | prepared =>
    rw [Expect] at hexp
    split_ifs at hexp
    exact absurd hexp (by simp)
  | cancelling n rest => exact hexp.elim (by simp) (by simp) (by simp)
  | committing step n rest =>
    cases step with
    | commit =>
      refine ⟨fun hpn ↦ ?_, fun hpn hr ↦ absurd (hexp.ahead hpn hr) (by simp),
        fun hpn hr ↦ absurd (hexp.behind hpn hr) (by simp)⟩
      rcases hexp.current hpn with hv | hv | hv
      · exact absurd hv (by simp)
      · obtain ⟨rfl, -⟩ := Holding.trans.inj hv
        exact Or.inr (Or.inr rfl)
      · exact absurd hv (by simp)
    | finish => exact hexp.elim (by simp) (by simp) (by simp)
    | close => exact absurd hexp (by simp [Expect])
  | _ => exact absurd hexp (by simp [Expect])

end Next

end ConfdDemos.Aasync
