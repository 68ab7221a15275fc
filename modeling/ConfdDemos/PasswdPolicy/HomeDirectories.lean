import ConfdDemos.Foundation.CString
import ConfdDemos.PasswdPolicy.Roles

/-!
# Home directories

A user that is created is given a home directory with its name and a directory for keys below that.
The texts are put together in a buffer on the stack: its size is the length of the first text, as
`snprintf` returns it, and that of `/.ssh`.

## One character

The length that `snprintf` returns is without the zero byte, and the length that it is given is with
it. So the second call leaves out the last character of the name, and the two texts with their zero
byte fit into the buffer just so. Users whose names differ only in the last character share their
directories.

## Results

`createTexts_eq_some` says that nothing is written outside of the buffer and what stands in it, and
`homedirs_private_iff` that no user created is given the directories it should have.
-/

namespace ConfdDemos.PasswdPolicy

/-- The zero byte. A name is the text before it. -/
def nul : Char := '\x00'

def homeRoot : List Char := "/var/confd/home/".toList

def sshPart : List Char := "/.ssh".toList

/-- What the format of the home directory stands for. -/
def homePath (user : Name) : List Char := homeRoot ++ user

/-- The size of the buffer; `snprintf` without a buffer returns the length of the text. -/
def bufferSize (user : Name) : ℕ := (homePath user).length + sshPart.length

/-- The texts that `create` writes, from a buffer with anything in it. -/
def createTexts (user : Name) (buf : List Char) : Option (List Char × List Char) := do
  let bufsz := (homePath user).length
  let buf ← CString.snprintf nul buf bufsz (homePath user)
  let homedir ← CString.text nul buf
  let buf ← CString.strcat nul buf sshPart
  let sshKeydir ← CString.text nul buf
  return (homedir, sshKeydir)

/-! ## The buffer -/

theorem homeText_eq (user : Name) : Aaa.homeText user = (homePath user).dropLast := rfl

theorem nul_notMem_homeRoot : nul ∉ homeRoot := by decide

theorem nul_notMem_sshPart : nul ∉ sshPart := by decide

theorem length_homePath_pos (user : Name) : 0 < (homePath user).length := by
  have hroot : homeRoot.length = 16 := rfl
  rw [homePath, List.length_append]
  omega

/-- The code stays inside of its buffer, and writes what the model of `create` writes. -/
theorem createTexts_eq_some {user : Name} (huser : nul ∉ user) {buf : List Char}
    (hbuf : buf.length = bufferSize user) :
    createTexts user buf = some (Aaa.homeText user, Aaa.homeText user ++ sshPart) := by
  have hpos := length_homePath_pos user
  have hpath : nul ∉ homePath user := by
    rw [homePath, List.mem_append, not_or]
    exact ⟨nul_notMem_homeRoot, huser⟩
  have hsize : (homePath user).length ≤ buf.length := by
    rw [hbuf, bufferSize]
    exact Nat.le_add_right _ _
  obtain ⟨buf', hprint, hlength, htext⟩ := CString.snprintf_eq_some hpath hpos hsize
  rw [← List.dropLast_eq_take, ← homeText_eq] at htext
  have hfits : (Aaa.homeText user).length + sshPart.length + 1 ≤ buf'.length := by
    rw [hlength, hbuf, bufferSize, homeText_eq, List.length_dropLast]
    omega
  obtain ⟨buf'', hcat, -, htext'⟩ := CString.strcat_eq_some htext nul_notMem_sshPart hfits
  simp only [createTexts, hprint, htext, hcat, htext', bind, Option.bind_some, pure]

/-- Two users have the same directory if their names differ in nothing but the last character. -/
theorem homeText_eq_iff {v w : Name} (hv : v ≠ []) (hw : w ≠ []) :
    Aaa.homeText v = Aaa.homeText w ↔ v.dropLast = w.dropLast := by
  rw [homeText_eq, homeText_eq, homePath, homePath, List.dropLast_append_of_ne_nil hv,
    List.dropLast_append_of_ne_nil hw, List.append_cancel_left_eq]

theorem homeText_ne (user : Name) : Aaa.homeText user ≠ homePath user := by
  intro heq
  have hlength := congrArg List.length heq
  have hpos := length_homePath_pos user
  rw [homeText_eq, List.length_dropLast] at hlength
  omega

/-! ## The users created -/

/-- The users that have been created and are still there. -/
def created (ops : List Op) (names : Name → Prop) : Name → Prop :=
  ops.foldl (fun names op v ↦ match op with
    | .create user => v = user ∨ names v
    | .dbremove user => v ≠ user ∧ names v
    | _ => names v) names

/-- Users have directories of their own. -/
structure Private (s : Aaa) (names : Name → Prop) : Prop where
  /-- Creating a user does not write outside of the buffer. -/
  inside : ∀ v, names v → nul ∉ v → ∀ buf : List Char, buf.length = bufferSize v →
    (createTexts v buf).isSome = true
  homedir : ∀ v, names v → ∃ u, s.users v = some u ∧ u.homedir = some (homePath v) ∧
    u.sshKeydir = some (homePath v ++ sshPart)
  different : ∀ v w u u', names v → names w → v ≠ w → s.users v = some u → s.users w = some u' →
    u.homedir ≠ u'.homedir ∧ u.sshKeydir ≠ u'.sshKeydir

/-- The directories of the users created. -/
def Housed (s : Aaa) (names : Name → Prop) : Prop := ∀ v, names v →
  ∃ u, s.users v = some u ∧ u.homedir = some (Aaa.homeText v) ∧
    u.sshKeydir = some (Aaa.homeText v ++ sshPart)

variable {s s' s₀ : Aaa} {names : Name → Prop}

theorem Housed.step {op : Op} (hs : Housed s names) (h : transform.step s op = some s') :
    Housed s' (created [op] names) := by
  obtain ⟨-, hother, hchanges⟩ := step_cases h
  intro v hv
  by_cases hne : v = op.user
  · subst hne
    rcases op with user | ⟨user, newval⟩ | ⟨user, r⟩ | user
    · exact ⟨_, hchanges.2, rfl, rfl⟩
    · obtain ⟨u, hu, hhome, hkeys⟩ := hs user hv
      refine ⟨_, hchanges.trans (congrArg _ hu), hhome, hkeys⟩
    · obtain ⟨u, hu, hhome, hkeys⟩ := hs user hv
      obtain ⟨u', hu', hset⟩ := hchanges
      obtain rfl : u = u' := Option.some.inj (hu.symm.trans hu')
      exact ⟨_, hset, hhome, hkeys⟩
    · exact absurd rfl hv.1
  · have hnames : names v := by
      rcases op with user | ⟨user, newval⟩ | ⟨user, r⟩ | user
      · exact hv.resolve_left hne
      · exact hv
      · exact hv
      · exact hv.2
    rw [hother v hne]
    exact hs v hnames

theorem Housed.runFrom {ops : List Op} (hs : Housed s₀ names)
    (h : transform.runFrom s₀ ops = some s) : Housed s (created ops names) := by
  induction ops generalizing s₀ names with
  | nil =>
    obtain rfl := Option.some.inj h
    exact hs
  | cons op ops ih =>
    obtain ⟨s₁, hstep, hrest⟩ := Option.bind_eq_some_iff.1 h
    exact ih (hs.step hstep) hrest

/-- After a run the users that it has created have directories of their own only if there are no
such users. -/
theorem homedirs_private_iff {ops : List Op} (h : transform.runFrom s₀ ops = some s) :
    Private s (created ops fun _ ↦ False) ↔ ∀ v, ¬ created ops (fun _ ↦ False) v := by
  constructor
  · intro hprivate v hv
    have hhoused : Housed s₀ fun _ ↦ False := fun v hv ↦ hv.elim
    obtain ⟨u, hu, hhome, -⟩ := hhoused.runFrom h v hv
    obtain ⟨u', hu', hhome', -⟩ := hprivate.homedir v hv
    obtain rfl : u = u' := Option.some.inj (hu.symm.trans hu')
    exact homeText_ne v (Option.some.inj (hhome.symm.trans hhome'))
  · intro hnone
    exact ⟨fun v hv ↦ absurd hv (hnone v), fun v hv ↦ absurd hv (hnone v),
      fun v w u u' hv ↦ absurd hv (hnone v)⟩

/-- Two users that are told apart by the last character of their names. -/
def twins : List Op := [.create "eve1".toList, .create "eve2".toList]

theorem homedirs_private_twins : ∃ s, transform.runFrom initialAaa twins = some s ∧
    (Private s (created twins fun _ ↦ False) ↔ ∀ v, ¬ created twins (fun _ ↦ False) v) := by
  have hsome : (transform.runFrom initialAaa twins).isSome = true := by decide
  obtain ⟨s, hrun⟩ := Option.isSome_iff_exists.1 hsome
  exact ⟨s, hrun, homedirs_private_iff hrun⟩

/-- The twins share one home directory. -/
theorem homedirs_shared : ∃ s, transform.runFrom initialAaa twins = some s ∧
    ¬ Private s (created twins fun _ ↦ False) := by
  have hsome : (transform.runFrom initialAaa twins).isSome = true := by decide
  obtain ⟨s, hrun⟩ := Option.isSome_iff_exists.1 hsome
  refine ⟨s, hrun, fun hprivate ↦ ?_⟩
  have hhoused : Housed initialAaa fun _ ↦ False := fun v hv ↦ hv.elim
  have hfirst : created twins (fun _ ↦ False) "eve1".toList := .inr (.inl rfl)
  have hsecond : created twins (fun _ ↦ False) "eve2".toList := .inl rfl
  obtain ⟨u, hu, hhome, -⟩ := hhoused.runFrom hrun _ hfirst
  obtain ⟨u', hu', hhome', -⟩ := hhoused.runFrom hrun _ hsecond
  have hshared : Aaa.homeText "eve1".toList = Aaa.homeText "eve2".toList :=
    (homeText_eq_iff (by decide) (by decide)).mpr (by decide)
  refine (hprivate.different _ _ u u' hfirst hsecond (by decide) hu hu').1 ?_
  rw [hhome, hhome', hshared]

end ConfdDemos.PasswdPolicy
