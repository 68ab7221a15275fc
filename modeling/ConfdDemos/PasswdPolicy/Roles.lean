import ConfdDemos.Foundation.Machine

/-!
# Roles of users

The transform shows the users of AAA as a list with a name, a password and a role. The role is not
stored: a user is an administrator if the group `admin` lists it, and an operator if the group
`oper` does. The user also has the ids `0` or `20`. Setting a role writes both ids and both groups,
each group by reading the whole list and writing it back.

## The invariant

`Consistent` says that the groups are disjoint lists without duplicates of users with the ids of the
group. Every operation touches the groups only at one user (`groupsOf_ne`), and the role of that
user is a function of the operation alone. So the role of a user is the one last set since its
creation.

## MAAPI

A call of MAAPI that fails ends the process, by `OK`, except when a password is set. The groups
`admin` and `oper` are there; the list of a group without members is read as empty.
-/

namespace ConfdDemos.PasswdPolicy

/-! ## Lists in place -/

section Shift

variable {α : Type*}

/-- `users[i] = users[i + 1]`, for `k` rounds of the loop. -/
def shift (l : List α) : ℕ → ℕ → List α
  | 0, _ => l
  | k + 1, i =>
    match l[i + 1]? with
    | some x => shift (l.set i x) k (i + 1)
    | none => l

theorem getElem?_shift {l : List α} {k i : ℕ} (h : i + k < l.length) (j : ℕ) :
    (shift l k i)[j]? = if i ≤ j ∧ j < i + k then l[j + 1]? else l[j]? := by
  induction k generalizing l i with
  | zero =>
    rw [shift, if_neg]
    omega
  | succ k ih =>
    have hi : i + 1 < l.length := by omega
    have hset : ∀ m, (l.set i l[i + 1])[m]? = if i = m then l[i + 1]? else l[m]? := by
      intro m
      rw [List.getElem?_set, List.getElem?_eq_getElem hi]
      split_ifs
      · rfl
      · omega
      · rfl
    rw [shift, List.getElem?_eq_getElem hi]
    change (shift (l.set i l[i + 1]) k (i + 1))[j]? = _
    rw [ih (by rw [List.length_set]; omega), hset, hset]
    by_cases hij : i = j
    · rw [if_neg (by omega), if_pos hij, if_pos (by omega), hij]
    · by_cases hr : i + 1 ≤ j ∧ j < i + 1 + k
      · rw [if_pos hr, if_neg (by omega), if_pos (by omega)]
      · rw [if_neg hr, if_neg hij, if_neg (by omega)]

/-- **The loop removes one entry.** -/
theorem take_shift {l : List α} {i : ℕ} (h : i < l.length) :
    (shift l (l.length - 1 - i) i).take (l.length - 1) = l.eraseIdx i := by
  refine List.ext_getElem? fun j ↦ ?_
  rw [List.getElem?_take, getElem?_shift (by omega), List.getElem?_eraseIdx]
  by_cases hj : j < l.length - 1
  · rw [if_pos hj]
    by_cases hij : j < i
    · rw [if_neg (by omega), if_pos hij]
    · rw [if_pos (by omega), if_neg hij]
  · rw [if_neg hj]
    by_cases hij : j < i
    · omega
    · rw [if_neg hij, List.getElem?_eq_none (by omega)]

end Shift

/-! ## The state of AAA -/

abbrev Name := List Char

/-- The values of `Role`, which are also the names of the groups. -/
inductive Role where
  | admin
  | oper
  deriving DecidableEq, Repr

namespace Role

/-- The user and group id of a role. -/
def id : Role → ℕ
  | admin => 0
  | oper => 20

def other : Role → Role
  | admin => oper
  | oper => admin

end Role

/-- What the transform writes of a user. -/
structure User where
  uid : Option ℕ
  gid : Option ℕ
  password : Option (List Char)
  homedir : Option (List Char)
  sshKeydir : Option (List Char)
  deriving DecidableEq, Repr

structure Aaa where
  users : Name → Option User
  /-- The `user-name` list of a group. -/
  group : Role → List Name

namespace Aaa

variable (s : Aaa)

/-- `maapi_set_elem2` on a leaf of a user, which has to be there. -/
def setUser (user : Name) (f : User → User) : Option Aaa :=
  (s.users user).map fun u ↦ { s with users := fun n ↦ if n = user then some (f u) else s.users n }

/-- `maapi_set_elem` on the list of a group. -/
def setGroup (r : Role) (list : List Name) : Aaa :=
  { s with group := fun q ↦ if q = r then list else s.group q }

/-- `get_group_member`; no index stands for `-1`. -/
def getGroupMember (group : List Name) (user : Name) : Option ℕ := group.idxOf? user

/-- `add_user_to_group`. -/
def addUserToGroup (user : Name) (r : Role) : Aaa :=
  match getGroupMember (s.group r) user with
  | some _ => s
  | none => s.setGroup r (s.group r ++ [user])

/-- `del_user_from_group`. -/
def delUserFromGroup (user : Name) (r : Role) : Aaa :=
  match getGroupMember (s.group r) user with
  | some index =>
    let nUsers := (s.group r).length - 1
    s.setGroup r ((shift (s.group r) (nUsers - index) index).take nUsers)
  | none => s

/-! ## The callbacks -/

/-- The leaves of a user in the transform. -/
inductive Leaf where
  | name
  | password
  | role
  deriving DecidableEq, Repr

inductive Value where
  | str (text : List Char)
  | enum (role : Role)
  deriving DecidableEq, Repr

/-- The case `users_role` of `get_elem`. -/
def getRole (user : Name) : Option Role :=
  if (getGroupMember (s.group .admin) user).isSome then some .admin
  else if (getGroupMember (s.group .oper) user).isSome then some .oper
  else none

/-- `get_elem`; no value stands for `confd_data_reply_not_found`. -/
def getElem (user : Name) : Leaf → Option Value
  | .name => (s.users user).map fun _ ↦ .str user
  | .password => (s.users user).bind fun u ↦ u.password.map .str
  | .role => (s.getRole user).map .enum

/-- `set_elem` for a password. A failure is replied to ConfD. -/
def setPassword (user : Name) (newval : List Char) : Aaa :=
  (s.setUser user fun u ↦ { u with password := some newval }).getD s

/-- `set_elem` for a role. -/
def setRole (user : Name) (r : Role) : Option Aaa := do
  let s ← s.setUser user fun u ↦ { u with uid := some r.id }
  let s ← s.setUser user fun u ↦ { u with gid := some r.id }
  return (s.addUserToGroup user r).delUserFromGroup user r.other

/-- `dbremove`. -/
def dbremove (user : Name) : Option Aaa :=
  (s.users user).map fun _ ↦
    (({ s with users := fun n ↦ if n = user then none else s.users n } : Aaa).delUserFromGroup user
      .oper).delUserFromGroup user .admin

/-- The home directory of `create`. The size given to `snprintf` has no room for the zero byte, so
the last character is lost. -/
def homeText (user : Name) : List Char := ("/var/confd/home/".toList ++ user).dropLast

/-- What `create` writes of a user. -/
def newUser (user : Name) : User :=
  ⟨none, none, none, some (homeText user), some (homeText user ++ "/.ssh".toList)⟩

/-- `create`. -/
def create (user : Name) : Option Aaa :=
  match s.users user with
  | some _ => none
  | none => some { s with users := fun n ↦ if n = user then some (newUser user) else s.users n }

end Aaa

/-- The operations of ConfD that change the state. -/
inductive Op where
  | create (user : Name)
  | setPassword (user : Name) (newval : List Char)
  | setRole (user : Name) (r : Role)
  | dbremove (user : Name)
  deriving DecidableEq, Repr

/-- The user an operation is about. -/
def Op.user : Op → Name
  | create user | setPassword user _ | setRole user _ | dbremove user => user

/-- The transform, one operation at a time. There is no step when the process ends. -/
def transform : Machine Aaa Op where
  step s
    | .create user => s.create user
    | .setPassword user newval => some (s.setPassword user newval)
    | .setRole user r => s.setRole user r
    | .dbremove user => s.dbremove user

/-! ## Groups -/

namespace Aaa

variable {s : Aaa}

theorem getGroupMember_isSome {group : List Name} {user : Name} :
    (getGroupMember group user).isSome = true ↔ user ∈ group := by
  rw [getGroupMember, Option.isSome_iff_ne_none, ne_eq, List.idxOf?_eq_none_iff, not_not]

theorem getRole_eq (user : Name) : s.getRole user =
    if user ∈ s.group .admin then some .admin else if user ∈ s.group .oper then some .oper
    else none := by
  simp only [getRole, getGroupMember_isSome]

theorem setGroup_group (r q : Role) (list : List Name) :
    (s.setGroup r list).group q = if q = r then list else s.group q := rfl

@[simp] theorem addUserToGroup_users (user : Name) (r : Role) :
    (s.addUserToGroup user r).users = s.users := by
  rw [addUserToGroup]
  split <;> rfl

@[simp] theorem delUserFromGroup_users (user : Name) (r : Role) :
    (s.delUserFromGroup user r).users = s.users := by
  rw [delUserFromGroup]
  split <;> rfl

/-- A user is added at the end of a group that does not have it. -/
theorem addUserToGroup_group (user : Name) (r q : Role) :
    (s.addUserToGroup user r).group q =
      if q = r ∧ user ∉ s.group r then s.group r ++ [user] else s.group q := by
  rw [addUserToGroup]
  split
  next i hi =>
    have hmem : user ∈ s.group r := getGroupMember_isSome.1 (by rw [hi]; rfl)
    rw [if_neg fun h ↦ h.2 hmem]
  next hi =>
    have hmem : user ∉ s.group r := by
      rw [← getGroupMember_isSome, hi]
      simp
    rw [setGroup_group]
    simp only [hmem, not_false_eq_true, and_true]

/-- The first entry of the user is removed from the group. -/
theorem delUserFromGroup_group (user : Name) (r q : Role) :
    (s.delUserFromGroup user r).group q =
      if q = r then (s.group r).erase user else s.group q := by
  rw [delUserFromGroup, List.erase_eq_eraseIdx]
  split
  next i hi =>
    have hlen : i < (s.group r).length := by
      rw [getGroupMember, List.idxOf?, List.findIdx?_eq_some_iff_findIdx_eq] at hi
      exact hi.1
    rw [setGroup_group, take_shift hlen, show (s.group r).idxOf? user = some i from hi]
  next hi =>
    rw [show (s.group r).idxOf? user = none from hi]
    split_ifs with hq
    · rw [hq]
    · rfl

end Aaa

/-! ## What a step does -/

/-- The groups after an operation. -/
def Op.groups (g : Role → List Name) : Op → Role → List Name
  | create _, q | setPassword _ _, q => g q
  | setRole user r, q =>
    if q = r then if (g q).contains user then g q else g q ++ [user] else (g q).erase user
  | dbremove user, q => (g q).erase user

/-- The roles after an operation. -/
def Op.roles (f : Name → Option Role) (op : Op) (v : Name) : Option Role :=
  match op with
  | create user | dbremove user => if v = user then none else f v
  | setPassword _ _ => f v
  | setRole user r => if v = user then some r else f v

/-- What an operation finds of its user, and what it leaves. -/
def Op.Changes (s s' : Aaa) : Op → Prop
  | create user => s.users user = none ∧ s'.users user = some (Aaa.newUser user)
  | setPassword user newval =>
    s'.users user = (s.users user).map fun u ↦ { u with password := some newval }
  | setRole user r => ∃ u, s.users user = some u ∧
      s'.users user = some { u with uid := some r.id, gid := some r.id }
  | dbremove user => s'.users user = none

namespace Aaa

variable {s s' : Aaa} {user : Name}

theorem setUser_eq_some {f : User → User} (h : s.setUser user f = some s') :
    ∃ u, s.users user = some u ∧ s'.users user = some (f u) ∧ s'.group = s.group ∧
      ∀ v, v ≠ user → s'.users v = s.users v := by
  obtain ⟨u, hu, rfl⟩ := Option.map_eq_some_iff.1 h
  exact ⟨u, hu, if_pos rfl, rfl, fun v hv ↦ if_neg hv⟩

theorem create_eq_some (h : s.create user = some s') : s'.group = s.group ∧
    (∀ v, v ≠ user → s'.users v = s.users v) ∧ (Op.create user).Changes s s' := by
  rw [create] at h
  split at h
  next => exact absurd h (by simp)
  next hnone =>
    obtain rfl := Option.some.inj h
    exact ⟨rfl, fun v hv ↦ if_neg hv, hnone, if_pos rfl⟩

theorem setPassword_spec (newval : List Char) : (s.setPassword user newval).group = s.group ∧
    (∀ v, v ≠ user → (s.setPassword user newval).users v = s.users v) ∧
    (Op.setPassword user newval).Changes s (s.setPassword user newval) := by
  rw [setPassword, setUser]
  cases hu : s.users user with
  | none => exact ⟨rfl, fun v _ ↦ rfl, by rw [Op.Changes, hu]; exact hu⟩
  | some u => exact ⟨rfl, fun v hv ↦ if_neg hv, by rw [Op.Changes, hu]; exact if_pos rfl⟩

theorem setRole_eq_some {r : Role} (h : s.setRole user r = some s') :
    s'.group = (Op.setRole user r).groups s.group ∧
    (∀ v, v ≠ user → s'.users v = s.users v) ∧ (Op.setRole user r).Changes s s' := by
  rw [setRole] at h
  obtain ⟨s₁, h₁, h⟩ := Option.bind_eq_some_iff.1 h
  obtain ⟨s₂, h₂, h⟩ := Option.bind_eq_some_iff.1 h
  obtain ⟨u, hu, hu₁, hgroup₁, hrest₁⟩ := setUser_eq_some h₁
  obtain ⟨u', hu', hu₂, hgroup₂, hrest₂⟩ := setUser_eq_some h₂
  obtain rfl := Option.some.inj (hu₁.symm.trans hu')
  obtain rfl := Option.some.inj h
  refine ⟨?_, fun v hv ↦ ?_, u, hu, ?_⟩
  · funext q
    have hother : q = r.other ↔ q ≠ r := by
      cases q <;> cases r <;> simp [Role.other]
    rw [delUserFromGroup_group, addUserToGroup_group, addUserToGroup_group, hgroup₂, hgroup₁,
      Op.groups]
    by_cases hq : q = r
    · subst hq
      by_cases hmem : user ∈ s.group q
      · simp [hmem, hother]
      · simp [hmem, hother]
    · simp [hq, ← hother.2 hq]
  · rw [delUserFromGroup_users, addUserToGroup_users, hrest₂ v hv, hrest₁ v hv]
  · rw [delUserFromGroup_users, addUserToGroup_users, hu₂]

theorem dbremove_eq_some (h : s.dbremove user = some s') :
    s'.group = (Op.dbremove user).groups s.group ∧
    (∀ v, v ≠ user → s'.users v = s.users v) ∧ (Op.dbremove user).Changes s s' := by
  obtain ⟨u, hu, rfl⟩ := Option.map_eq_some_iff.1 h
  refine ⟨?_, fun v hv ↦ ?_, ?_⟩
  · funext q
    rw [delUserFromGroup_group, delUserFromGroup_group, delUserFromGroup_group]
    cases q <;> simp [Op.groups]
  · rw [delUserFromGroup_users, delUserFromGroup_users]
    exact if_neg hv
  · rw [Op.Changes, delUserFromGroup_users, delUserFromGroup_users]
    exact if_pos rfl

end Aaa

/-- **What a step does**: it moves one user between the groups, and changes one user. -/
theorem step_cases {s s' : Aaa} {op : Op} (h : transform.step s op = some s') :
    s'.group = op.groups s.group ∧ (∀ v, v ≠ op.user → s'.users v = s.users v) ∧
      op.Changes s s' := by
  cases op with
  | create user => exact Aaa.create_eq_some h
  | setPassword user newval =>
    obtain rfl := Option.some.inj h
    exact Aaa.setPassword_spec newval
  | setRole user r => exact Aaa.setRole_eq_some h
  | dbremove user => exact Aaa.dbremove_eq_some h

/-- ConfD creates a user that is not there, and sets and removes one that is. -/
def Op.Allowed (s : Aaa) : Op → Prop
  | create user => s.users user = none
  | setPassword user _ | setRole user _ | dbremove user => s.users user ≠ none

/-- An operation that ConfD asks for does not end the process. -/
theorem exists_step {s : Aaa} {op : Op} (h : op.Allowed s) :
    ∃ s', transform.step s op = some s' := by
  cases op with
  | create user =>
    have hnone : s.users user = none := h
    refine Option.isSome_iff_exists.1 ?_
    simp only [transform, Aaa.create, hnone, Option.isSome_some]
  | setPassword user newval => exact ⟨_, rfl⟩
  | setRole user r =>
    obtain ⟨u, hu⟩ := Option.ne_none_iff_exists'.1 h
    have hid : ∀ {s : Aaa} {u : User} (f : User → User), s.users user = some u →
        ∃ s', s.setUser user f = some s' := fun f hu ↦ ⟨_, by rw [Aaa.setUser, hu]; rfl⟩
    obtain ⟨s₁, h₁⟩ := hid (fun u ↦ { u with uid := some r.id }) hu
    obtain ⟨_, -, hu₁, -⟩ := Aaa.setUser_eq_some h₁
    obtain ⟨s₂, h₂⟩ := hid (fun u ↦ { u with gid := some r.id }) hu₁
    refine ⟨(s₂.addUserToGroup user r).delUserFromGroup user r.other, ?_⟩
    simp only [transform, Aaa.setRole, h₁, h₂, bind, Option.bind_some, pure]
  | dbremove user =>
    obtain ⟨u, hu⟩ := Option.ne_none_iff_exists'.1 h
    refine Option.isSome_iff_exists.1 ?_
    simp only [transform, Aaa.dbremove, hu, Option.map_some, Option.isSome_some]

/-! ## The invariant -/

/-- No user is in both groups, a group lists no user twice, and its members are users with its
ids. -/
structure Consistent (s : Aaa) : Prop where
  disjoint : ∀ v, v ∈ s.group .admin → v ∉ s.group .oper
  nodup : ∀ q, (s.group q).Nodup
  ids : ∀ q, ∀ v ∈ s.group q, ∃ u, s.users v = some u ∧ u.uid = some q.id ∧ u.gid = some q.id

namespace Consistent

variable {s s' : Aaa} {op : Op}

/-- The group of a user is its role. -/
theorem mem_group_iff (hs : Consistent s) (q : Role) (v : Name) :
    v ∈ s.group q ↔ s.getRole v = some q := by
  rw [Aaa.getRole_eq]
  have hdisjoint := hs.disjoint v
  split_ifs with hadmin hoper
  · cases q with
    | admin => simp [hadmin]
    | oper => simp [hdisjoint hadmin]
  · cases q with
    | admin => simp [hadmin]
    | oper => simp [hoper]
  · cases q with
    | admin => simp [hadmin]
    | oper => simp [hoper]

/-- **The groups after a step** are those of the roles after it. -/
theorem mem_groups_iff (hs : Consistent s) (h : transform.step s op = some s') (q : Role)
    (v : Name) : v ∈ op.groups s.group q ↔ op.roles s.getRole v = some q := by
  obtain ⟨-, -, hchanges⟩ := step_cases h
  have hmem := hs.mem_group_iff q v
  have herase : ∀ user, v ∈ (s.group q).erase user ↔ v ≠ user ∧ s.getRole v = some q := by
    intro user
    rw [(hs.nodup q).mem_erase_iff, hmem]
  cases op with
  | create user =>
    -- a user that is created is in no group, because members are users
    have hout : user ∉ s.group q := by
      intro hin
      obtain ⟨u, hu, -⟩ := hs.ids q user hin
      rw [hchanges.1] at hu
      exact absurd hu (by simp)
    rw [Op.groups, Op.roles]
    split_ifs with hv
    · simp [hv, hout]
    · exact hmem
  | setPassword user newval => exact hmem
  | setRole user r =>
    rw [Op.groups, Op.roles]
    by_cases hq : q = r
    · subst hq
      rw [if_pos rfl]
      by_cases hv : v = user
      · subst hv
        rw [if_pos rfl]
        split_ifs with hin
        · exact iff_of_true (List.contains_iff_mem.mp hin) rfl
        · simp
      · rw [if_neg hv]
        split_ifs <;> simp [hv, hmem]
    · rw [if_neg hq, herase]
      by_cases hv : v = user
      · simp [hv, Ne.symm hq]
      · simp [hv]
  | dbremove user =>
    rw [Op.groups, herase, Op.roles]
    split_ifs with hv <;> simp [hv]

theorem nodup_groups (hs : Consistent s) (op : Op) (q : Role) : (op.groups s.group q).Nodup := by
  have hnodup := hs.nodup q
  cases op with
  | create user => exact hnodup
  | setPassword user newval => exact hnodup
  | setRole user r =>
    rw [Op.groups]
    split_ifs with hq hin
    · exact hnodup
    · rw [List.nodup_append]
      refine ⟨hnodup, by simp, ?_⟩
      rintro a ha b hb rfl
      rw [List.mem_singleton] at hb
      exact hin (List.contains_iff_mem.mpr (hb ▸ ha))
    · exact hnodup.erase user
  | dbremove user => exact hnodup.erase user

/-- Another user than that of the operation keeps its role. -/
theorem roles_of_ne (op : Op) (f : Name → Option Role) {v : Name} (hv : v ≠ op.user) :
    op.roles f v = f v := by
  cases op with
  | create user => exact if_neg hv
  | setPassword user newval => rfl
  | setRole user r => exact if_neg hv
  | dbremove user => exact if_neg hv

/-- The user of an operation has the ids of the role it is left with. -/
theorem ids_of_roles (hs : Consistent s) (h : transform.step s op = some s') {q : Role}
    (hrole : op.roles s.getRole op.user = some q) :
    ∃ u, s'.users op.user = some u ∧ u.uid = some q.id ∧ u.gid = some q.id := by
  obtain ⟨-, -, hchanges⟩ := step_cases h
  cases op with
  | create user => exact absurd hrole (by simp [Op.roles, Op.user])
  | setPassword user newval =>
    obtain ⟨u, hu, huid, hgid⟩ := hs.ids q user ((hs.mem_group_iff q user).2 hrole)
    rw [Op.Changes, hu, Option.map_some] at hchanges
    exact ⟨_, hchanges, huid, hgid⟩
  | setRole user r =>
    obtain rfl : r = q := by simpa [Op.roles, Op.user] using hrole
    obtain ⟨u, -, hu⟩ := hchanges
    exact ⟨_, hu, rfl, rfl⟩
  | dbremove user => exact absurd hrole (by simp [Op.roles, Op.user])

/-- **Every step keeps the invariant.** -/
theorem step (hs : Consistent s) (h : transform.step s op = some s') : Consistent s' := by
  obtain ⟨hgroup, hframe, -⟩ := step_cases h
  have hmem : ∀ q v, v ∈ s'.group q ↔ op.roles s.getRole v = some q := by
    intro q v
    rw [hgroup]
    exact hs.mem_groups_iff h q v
  refine ⟨fun v hadmin hoper ↦ ?_, fun q ↦ ?_, fun q v hv ↦ ?_⟩
  · have heq := ((hmem .admin v).1 hadmin).symm.trans ((hmem .oper v).1 hoper)
    exact absurd heq (by simp)
  · rw [hgroup]
    exact hs.nodup_groups op q
  · have hrole := (hmem q v).1 hv
    by_cases huser : v = op.user
    · subst huser
      exact hs.ids_of_roles h hrole
    · rw [roles_of_ne op _ huser, ← hs.mem_group_iff] at hrole
      rw [hframe v huser]
      exact hs.ids q v hrole

/-- The roles after a step. -/
theorem getRole_step (hs : Consistent s) (h : transform.step s op = some s') :
    s'.getRole = op.roles s.getRole := by
  funext v
  refine Option.ext fun q ↦ ?_
  rw [← (hs.step h).mem_group_iff, (step_cases h).1]
  exact hs.mem_groups_iff h q v

end Consistent

/-- Removing a user does not move the others. -/
theorem filter_erase_ne (l : List Name) (user : Name) :
    (l.erase user).filter (· ≠ user) = l.filter (· ≠ user) := by
  induction l with
  | nil => rfl
  | cons a l ih =>
    rw [List.erase_cons]
    split_ifs with ha
    · obtain rfl : a = user := by simpa using ha
      simp
    · rw [List.filter_cons, List.filter_cons, ih]

/-- **The other users keep their places** in the groups. -/
theorem filter_groups (g : Role → List Name) (op : Op) (q : Role) :
    (op.groups g q).filter (· ≠ op.user) = (g q).filter (· ≠ op.user) := by
  cases op with
  | create user => rfl
  | setPassword user newval => rfl
  | setRole user r =>
    rw [Op.groups]
    split_ifs
    · rfl
    · simp [Op.user]
    · exact filter_erase_ne (g q) user
  | dbremove user => exact filter_erase_ne (g q) user

/-- The role last set for each user since it was created. -/
def lastRoles (ops : List Op) (f : Name → Option Role) : Name → Option Role :=
  ops.foldl (fun f op ↦ op.roles f) f

/-- A run keeps the invariant, and the roles are those last set. -/
theorem Consistent.runFrom {s₀ s : Aaa} (h₀ : Consistent s₀) {ops : List Op}
    (h : transform.runFrom s₀ ops = some s) :
    Consistent s ∧ s.getRole = lastRoles ops s₀.getRole := by
  induction ops generalizing s₀ with
  | nil =>
    obtain rfl := Option.some.inj h
    exact ⟨h₀, rfl⟩
  | cons op ops ih =>
    obtain ⟨s₁, hstep, hrest⟩ := Option.bind_eq_some_iff.1 h
    obtain ⟨hs, hrole⟩ := ih (h₀.step hstep) hrest
    refine ⟨hs, ?_⟩
    rw [hrole, h₀.getRole_step hstep]
    rfl

/-- **Roles and groups stay consistent** in every run from a consistent state. The role of a user is
the one last set since its creation, a user that is not there is in no group, an operation that
ConfD asks for is carried out, and an operation on one user leaves the members of the groups and
their order as they are, but for that user. -/
theorem roles_consistent {s₀ s : Aaa} (h₀ : Consistent s₀) {ops : List Op}
    (h : transform.runFrom s₀ ops = some s) :
    Consistent s ∧ (∀ v, s.getRole v = lastRoles ops s₀.getRole v) ∧
      (∀ v, s.users v = none → ∀ q, v ∉ s.group q) ∧
      (∀ op, op.Allowed s → ∃ s', transform.step s op = some s') ∧
      ∀ op s', transform.step s op = some s' →
        (∀ user, op = .dbremove user → s'.users user = none ∧ ∀ q, user ∉ s'.group q) ∧
        ∀ q, (s'.group q).filter (· ≠ op.user) = (s.group q).filter (· ≠ op.user) := by
  obtain ⟨hs, hrole⟩ := h₀.runFrom h
  have hout : ∀ {s : Aaa}, Consistent s → ∀ v, s.users v = none → ∀ q, v ∉ s.group q := by
    intro s hs v hnone q hv
    obtain ⟨u, hu, -⟩ := hs.ids q v hv
    rw [hnone] at hu
    exact absurd hu (by simp)
  refine ⟨hs, congrFun hrole, hout hs, fun op ↦ exists_step, fun op s' hstep ↦ ⟨?_, fun q ↦ ?_⟩⟩
  · rintro user rfl
    obtain ⟨-, -, hnone⟩ := step_cases hstep
    exact ⟨hnone, hout (hs.step hstep) user hnone⟩
  · rw [(step_cases hstep).1]
    exact filter_groups s.group op q

/-- The users `a` and `o`, an administrator and an operator. -/
def initialAaa : Aaa where
  users n := if n = ['a'] then some ⟨some 0, some 0, none, none, none⟩
    else if n = ['o'] then some ⟨some 20, some 20, none, none, none⟩ else none
  group
    | .admin => [['a']]
    | .oper => [['o']]

theorem consistent_initialAaa : Consistent initialAaa where
  disjoint v hadmin := by
    obtain rfl : v = ['a'] := by simpa [initialAaa] using hadmin
    decide
  nodup q := by
    cases q <;> decide
  ids q v hv := by
    cases q with
    | admin =>
      obtain rfl : v = ['a'] := by simpa [initialAaa] using hv
      exact ⟨_, rfl, rfl, rfl⟩
    | oper =>
      obtain rfl : v = ['o'] := by simpa [initialAaa] using hv
      exact ⟨_, rfl, rfl, rfl⟩

/-- A user is created, becomes an operator and then an administrator, and another one is removed. -/
def promotion : List Op :=
  [.create ['j'], .setRole ['j'] .oper, .setPassword ['j'] ['p'], .setRole ['j'] .admin,
    .dbremove ['o']]

theorem roles_consistent_promotion : ∃ s, transform.runFrom initialAaa promotion = some s ∧
    Consistent s ∧ s.getRole ['j'] = some .admin ∧ s.getRole ['o'] = none := by
  have hsome : (transform.runFrom initialAaa promotion).isSome = true := by decide
  obtain ⟨s, hrun⟩ := Option.isSome_iff_exists.1 hsome
  obtain ⟨hs, hrole, -⟩ := roles_consistent consistent_initialAaa hrun
  refine ⟨s, hrun, hs, ?_, ?_⟩
  · rw [hrole]
    decide
  · rw [hrole]
    decide

end ConfdDemos.PasswdPolicy
