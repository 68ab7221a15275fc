import ConfdDemos.Foundation.Machine
import ConfdDemos.Symlink.Statements

/-!
# Groupings for symlinks

The plugin replaces `tailf:symlink` statements in YANG modules. Where the target of a symlink has
nothing but leaves below it, the symlink becomes a copy with links; otherwise the target is moved to
a new grouping of its module, and the target and the symlink both become a `uses` of it. A grouping
is made once for each target and is named by the target's local name.

## The rewriting

`replace_symlinks` rebuilds the substatements of every node with a list comprehension. The machine
here has one step for each member of a list, and its stack holds the comprehensions that are
running. `introduce_grouping` changes lists in place, wherever the target is, also lists that are
being rebuilt. A target that the comprehension has already passed, or is just rewriting, is put
back.

## What is left out

`pyang` is a parameter: it finds the target of a path, and it copies statements. The changes that
`fix_xpaths` makes to the arguments of copied statements are left to the copying. An exception ends
the run.
-/

namespace ConfdDemos.SymlinkFixer

open Comprehension

/-! ## The library -/

structure Pyang where
  /-- `keyword in statements.data_definition_keywords`. -/
  isData : Keyword → Bool
  /-- `find_target_node` for a path statement. -/
  findTargetNode : Stmt → Option ℕ
  /-- `copy` of a statement for a new parent, with all that is below it; `copyf` calls `fix_xpaths`,
  and sets the module of the copies if there is one given. -/
  copy : Heap → ℕ → Option ℕ → Option ℕ → Heap × ℕ
  copy_fresh : ∀ h node parent top, node < h.next → (∀ m ∈ top, m < h.next) → Closed h →
    Fresh h (copy h node parent top).1
  le_copy : ∀ h node parent top, h.next ≤ (copy h node parent top).2
  copy_lt : ∀ h node parent top, (copy h node parent top).2 < (copy h node parent top).1.next

/-! ## Replacing symlinks -/

/-- An entry of the dictionary `groupings`, with the statements that were made for it. -/
structure Introduction where
  target : ℕ
  name : Text
  uses : ℕ
  grouping : ℕ

/-- A symlink in the list of `owner` that became a `uses`, and the prefix that the module of the
symlink has for the module of the target. -/
structure Link where
  owner : ℕ
  symlink : ℕ
  target : ℕ
  targetPrefix : Text
  uses : ℕ

structure State where
  heap : Heap
  introduced : List Introduction
  links : List Link
  stack : List (Frame ℕ)
  modules : List ℕ

/-- The plugin, with the option `symlinks_no_groups`. -/
structure Fixer extends Pyang where
  noGroups : Bool

def groupSuffix : Text := "-symlink-group".toList

namespace Fixer

variable (P : Fixer)

/-- The `uses` takes the place of the target, and the statement of the grouping is made. -/
def replaceTarget (h : Heap) (node parent : ℕ) (groupingName : Text) : Heap :=
  let module := (h.stmt node).top
  let substmts := h.lists parent
  let uses := h.next
  let h := h.alloc ⟨.uses, groupingName, some parent, module, []⟩
  let h := h.setSubstmts parent (substmts.set (substmts.idxOf node) uses)
  h.alloc ⟨.grouping, groupingName, some module, module, []⟩

/-- The grouping gets a copy of the target, and is put at the end of the module. -/
def moveToGrouping (h : Heap) (node parent : ℕ) (groupingName : Text) : Heap :=
  let module := (h.stmt node).top
  let grouping := h.next + 1
  let h := replaceTarget h node parent groupingName
  let contents := P.copy h node (some grouping) none
  let h := contents.1.setSubstmts grouping [contents.2]
  h.setSubstmts module (h.lists module ++ [grouping])

/-- The part of `introduce_grouping` for a target that has no grouping yet. The `uses` and the
grouping are the first two statements that are made. -/
def makeGrouping (s : State) (node : ℕ) : Option (State × Text) :=
  let groupingName := (s.heap.stmt node).arg ++ groupSuffix
  (s.heap.stmt node).parent.bind fun parent ↦
    if node ∈ s.heap.lists parent then
      some ({ s with
        heap := P.moveToGrouping s.heap node parent groupingName
        introduced := s.introduced ++ [⟨node, groupingName, s.heap.next, s.heap.next + 1⟩] },
        groupingName)
    else none

def introduceGrouping (s : State) (node : ℕ) : Option (State × Text) :=
  match s.introduced.find? fun r ↦ r.target = node with
  | some r => some (s, r.name)
  | none => P.makeGrouping s node

/-- The target of a symlink, and the prefix of its module. -/
def findTarget (h : Heap) (symlink : ℕ) : Option (ℕ × ℕ × Text) :=
  (h.searchOne symlink pathKeyword).bind fun path ↦
    (P.findTargetNode (h.stmt path)).bind fun target ↦
      (h.modulePrefix (h.stmt symlink).top (h.stmt (h.stmt target).top).arg).map fun targetPrefix ↦
        (path, target, targetPrefix)

/-- A copy of the target with links. -/
def copyWithLinks (h : Heap) (symlink path target : ℕ) (targetPrefix : Text) :
    Option (Heap × ℕ) :=
  let copied := P.copy h target (h.stmt symlink).parent (some (h.stmt symlink).top)
  let h' := copied.1.setArg copied.2 (h.stmt symlink).arg
  (h'.addLinks P.isData targetPrefix h'.next (h.stmt path).arg copied.2).map fun h' ↦ (h', copied.2)

/-- A copy of the target with a callpoint. -/
def copyWithCallpoint (h : Heap) (symlink target : ℕ) : Option (Heap × ℕ) :=
  let copied := P.copy h target (h.stmt symlink).parent (some (h.stmt symlink).top)
  let h' := copied.1.setArg copied.2 (h.stmt symlink).arg
  (h'.addTransformCallpoint copied.2).map fun h' ↦ (h', copied.2)

/-- The `uses` that a symlink becomes. -/
def makeUses (h : Heap) (symlink target : ℕ) (usesArg : Text) : Option (Heap × ℕ) :=
  let top := (h.stmt symlink).top
  let uses := h.next
  let h' := h.alloc ⟨.uses, usesArg, (h.stmt symlink).parent, top, []⟩
  let refined := h'.next
  let h' := h'.alloc ⟨.refine, (h.stmt target).arg, some uses, top, []⟩
  (h'.addTransformCallpoint refined).map fun h' ↦ (h'.setSubstmts uses [refined], uses)

/-- The result for a symlink in the list of `owner`. -/
def doReplaceSymlink (s : State) (owner symlink : ℕ) : Option (State × ℕ) :=
  (P.findTarget s.heap symlink).bind fun (path, target, targetPrefix) ↦
    if s.heap.canUseLink P.isData s.heap.next target then
      (P.copyWithLinks s.heap symlink path target targetPrefix).map fun (h, new) ↦
        ({ s with heap := h }, new)
    else if P.noGroups then
      (P.copyWithCallpoint s.heap symlink target).map fun (h, new) ↦ ({ s with heap := h }, new)
    else
      (P.introduceGrouping s target).bind fun (s, groupName) ↦
        (makeUses s.heap symlink target (targetPrefix ++ ':' :: groupName)).map fun (h, uses) ↦
          ({ s with
            heap := h
            links := s.links ++ [⟨owner, symlink, target, targetPrefix, uses⟩] }, uses)

/-- The comprehensions are in `replace_symlinks`, and the modules in `replace`. -/
def step (s : State) : Option State :=
  match s.stack with
  | [] =>
    match s.modules with
    | [] => none
    | m :: modules => some { s with stack := [⟨m, 0, []⟩], modules }
  | f :: fs =>
    match (s.heap.lists f.node)[f.index]? with
    | some x =>
      if (s.heap.stmt x).keyword = symlinkKeyword then
        (P.doReplaceSymlink s f.node x).map fun (s, r) ↦
          { s with stack := ⟨f.node, f.index + 1, f.done ++ [r]⟩ :: fs }
      else some { s with stack := ⟨x, 0, []⟩ :: f :: fs }
    | none =>
      some { s with
        heap := s.heap.setSubstmts f.node f.done
        stack := match fs with
          | [] => []
          | g :: fs => ⟨g.node, g.index + 1, g.done ++ [f.node]⟩ :: fs }

def machine : Machine State Unit := ⟨fun s _ ↦ P.step s⟩

/-! ## What the functions do -/

/-- A new statement with all that is below it. -/
structure Renewal (h h' : Heap) (r : ℕ) : Prop where
  fresh : Fresh h h'
  le : h.next ≤ r
  lt : r < h'.next

section Renewal

variable {P} {h h' : Heap} {symlink path target r : ℕ} {targetPrefix : Text}

/-- The copy with the name of the symlink. -/
theorem renewal_copy (hc : Closed h) (hx : symlink < h.next) (ht : target < h.next) :
    let copied := P.copy h target (h.stmt symlink).parent (some (h.stmt symlink).top)
    Renewal h (copied.1.setArg copied.2 (h.stmt symlink).arg) copied.2 where
  fresh := by
    refine (P.copy_fresh h target _ _ ht ?_ hc).setArg (P.le_copy _ _ _ _) _
    intro m hm
    obtain rfl := Option.some_inj.mp hm
    exact hc.top_lt symlink hx
  le := P.le_copy _ _ _ _
  lt := P.copy_lt _ _ _ _

theorem renewal_copyWithLinks (hc : Closed h) (hx : symlink < h.next) (ht : target < h.next)
    (heq : P.copyWithLinks h symlink path target targetPrefix = some (h', r)) :
    Renewal h h' r := by
  obtain ⟨k, hk, hpair⟩ := Option.map_eq_some_iff.mp heq
  obtain ⟨rfl, rfl⟩ := Prod.mk.inj hpair
  have hcopy := renewal_copy (P := P) hc hx ht
  have hkept := Kept.addLinks hk
  exact ⟨hcopy.fresh.addLinks hcopy.le hcopy.lt hk, hcopy.le, hcopy.lt.trans_le hkept.le⟩

theorem renewal_copyWithCallpoint (hc : Closed h) (hx : symlink < h.next) (ht : target < h.next)
    (heq : P.copyWithCallpoint h symlink target = some (h', r)) : Renewal h h' r := by
  obtain ⟨k, hk, hpair⟩ := Option.map_eq_some_iff.mp heq
  obtain ⟨rfl, rfl⟩ := Prod.mk.inj hpair
  have hcopy := renewal_copy (P := P) hc hx ht
  have hkept := Kept.addTransformCallpoint hk
  exact ⟨hcopy.fresh.addTransformCallpoint hcopy.le hcopy.lt hk, hcopy.le,
    hcopy.lt.trans_le hkept.le⟩

/-- The `uses` for a symlink. -/
theorem renewal_makeUses {usesArg : Text} (hc : Closed h) (hx : symlink < h.next)
    (heq : makeUses h symlink target usesArg = some (h', r)) :
    Renewal h h' r ∧ (h'.stmt r).keyword = .uses ∧ (h'.stmt r).arg = usesArg := by
  obtain ⟨k, hk, hpair⟩ := Option.map_eq_some_iff.mp heq
  obtain ⟨rfl, rfl⟩ := Prod.mk.inj hpair
  have htop := hc.top_lt symlink hx
  have hlt : h.next < h.next + 1 + 1 := (Nat.lt_succ_self _).trans (Nat.lt_succ_self _)
  have hfresh : Fresh h k := by
    refine Fresh.addTransformCallpoint ?_ (Nat.le_succ _) (Nat.lt_succ_self _) hk
    refine Fresh.alloc (Fresh.alloc (Fresh.refl hc) ?_ htop) ?_ (Nat.lt_succ_of_lt htop)
    · rfl
    · rfl
  have hkept := Kept.addTransformCallpoint hk
  have hhead : (k.setSubstmts h.next [h.next + 1]).head h.next =
      ⟨.uses, usesArg, (h.stmt symlink).parent, (h.stmt symlink).top, []⟩ := by
    rw [Heap.head_setSubstmts, hkept.head _ hlt, Heap.head,
      Heap.stmt_alloc_of_ne _ (Nat.lt_succ_self _).ne, Heap.stmt_alloc_next]
  refine ⟨⟨?_, le_rfl, hlt.trans_le hkept.le⟩, (congrArg Stmt.keyword hhead :),
    (congrArg Stmt.arg hhead :)⟩
  refine hfresh.setSubstmts le_rfl (hlt.trans_le hkept.le) ?_ (List.nodup_singleton _)
  intro y hy
  obtain rfl := List.mem_singleton.mp hy
  exact ⟨Nat.lt_succ_self _, (Nat.lt_succ_self _).trans_le hkept.le⟩

end Renewal

/-- The lists as `introduce_grouping` changes them, but for the new statements. -/
def relist (h : Heap) (node parent : ℕ) : Heap :=
  let h' := h.setSubstmts parent ((h.lists parent).set ((h.lists parent).idxOf node) h.next)
  h'.setSubstmts (h.stmt node).top (h'.lists (h.stmt node).top ++ [h.next + 1])

theorem closed_relist {h : Heap} {node parent : ℕ} (hc : Closed h) (hnode : node < h.next)
    (hparent : parent < h.next) : Closed (relist h node parent) :=
  (hc.setSubstmts hparent _).setSubstmts (hc.top_lt node hnode) _

/-- A target that is moved to a grouping. -/
structure Moved (h h' : Heap) (node parent : ℕ) (name : Text) : Prop where
  parent_node : (h.stmt node).parent = some parent
  parent_lt : parent < h.next
  mem : node ∈ h.lists parent
  fresh : Fresh (relist h node parent) h'
  lt : h.next + 1 < h'.next
  uses : h'.head h.next = ⟨.uses, name, some parent, (h.stmt node).top, []⟩
  grouping : h'.head (h.next + 1) =
    ⟨.grouping, name, some (h.stmt node).top, (h.stmt node).top, []⟩

theorem head_relist (h : Heap) (node parent : ℕ) : (relist h node parent).head = h.head := by
  rw [relist, Heap.head_setSubstmts, Heap.head_setSubstmts]

theorem Moved.kept {h h' : Heap} {node parent : ℕ} {name : Text}
    (hm : Moved h h' node parent name) : Kept h h' := by
  refine ⟨hm.fresh.le, fun x hx ↦ ?_⟩
  rw [hm.fresh.kept.head x hx, head_relist]

section Moved

variable {P} {h : Heap} {node parent : ℕ} {name : Text}

theorem fresh_replaceTarget (name : Text) (hc : Closed h) (hnode : node < h.next)
    (hparent : parent < h.next) :
    Fresh (h.setSubstmts parent ((h.lists parent).set ((h.lists parent).idxOf node) h.next))
      (replaceTarget h node parent name) := by
  have htop := hc.top_lt node hnode
  refine Fresh.alloc (Fresh.setSubstmts_old ?_ hparent _) rfl (Nat.lt_succ_of_lt htop)
  exact (Fresh.refl hc).alloc rfl htop

theorem head_uses_replaceTarget (h : Heap) (node parent : ℕ) (name : Text) :
    (replaceTarget h node parent name).head h.next =
      ⟨.uses, name, some parent, (h.stmt node).top, []⟩ := by
  rw [replaceTarget, (Kept.alloc _ _).head h.next (Nat.lt_succ_self _), Heap.head_setSubstmts,
    Heap.head, Heap.stmt_alloc_next]

theorem head_grouping_replaceTarget (h : Heap) (node parent : ℕ) (name : Text) :
    (replaceTarget h node parent name).head (h.next + 1) =
      ⟨.grouping, name, some (h.stmt node).top, (h.stmt node).top, []⟩ := by
  rw [replaceTarget, Heap.head]
  exact congrArg (fun st : Stmt ↦ { st with substmts := [] }) (Heap.stmt_alloc_next _ _)

theorem moved_moveToGrouping (name : Text) (hc : Closed h) (hnode : node < h.next)
    (hparent : (h.stmt node).parent = some parent) (hmem : node ∈ h.lists parent) :
    Moved h (P.moveToGrouping h node parent name) node parent name := by
  have hlt : parent < h.next := by
    by_contra hge
    rw [hc.unused parent (Nat.not_lt.mp hge)] at hmem
    exact List.not_mem_nil hmem
  have htop := hc.top_lt node hnode
  have hf := fresh_replaceTarget name hc hnode hlt
  have huses := head_uses_replaceTarget h node parent name
  have hgrouping := head_grouping_replaceTarget h node parent name
  have hnext : (replaceTarget h node parent name).next = h.next + 1 + 1 := rfl
  unfold moveToGrouping
  dsimp only
  generalize replaceTarget h node parent name = k at hf huses hgrouping hnext
  have hcopy : Fresh k (P.copy k node (some (h.next + 1)) none).1 :=
    P.copy_fresh k node _ _ (by omega) (by simp) (hf.closed (hc.setSubstmts hlt _))
  have hle := P.le_copy k node (some (h.next + 1)) none
  have hcopy_lt := P.copy_lt k node (some (h.next + 1)) none
  generalize P.copy k node (some (h.next + 1)) none = contents at hcopy hle hcopy_lt
  have hnext_le := hcopy.le
  -- the copy is the only substatement of the grouping
  have hf₁ : Fresh (h.setSubstmts parent
      ((h.lists parent).set ((h.lists parent).idxOf node) h.next))
      (contents.1.setSubstmts (h.next + 1) [contents.2]) := by
    refine (hf.trans hcopy).setSubstmts (Nat.le_succ h.next) (by omega) ?_ (List.nodup_singleton _)
    intro y hy
    obtain rfl := List.mem_singleton.mp hy
    exact ⟨by omega, hcopy_lt⟩
  refine ⟨hparent, hlt, hmem, ?_, ?_, ?_, ?_⟩
  · rw [relist, hf₁.lists_old htop]
    exact hf₁.setSubstmts_old htop _
  · exact (show h.next + 1 < k.next by omega).trans_le hcopy.le
  · rw [Heap.head_setSubstmts, Heap.head_setSubstmts, hcopy.kept.head _ (by omega), huses]
  · rw [Heap.head_setSubstmts, Heap.head_setSubstmts, hcopy.kept.head _ (by omega), hgrouping]

end Moved

/-- The symlink becomes a `uses`, and its target has no grouping yet. -/
def Introduces (s : State) (symlink target : ℕ) : Prop :=
  ∃ path targetPrefix, P.findTarget s.heap symlink = some (path, target, targetPrefix) ∧
    s.heap.canUseLink P.isData s.heap.next target = false ∧ P.noGroups = false ∧
    ∀ e ∈ s.introduced, e.target ≠ target

theorem Introduces.of_findTarget {P : Fixer} {s : State} {symlink target target' path : ℕ}
    {targetPrefix : Text} (hi : P.Introduces s symlink target)
    (hfind : P.findTarget s.heap symlink = some (path, target', targetPrefix)) :
    target = target' ∧ s.heap.canUseLink P.isData s.heap.next target' = false ∧
      P.noGroups = false ∧ ∀ e ∈ s.introduced, e.target ≠ target' := by
  obtain ⟨path, tp, hfind', hi⟩ := hi
  rw [hfind, Option.some_inj] at hfind'
  obtain rfl : target' = target := (Prod.mk.inj (Prod.mk.inj hfind').2).1
  exact ⟨rfl, hi⟩

/-- What a symlink becomes: a copy, a `uses` of a grouping that there is, or a `uses` of a grouping
that is made for it. -/
inductive Outcome (s : State) (owner symlink : ℕ) : State → ℕ → Prop
  | copied {h' : Heap} {r : ℕ} (not_introduces : ∀ target, ¬P.Introduces s symlink target)
    (renewal : Renewal s.heap h' r) :
    Outcome s owner symlink { s with heap := h' } r
  | known {h' : Heap} {r : ℕ} {e : Introduction} {targetPrefix : Text}
    (not_introduces : ∀ target, ¬P.Introduces s symlink target) (mem : e ∈ s.introduced)
    (renewal : Renewal s.heap h' r) (keyword : (h'.stmt r).keyword = .uses)
    (arg : (h'.stmt r).arg = targetPrefix ++ ':' :: e.name) :
    Outcome s owner symlink { s with
      heap := h'
      links := s.links ++ [⟨owner, symlink, e.target, targetPrefix, r⟩] } r
  | moved {h₁ h' : Heap} {r target parent : ℕ} {targetPrefix : Text}
    (introduces : P.Introduces s symlink target)
    (moved : Moved s.heap h₁ target parent ((s.heap.stmt target).arg ++ groupSuffix))
    (renewal : Renewal h₁ h' r) (keyword : (h'.stmt r).keyword = .uses)
    (arg : (h'.stmt r).arg = targetPrefix ++ ':' :: ((s.heap.stmt target).arg ++ groupSuffix)) :
    Outcome s owner symlink { s with
      heap := h'
      introduced := s.introduced ++
        [⟨target, (s.heap.stmt target).arg ++ groupSuffix, s.heap.next, s.heap.next + 1⟩]
      links := s.links ++ [⟨owner, symlink, target, targetPrefix, r⟩] } r

section Outcome

variable {P} {s s' : State} {owner symlink target r : ℕ}

theorem moved_makeGrouping {name : Text} (hc : Closed s.heap) (ht : target < s.heap.next)
    (h : P.makeGrouping s target = some (s', name)) :
    ∃ h₁ parent, Moved s.heap h₁ target parent name ∧
      name = (s.heap.stmt target).arg ++ groupSuffix ∧
      s' = { s with
        heap := h₁
        introduced := s.introduced ++ [⟨target, name, s.heap.next, s.heap.next + 1⟩] } := by
  obtain ⟨parent, hparent, h⟩ := Option.bind_eq_some_iff.mp h
  obtain ⟨hmem, h⟩ := Option.ite_none_right_eq_some.mp h
  obtain ⟨rfl, rfl⟩ := Prod.mk.inj (Option.some_inj.mp h)
  exact ⟨_, parent, moved_moveToGrouping _ hc ht hparent hmem, rfl, rfl⟩

theorem exists_findTargetNode {h : Heap} {path : ℕ} {targetPrefix : Text}
    (hfind : P.findTarget h symlink = some (path, target, targetPrefix)) :
    ∃ st, P.findTargetNode st = some target := by
  obtain ⟨p, -, hp⟩ := Option.bind_eq_some_iff.mp hfind
  obtain ⟨t, ht, hmap⟩ := Option.bind_eq_some_iff.mp hp
  obtain ⟨tp, -, heq⟩ := Option.map_eq_some_iff.mp hmap
  obtain ⟨-, heq⟩ := Prod.mk.inj heq
  exact ⟨_, (Prod.mk.inj heq).1 ▸ ht⟩

theorem outcome_doReplaceSymlink (hc : Closed s.heap) (hx : symlink < s.heap.next)
    (htarget : ∀ st t, P.findTargetNode st = some t → t < s.heap.next)
    (h : P.doReplaceSymlink s owner symlink = some (s', r)) : P.Outcome s owner symlink s' r := by
  obtain ⟨⟨path, target, targetPrefix⟩, hfind, h⟩ := Option.bind_eq_some_iff.mp h
  obtain ⟨st, hst⟩ := exists_findTargetNode hfind
  have ht := htarget st target hst
  dsimp only at h
  split_ifs at h with hlink hgroups
  · obtain ⟨⟨k, new⟩, hnew, hpair⟩ := Option.map_eq_some_iff.mp h
    obtain ⟨rfl, rfl⟩ := Prod.mk.inj hpair
    refine .copied (fun t hi ↦ ?_) (renewal_copyWithLinks hc hx ht hnew)
    exact Bool.false_ne_true ((hi.of_findTarget hfind).2.1.symm.trans hlink)
  · obtain ⟨⟨k, new⟩, hnew, hpair⟩ := Option.map_eq_some_iff.mp h
    obtain ⟨rfl, rfl⟩ := Prod.mk.inj hpair
    refine .copied (fun t hi ↦ ?_) (renewal_copyWithCallpoint hc hx ht hnew)
    exact Bool.false_ne_true ((hi.of_findTarget hfind).2.2.1.symm.trans hgroups)
  · obtain ⟨⟨s₁, name⟩, hname, h⟩ := Option.bind_eq_some_iff.mp h
    obtain ⟨⟨k, uses⟩, huses, hpair⟩ := Option.map_eq_some_iff.mp h
    obtain ⟨rfl, rfl⟩ := Prod.mk.inj hpair
    rw [introduceGrouping] at hname
    rcases hfound : s.introduced.find? fun e ↦ e.target = target with - | e
    · rw [hfound] at hname
      -- the target gets its grouping now
      obtain ⟨h₁, parent, hmoved, rfl, rfl⟩ := moved_makeGrouping hc ht hname
      have hnone : ∀ e ∈ s.introduced, e.target ≠ target := by
        simpa using List.find?_eq_none.mp hfound
      have hc₁ : Closed h₁ := hmoved.fresh.closed (closed_relist hc ht hmoved.parent_lt)
      have hx₁ : symlink < h₁.next := hx.trans_le hmoved.fresh.le
      obtain ⟨hr, hkey, harg⟩ := renewal_makeUses hc₁ hx₁ huses
      exact .moved ⟨path, targetPrefix, hfind, by simpa using hlink, by simpa using hgroups, hnone⟩
        hmoved hr hkey harg
    · rw [hfound] at hname
      -- the target has its grouping from an earlier symlink
      obtain ⟨rfl, rfl⟩ := Prod.mk.inj (Option.some_inj.mp hname)
      obtain ⟨hr, hkey, harg⟩ := renewal_makeUses hc hx huses
      have he : e.target = target := by simpa using List.find?_some hfound
      subst he
      have hmem := List.mem_of_find?_eq_some hfound
      refine .known (fun t hi ↦ ?_) hmem hr hkey harg
      exact (hi.of_findTarget hfind).2.2.2 e hmem rfl

end Outcome

end Fixer

/-! ## Copies of trees

The simplest library that copies statements. -/

/-- A copy of a statement with all that is below it; the first argument bounds the depth. -/
def copyTree : ℕ → Heap → ℕ → Option ℕ → Option ℕ → Heap × ℕ
  | fuel, h, node, parent, top =>
    let new := h.next
    let h' := h.alloc { h.stmt node with parent, top := top.getD (h.stmt node).top, substmts := [] }
    match fuel with
    | 0 => (h', new)
    | fuel + 1 =>
      let copied := ((h.lists node).filter (· < h.next)).foldl (fun (k : Heap × List ℕ) y ↦
        let c := copyTree fuel k.1 y (some new) top
        (c.1, k.2 ++ [c.2])) (h', [])
      (copied.1.setSubstmts new copied.2, new)

theorem snd_copyTree (fuel : ℕ) (h : Heap) (node : ℕ) (parent top : Option ℕ) :
    (copyTree fuel h node parent top).2 = h.next := by
  cases fuel with
  | zero => rfl
  | succ fuel => rfl

theorem lt_next_copyTree (fuel : ℕ) (h : Heap) (node : ℕ) (parent top : Option ℕ) :
    h.next < (copyTree fuel h node parent top).1.next := by
  induction fuel generalizing h node parent with
  | zero => exact Nat.lt_succ_self _
  | succ fuel ih =>
    refine List.foldlRecOn (motive := fun k : Heap × List ℕ ↦ h.next < k.1.next) _ _
      (Nat.lt_succ_self h.next) ?_
    intro k hk y _
    exact hk.trans (ih k.1 y (some h.next))

/-- The copies of some members of a list, in the order in which they were made. -/
structure Copies (h : Heap) (k : Heap × List ℕ) : Prop where
  fresh : Fresh h k.1
  lt : h.next < k.1.next
  mem : ∀ z ∈ k.2, h.next < z ∧ z < k.1.next
  nodup : k.2.Nodup

theorem Copies.concat {h h' : Heap} {k : Heap × List ℕ} (hk : Copies h k) (hf : Fresh k.1 h')
    (hlt : k.1.next < h'.next) : Copies h (h', k.2 ++ [k.1.next]) where
  fresh := hk.fresh.trans hf
  lt := hk.lt.trans hlt
  mem z hz := by
    rcases List.mem_append.mp hz with hz | hz
    · exact ⟨(hk.mem z hz).1, (hk.mem z hz).2.trans hlt⟩
    · obtain rfl := List.mem_singleton.mp hz
      exact ⟨hk.lt, hlt⟩
  nodup := by
    refine List.nodup_append.mpr ⟨hk.nodup, List.nodup_singleton _, ?_⟩
    rintro z hz z' hz' rfl
    exact (hk.mem z hz).2.ne (List.mem_singleton.mp hz')

theorem top_copy_lt {h : Heap} {node : ℕ} {top : Option ℕ} (hnode : node < h.next)
    (htop : ∀ m ∈ top, m < h.next) (hc : Closed h) : top.getD (h.stmt node).top < h.next := by
  rcases top with - | m
  · exact hc.top_lt node hnode
  · exact htop m rfl

theorem fresh_copyTree {fuel : ℕ} {h : Heap} {node : ℕ} {parent top : Option ℕ}
    (hnode : node < h.next) (htop : ∀ m ∈ top, m < h.next) (hc : Closed h) :
    Fresh h (copyTree fuel h node parent top).1 := by
  induction fuel generalizing h node parent with
  | zero => exact (Fresh.refl hc).alloc rfl (top_copy_lt hnode htop hc)
  | succ fuel ih =>
    have hbegin : Copies h (h.alloc { h.stmt node with
        parent, top := top.getD (h.stmt node).top, substmts := [] }, []) :=
      ⟨(Fresh.refl hc).alloc rfl (top_copy_lt hnode htop hc), Nat.lt_succ_self _,
        fun z hz ↦ absurd hz List.not_mem_nil, List.nodup_nil⟩
    have hcopies := List.foldlRecOn (motive := Copies h) ((h.lists node).filter (· < h.next))
      (fun (k : Heap × List ℕ) y ↦ ((copyTree fuel k.1 y (some h.next) top).1,
        k.2 ++ [(copyTree fuel k.1 y (some h.next) top).2])) hbegin ?_
    · exact hcopies.fresh.setSubstmts le_rfl hcopies.lt hcopies.mem hcopies.nodup
    · intro k hk y hy
      have hy' : y < h.next := by simpa using (List.mem_filter.mp hy).2
      rw [snd_copyTree]
      refine hk.concat (ih (hy'.trans hk.lt) ?_ (hk.fresh.closed hc)) (lt_next_copyTree ..)
      exact fun m hm ↦ (htop m hm).trans hk.lt

/-- The plugin with a table of the targets of paths. -/
def plain (targets : List (Text × ℕ)) : Fixer where
  isData keyword := keyword ∈ [.container, .leaf, .leafList, .list, .choice, .uses, symlinkKeyword]
  findTargetNode path := (targets.find? fun t ↦ t.1 = path.arg).map Prod.snd
  copy h node parent top := copyTree h.next h node parent top
  copy_fresh _ _ _ _ hnode htop hc := fresh_copyTree hnode htop hc
  le_copy _ _ _ _ := (snd_copyTree ..).ge
  copy_lt _ _ _ _ := (snd_copyTree ..).trans_lt (lt_next_copyTree ..)
  noGroups := false

end ConfdDemos.SymlinkFixer
