import Mathlib.Data.Finset.Lattice.Fold
import Mathlib.Data.List.GetD
import ConfdDemos.Symlink.Groupings

/-!
# Symlinks that are replaced by groupings

After a run the groupings of a module should have different names, each target should be replaced by
a `uses` of its grouping, and each symlink by a `uses` of the grouping of its target. A run gets
there if its steps are *orderly*, and it does not get there otherwise: a step that makes a second
grouping with the same name, or one for a target that the comprehension above it has already passed,
spoils the result for good.

## The lists that are going to be

The lists change while they are rebuilt, so the invariants are about `State.view`, the lists as they
are going to be. Most steps only go to another place and do not change these. A symlink is exchanged
for what it becomes; if a grouping is made for it, then the target is exchanged for its `uses` only
if it is still ahead, and the grouping is added at the end of the module.
-/

namespace ConfdDemos.SymlinkFixer

open Comprehension

/-- The lists as they are going to be, if nothing else happens. -/
def State.view (s : State) : ℕ → List ℕ := Comprehension.view s.heap.lists none s.stack

/-! ## Changes -/

/-- The comprehension over the list of `parent`, if there is one running, has not come to `node`. -/
def Ahead (h : Heap) (c : Option ℕ) (stack : List (Frame ℕ)) (parent node : ℕ) : Prop :=
  (place c stack parent).2 ≤ (h.lists parent).idxOf node

instance (h : Heap) (c : Option ℕ) (stack : List (Frame ℕ)) (parent node : ℕ) :
    Decidable (Ahead h c stack parent node) := inferInstanceAs (Decidable (_ ≤ _))

section Relist

variable {h : Heap} {node parent : ℕ} {c : Option ℕ} {stack : List (Frame ℕ)}

theorem perm_view_setSubstmts (c : Option ℕ) (stack : List (Frame ℕ))
    (hmem : node ∈ h.lists parent) (n u : ℕ) :
    ((if parent = n ∧ Ahead h c stack parent node then [node] else []) ++
      Comprehension.view (h.setSubstmts parent
        ((h.lists parent).set ((h.lists parent).idxOf node) u)).lists c stack n).Perm
      ((if parent = n ∧ Ahead h c stack parent node then [u] else []) ++
        Comprehension.view h.lists c stack n) := by
  rcases eq_or_ne parent n with rfl | hn
  · have hself : (h.setSubstmts parent
        ((h.lists parent).set ((h.lists parent).idxOf node) u)).lists parent =
        (h.lists parent).set ((h.lists parent).idxOf node) u := by
      rw [Heap.lists_setSubstmts, Function.update_self]
    by_cases hahead : Ahead h c stack parent node
    · rw [if_pos ⟨rfl, hahead⟩, if_pos ⟨rfl, hahead⟩]
      exact perm_view_set hself (List.getElem?_idxOf hmem) hahead
    · rw [if_neg fun h ↦ hahead h.2, if_neg fun h ↦ hahead h.2,
        view_set_of_lt hself (Nat.not_le.mp hahead)]
  · rw [if_neg fun h ↦ hn h.1, if_neg fun h ↦ hn h.1,
      view_congr (h.lists_setSubstmts_of_ne hn.symm _)]

theorem view_setSubstmts_append (hw : Within h.lists c stack) (m g n : ℕ) :
    Comprehension.view (h.setSubstmts m (h.lists m ++ [g])).lists c stack n =
      Comprehension.view h.lists c stack n ++ if m = n then [g] else [] := by
  split_ifs with hn
  · subst hn
    refine view_append ?_ hw
    rw [Heap.lists_setSubstmts, Function.update_self]
  · rw [List.append_nil]
    exact view_congr (h.lists_setSubstmts_of_ne (Ne.symm hn) _)

theorem within_setSubstmts {n : ℕ} {l : List ℕ} (hw : Within h.lists c stack)
    (hl : (h.lists n).length ≤ l.length) : Within (h.setSubstmts n l).lists c stack := by
  refine hw.mono fun m ↦ ?_
  rw [Heap.lists_setSubstmts]
  rcases eq_or_ne m n with rfl | hm
  · rwa [Function.update_self]
  · rw [Function.update_of_ne hm]

/-- The change of the list of the parent is seen if the comprehension there has not come to the
target; the grouping is at the end of the module, where it is always seen. -/
theorem perm_view_relist (hw : Within h.lists c stack) (hmem : node ∈ h.lists parent) (n : ℕ) :
    ((if parent = n ∧ Ahead h c stack parent node then [node] else []) ++
      Comprehension.view (Fixer.relist h node parent).lists c stack n).Perm
      ((if parent = n ∧ Ahead h c stack parent node then [h.next] else []) ++
        (if (h.stmt node).top = n then [h.next + 1] else []) ++
        Comprehension.view h.lists c stack n) := by
  have hset := perm_view_setSubstmts c stack hmem n h.next
  have hw' : Within (h.setSubstmts parent
      ((h.lists parent).set ((h.lists parent).idxOf node) h.next)).lists c stack :=
    within_setSubstmts hw (by rw [List.length_set])
  rw [Fixer.relist, view_setSubstmts_append hw', ← List.append_assoc]
  refine (hset.append_right _).trans ?_
  rw [List.append_assoc, List.append_assoc]
  exact List.perm_append_comm.append_left _

theorem within_relist (hw : Within h.lists c stack) :
    Within (Fixer.relist h node parent).lists c stack :=
  within_setSubstmts (within_setSubstmts hw (by rw [List.length_set])) (by simp)

end Relist

/-! ## States -/

/-- The lists have no cycles. The depth is that of the statements there are at the beginning; a
statement that is made later is deeper than all that were made before. -/
structure Wf (depth : ℕ → ℕ) (s : State) : Prop where
  closed : Closed s.heap
  later : ∀ y, s.heap.next ≤ y → ∀ n < y, depth n < depth y
  child : ∀ n, ∀ y ∈ s.view n, y < s.heap.next ∧ depth n < depth y
  nodup : ∀ n, (s.view n).Nodup
  stack : (nodes s.stack).Pairwise fun m n ↦ depth n < depth m
  stack_lt : ∀ m ∈ nodes s.stack, m < s.heap.next
  within : Within s.heap.lists none s.stack
  modules : ∀ m ∈ s.modules, m < s.heap.next

/-- A step that goes to another place and changes nothing. -/
structure Quiet (s s' : State) : Prop where
  view : s'.view = s.view
  head : s'.heap.head = s.heap.head
  next : s'.heap.next = s.heap.next
  introduced : s'.introduced = s.introduced
  links : s'.links = s.links
  modules : ∀ m ∈ s'.modules, m ∈ s.modules

/-- What is left to show after such a step. -/
theorem Wf.quiet {depth : ℕ → ℕ} {s s' : State} (hwf : Wf depth s) (hq : Quiet s s')
    (hstack : (nodes s'.stack).Pairwise fun m n ↦ depth n < depth m)
    (hlt : ∀ m ∈ nodes s'.stack, m < s.heap.next) (hwithin : Within s'.heap.lists none s'.stack) :
    Wf depth s' where
  closed :=
    { unused := by
        intro n hn
        rw [hq.next] at hn
        -- no comprehension runs over a statement that has not been made, before or after
        have hview := congrFun hq.view n
        rw [State.view, State.view, view_of_notMem fun h ↦ Nat.not_lt.mpr hn (hlt n h),
          view_of_notMem fun h ↦ Nat.not_lt.mpr hn (hwf.stack_lt n h)] at hview
        rw [hview, hwf.closed.unused n hn]
      top_lt := by
        intro x hx
        rw [show (s'.heap.stmt x).top = (s.heap.stmt x).top from
          (congrArg Stmt.top (congrFun hq.head x) :), hq.next]
        exact hwf.closed.top_lt x (hq.next ▸ hx) }
  later := by
    rw [hq.next]
    exact hwf.later
  child n y hy := by
    rw [hq.view] at hy
    rw [hq.next]
    exact hwf.child n y hy
  nodup n := by
    rw [hq.view]
    exact hwf.nodup n
  stack := hstack
  stack_lt m hm := by
    rw [hq.next]
    exact hlt m hm
  within := hwithin
  modules m hm := by
    rw [hq.next]
    exact hwf.modules m (hq.modules m hm)

theorem Wf.view_eq_nil {depth : ℕ → ℕ} {s : State} {n : ℕ} (hwf : Wf depth s)
    (hn : s.heap.next ≤ n) : s.view n = [] := by
  rw [State.view, view_of_notMem fun h ↦ Nat.not_lt.mpr hn (hwf.stack_lt n h)]
  exact hwf.closed.unused n hn

/-- A deeper statement is not among those whose lists are being rebuilt. -/
theorem notMem_nodes {depth : ℕ → ℕ} {f : Frame ℕ} {fs : List (Frame ℕ)} {x : ℕ}
    (h : (nodes (f :: fs)).Pairwise fun m n ↦ depth n < depth m) (hx : depth f.node < depth x) :
    x ∉ nodes (f :: fs) := by
  intro hmem
  rcases List.mem_cons.mp hmem with rfl | hmem
  · exact lt_irrefl _ hx
  · exact lt_asymm hx ((List.pairwise_cons.mp h).1 x hmem)

section Quiet

variable {depth : ℕ → ℕ} {s : State} {f g : Frame ℕ} {fs : List (Frame ℕ)} {x : ℕ}

/-- The next module. -/
theorem Wf.start {m : ℕ} {modules : List ℕ} (hwf : Wf depth s) (hstack : s.stack = [])
    (hmodules : s.modules = m :: modules) :
    Quiet s { s with stack := [⟨m, 0, []⟩], modules } ∧
      Wf depth { s with stack := [⟨m, 0, []⟩], modules } := by
  have hq : Quiet s { s with stack := [⟨m, 0, []⟩], modules } := by
    refine ⟨?_, rfl, rfl, rfl, rfl, fun n hn ↦ hmodules ▸ List.mem_cons_of_mem _ hn⟩
    rw [State.view, State.view, hstack, view_start, view_nil]
  refine ⟨hq, hwf.quiet hq (List.pairwise_singleton _ _) ?_ ?_⟩
  · intro n hn
    obtain rfl := List.mem_singleton.mp hn
    exact hwf.modules n (hmodules ▸ List.mem_cons_self)
  · intro n
    rw [place]
    split_ifs with hn
    · exact Nat.zero_le _
    · exact Nat.zero_le _

theorem Wf.child_index (hwf : Wf depth s) (hstack : s.stack = f :: fs)
    (hx : (s.heap.lists f.node)[f.index]? = some x) :
    x < s.heap.next ∧ depth f.node < depth x := by
  refine hwf.child f.node x ?_
  rw [State.view, hstack]
  exact mem_view hx

/-- Down to a member that is no symlink. -/
theorem Wf.push (hwf : Wf depth s) (hstack : s.stack = f :: fs)
    (hx : (s.heap.lists f.node)[f.index]? = some x) :
    Quiet s { s with stack := ⟨x, 0, []⟩ :: f :: fs } ∧
      Wf depth { s with stack := ⟨x, 0, []⟩ :: f :: fs } := by
  have hchild := hwf.child_index hstack hx
  have hsorted := hwf.stack
  have hlt := hwf.stack_lt
  have hwithin := hwf.within
  rw [hstack] at hsorted hlt hwithin
  have hq : Quiet s { s with stack := ⟨x, 0, []⟩ :: f :: fs } := by
    refine ⟨?_, rfl, rfl, rfl, rfl, fun n hn ↦ hn⟩
    rw [State.view, State.view, hstack, view_push hx (notMem_nodes hsorted hchild.2)]
  refine ⟨hq, hwf.quiet hq (List.pairwise_cons.mpr ⟨?_, hsorted⟩) ?_ (hwithin.push hx)⟩
  · intro n hn
    rcases List.mem_cons.mp hn with rfl | hn
    · exact hchild.2
    · exact ((List.pairwise_cons.mp hsorted).1 n hn).trans hchild.2
  · intro n hn
    rcases List.mem_cons.mp hn with rfl | hn
    · exact hchild.1
    · exact hlt n hn

/-- The end of a module. -/
theorem Wf.finishModule (hwf : Wf depth s) (hstack : s.stack = [f])
    (hend : (s.heap.lists f.node)[f.index]? = none) :
    Quiet s { s with heap := s.heap.setSubstmts f.node f.done, stack := [] } ∧
      Wf depth { s with heap := s.heap.setSubstmts f.node f.done, stack := [] } := by
  have hq : Quiet s { s with heap := s.heap.setSubstmts f.node f.done, stack := [] } := by
    refine ⟨?_, Heap.head_setSubstmts .., rfl, rfl, rfl, fun n hn ↦ hn⟩
    rw [State.view, State.view, hstack, ← view_finish hend List.not_mem_nil,
      Heap.lists_setSubstmts, view_nil, view_nil]
  exact ⟨hq, hwf.quiet hq List.Pairwise.nil (fun n hn ↦ absurd hn List.not_mem_nil)
    (Within.nil _ _)⟩

/-- The end of a list, with the node as the result for itself. -/
theorem Wf.finish (hwf : Wf depth s) (hstack : s.stack = f :: g :: fs)
    (hend : (s.heap.lists f.node)[f.index]? = none) :
    Quiet s { s with
        heap := s.heap.setSubstmts f.node f.done
        stack := ⟨g.node, g.index + 1, g.done ++ [f.node]⟩ :: fs } ∧
      Wf depth { s with
        heap := s.heap.setSubstmts f.node f.done
        stack := ⟨g.node, g.index + 1, g.done ++ [f.node]⟩ :: fs } := by
  have hsorted := hwf.stack
  have hlt := hwf.stack_lt
  have hwithin := hwf.within
  rw [hstack] at hsorted hlt hwithin
  obtain ⟨hdeeper, hsorted⟩ := List.pairwise_cons.mp hsorted
  have hmem : f.node ∉ nodes (g :: fs) := fun h ↦ lt_irrefl _ (hdeeper f.node h)
  have hq : Quiet s { s with
      heap := s.heap.setSubstmts f.node f.done
      stack := ⟨g.node, g.index + 1, g.done ++ [f.node]⟩ :: fs } := by
    refine ⟨?_, Heap.head_setSubstmts .., rfl, rfl, rfl, fun n hn ↦ hn⟩
    rw [State.view, State.view, hstack, ← view_finish hend hmem, Heap.lists_setSubstmts,
      view_return]
  refine ⟨hq, hwf.quiet hq hsorted (fun n hn ↦ hlt n (List.mem_cons_of_mem _ hn)) ?_⟩
  rw [Heap.lists_setSubstmts]
  exact (hwithin.finish hmem).result f.node

end Quiet

/-- The innermost comprehension is at a symlink. -/
structure AtSymlink (s : State) (f : Frame ℕ) (fs : List (Frame ℕ)) (x : ℕ) : Prop where
  stack : s.stack = f :: fs
  index : (s.heap.lists f.node)[f.index]? = some x
  keyword : (s.heap.stmt x).keyword = symlinkKeyword

theorem AtSymlink.unique {s : State} {f f' : Frame ℕ} {fs fs' : List (Frame ℕ)} {x x' : ℕ}
    (h : AtSymlink s f fs x) (h' : AtSymlink s f' fs' x') : f' = f ∧ fs' = fs ∧ x' = x := by
  obtain ⟨rfl, rfl⟩ := List.cons.inj (h.stack.symm.trans h'.stack)
  exact ⟨rfl, rfl, Option.some_inj.mp (h'.index.symm.trans h.index)⟩

/-- Everything that a step can do, but for what a symlink becomes. -/
theorem step_cases {P : Fixer} {depth : ℕ → ℕ} {s s' : State} (hwf : Wf depth s)
    (h : P.step s = some s') :
    (Quiet s s' ∧ Wf depth s' ∧ ∀ f fs x, ¬AtSymlink s f fs x) ∨
      ∃ f fs x s₁ r, AtSymlink s f fs x ∧ P.doReplaceSymlink s f.node x = some (s₁, r) ∧
        s' = { s₁ with stack := ⟨f.node, f.index + 1, f.done ++ [r]⟩ :: fs } := by
  rw [Fixer.step] at h
  rcases hstack : s.stack with - | ⟨f, fs⟩
  · rw [hstack] at h
    have hnot : ∀ f fs x, ¬AtSymlink s f fs x := fun f fs x hat ↦
      List.cons_ne_nil f fs (hat.stack.symm.trans hstack)
    -- no comprehension is running, and the next module is begun
    rcases hmodules : s.modules with - | ⟨m, modules⟩
    · rw [hmodules] at h
      exact absurd h (by simp)
    · rw [hmodules] at h
      obtain rfl := Option.some_inj.mp h
      obtain ⟨hq, hwf'⟩ := hwf.start hstack hmodules
      exact .inl ⟨hq, hwf', hnot⟩
  · rw [hstack] at h
    dsimp only at h
    rcases hx : (s.heap.lists f.node)[f.index]? with - | x
    · rw [hx] at h
      obtain rfl := Option.some_inj.mp h
      have hnot : ∀ f fs x, ¬AtSymlink s f fs x := by
        intro f' fs' x hat
        obtain ⟨rfl, -⟩ := List.cons.inj (hstack.symm.trans hat.stack)
        exact Option.some_ne_none x (hat.index.symm.trans hx)
      -- the comprehension is at its end, and its result is written back
      rcases fs with - | ⟨g, fs⟩
      · obtain ⟨hq, hwf'⟩ := hwf.finishModule hstack hx
        exact .inl ⟨hq, hwf', hnot⟩
      · obtain ⟨hq, hwf'⟩ := hwf.finish hstack hx
        exact .inl ⟨hq, hwf', hnot⟩
    · rw [hx] at h
      dsimp only at h
      split_ifs at h with hkey
      · obtain ⟨⟨s₁, r⟩, hr, rfl⟩ := Option.map_eq_some_iff.mp h
        exact .inr ⟨f, fs, x, s₁, r, ⟨hstack, hx, hkey⟩, hr, rfl⟩
      · obtain rfl := Option.some_inj.mp h
        -- a statement that is no symlink is gone into
        obtain ⟨hq, hwf'⟩ := hwf.push hstack hx
        refine .inl ⟨hq, hwf', fun f' fs' x' hat ↦ hkey ?_⟩
        obtain ⟨rfl, -⟩ := List.cons.inj (hstack.symm.trans hat.stack)
        obtain rfl : x' = x := Option.some_inj.mp (hat.index.symm.trans hx)
        exact hat.keyword

/-! ## Symlinks -/

/-- A step that changes lists: the statements in `gone` are replaced by the new ones in `come`, and
there are new lists. -/
structure Exchange (s s' : State) (gone come : ℕ → List ℕ) : Prop where
  kept : Kept s.heap s'.heap
  perm : ∀ n < s.heap.next, (gone n ++ s'.view n).Perm (come n ++ s.view n)
  new : ∀ n < s.heap.next, ∀ y ∈ come n, s.heap.next ≤ y ∧ y < s'.heap.next
  new_nodup : ∀ n, (come n).Nodup
  child : ∀ n, s.heap.next ≤ n → ∀ y ∈ s'.view n, n < y ∧ y < s'.heap.next
  nodup : ∀ n, s.heap.next ≤ n → (s'.view n).Nodup

namespace Exchange

variable {depth : ℕ → ℕ} {s s' : State} {gone come : ℕ → List ℕ} {n y : ℕ}

theorem nodup_append (he : Exchange s s' gone come) (hwf : Wf depth s) (hn : n < s.heap.next) :
    (gone n ++ s'.view n).Nodup := by
  refine (he.perm n hn).nodup_iff.mpr (List.nodup_append.mpr ⟨he.new_nodup n, hwf.nodup n, ?_⟩)
  rintro y hy z hz rfl
  exact Nat.not_lt.mpr (he.new n hn y hy).1 (hwf.child n y hz).1

theorem mem_or (he : Exchange s s' gone come) (hn : n < s.heap.next) (hy : y ∈ s'.view n) :
    y ∈ come n ∨ y ∈ s.view n :=
  List.mem_append.mp ((he.perm n hn).mem_iff.mp (List.mem_append_right _ hy))

/-- Nothing that was there comes into a list. -/
theorem mem_of_lt (he : Exchange s s' gone come) (hy : y < s.heap.next) (hmem : y ∈ s'.view n) :
    y ∈ s.view n := by
  rcases Nat.lt_or_ge n s.heap.next with hn | hn
  · rcases he.mem_or hn hmem with hcome | hmem
    · exact absurd (he.new n hn y hcome).1 (Nat.not_le.mpr hy)
    · exact hmem
  · exact absurd (hn.trans (he.child n hn y hmem).1.le) (Nat.not_le.mpr hy)

/-- What is not replaced stays. -/
theorem mem_of_notMem (he : Exchange s s' gone come) (hn : n < s.heap.next) (hmem : y ∈ s.view n)
    (hgone : y ∉ gone n) : y ∈ s'.view n :=
  (List.mem_append.mp ((he.perm n hn).mem_iff.mpr (List.mem_append_right _ hmem))).resolve_left
    hgone

theorem notMem_of_gone (he : Exchange s s' gone come) (hwf : Wf depth s) (hn : n < s.heap.next)
    (hy : y ∈ gone n) : y ∉ s'.view n := fun hmem ↦
  (List.nodup_append.mp (he.nodup_append hwf hn)).2.2 y hy y hmem rfl

theorem mem_of_come (he : Exchange s s' gone come) (hn : n < s.heap.next) (hy : y ∈ come n)
    (hgone : ∀ z ∈ gone n, z < s.heap.next) : y ∈ s'.view n := by
  refine (List.mem_append.mp ((he.perm n hn).mem_iff.mpr (List.mem_append_left _ hy))).resolve_left
    fun hmem ↦ ?_
  exact Nat.not_lt.mpr (he.new n hn y hy).1 (hgone y hmem)

theorem child_view (he : Exchange s s' gone come) (hwf : Wf depth s) (hy : y ∈ s'.view n) :
    y < s'.heap.next ∧ depth n < depth y := by
  rcases Nat.lt_or_ge n s.heap.next with hn | hn
  · rcases he.mem_or hn hy with hcome | hmem
    · obtain ⟨hle, hlt⟩ := he.new n hn y hcome
      exact ⟨hlt, hwf.later y hle n (hn.trans_le hle)⟩
    · obtain ⟨hlt, hdepth⟩ := hwf.child n y hmem
      exact ⟨hlt.trans_le he.kept.le, hdepth⟩
  · obtain ⟨hny, hlt⟩ := he.child n hn y hy
    exact ⟨hlt, hwf.later y (hn.trans hny.le) n hny⟩

theorem nodup_view (he : Exchange s s' gone come) (hwf : Wf depth s) (n : ℕ) :
    (s'.view n).Nodup := by
  rcases Nat.lt_or_ge n s.heap.next with hn | hn
  · exact (List.nodup_append.mp (he.nodup_append hwf hn)).2.1
  · exact he.nodup n hn

end Exchange

theorem perm_append_swap {xs rs gone come v v' w : List ℕ} (h₁ : (xs ++ v').Perm (rs ++ v))
    (h₂ : (gone ++ v).Perm (come ++ w)) : (xs ++ gone ++ v').Perm (rs ++ come ++ w) := by
  rw [List.perm_iff_count] at h₁ h₂ ⊢
  intro y
  have h₁ := h₁ y
  have h₂ := h₂ y
  simp only [List.count_append] at h₁ h₂ ⊢
  omega

/-- What a heap that has grown says about the lists that are going to be. -/
theorem Wf.exchange {depth : ℕ → ℕ} {s : State} {f : Frame ℕ} {fs : List (Frame ℕ)} {x r : ℕ}
    {b h' : Heap} {gone come : ℕ → List ℕ} {introduced : List Introduction} {links : List Link}
    (hwf : Wf depth s) (hstack : s.stack = f :: fs) (hnext : b.next = s.heap.next)
    (hhead : b.head = s.heap.head) (hclosed : Closed b)
    (hwithin : Within b.lists (some x) (f :: fs)) (hfresh : Fresh b h')
    (hperm : ∀ n, (gone n ++ Comprehension.view b.lists (some x) (f :: fs) n).Perm
      (come n ++ s.view n))
    (hcome : ∀ n, ∀ y ∈ come n, y ≠ r ∧ s.heap.next ≤ y ∧ y < h'.next)
    (hnodup : ∀ n, (come n).Nodup) (hle : s.heap.next ≤ r) (hlt : r < h'.next) :
    let s' : State :=
      ⟨h', introduced, links, ⟨f.node, f.index + 1, f.done ++ [r]⟩ :: fs, s.modules⟩
    Wf depth s' ∧ Exchange s s' (fun n ↦ (if f.node = n then [x] else []) ++ gone n)
      (fun n ↦ (if f.node = n then [r] else []) ++ come n) := by
  intro s'
  have hkept : Kept s.heap h' := by
    refine ⟨hnext ▸ hfresh.le, fun y hy ↦ ?_⟩
    rw [← hhead]
    exact hfresh.kept.head y (hnext ▸ hy)
  have hstack_lt := hwf.stack_lt
  rw [hstack] at hstack_lt
  -- the lists of old statements are read off with the result in place of the symlink
  have hold : ∀ n < s.heap.next, s'.view n = Comprehension.view b.lists (some r) (f :: fs) n := by
    intro n hn
    rw [State.view, view_return]
    exact view_congr (hfresh.lists_old (hnext ▸ hn))
  -- no comprehension runs over the list of a new statement
  have hnew : ∀ n, s.heap.next ≤ n → s'.view n = h'.lists n := fun n hn ↦
    view_of_notMem fun hmem ↦ Nat.not_lt.mpr hn (hstack_lt n hmem)
  have he : Exchange s s' (fun n ↦ (if f.node = n then [x] else []) ++ gone n)
      (fun n ↦ (if f.node = n then [r] else []) ++ come n) := by
    refine ⟨hkept, ?_, ?_, ?_, ?_, ?_⟩
    · intro n hn
      rw [hold n hn]
      exact perm_append_swap (perm_view_result x r) (hperm n)
    · intro n _ y hy
      rcases List.mem_append.mp hy with hy | hy
      · split_ifs at hy with hf
        · obtain rfl := List.mem_singleton.mp hy
          exact ⟨hle, hlt⟩
        · exact absurd hy List.not_mem_nil
      · exact (hcome n y hy).2
    · intro n
      refine List.nodup_append.mpr ⟨?_, hnodup n, ?_⟩
      · split_ifs with hf
        · exact List.nodup_singleton _
        · exact List.nodup_nil
      · intro y hy z hz
        split_ifs at hy with hf
        · obtain rfl := List.mem_singleton.mp hy
          exact ((hcome n z hz).1).symm
        · exact absurd hy List.not_mem_nil
    · intro n hn y hy
      rw [hnew n hn] at hy
      exact hfresh.child n (hnext ▸ hn) y hy
    · intro n hn
      rw [hnew n hn]
      exact hfresh.nodup n (hnext ▸ hn)
  have hsorted := hwf.stack
  rw [hstack] at hsorted
  -- lists only get longer, so the running comprehensions stay within them
  have hlength : ∀ n, (b.lists n).length ≤ (h'.lists n).length := by
    intro n
    rcases Nat.lt_or_ge n b.next with hn | hn
    · rw [hfresh.lists_old hn]
    · rw [hclosed.unused n hn]
      exact Nat.zero_le _
  refine ⟨?_, he⟩
  exact {
    closed := hfresh.closed hclosed
    later := fun y hy ↦ hwf.later y (hkept.le.trans hy)
    child := fun n y hy ↦ he.child_view hwf hy
    nodup := he.nodup_view hwf
    stack := hsorted
    stack_lt := fun m hm ↦ (hstack_lt m hm).trans_le hkept.le
    within := (hwithin.mono hlength).result r
    modules := fun m hm ↦ (hwf.modules m hm).trans_le hkept.le }

section Symlink

variable {depth : ℕ → ℕ} {s : State} {f : Frame ℕ} {fs : List (Frame ℕ)} {x r t p : ℕ}
  {h₁ h' : Heap} {name : Text}

/-- A symlink that becomes a copy, or a `uses` of a grouping that there is. -/
theorem Wf.renewal (introduced : List Introduction) (links : List Link) (hwf : Wf depth s)
    (hstack : s.stack = f :: fs)
    (hx : (s.heap.lists f.node)[f.index]? = some x) (hr : Fixer.Renewal s.heap h' r) :
    let s' : State :=
      ⟨h', introduced, links, ⟨f.node, f.index + 1, f.done ++ [r]⟩ :: fs, s.modules⟩
    Wf depth s' ∧ Exchange s s' (fun n ↦ (if f.node = n then [x] else []) ++ [])
      (fun n ↦ (if f.node = n then [r] else []) ++ []) := by
  have hwithin := hwf.within
  rw [hstack] at hwithin
  refine hwf.exchange hstack rfl rfl hwf.closed (hwithin.member hx) hr.fresh ?_ ?_ ?_ hr.le hr.lt
  · intro n
    rw [State.view, hstack, view_some hx]
  · intro n y hy
    exact absurd hy List.not_mem_nil
  · exact fun n ↦ List.nodup_nil

/-- A symlink that becomes a `uses` of a grouping that is made for it. -/
theorem Wf.moved (introduced : List Introduction) (links : List Link) (hwf : Wf depth s)
    (hstack : s.stack = f :: fs)
    (hx : (s.heap.lists f.node)[f.index]? = some x) (ht : t < s.heap.next)
    (hm : Fixer.Moved s.heap h₁ t p name) (hr : Fixer.Renewal h₁ h' r) :
    let s' : State :=
      ⟨h', introduced, links, ⟨f.node, f.index + 1, f.done ++ [r]⟩ :: fs, s.modules⟩
    Wf depth s' ∧ Exchange s s'
      (fun n ↦ (if f.node = n then [x] else []) ++
        if p = n ∧ Ahead s.heap (some x) (f :: fs) p t then [t] else [])
      (fun n ↦ (if f.node = n then [r] else []) ++
        ((if p = n ∧ Ahead s.heap (some x) (f :: fs) p t then [s.heap.next] else []) ++
        if (s.heap.stmt t).top = n then [s.heap.next + 1] else [])) := by
  have hwithin := hwf.within
  rw [hstack] at hwithin
  have hlt : s.heap.next + 1 < h'.next := hm.lt.trans_le hr.fresh.le
  have hlt_r : s.heap.next + 1 < r := hm.lt.trans_le hr.le
  refine hwf.exchange (b := Fixer.relist s.heap t p) hstack rfl (Fixer.head_relist _ _ _)
    (Fixer.closed_relist hwf.closed ht hm.parent_lt) (within_relist (hwithin.member hx))
    (hm.fresh.trans hr.fresh) ?_ ?_ ?_ (by omega) hr.lt
  · intro n
    rw [State.view, hstack, ← view_some hx]
    exact perm_view_relist (hwithin.member hx) hm.mem n
  · intro n y hy
    -- the `uses` and the grouping are the first two statements that were made
    have hcases : y = s.heap.next ∨ y = s.heap.next + 1 := by
      rcases List.mem_append.mp hy with hy | hy
      · split_ifs at hy
        · exact .inl (List.mem_singleton.mp hy)
        · exact absurd hy List.not_mem_nil
      · split_ifs at hy
        · exact .inr (List.mem_singleton.mp hy)
        · exact absurd hy List.not_mem_nil
    omega
  · intro n
    split_ifs
    all_goals simp

end Symlink

/-! ## Records

What is recorded of a run stays true in it. -/

/-- What a step leaves as it is, of the statements that are made from `n₀` on. -/
structure Progress (n₀ : ℕ) (s s' : State) : Prop where
  kept : Kept s.heap s'.heap
  gain : ∀ n, ∀ y ∈ s'.view n, y < s.heap.next → y ∈ s.view n
  stay : ∀ n, ∀ y ∈ s.view n, n₀ ≤ y → (s.heap.stmt y).keyword ≠ symlinkKeyword → y ∈ s'.view n
  introduced : ∀ e ∈ s.introduced, e ∈ s'.introduced

theorem Quiet.progress {s s' : State} (hq : Quiet s s') (n₀ : ℕ) : Progress n₀ s s' where
  kept := ⟨hq.next.ge, fun x _ ↦ congrFun hq.head x⟩
  gain _ _ hy _ := hq.view ▸ hy
  stay _ _ hy _ _ := hq.view ▸ hy
  introduced _ he := hq.introduced ▸ he

theorem Exchange.progress {depth : ℕ → ℕ} {n₀ : ℕ} {s s' : State} {gone come : ℕ → List ℕ}
    (he : Exchange s s' gone come) (hwf : Wf depth s)
    (hgone : ∀ n, ∀ y ∈ gone n, (s.heap.stmt y).keyword = symlinkKeyword ∨ y < n₀)
    (hintroduced : ∀ e ∈ s.introduced, e ∈ s'.introduced) : Progress n₀ s s' where
  kept := he.kept
  gain n y hy hlt := he.mem_of_lt hlt hy
  stay n y hy hle hkey := by
    have hn : n < s.heap.next := by
      by_contra hge
      rw [hwf.view_eq_nil (Nat.not_lt.mp hge)] at hy
      exact List.not_mem_nil hy
    refine he.mem_of_notMem hn hy fun hmem ↦ ?_
    rcases hgone n y hmem with hsymlink | hlt
    · exact hkey hsymlink
    · exact Nat.not_lt.mpr hle hlt
  introduced := hintroduced

/-- The entry of a target, with the statements that were made for it. -/
structure Introduction.Recorded (n₀ : ℕ) (s : State) (e : Introduction) : Prop where
  target_lt : e.target < n₀
  name : e.name = (s.heap.stmt e.target).arg ++ groupSuffix
  le_uses : n₀ ≤ e.uses
  uses_lt : e.uses < s.heap.next
  uses_keyword : (s.heap.stmt e.uses).keyword = .uses
  uses_arg : (s.heap.stmt e.uses).arg = e.name
  le_grouping : n₀ ≤ e.grouping
  grouping_lt : e.grouping < s.heap.next
  grouping_keyword : (s.heap.stmt e.grouping).keyword = .grouping
  grouping_arg : (s.heap.stmt e.grouping).arg = e.name
  grouping_mem : e.grouping ∈ s.view (s.heap.stmt e.target).top

/-- The target is no longer in the list of its parent, and the `uses` is. -/
def Introduction.Replaced (s : State) (e : Introduction) : Prop :=
  ∃ p, (s.heap.stmt e.target).parent = some p ∧ e.target ∉ s.view p ∧ e.uses ∈ s.view p

/-- The `uses` of the target is not in the list of the parent. -/
def Introduction.Lost (s : State) (e : Introduction) : Prop :=
  ∃ p, (s.heap.stmt e.target).parent = some p ∧ e.uses ∉ s.view p

/-- The symlink is no longer there, and the `uses` of the grouping of its target is. -/
structure Link.Recorded (n₀ : ℕ) (s : State) (q : Link) : Prop where
  symlink_lt : q.symlink < s.heap.next
  le_uses : n₀ ≤ q.uses
  uses_lt : q.uses < s.heap.next
  uses_keyword : (s.heap.stmt q.uses).keyword = .uses
  symlink_notMem : q.symlink ∉ s.view q.owner
  uses_mem : q.uses ∈ s.view q.owner
  uses_arg : ∃ e ∈ s.introduced, e.target = q.target ∧
    (s.heap.stmt q.uses).arg = q.targetPrefix ++ ':' :: e.name

namespace Progress

variable {n₀ : ℕ} {s s' : State} {e : Introduction} {q : Link}

theorem recorded (hp : Progress n₀ s s') (hn₀ : n₀ ≤ s.heap.next) (he : e.Recorded n₀ s) :
    e.Recorded n₀ s' where
  target_lt := he.target_lt
  name := by rw [hp.kept.arg (he.target_lt.trans_le hn₀), he.name]
  le_uses := he.le_uses
  uses_lt := he.uses_lt.trans_le hp.kept.le
  uses_keyword := by rw [hp.kept.keyword he.uses_lt, he.uses_keyword]
  uses_arg := by rw [hp.kept.arg he.uses_lt, he.uses_arg]
  le_grouping := he.le_grouping
  grouping_lt := he.grouping_lt.trans_le hp.kept.le
  grouping_keyword := by rw [hp.kept.keyword he.grouping_lt, he.grouping_keyword]
  grouping_arg := by rw [hp.kept.arg he.grouping_lt, he.grouping_arg]
  grouping_mem := by
    rw [hp.kept.top (he.target_lt.trans_le hn₀)]
    refine hp.stay _ _ he.grouping_mem he.le_grouping ?_
    rw [he.grouping_keyword]
    exact Keyword.noConfusion

theorem replaced (hp : Progress n₀ s s') (hn₀ : n₀ ≤ s.heap.next) (he : e.Recorded n₀ s)
    (hr : e.Replaced s) : e.Replaced s' := by
  have hlt := he.target_lt.trans_le hn₀
  obtain ⟨p, hparent, hnot, hmem⟩ := hr
  refine ⟨p, (hp.kept.parent hlt).trans hparent, fun h ↦ hnot (hp.gain p _ h hlt), ?_⟩
  refine hp.stay p _ hmem he.le_uses ?_
  rw [he.uses_keyword]
  exact Keyword.noConfusion

theorem lost (hp : Progress n₀ s s') (hn₀ : n₀ ≤ s.heap.next) (he : e.Recorded n₀ s)
    (hl : e.Lost s) : e.Lost s' := by
  obtain ⟨p, hparent, hnot⟩ := hl
  exact ⟨p, (hp.kept.parent (he.target_lt.trans_le hn₀)).trans hparent,
    fun h ↦ hnot (hp.gain p _ h he.uses_lt)⟩

theorem link (hp : Progress n₀ s s') (hq : q.Recorded n₀ s) : q.Recorded n₀ s' where
  symlink_lt := hq.symlink_lt.trans_le hp.kept.le
  le_uses := hq.le_uses
  uses_lt := hq.uses_lt.trans_le hp.kept.le
  uses_keyword := by rw [hp.kept.keyword hq.uses_lt, hq.uses_keyword]
  symlink_notMem h := hq.symlink_notMem (hp.gain _ _ h hq.symlink_lt)
  uses_mem := by
    refine hp.stay _ _ hq.uses_mem hq.le_uses ?_
    rw [hq.uses_keyword]
    exact Keyword.noConfusion
  uses_arg := by
    obtain ⟨e, he, htarget, harg⟩ := hq.uses_arg
    exact ⟨e, hp.introduced e he, htarget, (hp.kept.arg hq.uses_lt).trans harg⟩

end Progress

/-- What a step does to the entries. -/
inductive Advance (P : Fixer) (n₀ : ℕ) (s s' : State) : Prop
  | same (introduced : s'.introduced = s.introduced)
    (not_introduces : ∀ f fs x t, AtSymlink s f fs x → ¬P.Introduces s x t)
  | new {f : Frame ℕ} {fs : List (Frame ℕ)} {x p : ℕ} {e : Introduction}
    (at_symlink : AtSymlink s f fs x) (introduces : P.Introduces s x e.target)
    (introduced : s'.introduced = s.introduced ++ [e]) (recorded : e.Recorded n₀ s')
    (parent : (s.heap.stmt e.target).parent = some p)
    (replaced : Ahead s.heap (some x) s.stack p e.target → e.Replaced s')
    (lost : ¬Ahead s.heap (some x) s.stack p e.target → e.Lost s')

/-- What a step keeps, and what it records. -/
structure Steps (P : Fixer) (depth : ℕ → ℕ) (n₀ : ℕ) (s s' : State) : Prop where
  wf : Wf depth s'
  progress : Progress n₀ s s'
  links : ∀ q ∈ s'.links, q ∈ s.links ∨ q.Recorded n₀ s'
  advance : Advance P n₀ s s'

section Steps

variable {P : Fixer} {depth : ℕ → ℕ} {n₀ : ℕ} {s s' : State} {f : Frame ℕ} {fs : List (Frame ℕ)}
  {x r : ℕ} {h₁ h' : Heap}

theorem AtSymlink.lt (hat : AtSymlink s f fs x) (hwf : Wf depth s) :
    f.node < s.heap.next ∧ x < s.heap.next := by
  refine ⟨hwf.stack_lt f.node ?_, (hwf.child_index hat.stack hat.index).1⟩
  rw [hat.stack]
  exact List.mem_cons_self

theorem advance_same (hat : AtSymlink s f fs x) (hnot : ∀ t, ¬P.Introduces s x t)
    (hintroduced : s'.introduced = s.introduced) : Advance P n₀ s s' := by
  refine .same hintroduced fun f' fs' x' t hat' ↦ ?_
  obtain ⟨-, -, rfl⟩ := hat.unique hat'
  exact hnot t

theorem steps_copied (hwf : Wf depth s) (hat : AtSymlink s f fs x)
    (hnot : ∀ t, ¬P.Introduces s x t) (hr : Fixer.Renewal s.heap h' r) :
    Steps P depth n₀ s { s with
      heap := h'
      stack := ⟨f.node, f.index + 1, f.done ++ [r]⟩ :: fs } := by
  obtain ⟨hwf', he⟩ := hwf.renewal s.introduced s.links hat.stack hat.index hr
  refine ⟨hwf', he.progress hwf ?_ fun e h ↦ h, fun q hq ↦ .inl hq, advance_same hat hnot rfl⟩
  intro n y hy
  simp only [List.append_nil, List.mem_ite_nil_right, List.mem_singleton] at hy
  exact .inl (hy.2 ▸ hat.keyword)

theorem steps_known {e : Introduction} {targetPrefix : Text} (hwf : Wf depth s)
    (hn₀ : n₀ ≤ s.heap.next) (hat : AtSymlink s f fs x) (hnot : ∀ t, ¬P.Introduces s x t)
    (hmem : e ∈ s.introduced) (hr : Fixer.Renewal s.heap h' r)
    (hkey : (h'.stmt r).keyword = .uses) (harg : (h'.stmt r).arg = targetPrefix ++ ':' :: e.name) :
    Steps P depth n₀ s { s with
      heap := h'
      links := s.links ++ [⟨f.node, x, e.target, targetPrefix, r⟩]
      stack := ⟨f.node, f.index + 1, f.done ++ [r]⟩ :: fs } := by
  obtain ⟨hwf', he⟩ := hwf.renewal s.introduced
    (s.links ++ [⟨f.node, x, e.target, targetPrefix, r⟩]) hat.stack hat.index hr
  obtain ⟨hf, hx⟩ := hat.lt hwf
  refine ⟨hwf', he.progress hwf ?_ fun e h ↦ h, ?_, advance_same hat hnot rfl⟩
  · intro n y hy
    simp only [List.append_nil, List.mem_ite_nil_right, List.mem_singleton] at hy
    exact .inl (hy.2 ▸ hat.keyword)
  · intro q hq
    rcases List.mem_append.mp hq with hq | hq
    · exact .inl hq
    · obtain rfl := List.mem_singleton.mp hq
      refine .inr ⟨hx.trans_le he.kept.le, hn₀.trans hr.le, hr.lt, hkey, ?_, ?_,
        e, hmem, rfl, harg⟩
      · exact he.notMem_of_gone hwf hf (by simp)
      · refine he.mem_of_come hf (by simp) fun z hz ↦ ?_
        simp only [List.append_nil, List.mem_ite_nil_right, List.mem_singleton] at hz
        exact hz.2 ▸ hx

theorem steps_moved {t p : ℕ} {targetPrefix : Text} (hwf : Wf depth s)
    (hn₀ : n₀ ≤ s.heap.next) (hat : AtSymlink s f fs x) (ht : t < n₀)
    (hi : P.Introduces s x t)
    (hm : Fixer.Moved s.heap h₁ t p ((s.heap.stmt t).arg ++ groupSuffix))
    (hr : Fixer.Renewal h₁ h' r) (hkey : (h'.stmt r).keyword = .uses)
    (harg : (h'.stmt r).arg = targetPrefix ++ ':' :: ((s.heap.stmt t).arg ++ groupSuffix)) :
    Steps P depth n₀ s { s with
      heap := h'
      introduced := s.introduced ++
        [⟨t, (s.heap.stmt t).arg ++ groupSuffix, s.heap.next, s.heap.next + 1⟩]
      links := s.links ++ [⟨f.node, x, t, targetPrefix, r⟩]
      stack := ⟨f.node, f.index + 1, f.done ++ [r]⟩ :: fs } := by
  obtain ⟨hwf', he⟩ := hwf.moved (s.introduced ++
    [⟨t, (s.heap.stmt t).arg ++ groupSuffix, s.heap.next, s.heap.next + 1⟩])
    (s.links ++ [⟨f.node, x, t, targetPrefix, r⟩]) hat.stack hat.index (ht.trans_le hn₀) hm hr
  obtain ⟨hf, hx⟩ := hat.lt hwf
  have ht' := ht.trans_le hn₀
  have htop := hwf.closed.top_lt t ht'
  have hkept := hr.fresh.kept
  have hlt := hm.lt
  have hle := hr.le
  have huses : s.heap.next < h₁.next := by omega
  -- only the symlink and the target are taken out of lists
  have hgone : ∀ n, ∀ y ∈ (if f.node = n then [x] else []) ++
      (if p = n ∧ Ahead s.heap (some x) (f :: fs) p t then [t] else []), y = x ∨ y = t := by
    intro n y hy
    simp only [List.mem_append, List.mem_ite_nil_right, List.mem_singleton] at hy
    exact hy.imp And.right And.right
  have hgone_lt : ∀ n, ∀ y ∈ (if f.node = n then [x] else []) ++
      (if p = n ∧ Ahead s.heap (some x) (f :: fs) p t then [t] else []), y < s.heap.next := by
    intro n y hy
    rcases hgone n y hy with rfl | rfl
    · exact hx
    · exact ht'
  refine ⟨hwf', he.progress hwf ?_ fun e h ↦ List.mem_append_left _ h, ?_,
    .new hat hi rfl ?_ hm.parent_node ?_ ?_⟩
  · intro n y hy
    rcases hgone n y hy with rfl | rfl
    · exact .inl hat.keyword
    · exact .inr ht
  · intro q hq
    rcases List.mem_append.mp hq with hq | hq
    · exact .inl hq
    · obtain rfl := List.mem_singleton.mp hq
      refine .inr ⟨hx.trans_le he.kept.le, by dsimp only; omega, hr.lt, hkey, ?_, ?_,
        _, List.mem_append_right _ (List.mem_singleton_self _), rfl, harg⟩
      · exact he.notMem_of_gone hwf hf (by simp)
      · exact he.mem_of_come hf (by simp) (hgone_lt _)
  · refine ⟨ht, ?_, hn₀, huses.trans_le hkept.le, ?_, ?_, hn₀.trans (Nat.le_succ _),
      hlt.trans_le hkept.le, ?_, ?_, ?_⟩
    · exact congrArg (· ++ groupSuffix) (he.kept.arg ht').symm
    · exact (hkept.keyword huses).trans (congrArg Stmt.keyword hm.uses :)
    · exact (hkept.arg huses).trans (congrArg Stmt.arg hm.uses :)
    · exact (hkept.keyword hlt).trans (congrArg Stmt.keyword hm.grouping :)
    · exact (hkept.arg hlt).trans (congrArg Stmt.arg hm.grouping :)
    · dsimp only
      rw [he.kept.top ht']
      exact he.mem_of_come htop (by simp) (hgone_lt _)
  · rw [hat.stack]
    intro hahead
    -- the comprehension has not come to the target, so its `uses` is going to be in the list
    refine ⟨p, (he.kept.parent ht').trans hm.parent_node, ?_, ?_⟩
    · exact he.notMem_of_gone hwf hm.parent_lt (by simp [hahead])
    · exact he.mem_of_come hm.parent_lt (by simp [hahead]) (hgone_lt _)
  · rw [hat.stack]
    intro hahead
    -- the comprehension has passed the target, and writes it back over its `uses`
    refine ⟨p, (he.kept.parent ht').trans hm.parent_node, fun hmem ↦ ?_⟩
    rcases he.mem_or hm.parent_lt hmem with hcome | hold
    · simp only [List.mem_append, List.mem_ite_nil_right, List.mem_singleton, hahead, and_false,
        false_and, false_or] at hcome
      omega
    · exact (hwf.child p _ hold).1.ne rfl

theorem steps_of_step (hwf : Wf depth s) (hn₀ : n₀ ≤ s.heap.next)
    (htarget : ∀ st t, P.findTargetNode st = some t → t < n₀) (h : P.step s = some s') :
    Steps P depth n₀ s s' := by
  rcases step_cases hwf h with ⟨hq, hwf', hnot⟩ | ⟨f, fs, x, s₁, r, hat, hdo, rfl⟩
  · refine ⟨hwf', hq.progress n₀, fun q hq' ↦ .inl (hq.links ▸ hq'), .same hq.introduced ?_⟩
    exact fun f fs x t hat ↦ absurd hat (hnot f fs x)
  · have hout := Fixer.outcome_doReplaceSymlink hwf.closed (hat.lt hwf).2
      (fun st t ht ↦ (htarget st t ht).trans_le hn₀) hdo
    rcases hout with ⟨hnot, hr⟩ | ⟨hnot, hmem, hr, hkey, harg⟩ | ⟨hi, hm, hr, hkey, harg⟩
    · exact steps_copied hwf hat hnot hr
    · exact steps_known hwf hn₀ hat hnot hmem hr hkey harg
    · obtain ⟨path, tp, hfind, -⟩ := id hi
      obtain ⟨st, hst⟩ := Fixer.exists_findTargetNode hfind
      exact steps_moved hwf hn₀ hat (htarget st _ hst) hi hm hr hkey harg

end Steps

/-! ## Runs -/

/-- The modules as they have been parsed. Lists have no statement twice and no cycles, and the
targets of paths are among the statements there are. -/
structure Started (P : Fixer) (s : State) : Prop where
  closed : Closed s.heap
  lt : ∀ n, ∀ y ∈ s.heap.lists n, y < s.heap.next
  nodup : ∀ n, (s.heap.lists n).Nodup
  acyclic : ∃ depth : ℕ → ℕ, ∀ n, ∀ y ∈ s.heap.lists n, depth n < depth y
  modules_lt : ∀ m ∈ s.modules, m < s.heap.next
  targets_lt : ∀ st t, P.findTargetNode st = some t → t < s.heap.next
  stack : s.stack = []
  introduced : s.introduced = []
  links : s.links = []

/-- If the step makes a grouping, then no other target with the same name and in the same module has
one, and the comprehension over the list of its parent has not come to the target. -/
def Fixer.Orderly (P : Fixer) (s : State) : Prop :=
  ∀ f fs x t p, AtSymlink s f fs x → P.Introduces s x t → (s.heap.stmt t).parent = some p →
    (∀ e ∈ s.introduced, (s.heap.stmt e.target).top = (s.heap.stmt t).top →
      (s.heap.stmt e.target).arg ≠ (s.heap.stmt t).arg) ∧
    Ahead s.heap (some x) s.stack p t

/-- Groupings of one module have different names, a target has been replaced by the `uses` of its
grouping exactly once, and symlinks have become a `uses` of the grouping of their target. A target
is replaced in the list of its parent. Where the parent is, or lies below, a target replaced before,
that list has left the module with it, and the copy in the grouping of that target has no `uses`. -/
structure Valid (s : State) : Prop where
  names : ∀ e ∈ s.introduced, ∀ e' ∈ s.introduced,
    (s.heap.stmt e.target).top = (s.heap.stmt e'.target).top → e.target ≠ e'.target →
    e.name ≠ e'.name
  once : (s.introduced.map Introduction.target).Nodup
  groupings : ∀ e ∈ s.introduced, e.grouping ∈ s.heap.lists (s.heap.stmt e.target).top ∧
    (s.heap.stmt e.grouping).keyword = .grouping ∧ (s.heap.stmt e.grouping).arg = e.name
  targets : ∀ e ∈ s.introduced, (s.heap.stmt e.uses).keyword = .uses ∧
    (s.heap.stmt e.uses).arg = e.name ∧ ∃ p, (s.heap.stmt e.target).parent = some p ∧
      e.target ∉ s.heap.lists p ∧ (s.heap.lists p).count e.uses = 1
  symlinks : ∀ q ∈ s.links, (s.heap.stmt q.uses).keyword = .uses ∧
    q.symlink ∉ s.heap.lists q.owner ∧ (s.heap.lists q.owner).count q.uses = 1 ∧
    ∃ e ∈ s.introduced, e.target = q.target ∧
      (s.heap.stmt q.uses).arg = q.targetPrefix ++ ':' :: e.name

/-- What holds in every run. -/
structure Inv (depth : ℕ → ℕ) (n₀ : ℕ) (s : State) : Prop where
  wf : Wf depth s
  le : n₀ ≤ s.heap.next
  introduced : ∀ e ∈ s.introduced, e.Recorded n₀ s
  once : (s.introduced.map Introduction.target).Nodup
  links : ∀ q ∈ s.links, q.Recorded n₀ s

/-- Two targets of one module have groupings with the same name. -/
def Clash (s : State) (e e' : Introduction) : Prop :=
  (s.heap.stmt e.target).top = (s.heap.stmt e'.target).top ∧ e.target ≠ e'.target ∧
    e.name = e'.name

/-- What holds in orderly runs. -/
structure Sound (s : State) : Prop where
  names : ∀ e ∈ s.introduced, ∀ e' ∈ s.introduced, ¬Clash s e e'
  replaced : ∀ e ∈ s.introduced, e.Replaced s

/-- What holds ever after a step that is not orderly. -/
def Broken (s : State) : Prop :=
  (∃ e ∈ s.introduced, ∃ e' ∈ s.introduced, Clash s e e') ∨ ∃ e ∈ s.introduced, e.Lost s

section Runs

variable {P : Fixer} {depth : ℕ → ℕ} {n₀ : ℕ} {s s₀ s' : State}

theorem Inv.step (hinv : Inv depth n₀ s)
    (htarget : ∀ st t, P.findTargetNode st = some t → t < n₀) (h : P.step s = some s') :
    Inv depth n₀ s' := by
  have hsteps := steps_of_step hinv.wf hinv.le htarget h
  have hold : ∀ e ∈ s.introduced, e.Recorded n₀ s' := fun e he ↦
    hsteps.progress.recorded hinv.le (hinv.introduced e he)
  refine ⟨hsteps.wf, hinv.le.trans hsteps.progress.kept.le, ?_, ?_, ?_⟩
  · rcases hsteps.advance with ⟨heq, -⟩ | ⟨-, -, heq, hnew, -⟩
    · rw [heq]
      exact hold
    · rw [heq]
      intro e he
      rcases List.mem_append.mp he with he | he
      · exact hold e he
      · obtain rfl := List.mem_singleton.mp he
        exact hnew
  · rcases hsteps.advance with ⟨heq, -⟩ | ⟨-, hi, heq, -⟩
    · rw [heq]
      exact hinv.once
    · obtain ⟨path, tp, -, -, -, hnot⟩ := hi
      rw [heq, List.map_append, List.map_singleton]
      refine List.nodup_append.mpr ⟨hinv.once, List.nodup_singleton _, ?_⟩
      intro t ht t' ht'
      obtain ⟨e, he, rfl⟩ := List.mem_map.mp ht
      exact List.mem_singleton.mp ht' ▸ hnot e he
  · intro q hq
    rcases hsteps.links q hq with hq | hq
    · exact hsteps.progress.link (hinv.links q hq)
    · exact hq

theorem Clash.symm {e e' : Introduction} (hclash : Clash s e e') : Clash s e' e :=
  ⟨hclash.1.symm, hclash.2.1.symm, hclash.2.2.symm⟩

theorem Progress.clash_iff {e e' : Introduction} (hp : Progress n₀ s s')
    (he : e.target < s.heap.next) (he' : e'.target < s.heap.next) :
    Clash s' e e' ↔ Clash s e e' := by
  rw [Clash, Clash, hp.kept.top he, hp.kept.top he']

theorem name_eq_iff {e e' : Introduction} (he : e.Recorded n₀ s) (he' : e'.Recorded n₀ s) :
    e.name = e'.name ↔ (s.heap.stmt e.target).arg = (s.heap.stmt e'.target).arg := by
  rw [he.name, he'.name, List.append_left_inj]

/-- A new entry has the name of another one if their targets have the same local name. -/
theorem clash_new_iff {e e' : Introduction} (hinv : Inv depth n₀ s) (hp : Progress n₀ s s')
    (he' : e' ∈ s.introduced) (hrecorded : e.Recorded n₀ s')
    (hnot : ∀ e' ∈ s.introduced, e'.target ≠ e.target) :
    Clash s' e' e ↔ (s.heap.stmt e'.target).top = (s.heap.stmt e.target).top ∧
      (s.heap.stmt e'.target).arg = (s.heap.stmt e.target).arg := by
  have hlt := hrecorded.target_lt.trans_le hinv.le
  have hlt' := (hinv.introduced e' he').target_lt.trans_le hinv.le
  rw [Clash, name_eq_iff (hp.recorded hinv.le (hinv.introduced e' he')) hrecorded,
    hp.kept.top hlt, hp.kept.top hlt', hp.kept.arg hlt, hp.kept.arg hlt']
  exact and_congr_right fun _ ↦ and_iff_right (hnot e' he')

theorem Sound.step (hsound : Sound s) (hinv : Inv depth n₀ s)
    (htarget : ∀ st t, P.findTargetNode st = some t → t < n₀) (horderly : P.Orderly s)
    (h : P.step s = some s') : Sound s' := by
  have hsteps := steps_of_step hinv.wf hinv.le htarget h
  have hp := hsteps.progress
  have hlt : ∀ e ∈ s.introduced, e.target < s.heap.next := fun e he ↦
    (hinv.introduced e he).target_lt.trans_le hinv.le
  have hnames : ∀ e ∈ s.introduced, ∀ e' ∈ s.introduced, ¬Clash s' e e' := fun e he e' he' hclash ↦
    hsound.names e he e' he' ((hp.clash_iff (hlt e he) (hlt e' he')).mp hclash)
  have hreplaced : ∀ e ∈ s.introduced, e.Replaced s' := fun e he ↦
    hp.replaced hinv.le (hinv.introduced e he) (hsound.replaced e he)
  rcases hsteps.advance with ⟨heq, -⟩ | @⟨f, fs, x, p, e, hat, hi, heq, hnew, hparent, hrep, -⟩
  · exact ⟨heq ▸ hnames, heq ▸ hreplaced⟩
  · -- an orderly step makes a grouping with a new name, for a target that is still ahead
    obtain ⟨hname, hahead⟩ := horderly f fs x e.target p hat hi hparent
    obtain ⟨-, -, -, -, -, hnot⟩ := hi
    have hclash : ∀ e' ∈ s.introduced, ¬Clash s' e' e := fun e' he' hclash ↦ by
      obtain ⟨htop, harg⟩ := (clash_new_iff hinv hp he' hnew hnot).mp hclash
      exact hname e' he' htop harg
    refine ⟨?_, ?_⟩
    · rw [heq]
      intro e₁ he₁ e₂ he₂
      rcases List.mem_append.mp he₁ with he₁ | he₁
      · rcases List.mem_append.mp he₂ with he₂ | he₂
        · exact hnames e₁ he₁ e₂ he₂
        · exact List.mem_singleton.mp he₂ ▸ hclash e₁ he₁
      · obtain rfl := List.mem_singleton.mp he₁
        rcases List.mem_append.mp he₂ with he₂ | he₂
        · exact fun h ↦ hclash e₂ he₂ h.symm
        · exact fun h ↦ h.2.1 (List.mem_singleton.mp he₂ ▸ rfl)
    · rw [heq]
      intro e₁ he₁
      rcases List.mem_append.mp he₁ with he₁ | he₁
      · exact hreplaced e₁ he₁
      · exact List.mem_singleton.mp he₁ ▸ hrep hahead

theorem Broken.step (hbroken : Broken s) (hinv : Inv depth n₀ s)
    (htarget : ∀ st t, P.findTargetNode st = some t → t < n₀) (h : P.step s = some s') :
    Broken s' := by
  have hp := (steps_of_step hinv.wf hinv.le htarget h).progress
  have hlt : ∀ e ∈ s.introduced, e.target < s.heap.next := fun e he ↦
    (hinv.introduced e he).target_lt.trans_le hinv.le
  rcases hbroken with ⟨e, he, e', he', hclash⟩ | ⟨e, he, hlost⟩
  · exact .inl ⟨e, hp.introduced e he, e', hp.introduced e' he',
      (hp.clash_iff (hlt e he) (hlt e' he')).mpr hclash⟩
  · exact .inr ⟨e, hp.introduced e he, hp.lost hinv.le (hinv.introduced e he) hlost⟩

theorem broken_of_not_orderly (hinv : Inv depth n₀ s)
    (htarget : ∀ st t, P.findTargetNode st = some t → t < n₀) (hnot : ¬P.Orderly s)
    (h : P.step s = some s') : Broken s' := by
  have hsteps := steps_of_step hinv.wf hinv.le htarget h
  have hp := hsteps.progress
  rcases hsteps.advance with ⟨-, hnone⟩ | @⟨f, fs, x, p, e, hat, hi, heq, hnew, hparent, -, hlost⟩
  · exact absurd (fun f fs x t p hat hi _ ↦ absurd hi (hnone f fs x t hat)) hnot
  · have hmem : e ∈ s'.introduced := heq ▸ List.mem_append_right _ (List.mem_singleton_self e)
    by_cases hahead : Ahead s.heap (some x) s.stack p e.target
    · refine .inl ?_
      by_contra hclash
      refine hnot fun f' fs' x' t p' hat' hi' hparent' ↦ ?_
      obtain ⟨-, -, rfl⟩ := hat.unique hat'
      obtain ⟨path, tp, hfind, -⟩ := id hi
      obtain ⟨rfl, -⟩ := hi'.of_findTarget hfind
      obtain rfl := Option.some_inj.mp (hparent'.symm.trans hparent)
      obtain ⟨-, -, -, -, -, hne⟩ := hi
      refine ⟨fun e' he' htop harg ↦ hclash ?_, hahead⟩
      exact ⟨e', hp.introduced e' he', e, hmem,
        (clash_new_iff hinv hp he' hnew hne).mpr ⟨htop, harg⟩⟩
    · exact .inr ⟨e, hmem, hlost hahead⟩

/-- A depth for the statements there are, and for those that are going to be made. -/
theorem Started.exists_inv (hstart : Started P s) : ∃ depth, Inv depth s.heap.next s := by
  obtain ⟨depth, hdepth⟩ := hstart.acyclic
  have hview : s.view = s.heap.lists := by rw [State.view, hstart.stack, view_nil]
  have hle : ∀ n < s.heap.next, depth n ≤ (Finset.range s.heap.next).sup depth := fun n hn ↦
    Finset.le_sup (f := depth) (Finset.mem_range.mpr hn)
  -- new statements are put below everything there is, in the order of their numbers
  refine ⟨fun n ↦ if n < s.heap.next then depth n
    else (Finset.range s.heap.next).sup depth + n + 1, ?_⟩
  refine ⟨⟨hstart.closed, ?_, ?_, ?_, ?_, ?_, ?_, hstart.modules_lt⟩, le_rfl, ?_, ?_, ?_⟩
  · intro y hy n hn
    rw [if_neg (Nat.not_lt.mpr hy)]
    split_ifs with hlt
    · have := hle n hlt
      omega
    · omega
  · intro n y hy
    rw [hview] at hy
    have hlt := hstart.lt n y hy
    have hn : n < s.heap.next := by
      by_contra hge
      rw [hstart.closed.unused n (Nat.not_lt.mp hge)] at hy
      exact List.not_mem_nil hy
    rw [if_pos hn, if_pos hlt]
    exact ⟨hlt, hdepth n y hy⟩
  · rw [hview]
    exact hstart.nodup
  · rw [hstart.stack]
    exact List.Pairwise.nil
  · rw [hstart.stack]
    exact fun m hm ↦ absurd hm List.not_mem_nil
  · rw [hstart.stack]
    exact Within.nil _ _
  · rw [hstart.introduced]
    exact fun e he ↦ absurd he List.not_mem_nil
  · rw [hstart.introduced]
    exact List.nodup_nil
  · rw [hstart.links]
    exact fun q hq ↦ absurd hq List.not_mem_nil

theorem valid_of_sound (hinv : Inv depth n₀ s) (hsound : Sound s) (hstack : s.stack = []) :
    Valid s := by
  have hview : s.view = s.heap.lists := by rw [State.view, hstack, view_nil]
  have hcount : ∀ n y, y ∈ s.view n → (s.heap.lists n).count y = 1 := fun n y hy ↦
    hview ▸ List.count_eq_one_of_mem (hinv.wf.nodup n) hy
  refine ⟨fun e he e' he' htop hne hname ↦ hsound.names e he e' he' ⟨htop, hne, hname⟩,
    hinv.once, ?_, ?_, ?_⟩
  · intro e he
    have hrec := hinv.introduced e he
    exact ⟨hview ▸ hrec.grouping_mem, hrec.grouping_keyword, hrec.grouping_arg⟩
  · intro e he
    have hrec := hinv.introduced e he
    obtain ⟨p, hparent, hnot, hmem⟩ := hsound.replaced e he
    exact ⟨hrec.uses_keyword, hrec.uses_arg, p, hparent, hview ▸ hnot, hcount p _ hmem⟩
  · intro q hq
    have hrec := hinv.links q hq
    exact ⟨hrec.uses_keyword, hview ▸ hrec.symlink_notMem, hcount _ _ hrec.uses_mem, hrec.uses_arg⟩

theorem not_valid_of_broken (hbroken : Broken s) (hstack : s.stack = []) : ¬Valid s := by
  intro hvalid
  rcases hbroken with ⟨e, he, e', he', htop, hne, hname⟩ | ⟨e, he, p, hparent, hnot⟩
  · exact hvalid.names e he e' he' htop hne hname
  · obtain ⟨-, -, p', hparent', -, hcount⟩ := hvalid.targets e he
    obtain rfl := Option.some_inj.mp (hparent'.symm.trans hparent)
    rw [State.view, hstack, view_nil] at hnot
    rw [List.count_eq_zero_of_not_mem hnot] at hcount
    exact Nat.zero_ne_one hcount

/-- Modules whose statements are numbered in the order of the text. -/
def parsed (stmts : List Stmt) (modules : List ℕ) : State :=
  ⟨⟨fun n ↦ stmts.getD n ⟨.other [], [], none, 0, []⟩, stmts.length⟩, [], [], [], modules⟩

theorem started_parsed {stmts : List Stmt} {modules : List ℕ} {targets : List (Text × ℕ)}
    (htop : ∀ st ∈ stmts, st.top < stmts.length)
    (hchild : ∀ n < stmts.length, ∀ y ∈ (parsed stmts modules).heap.lists n,
      n < y ∧ y < stmts.length) (hnodup : ∀ st ∈ stmts, st.substmts.Nodup)
    (hmodules : ∀ m ∈ modules, m < stmts.length) (htargets : ∀ t ∈ targets, t.2 < stmts.length) :
    Started (plain targets) (parsed stmts modules) := by
  have hunused : ∀ n, stmts.length ≤ n → (parsed stmts modules).heap.lists n = [] := by
    intro n hn
    rw [Heap.lists, parsed]
    dsimp only
    rw [List.getD_eq_default _ _ hn]
  have hlists : ∀ n, ∀ y ∈ (parsed stmts modules).heap.lists n, n < y ∧ y < stmts.length := by
    intro n y hy
    rcases Nat.lt_or_ge n stmts.length with hn | hn
    · exact hchild n hn y hy
    · rw [hunused n hn] at hy
      exact absurd hy List.not_mem_nil
  refine ⟨⟨hunused, ?_⟩, fun n y hy ↦ (hlists n y hy).2, ?_, ⟨id, fun n y hy ↦ (hlists n y hy).1⟩,
    hmodules, ?_, rfl, rfl, rfl⟩
  · intro x hx
    rw [parsed] at hx ⊢
    dsimp only at hx ⊢
    rw [List.getD_eq_getElem _ _ hx]
    exact htop _ (List.getElem_mem hx)
  · intro n
    rcases Nat.lt_or_ge n stmts.length with hn | hn
    · rw [Heap.lists, parsed]
      dsimp only
      rw [List.getD_eq_getElem _ _ hn]
      exact hnodup _ (List.getElem_mem hn)
    · rw [hunused n hn]
      exact List.nodup_nil
  · intro st t ht
    obtain ⟨t', hfind, rfl⟩ := Option.map_eq_some_iff.mp ht
    exact htargets t' (List.mem_of_find?_eq_some hfind)

/-- **Replaced symlinks.** The modules are valid after a run if all steps of the run are orderly,
and only then. -/
theorem valid_iff_orderly (hstart : Started P s₀) (hrun : P.machine.Reachable s₀ s)
    (hstack : s.stack = []) : Valid s ↔ P.machine.Reach (fun s _ ↦ P.Orderly s) s₀ s := by
  obtain ⟨depth, hinv₀⟩ := hstart.exists_inv
  have hinv : Inv depth s₀.heap.next s := hrun.invariant hinv₀ fun t _ t' ht _ hstep ↦
    ht.step hstart.targets_lt hstep
  constructor
  · intro hvalid
    -- a step that is not orderly breaks something, and nothing mends it
    have hor : Inv depth s₀.heap.next s ∧
        (P.machine.Reach (fun s _ ↦ P.Orderly s) s₀ s ∨ Broken s) := by
      refine hrun.invariant (I := fun s ↦ Inv depth s₀.heap.next s ∧
        (P.machine.Reach (fun s _ ↦ P.Orderly s) s₀ s ∨ Broken s)) ⟨hinv₀, .inl .refl⟩ ?_
      intro t u t' ⟨ht, hcases⟩ _ hstep
      refine ⟨ht.step hstart.targets_lt hstep, ?_⟩
      rcases hcases with hreach | hbroken
      · by_cases horderly : P.Orderly t
        · exact .inl (hreach.step (e := u) horderly hstep)
        · exact .inr (broken_of_not_orderly ht hstart.targets_lt horderly hstep)
      · exact .inr (hbroken.step ht hstart.targets_lt hstep)
    exact hor.2.resolve_right fun hbroken ↦ not_valid_of_broken hbroken hstack hvalid
  · intro hreach
    have hsound₀ : Sound s₀ := by
      refine ⟨?_, ?_⟩
      · rw [hstart.introduced]
        exact fun e he ↦ absurd he List.not_mem_nil
      · rw [hstart.introduced]
        exact fun e he ↦ absurd he List.not_mem_nil
    have hsound : Inv depth s₀.heap.next s ∧ Sound s := by
      refine hreach.invariant (I := fun s ↦ Inv depth s₀.heap.next s ∧ Sound s)
        ⟨hinv₀, hsound₀⟩ ?_
      intro t u t' ⟨ht, hsound⟩ horderly hstep
      exact ⟨ht.step hstart.targets_lt hstep, hsound.step ht hstart.targets_lt horderly hstep⟩
    exact valid_of_sound hinv hsound.2 hstack

/-- A container with a symlink to a list that comes after it. -/
def listAfterSymlink : List Stmt :=
  [⟨.other "module".toList, ['m'], none, 0, [1, 2, 4, 7]⟩,
    ⟨.prefixStmt, ['m'], some 0, 0, []⟩,
    ⟨.importStmt, tailf, some 0, 0, [3]⟩, ⟨.prefixStmt, ['t'], some 2, 0, []⟩,
    ⟨.container, ['c'], some 0, 0, [5]⟩,
    ⟨symlinkKeyword, ['x'], some 4, 0, [6]⟩, ⟨pathKeyword, ['/', 'a'], some 5, 0, []⟩,
    ⟨.list, ['a'], some 0, 0, [8]⟩, ⟨.leaf, ['k'], some 7, 0, []⟩]

theorem valid_iff_orderly_listAfterSymlink :
    ∃ s, (plain [(['/', 'a'], 7)]).machine.Reachable (parsed listAfterSymlink [0]) s ∧
      s.introduced.length = 1 ∧ (Valid s ↔ (plain [(['/', 'a'], 7)]).machine.Reach
        (fun s _ ↦ (plain [(['/', 'a'], 7)]).Orderly s) (parsed listAfterSymlink [0]) s) := by
  have hrun : (((plain [(['/', 'a'], 7)]).machine.restrict fun _ _ ↦ True).runFrom
      (parsed listAfterSymlink [0]) (List.replicate 19 ())).any
      (fun s ↦ s.stack.isEmpty && s.introduced.length == 1) = true := by decide +kernel
  obtain ⟨s, hreach, htest⟩ := Machine.exists_reach_of_any hrun
  rw [Bool.and_eq_true, List.isEmpty_iff, beq_iff_eq] at htest
  have hstart : Started (plain [(['/', 'a'], 7)]) (parsed listAfterSymlink [0]) :=
    started_parsed (by decide +kernel) (by decide +kernel) (by decide +kernel) (by decide +kernel)
      (by decide +kernel)
  exact ⟨s, hreach, htest.2, valid_iff_orderly hstart hreach htest.1⟩

/-- Two lists with the same name in containers, a list of the module, and behind them a container
with symlinks to the three. -/
def symlinksAtEnd : List Stmt :=
  [⟨.other "module".toList, ['m'], none, 0, [1, 2, 4, 6, 8, 9]⟩,
    ⟨.prefixStmt, ['m'], some 0, 0, []⟩,
    ⟨.importStmt, tailf, some 0, 0, [3]⟩, ⟨.prefixStmt, ['t'], some 2, 0, []⟩,
    ⟨.container, ['b'], some 0, 0, [5]⟩, ⟨.list, ['a'], some 4, 0, []⟩,
    ⟨.container, ['c'], some 0, 0, [7]⟩, ⟨.list, ['a'], some 6, 0, []⟩,
    ⟨.list, ['l'], some 0, 0, []⟩,
    ⟨.container, ['d'], some 0, 0, [10, 12, 14]⟩,
    ⟨symlinkKeyword, ['x'], some 9, 0, [11]⟩, ⟨pathKeyword, ['/', 'b', '/', 'a'], some 10, 0, []⟩,
    ⟨symlinkKeyword, ['y'], some 9, 0, [13]⟩, ⟨pathKeyword, ['/', 'c', '/', 'a'], some 12, 0, []⟩,
    ⟨symlinkKeyword, ['z'], some 9, 0, [15]⟩, ⟨pathKeyword, ['/', 'l'], some 14, 0, []⟩]

def targetsOfSymlinks : List (Text × ℕ) :=
  [(['/', 'b', '/', 'a'], 5), (['/', 'c', '/', 'a'], 7), (['/', 'l'], 8)]

/-- The groupings of the two lists have one name, and the list of the module is still there. -/
theorem not_valid_symlinksAtEnd : Started (plain targetsOfSymlinks) (parsed symlinksAtEnd [0]) ∧
    ∃ s, (plain targetsOfSymlinks).machine.Reachable (parsed symlinksAtEnd [0]) s ∧
      s.stack = [] ∧ s.modules = [] ∧
      (∃ e ∈ s.introduced, ∃ e' ∈ s.introduced,
        (s.heap.stmt e.target).top = (s.heap.stmt e'.target).top ∧ e.target ≠ e'.target ∧
        e.name = e'.name) ∧
      (∃ e ∈ s.introduced, (s.heap.stmt e.target).parent = some 0 ∧ e.target ∈ s.heap.lists 0) ∧
      ¬Valid s := by
  refine ⟨started_parsed (by decide +kernel) (by decide +kernel) (by decide +kernel)
    (by decide +kernel) (by decide +kernel), ?_⟩
  have hrun : (((plain targetsOfSymlinks).machine.restrict fun _ _ ↦ True).runFrom
      (parsed symlinksAtEnd [0]) (List.replicate 35 ())).any
      (fun s ↦ s.stack.isEmpty && s.modules.isEmpty && (s.introduced.any fun e ↦
        s.introduced.any fun e' ↦ decide ((s.heap.stmt e.target).top = (s.heap.stmt e'.target).top ∧
          e.target ≠ e'.target ∧ e.name = e'.name)) && s.introduced.any fun e ↦
        decide ((s.heap.stmt e.target).parent = some 0 ∧ e.target ∈ s.heap.lists 0)) = true := by
    decide +kernel
  obtain ⟨s, hreach, htest⟩ := Machine.exists_reach_of_any hrun
  simp only [Bool.and_eq_true, List.isEmpty_iff, List.any_eq_true, decide_eq_true_eq] at htest
  obtain ⟨⟨⟨hstack, hmodules⟩, e₁, he₁, e₂, he₂, hclash⟩, hthere⟩ := htest
  refine ⟨s, hreach, hstack, hmodules, ⟨e₁, he₁, e₂, he₂, hclash⟩, hthere, fun hvalid ↦ ?_⟩
  exact hvalid.names e₁ he₁ e₂ he₂ hclash.1 hclash.2.1 hclash.2.2

end Runs

end ConfdDemos.SymlinkFixer
