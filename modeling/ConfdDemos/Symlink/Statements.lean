import Mathlib.Data.Nat.Basic
import Mathlib.Order.Basic
import ConfdDemos.Foundation.Comprehension

/-!
# YANG statements

A module is a tree of statements. A statement has a keyword, an argument, its parent, the module it
is in and the list of its substatements; a plugin changes these in place, so the statements are in a
heap. A statement may have a parent that does not have it in its list, when it was replaced there.

## New statements

Most of what the symlink plugin does is to make new statements, and to change statements that it has
just made. `Fresh` says that the second heap is the first one with new trees, and `Kept` that
nothing but lists has changed.
-/

namespace ConfdDemos.SymlinkFixer

open Comprehension

abbrev Text := List Char

/-! ## Statements

Statements have an identity; the number is the order in which they were made. -/

inductive Keyword
  | list
  | choice
  | uses
  | container
  | leaf
  | leafList
  | presence
  | importStmt
  | prefixStmt
  | grouping
  | refine
  | extension (module name : Text)
  | other (name : Text)
  deriving DecidableEq

structure Stmt where
  keyword : Keyword
  arg : Text
  parent : Option ℕ
  top : ℕ
  substmts : List ℕ
  deriving DecidableEq

structure Heap where
  stmt : ℕ → Stmt
  next : ℕ

namespace Heap

variable (h : Heap)

/-- The statements that are made get the numbers from `next` on. -/
def alloc (st : Stmt) : Heap := ⟨Function.update h.stmt h.next st, h.next + 1⟩

def setSubstmts (n : ℕ) (l : List ℕ) : Heap :=
  { h with stmt := Function.update h.stmt n { h.stmt n with substmts := l } }

def setArg (n : ℕ) (arg : Text) : Heap :=
  { h with stmt := Function.update h.stmt n { h.stmt n with arg } }

def lists (n : ℕ) : List ℕ := (h.stmt n).substmts

/-- A statement but for its substatements. -/
def head (n : ℕ) : Stmt := { h.stmt n with substmts := [] }

theorem stmt_alloc_next (st : Stmt) : (h.alloc st).stmt h.next = st := Function.update_self ..

theorem stmt_alloc_of_ne {x : ℕ} (hx : x ≠ h.next) (st : Stmt) :
    (h.alloc st).stmt x = h.stmt x := Function.update_of_ne hx ..

theorem stmt_setSubstmts (n : ℕ) (l : List ℕ) :
    (h.setSubstmts n l).stmt n = { h.stmt n with substmts := l } := Function.update_self ..

theorem stmt_setSubstmts_of_ne {n x : ℕ} (hx : x ≠ n) (l : List ℕ) :
    (h.setSubstmts n l).stmt x = h.stmt x := Function.update_of_ne hx ..

theorem stmt_setArg (n : ℕ) (arg : Text) :
    (h.setArg n arg).stmt n = { h.stmt n with arg } := Function.update_self ..

theorem stmt_setArg_of_ne {n x : ℕ} (hx : x ≠ n) (arg : Text) :
    (h.setArg n arg).stmt x = h.stmt x := Function.update_of_ne hx ..

theorem lists_setSubstmts (n : ℕ) (l : List ℕ) :
    (h.setSubstmts n l).lists = Function.update h.lists n l := by
  funext m
  rcases eq_or_ne m n with rfl | hne
  · rw [lists, stmt_setSubstmts, Function.update_self]
  · rw [lists, stmt_setSubstmts_of_ne h hne, Function.update_of_ne hne, lists]

theorem lists_setSubstmts_of_ne {m n : ℕ} (hne : m ≠ n) (l : List ℕ) :
    (h.setSubstmts n l).lists m = h.lists m := by
  rw [lists_setSubstmts, Function.update_of_ne hne]

theorem head_setSubstmts (n : ℕ) (l : List ℕ) : (h.setSubstmts n l).head = h.head := by
  funext x
  rcases eq_or_ne x n with rfl | hne
  · rw [head, stmt_setSubstmts, head]
  · rw [head, stmt_setSubstmts_of_ne h hne, head]

theorem top_setSubstmts (n x : ℕ) (l : List ℕ) :
    ((h.setSubstmts n l).stmt x).top = (h.stmt x).top :=
  (congrArg Stmt.top (congrFun (h.head_setSubstmts n l) x) :)

theorem exists_stmt_setArg (n x : ℕ) (arg : Text) :
    ∃ arg', (h.setArg n arg).stmt x = { h.stmt x with arg := arg' } := by
  rcases eq_or_ne x n with rfl | hne
  · exact ⟨arg, h.stmt_setArg x arg⟩
  · exact ⟨(h.stmt x).arg, h.stmt_setArg_of_ne hne arg⟩

end Heap

def tailf : Text := "tailf-common".toList

def symlinkKeyword : Keyword := .extension tailf "symlink".toList

def pathKeyword : Keyword := .extension tailf "path".toList

namespace Heap

variable (h : Heap)

def searchOne (n : ℕ) (keyword : Keyword) : Option ℕ :=
  (h.lists n).find? fun x ↦ (h.stmt x).keyword = keyword

def searchImport (n : ℕ) (arg : Text) : Option ℕ :=
  (h.lists n).find? fun x ↦ (h.stmt x).keyword = .importStmt ∧ (h.stmt x).arg = arg

def modulePrefix (module : ℕ) (importName : Text) : Option Text :=
  (if (h.stmt module).arg = importName then some module
    else h.searchImport module importName).bind fun impmod ↦
      (h.searchOne impmod .prefixStmt).map fun p ↦ (h.stmt p).arg

/-- The first argument bounds the depth; a statement is not deeper than there are statements. -/
def canUseLink (isData : Keyword → Bool) : ℕ → ℕ → Bool
  | 0, _ => false
  | fuel + 1, node =>
    if (h.stmt node).keyword ∈ [.list, .choice, .uses] ∨
        (h.stmt node).keyword = .container ∧ (h.searchOne node .presence).isSome then false
    else (h.lists node).all fun subnode ↦
      !isData (h.stmt subnode).keyword || canUseLink isData fuel subnode

def addTransformCallpoint (parent : ℕ) : Option Heap :=
  (h.modulePrefix (h.stmt parent).top tailf).map fun tfPrefix ↦
    let top := (h.stmt parent).top
    let cp := h.next
    let h := h.alloc ⟨.extension tfPrefix "callpoint".toList, "symlink-transform".toList,
      some parent, top, []⟩
    let transform := h.next
    let h := h.alloc ⟨.extension tfPrefix "transform".toList, "true".toList, some cp, top, []⟩
    let h := h.setSubstmts parent (cp :: h.lists parent)
    h.setSubstmts cp [transform]

def addLink (path : Text) (node : ℕ) : Option Heap :=
  (h.modulePrefix (h.stmt node).top tailf).map fun tfPrefix ↦
    let link := h.next
    let h := h.alloc ⟨.extension tfPrefix "link".toList, path, some node, (h.stmt node).top, []⟩
    h.setSubstmts node (h.lists node ++ [link])

def addLinks (isData : Keyword → Bool) (targetPrefix : Text) :
    ℕ → Text → ℕ → Heap → Option Heap
  | 0, _, _, _ => none
  | fuel + 1, path, node, h =>
    if (h.stmt node).keyword = .leaf ∨ (h.stmt node).keyword = .leafList then h.addLink path node
    else (h.lists node).foldlM (fun h subnode ↦
      if isData (h.stmt subnode).keyword then
        addLinks isData targetPrefix fuel
          (path ++ '/' :: (targetPrefix ++ ':' :: (h.stmt subnode).arg)) subnode h
      else some h) h

end Heap

/-! ## Heaps that grow -/

/-- Statements are never taken away, and nothing but their substatements changes. -/
structure Kept (h h' : Heap) : Prop where
  le : h.next ≤ h'.next
  head : ∀ x < h.next, h'.head x = h.head x

namespace Kept

variable {h h' h'' : Heap}

theorem refl (h : Heap) : Kept h h := ⟨le_rfl, fun _ _ ↦ rfl⟩

theorem trans (h₁ : Kept h h') (h₂ : Kept h' h'') : Kept h h'' :=
  ⟨h₁.le.trans h₂.le, fun x hx ↦ (h₂.head x (hx.trans_le h₁.le)).trans (h₁.head x hx)⟩

theorem alloc (h : Heap) (st : Stmt) : Kept h (h.alloc st) :=
  ⟨Nat.le_succ _, fun x hx ↦ by rw [Heap.head, h.stmt_alloc_of_ne hx.ne, Heap.head]⟩

theorem setSubstmts (h : Heap) (n : ℕ) (l : List ℕ) : Kept h (h.setSubstmts n l) :=
  ⟨le_rfl, fun x _ ↦ congrFun (h.head_setSubstmts n l) x⟩

theorem addTransformCallpoint {parent : ℕ} (heq : h.addTransformCallpoint parent = some h') :
    Kept h h' := by
  obtain ⟨tfPrefix, -, rfl⟩ := Option.map_eq_some_iff.mp heq
  exact (((alloc h _).trans (alloc _ _)).trans (setSubstmts _ _ _)).trans (setSubstmts _ _ _)

theorem addLink {path : Text} {node : ℕ} (heq : h.addLink path node = some h') : Kept h h' := by
  obtain ⟨tfPrefix, -, rfl⟩ := Option.map_eq_some_iff.mp heq
  exact (alloc h _).trans (setSubstmts _ _ _)

theorem addLinks {isData : Keyword → Bool} {targetPrefix : Text} {fuel : ℕ} {path : Text}
    {node : ℕ} (heq : Heap.addLinks isData targetPrefix fuel path node h = some h') :
    Kept h h' := by
  induction fuel generalizing path node h h' with
  | zero => exact absurd heq (by simp [Heap.addLinks])
  | succ fuel ih =>
    rw [Heap.addLinks] at heq
    split_ifs at heq with hleaf
    · exact addLink heq
    · refine foldlM_invariant heq (refl h) ?_
      intro k y _ k' hk hstep
      split_ifs at hstep with hdata
      · exact hk.trans (ih hstep)
      · obtain rfl := Option.some_inj.mp hstep
        exact hk

theorem parent (hk : Kept h h') {x : ℕ} (hx : x < h.next) :
    (h'.stmt x).parent = (h.stmt x).parent := (congrArg Stmt.parent (hk.head x hx) :)

theorem top (hk : Kept h h') {x : ℕ} (hx : x < h.next) :
    (h'.stmt x).top = (h.stmt x).top := (congrArg Stmt.top (hk.head x hx) :)

theorem arg (hk : Kept h h') {x : ℕ} (hx : x < h.next) :
    (h'.stmt x).arg = (h.stmt x).arg := (congrArg Stmt.arg (hk.head x hx) :)

theorem keyword (hk : Kept h h') {x : ℕ} (hx : x < h.next) :
    (h'.stmt x).keyword = (h.stmt x).keyword := (congrArg Stmt.keyword (hk.head x hx) :)

end Kept

/-- Statements that have not been made have no substatements, and no statement belongs to them. -/
structure Closed (h : Heap) : Prop where
  unused : ∀ n, h.next ≤ n → h.lists n = []
  top_lt : ∀ x < h.next, (h.stmt x).top < h.next

theorem Closed.setSubstmts {h : Heap} (hc : Closed h) {n : ℕ} (hn : n < h.next) (l : List ℕ) :
    Closed (h.setSubstmts n l) where
  unused m hm := by
    rw [h.lists_setSubstmts_of_ne (hn.trans_le hm).ne']
    exact hc.unused m hm
  top_lt x hx := by
    rw [h.top_setSubstmts]
    exact hc.top_lt x hx

/-- The second heap is the first one with new statements, which are a forest of their own. What is
below a statement is made after it. -/
structure Fresh (h h' : Heap) : Prop where
  le : h.next ≤ h'.next
  old : ∀ x < h.next, h'.stmt x = h.stmt x
  unused : ∀ n, h'.next ≤ n → h'.lists n = []
  child : ∀ n, h.next ≤ n → ∀ y ∈ h'.lists n, n < y ∧ y < h'.next
  nodup : ∀ n, h.next ≤ n → (h'.lists n).Nodup
  top_lt : ∀ x, h.next ≤ x → x < h'.next → (h'.stmt x).top < h'.next

namespace Fresh

variable {h₀ h h' : Heap} {n : ℕ} {st : Stmt} {l : List ℕ}

theorem refl (hc : Closed h) : Fresh h h where
  le := le_rfl
  old _ _ := rfl
  unused := hc.unused
  child n hn y hy := by simp [hc.unused n hn] at hy
  nodup n hn := by simp [hc.unused n hn]
  top_lt x hle hlt := absurd hle (Nat.not_le.mpr hlt)

theorem lists_old (hf : Fresh h h') (hn : n < h.next) : h'.lists n = h.lists n := by
  rw [Heap.lists, hf.old n hn, Heap.lists]

theorem trans (h₁ : Fresh h₀ h) (h₂ : Fresh h h') : Fresh h₀ h' where
  le := h₁.le.trans h₂.le
  old x hx := (h₂.old x (hx.trans_le h₁.le)).trans (h₁.old x hx)
  unused := h₂.unused
  child n hn y hy := by
    rcases lt_or_ge n h.next with hlt | hge
    · rw [h₂.lists_old hlt] at hy
      obtain ⟨hny, hlt'⟩ := h₁.child n hn y hy
      exact ⟨hny, hlt'.trans_le h₂.le⟩
    · exact h₂.child n hge y hy
  nodup n hn := by
    rcases lt_or_ge n h.next with hlt | hge
    · rw [h₂.lists_old hlt]
      exact h₁.nodup n hn
    · exact h₂.nodup n hge
  top_lt x hle hlt := by
    rcases lt_or_ge x h.next with hx | hx
    · rw [h₂.old x hx]
      exact (h₁.top_lt x hle hx).trans_le h₂.le
    · exact h₂.top_lt x hx hlt

theorem closed (hf : Fresh h h') (hc : Closed h) : Closed h' where
  unused := hf.unused
  top_lt x hx := by
    rcases lt_or_ge x h.next with hlt | hge
    · rw [hf.old x hlt]
      exact (hc.top_lt x hlt).trans_le hf.le
    · exact hf.top_lt x hge hx

theorem alloc (hf : Fresh h h') (hst : st.substmts = []) (htop : st.top < h'.next) :
    Fresh h (h'.alloc st) where
  le := hf.le.trans (Nat.le_succ _)
  old x hx := by
    rw [h'.stmt_alloc_of_ne (hx.trans_le hf.le).ne]
    exact hf.old x hx
  unused n hn := by
    have hne : n ≠ h'.next := (Nat.lt_of_succ_le hn).ne'
    rw [Heap.lists, h'.stmt_alloc_of_ne hne]
    exact hf.unused n ((Nat.le_succ _).trans hn)
  child n hn y hy := by
    rcases eq_or_ne n h'.next with rfl | hne
    · simp [Heap.lists, h'.stmt_alloc_next, hst] at hy
    · rw [Heap.lists, h'.stmt_alloc_of_ne hne] at hy
      obtain ⟨hny, hlt⟩ := hf.child n hn y hy
      exact ⟨hny, Nat.lt_succ_of_lt hlt⟩
  nodup n hn := by
    rcases eq_or_ne n h'.next with rfl | hne
    · simp [Heap.lists, h'.stmt_alloc_next, hst]
    · rw [Heap.lists, h'.stmt_alloc_of_ne hne]
      exact hf.nodup n hn
  top_lt x hle hlt := by
    rcases Nat.lt_succ_iff_lt_or_eq.mp hlt with hlt | rfl
    · rw [h'.stmt_alloc_of_ne hlt.ne]
      exact Nat.lt_succ_of_lt (hf.top_lt x hle hlt)
    · rw [h'.stmt_alloc_next]
      exact Nat.lt_succ_of_lt htop

theorem setSubstmts (hf : Fresh h h') (hle : h.next ≤ n) (hlt : n < h'.next)
    (hl : ∀ y ∈ l, n < y ∧ y < h'.next) (hnodup : l.Nodup) :
    Fresh h (h'.setSubstmts n l) where
  le := hf.le
  old x hx := by
    rw [h'.stmt_setSubstmts_of_ne (hx.trans_le hle).ne]
    exact hf.old x hx
  unused m hm := by
    rw [h'.lists_setSubstmts_of_ne (hlt.trans_le hm).ne']
    exact hf.unused m hm
  child m hm y hy := by
    rcases eq_or_ne m n with rfl | hne
    · exact hl y (by rwa [Heap.lists_setSubstmts, Function.update_self] at hy)
    · exact hf.child m hm y (by rwa [h'.lists_setSubstmts_of_ne hne] at hy)
  nodup m hm := by
    rcases eq_or_ne m n with rfl | hne
    · rwa [Heap.lists_setSubstmts, Function.update_self]
    · rw [h'.lists_setSubstmts_of_ne hne]
      exact hf.nodup m hm
  top_lt x hx hx' := by
    rw [Heap.top_setSubstmts]
    exact hf.top_lt x hx hx'

theorem setArg (hf : Fresh h h') (hle : h.next ≤ n) (arg : Text) : Fresh h (h'.setArg n arg) where
  le := hf.le
  old x hx := by
    rw [h'.stmt_setArg_of_ne (hx.trans_le hle).ne]
    exact hf.old x hx
  unused m hm := by
    obtain ⟨arg', harg⟩ := h'.exists_stmt_setArg n m arg
    rw [Heap.lists, harg]
    exact hf.unused m hm
  child m hm y hy := by
    obtain ⟨arg', harg⟩ := h'.exists_stmt_setArg n m arg
    rw [Heap.lists, harg] at hy
    exact hf.child m hm y hy
  nodup m hm := by
    obtain ⟨arg', harg⟩ := h'.exists_stmt_setArg n m arg
    rw [Heap.lists, harg]
    exact hf.nodup m hm
  top_lt x hx hx' := by
    obtain ⟨arg', harg⟩ := h'.exists_stmt_setArg n x arg
    rw [harg]
    exact hf.top_lt x hx hx'

/-- The list of an old statement may be anything. -/
theorem setSubstmts_old (hf : Fresh h h') (hn : n < h.next) (l : List ℕ) :
    Fresh (h.setSubstmts n l) (h'.setSubstmts n l) where
  le := hf.le
  old x hx := by
    rcases eq_or_ne x n with rfl | hne
    · rw [h'.stmt_setSubstmts, h.stmt_setSubstmts, hf.old x hx]
    · rw [h'.stmt_setSubstmts_of_ne hne, h.stmt_setSubstmts_of_ne hne, hf.old x hx]
  unused m hm := by
    rw [h'.lists_setSubstmts_of_ne (hn.trans_le (hf.le.trans hm)).ne']
    exact hf.unused m hm
  child m hm y hy := by
    rw [h'.lists_setSubstmts_of_ne (hn.trans_le hm).ne'] at hy
    exact hf.child m hm y hy
  nodup m hm := by
    rw [h'.lists_setSubstmts_of_ne (hn.trans_le hm).ne']
    exact hf.nodup m hm
  top_lt x hx hx' := by
    rw [Heap.top_setSubstmts]
    exact hf.top_lt x hx hx'

/-- A new statement that is put into the list of another one. -/
theorem insert {y : ℕ} (hf : Fresh h h') (hle : h.next ≤ n) (hlt : n < h'.next)
    (hy : n < y) (hy' : y < h'.next) (hmem : y ∉ h'.lists n) (hl : l.Perm (y :: h'.lists n)) :
    Fresh h (h'.setSubstmts n l) := by
  refine hf.setSubstmts hle hlt ?_ (hl.nodup_iff.mpr (List.nodup_cons.mpr ⟨hmem, hf.nodup n hle⟩))
  intro z hz
  rcases List.mem_cons.mp (hl.mem_iff.mp hz) with rfl | hz
  · exact ⟨hy, hy'⟩
  · exact hf.child n hle z hz

theorem next_notMem (hf : Fresh h h') (hle : h.next ≤ n) : h'.next ∉ h'.lists n := fun hmem ↦
  (hf.child n hle _ hmem).2.ne rfl

/-- A statement that is put in front of the list, with one statement below it. -/
theorem cons_alloc {st₁ st₂ : Stmt} (hf : Fresh h₀ h) (hle : h₀.next ≤ n) (hlt : n < h.next)
    (hsub₁ : st₁.substmts = []) (htop₁ : st₁.top < h.next) (hsub₂ : st₂.substmts = [])
    (htop₂ : st₂.top < h.next) :
    Fresh h₀ ((((h.alloc st₁).alloc st₂).setSubstmts n
      (h.next :: ((h.alloc st₁).alloc st₂).lists n)).setSubstmts h.next [(h.alloc st₁).next]) := by
  have hf₂ : Fresh h₀ ((h.alloc st₁).alloc st₂) :=
    (hf.alloc hsub₁ htop₁).alloc hsub₂ (Nat.lt_succ_of_lt htop₂)
  have hlt₁ : h.next < ((h.alloc st₁).alloc st₂).next :=
    (Nat.lt_succ_self _).trans (Nat.lt_succ_self _)
  have hlists : ((h.alloc st₁).alloc st₂).lists n = h.lists n := by
    rw [Heap.lists, Heap.stmt_alloc_of_ne _ (Nat.lt_succ_of_lt hlt).ne,
      Heap.stmt_alloc_of_ne _ hlt.ne, Heap.lists]
  have hf₃ := hf₂.insert hle (hlt.trans hlt₁) hlt hlt₁ (by rw [hlists]; exact hf.next_notMem hle)
    (List.Perm.refl _)
  refine hf₃.setSubstmts hf.le hlt₁ ?_ (List.nodup_singleton _)
  intro y hy
  obtain rfl := List.mem_singleton.mp hy
  exact ⟨Nat.lt_succ_self _, Nat.lt_succ_self _⟩

theorem addTransformCallpoint {parent : ℕ} (hf : Fresh h₀ h) (hle : h₀.next ≤ parent)
    (hlt : parent < h.next) (heq : h.addTransformCallpoint parent = some h') : Fresh h₀ h' := by
  obtain ⟨tfPrefix, -, rfl⟩ := Option.map_eq_some_iff.mp heq
  have htop := hf.top_lt parent hle hlt
  exact hf.cons_alloc hle hlt rfl htop rfl htop

theorem addLink {path : Text} {node : ℕ} (hf : Fresh h₀ h) (hle : h₀.next ≤ node)
    (hlt : node < h.next) (heq : h.addLink path node = some h') : Fresh h₀ h' := by
  obtain ⟨tfPrefix, -, rfl⟩ := Option.map_eq_some_iff.mp heq
  generalize hst : (⟨.extension tfPrefix "link".toList, path, some node, (h.stmt node).top, []⟩ :
    Stmt) = st
  have hlists : (h.alloc st).lists node = h.lists node := by
    rw [Heap.lists, Heap.stmt_alloc_of_ne _ hlt.ne, Heap.lists]
  have hf₁ : Fresh h₀ (h.alloc st) :=
    hf.alloc (by rw [← hst]) (by rw [← hst]; exact hf.top_lt node hle hlt)
  refine hf₁.insert hle (Nat.lt_succ_of_lt hlt) hlt (Nat.lt_succ_self _) ?_
    (List.perm_append_singleton _ _)
  rw [hlists]
  exact hf.next_notMem hle

/-- The links are put below the new statements only. -/
theorem addLinks {isData : Keyword → Bool} {targetPrefix : Text} {fuel : ℕ} {path : Text}
    {node : ℕ} (hf : Fresh h₀ h) (hle : h₀.next ≤ node) (hlt : node < h.next)
    (heq : Heap.addLinks isData targetPrefix fuel path node h = some h') : Fresh h₀ h' := by
  induction fuel generalizing path node h h' with
  | zero => exact absurd heq (by simp [Heap.addLinks])
  | succ fuel ih =>
    rw [Heap.addLinks] at heq
    split_ifs at heq with hleaf
    · exact hf.addLink hle hlt heq
    -- the loop is over the list as it was, and the heap grows
    refine (foldlM_invariant (I := fun k ↦ Fresh h₀ k ∧ h.next ≤ k.next) heq ⟨hf, le_rfl⟩ ?_).1
    intro k y hy k' hk hstep
    split_ifs at hstep with hdata
    · obtain ⟨hny, hy'⟩ := hf.child node hle y hy
      exact ⟨ih hk.1 (hle.trans hny.le) (hy'.trans_le hk.2) hstep,
        hk.2.trans (Kept.addLinks hstep).le⟩
    · obtain rfl := Option.some_inj.mp hstep
      exact hk

theorem kept (hf : Fresh h h') : Kept h h' :=
  ⟨hf.le, fun x hx ↦ by rw [Heap.head, hf.old x hx, Heap.head]⟩

end Fresh

end ConfdDemos.SymlinkFixer
