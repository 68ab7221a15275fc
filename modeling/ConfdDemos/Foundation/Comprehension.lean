import Mathlib.Data.List.Nodup
import Mathlib.Data.List.Perm.Basic
import Mathlib.Data.List.TakeDrop

/-!
# Lists that change while they are rebuilt

A tree is rewritten by nested list comprehensions: the list of a node is replaced by the list of the
results for its members, and a member that is a node is rewritten in the same way before the next
one is looked at. A comprehension goes through its list by index, so a change in place is seen if it
is ahead of the index, and is lost otherwise.

## The list that is going to be

`view` is the list a node will have if nothing else happens. It is made of the results so far, the
member that is being rewritten, and the rest of the list. Going down to a member and coming back do
not change it, a change in place does if it is ahead.
-/

namespace ConfdDemos.Comprehension

variable {α : Type*}

/-- A comprehension that is running: the node, the index of the member it is at, and the results. -/
structure Frame (α : Type*) where
  node : α
  index : ℕ
  done : List α

/-- The nodes whose lists are being rebuilt, the innermost one first. -/
def nodes (stack : List (Frame α)) : List α := stack.map Frame.node

section Place

variable [DecidableEq α]

/-- What the list of a node is going to begin with, and the index from which on the rest is taken
from the list as it is then; `c` is the member that the innermost comprehension is at. -/
def place (c : Option α) : List (Frame α) → α → List α × ℕ
  | [], _ => ([], 0)
  | f :: fs, n =>
    if f.node = n then (f.done ++ c.toList, f.index + c.toList.length)
    else place (some f.node) fs n

/-- The list a node is going to have. -/
def view (lists : α → List α) (c : Option α) (stack : List (Frame α)) (n : α) : List α :=
  (place c stack n).1 ++ (lists n).drop (place c stack n).2

/-- The indices are inside of the lists. -/
def Within (lists : α → List α) (c : Option α) (stack : List (Frame α)) : Prop :=
  ∀ n, (place c stack n).2 ≤ (lists n).length

variable {lists lists' : α → List α} {c : Option α} {f g : Frame α} {stack fs : List (Frame α)}
  {n x r t u : α}

theorem place_of_notMem (h : n ∉ nodes stack) : place c stack n = ([], 0) := by
  induction stack generalizing c with
  | nil => rfl
  | cons f fs ih =>
    rw [nodes, List.map_cons, List.mem_cons, not_or] at h
    rw [place, if_neg (Ne.symm h.1), ih h.2]

theorem view_of_notMem (h : n ∉ nodes stack) : view lists c stack n = lists n := by
  rw [view, place_of_notMem h]
  rfl

/-! ## Going down and coming back -/

/-- The member the innermost comprehension is at is still in its list. -/
theorem view_some (hx : (lists f.node)[f.index]? = some x) :
    view lists (some x) (f :: fs) = view lists none (f :: fs) := by
  funext n
  rw [view, view, place, place]
  by_cases hn : f.node = n
  · obtain ⟨hlt, hget⟩ := List.getElem?_eq_some_iff.mp hx
    subst hn
    rw [if_pos rfl, if_pos rfl]
    simp only [Option.toList_some, Option.toList_none, List.append_nil, List.length_singleton,
      List.length_nil, Nat.add_zero, List.append_assoc, List.singleton_append]
    rw [List.drop_eq_getElem_cons hlt, hget]
  · rw [if_neg hn, if_neg hn]

theorem mem_view (hx : (lists f.node)[f.index]? = some x) :
    x ∈ view lists none (f :: fs) f.node := by
  rw [← view_some hx, view, place, if_pos rfl]
  simp

theorem view_start (lists : α → List α) (m : α) : view lists none [⟨m, 0, []⟩] = lists := by
  funext n
  rw [view, place]
  split_ifs with hn
  · rfl
  · rfl

theorem view_push (hx : (lists f.node)[f.index]? = some x) (hmem : x ∉ nodes (f :: fs)) :
    view lists none (⟨x, 0, []⟩ :: f :: fs) = view lists none (f :: fs) := by
  rw [← view_some hx]
  funext n
  by_cases hn : x = n
  · subst hn
    rw [view_of_notMem hmem, view, place, if_pos rfl]
    rfl
  · rw [view, place, if_neg hn, view]

/-- A comprehension that has the result for a member goes on. -/
theorem place_return : place none (⟨f.node, f.index + 1, f.done ++ [r]⟩ :: fs) =
    place (some r) (f :: fs) := by
  funext n
  rw [place, place]
  simp

theorem view_return (lists : α → List α) :
    view lists none (⟨f.node, f.index + 1, f.done ++ [r]⟩ :: fs) =
      view lists (some r) (f :: fs) := by
  funext n
  rw [view, view, place_return]

/-- At its end a comprehension puts the results into the list. -/
theorem view_finish (hend : (lists f.node)[f.index]? = none) (hmem : f.node ∉ nodes fs) :
    view (Function.update lists f.node f.done) (some f.node) fs = view lists none (f :: fs) := by
  funext n
  by_cases hn : f.node = n
  · subst hn
    rw [view_of_notMem hmem, Function.update_self, view, place, if_pos rfl]
    simp [List.drop_eq_nil_of_le (List.getElem?_eq_none_iff.mp hend)]
  · rw [view, view, place, if_neg hn, Function.update_of_ne (Ne.symm hn)]

theorem view_nil (lists : α → List α) (c : Option α) : view lists c [] = lists := by
  funext n
  rw [view_of_notMem List.not_mem_nil]

/-! ## Indices -/

theorem Within.nil (lists : α → List α) (c : Option α) : Within lists c [] :=
  fun _ ↦ Nat.zero_le _

theorem Within.mono (h : Within lists c stack) (hle : ∀ n, (lists n).length ≤ (lists' n).length) :
    Within lists' c stack := fun n ↦ Nat.le_trans (h n) (hle n)

theorem Within.member (h : Within lists none (f :: fs)) (hx : (lists f.node)[f.index]? = some x) :
    Within lists (some x) (f :: fs) := by
  intro n
  have hn := h n
  rw [place] at hn ⊢
  by_cases hnode : f.node = n
  · subst hnode
    rw [if_pos rfl]
    exact (List.getElem?_eq_some_iff.mp hx).1
  · rwa [if_neg hnode] at hn ⊢

theorem Within.push (h : Within lists none (f :: fs)) (hx : (lists f.node)[f.index]? = some x) :
    Within lists none (⟨x, 0, []⟩ :: f :: fs) := by
  intro n
  rw [place]
  split_ifs with hn
  · exact Nat.zero_le _
  · exact h.member hx n

theorem Within.result (h : Within lists (some x) (f :: fs)) (r : α) :
    Within lists none (⟨f.node, f.index + 1, f.done ++ [r]⟩ :: fs) := by
  intro n
  have hn := h n
  rw [place_return]
  rw [place] at hn ⊢
  split_ifs at hn ⊢ with hnode
  · exact hn
  · exact hn

theorem Within.finish (h : Within lists none (f :: fs)) (hmem : f.node ∉ nodes fs) :
    Within (Function.update lists f.node f.done) (some f.node) fs := by
  intro n
  by_cases hn : f.node = n
  · subst hn
    rw [place_of_notMem hmem]
    exact Nat.zero_le _
  · have hle := h n
    rw [place, if_neg hn] at hle
    rwa [Function.update_of_ne (Ne.symm hn)]

/-! ## Changes -/

/-- Another result for the member at hand. -/
theorem perm_view_result (x r : α) :
    ((if f.node = n then [x] else []) ++ view lists (some r) (f :: fs) n).Perm
      ((if f.node = n then [r] else []) ++ view lists (some x) (f :: fs) n) := by
  rw [view, view, place, place]
  by_cases hn : f.node = n
  · rw [if_pos hn, if_pos hn, if_pos hn, if_pos hn, List.perm_iff_count]
    intro y
    simp only [Option.toList_some, List.length_singleton, List.count_append]
    omega
  · rw [if_neg hn, if_neg hn, if_neg hn, if_neg hn]

/-- A change that is ahead is seen. -/
theorem perm_view_set {i : ℕ} (hn : lists' n = (lists n).set i u) (ht : (lists n)[i]? = some t)
    (hi : (place c stack n).2 ≤ i) :
    (t :: view lists' c stack n).Perm (u :: view lists c stack n) := by
  obtain ⟨hlt, hget⟩ := List.getElem?_eq_some_iff.mp ht
  have hlt' : i - (place c stack n).2 < ((lists n).drop (place c stack n).2).length := by
    rw [List.length_drop]
    omega
  have hget' : ((lists n).drop (place c stack n).2)[i - (place c stack n).2] = t := by
    rw [List.getElem_drop, ← hget]
    congr 1
    omega
  have hset := List.set_perm_cons_eraseIdx hlt' u
  have herase := List.getElem_cons_eraseIdx_perm hlt'
  rw [hget'] at herase
  rw [view, view, hn, List.drop_set, if_neg (Nat.not_lt.mpr hi)]
  generalize (place c stack n).1 = done, (lists n).drop (place c stack n).2 = rest at hset herase ⊢
  generalize rest.eraseIdx (i - (place c stack n).2) = others at hset herase
  have hleft : (t :: (done ++ rest.set (i - (place c stack n).2) u)).Perm
      (t :: u :: (done ++ others)) := ((hset.append_left done).trans List.perm_middle).cons t
  have hright : (u :: t :: (done ++ others)).Perm (u :: (done ++ rest)) :=
    (List.perm_middle.symm.trans (herase.append_left done)).cons u
  exact hleft.trans ((List.Perm.swap ..).trans hright)

/-- A change that is not ahead is lost. -/
theorem view_set_of_lt {i : ℕ} (hn : lists' n = (lists n).set i u)
    (hi : i < (place c stack n).2) : view lists' c stack n = view lists c stack n := by
  rw [view, view, hn, List.drop_set_of_lt hi]

theorem view_append {l : List α} (hn : lists' n = lists n ++ l) (h : Within lists c stack) :
    view lists' c stack n = view lists c stack n ++ l := by
  rw [view, view, hn, List.drop_append_of_le_length (h n), List.append_assoc]

theorem view_congr (hn : lists' n = lists n) : view lists' c stack n = view lists c stack n := by
  rw [view, view, hn]

end Place

/-! ## Loops that may fail -/

theorem foldlM_invariant {σ : Type*} {F : σ → α → Option σ} {I : σ → Prop} {l : List α} {s s' : σ}
    (h : l.foldlM F s = some s') (hs : I s)
    (hstep : ∀ s, ∀ a ∈ l, ∀ s', I s → F s a = some s' → I s') : I s' := by
  induction l generalizing s with
  | nil =>
    obtain rfl := Option.some_inj.mp h
    exact hs
  | cons a l ih =>
    rw [List.foldlM_cons] at h
    obtain ⟨s₁, hone, hrest⟩ := Option.bind_eq_some_iff.mp h
    exact ih hrest (hstep s a List.mem_cons_self s₁ hs hone) fun t b hb ↦
      hstep t b (List.mem_cons_of_mem _ hb)

end ConfdDemos.Comprehension
