import Mathlib.Data.Multiset.Bind

/-!
# Forests and what is cut out of them

A document is a forest: labelled nodes, each with the nodes below it and the nodes next to it.
`cut q` removes every node whose label satisfies `q`, with all that is below it, and `pieces q` are
the nodes removed, the outermost ones in document order.

## Conservation

Nothing gets lost by cutting. The nodes whose labels satisfy a weaker predicate `p` are found again
in what is left and in the pieces, one by one, except that a node may have lost some of the nodes
below it which satisfy `p` too and are counted themselves. `rel_occurrences_cut` states this as a
relation between multisets, so that it composes over several cuts.

## Visibility

`visible p q` says that a node with `p` stands nowhere below or at a node with `q`, so that it is
still there after cutting `q`.
-/

namespace ConfdDemos

/-- The nodes of a document from some node on: the node, those below it, and those after it. -/
inductive Forest (α : Type*)
  | nil
  | node (label : α) (children rest : Forest α)
  deriving DecidableEq

/-- A node with what is below it. -/
abbrev Piece (α : Type*) := α × Forest α

namespace Forest

variable {α β : Type*}

def map (f : α → β) : Forest α → Forest β
  | nil => nil
  | node a c r => node (f a) (map f c) (map f r)

def append : Forest α → Forest α → Forest α
  | nil, g => g
  | node a c r, g => node a c (append r g)

/-- The document without the nodes that satisfy `q`. -/
def cut (q : α → Bool) : Forest α → Forest α
  | nil => nil
  | node a c r => if q a then cut q r else node a (cut q c) (cut q r)

/-- The outermost nodes that satisfy `q`, in document order. -/
def pieces (q : α → Bool) : Forest α → List (Piece α)
  | nil => []
  | node a c r => if q a then (a, c) :: pieces q r else pieces q c ++ pieces q r

/-- The node itself, if it satisfies `p`. -/
def own (p : α → Bool) (x : Piece α) : List (Piece α) := if p x.1 then [x] else []

/-- All nodes that satisfy `p`, in document order. -/
def occurrences (p : α → Bool) : Forest α → List (Piece α)
  | nil => []
  | node a c r => own p (a, c) ++ (occurrences p c ++ occurrences p r)

/-- Some node satisfies `p`, and neither it nor a node above it satisfies `q`. -/
def visible (p q : α → Bool) : Forest α → Bool
  | nil => false
  | node a c r => (!q a && (p a || visible p q c)) || visible p q r

/-- Some node satisfies `p`. -/
def has (p : α → Bool) : Forest α → Bool
  | nil => false
  | node a c r => p a || has p c || has p r

/-- The labels of all nodes. -/
def labels : Forest α → List α
  | nil => []
  | node a c r => a :: (labels c ++ labels r)

/-- The second document is the first one without some nodes that satisfy `p`. -/
inductive Pruned (p : α → Bool) : Forest α → Forest α → Prop
  | nil : Pruned p nil nil
  | keep {a : α} {c c' r r' : Forest α} (hc : Pruned p c c') (hr : Pruned p r r') :
      Pruned p (node a c r) (node a c' r')
  | drop {a : α} {c r r' : Forest α} (ha : p a = true) (hr : Pruned p r r') :
      Pruned p (node a c r) r'

/-- A node that kept its label, and lost at most nodes that satisfy `p`. -/
def PrunedPiece (p : α → Bool) (x y : Piece α) : Prop := x.1 = y.1 ∧ Pruned p x.2 y.2

variable {p q q' : α → Bool} {f g h : Forest α}

/-! ## Pruning -/

theorem Pruned.refl (p : α → Bool) (f : Forest α) : Pruned p f f := by
  induction f with
  | nil => exact .nil
  | node a c r ihc ihr => exact .keep ihc ihr

theorem Pruned.trans (h₁ : Pruned p f g) (h₂ : Pruned p g h) : Pruned p f h := by
  induction h₁ generalizing h with
  | nil => exact h₂
  | keep hc hr ihc ihr =>
    cases h₂ with
    | keep hc' hr' => exact .keep (ihc hc') (ihr hr')
    | drop ha hr' => exact .drop ha (ihr hr')
  | drop ha hr ih => exact .drop ha (ih h₂)

instance : IsTrans (Piece α) (PrunedPiece p) :=
  ⟨fun _ _ _ h₁ h₂ ↦ ⟨h₁.1.trans h₂.1, h₁.2.trans h₂.2⟩⟩

theorem pruned_cut (hq : ∀ a, q a = true → p a = true) (f : Forest α) : Pruned p f (f.cut q) := by
  induction f with
  | nil => exact .nil
  | node a c r ihc ihr =>
    rw [cut]
    split_ifs with ha
    · exact .drop (hq a ha) ihr
    · exact .keep ihc ihr

/-- Relabelling that changes nothing changes nothing in a pruned document. -/
theorem Pruned.map_eq {u : α → α} (h : Pruned p f g) (hf : f.map u = f) : g.map u = g := by
  induction h with
  | nil => rfl
  | keep hc hr ihc ihr =>
    rw [map, node.injEq] at hf
    rw [map, hf.1, ihc hf.2.1, ihr hf.2.2]
  | drop ha hr ih =>
    rw [map, node.injEq] at hf
    exact ih hf.2.2

/-! ## Conservation -/

/-- The nodes that satisfy `p` in some pieces. -/
def inPieces (p : α → Bool) (l : List (Piece α)) : List (Piece α) :=
  l.flatMap fun x ↦ (node x.1 x.2 nil).occurrences p

theorem inPieces_append (l l' : List (Piece α)) :
    inPieces p (l ++ l') = inPieces p l ++ inPieces p l' :=
  List.flatMap_append

theorem inPieces_cons (x : Piece α) (l : List (Piece α)) :
    inPieces p (x :: l) = own p x ++ x.2.occurrences p ++ inPieces p l := by
  rw [inPieces, List.flatMap_cons, occurrences, occurrences, List.append_nil, inPieces]

theorem rel_refl (s : Multiset (Piece α)) : Multiset.Rel (PrunedPiece p) s s :=
  Multiset.rel_refl_of_refl_on fun x _ ↦ ⟨rfl, .refl p x.2⟩

theorem rel_own (a : α) {c c' : Forest α} (h : Pruned p c c') :
    Multiset.Rel (PrunedPiece p) (own p (a, c)) (own p (a, c')) := by
  rw [own, own]
  split_ifs
  · exact .cons ⟨rfl, h⟩ .zero
  · exact .zero

/-- **Nothing gets lost by cutting.** -/
theorem rel_occurrences_cut (hq : ∀ a, q a = true → p a = true) (f : Forest α) :
    Multiset.Rel (PrunedPiece p) (f.occurrences p)
      ((f.cut q).occurrences p + (inPieces p (f.pieces q) : Multiset (Piece α))) := by
  induction f with
  | nil => exact Multiset.Rel.zero
  | node a c r ihc ihr =>
    rw [cut, pieces, occurrences, ← List.append_assoc, ← Multiset.coe_add]
    by_cases hqa : q a = true
    · -- the node is cut with all that is below it
      rw [if_pos hqa, if_pos hqa, inPieces_cons]
      simp only [← Multiset.coe_add]
      rw [add_left_comm]
      exact (rel_refl _).add ihr
    · -- the node stays, and what is cut out of it is found in the pieces
      have hall := ((rel_own a (pruned_cut hq c)).add ihc).add ihr
      rw [if_neg hqa, if_neg hqa, occurrences, inPieces_append]
      simp only [← Multiset.coe_add] at hall ⊢
      rwa [← add_assoc (own p (a, c.cut q) : Multiset (Piece α)), add_add_add_comm,
        add_assoc (own p (a, c.cut q) : Multiset (Piece α))] at hall

/-! ## Several cuts -/

/-- The pieces of one cut after the other. -/
def removed : List (α → Bool) → Forest α → List (Piece α)
  | [], _ => []
  | q :: qs, f => f.pieces q ++ removed qs (f.cut q)

theorem cut_cut (f : Forest α) : (f.cut q).cut q' = f.cut fun a ↦ q a || q' a := by
  induction f with
  | nil => rfl
  | node a c r ihc ihr =>
    by_cases hq : q a = true
    · simp only [cut, hq, if_true, Bool.true_or, ihr]
    · rw [Bool.not_eq_true] at hq
      simp only [cut, hq, Bool.false_eq_true, if_false, Bool.false_or, ihc, ihr]

theorem cut_eq_self (h : f.has q = false) : f.cut q = f := by
  induction f with
  | nil => rfl
  | node a c r ihc ihr =>
    rw [has, Bool.or_eq_false_iff, Bool.or_eq_false_iff] at h
    rw [cut, if_neg (by simp [h.1.1]), ihc h.1.2, ihr h.2]

theorem has_false (f : Forest α) : f.has (fun _ ↦ false) = false := by
  induction f with
  | nil => rfl
  | node a c r ihc ihr => rw [has, ihc, ihr, Bool.or_false, Bool.or_false]

/-- Nothing gets lost by several cuts. -/
theorem rel_occurrences_removed {qs : List (α → Bool)}
    (hqs : ∀ q ∈ qs, ∀ a, q a = true → p a = true) (f : Forest α) :
    Multiset.Rel (PrunedPiece p) (f.occurrences p)
      ((f.cut fun a ↦ qs.any (· a)).occurrences p +
        (inPieces p (removed qs f) : Multiset (Piece α))) := by
  induction qs generalizing f with
  | nil =>
    have hcut : (f.cut fun _ ↦ false) = f := cut_eq_self (has_false f)
    have hnil : inPieces p ([] : List (Piece α)) = [] := rfl
    simp only [List.any_nil, hcut, removed, hnil, Multiset.coe_nil, add_zero]
    exact rel_refl _
  | cons q qs ih =>
    have hfirst := rel_occurrences_cut (hqs q List.mem_cons_self) f
    have hrest := ih (fun q' hq' ↦ hqs q' (List.mem_cons_of_mem _ hq')) (f.cut q)
    have hsame : Multiset.Rel (PrunedPiece p) (inPieces p (f.pieces q) : Multiset (Piece α))
        (inPieces p (f.pieces q)) := rel_refl _
    have hall := hfirst.trans _ (hrest.add hsame)
    rw [cut_cut] at hall
    rw [removed, inPieces_append, ← Multiset.coe_add,
      add_comm (inPieces p (f.pieces q) : Multiset (Piece α)), ← add_assoc]
    exact hall

theorem label_of_mem_pieces {x : Piece α} (h : x ∈ f.pieces q) : q x.1 = true := by
  induction f with
  | nil => exact absurd h List.not_mem_nil
  | node a c r ihc ihr =>
    rw [pieces] at h
    split_ifs at h with ha
    · rcases List.mem_cons.mp h with rfl | h
      · exact ha
      · exact ihr h
    · rcases List.mem_append.mp h with h | h
      · exact ihc h
      · exact ihr h

theorem label_of_mem_removed {qs : List (α → Bool)} {x : Piece α} (h : x ∈ removed qs f) :
    ∃ q ∈ qs, q x.1 = true := by
  induction qs generalizing f with
  | nil => exact absurd h List.not_mem_nil
  | cons q qs ih =>
    rcases List.mem_append.mp h with h | h
    · exact ⟨q, List.mem_cons_self, label_of_mem_pieces h⟩
    · obtain ⟨q', hq', hx⟩ := ih h
      exact ⟨q', List.mem_cons_of_mem _ hq', hx⟩

/-- A piece is a node of the document, pruned. -/
theorem exists_occurrence_of_mem_removed {qs : List (α → Bool)}
    (hqs : ∀ q ∈ qs, ∀ a, q a = true → p a = true) {x : Piece α} (h : x ∈ removed qs f) :
    ∃ e ∈ f.occurrences p, PrunedPiece p e x := by
  obtain ⟨q, hq, hx⟩ := label_of_mem_removed h
  have hmem : x ∈ inPieces p (removed qs f) := by
    refine List.mem_flatMap.mpr ⟨x, h, ?_⟩
    rw [occurrences, own, if_pos (hqs q hq _ hx)]
    exact List.mem_append_left _ List.mem_cons_self
  obtain ⟨e, he, hpruned⟩ := Multiset.exists_mem_of_rel_of_mem
    (Multiset.rel_flip.mpr (rel_occurrences_removed hqs f))
    (Multiset.mem_add.mpr (Or.inr (Multiset.mem_coe.mpr hmem)))
  exact ⟨e, Multiset.mem_coe.mp he, hpruned⟩

theorem has_cut (f : Forest α) : (f.cut q).has p = f.visible p q := by
  induction f with
  | nil => rfl
  | node a c r ihc ihr =>
    rw [cut, visible]
    cases hq : q a with
    | true => rw [if_pos rfl, ihr, Bool.not_true, Bool.false_and, Bool.false_or]
    | false => rw [if_neg Bool.false_ne_true, has, ihc, ihr, Bool.not_false, Bool.true_and]

/-- Nothing that satisfies `q` is left. -/
theorem has_cut_self (f : Forest α) : (f.cut q).has q = false := by
  induction f with
  | nil => rfl
  | node a c r ihc ihr =>
    rw [cut]
    split_ifs with hq
    · exact ihr
    · rw [Bool.not_eq_true] at hq
      rw [has, hq, ihc, ihr, Bool.or_false, Bool.or_false]

theorem has_eq_any (f : Forest α) : f.has p = f.labels.any p := by
  induction f with
  | nil => rfl
  | node a c r ihc ihr => rw [has, labels, List.any_cons, List.any_append, ihc, ihr, Bool.or_assoc]

theorem mem_labels_of_cut {a : α} (h : a ∈ (f.cut q).labels) : a ∈ f.labels := by
  induction f with
  | nil => exact h
  | node b c r ihc ihr =>
    rw [labels, List.mem_cons, List.mem_append]
    rw [cut] at h
    split_ifs at h
    · exact Or.inr (Or.inr (ihr h))
    · rw [labels, List.mem_cons, List.mem_append] at h
      exact h.imp_right (Or.imp ihc ihr)

theorem occurrences_eq_nil_iff : f.occurrences p = [] ↔ f.has p = false := by
  induction f with
  | nil => simp [occurrences, has]
  | node a c r ihc ihr =>
    rw [occurrences, List.append_eq_nil_iff, List.append_eq_nil_iff, ihc, ihr, has,
      Bool.or_eq_false_iff, Bool.or_eq_false_iff, and_assoc]
    refine and_congr_left' ?_
    cases hp : p a with
    | true => simp [own, hp]
    | false => simp [own, hp]

/-- What is hidden from view is hidden behind something that is seen. -/
theorem has_or_visible (f : Forest α) :
    (f.has q || f.visible p q) = f.has fun a ↦ q a || p a := by
  induction f with
  | nil => rfl
  | node a c r ihc ihr =>
    rw [has, visible, has, ← ihc, ← ihr]
    cases q a <;> cases p a <;> simp [Bool.or_assoc, Bool.or_left_comm]

/-! ## Relabelling -/

section Map

variable {u : α → β} {p q : β → Bool}

theorem cut_map (f : Forest α) : (f.map u).cut q = (f.cut (q ∘ u)).map u := by
  induction f with
  | nil => rfl
  | node a c r ihc ihr =>
    rw [map, cut, cut, Function.comp_apply]
    split_ifs
    · exact ihr
    · rw [map, ihc, ihr]

theorem pieces_map (f : Forest α) :
    (f.map u).pieces q = (f.pieces (q ∘ u)).map fun x ↦ (u x.1, x.2.map u) := by
  induction f with
  | nil => rfl
  | node a c r ihc ihr =>
    rw [map, pieces, pieces, Function.comp_apply]
    split_ifs
    · rw [List.map_cons, ihr]
    · rw [List.map_append, ihc, ihr]

theorem removed_map (qs : List (β → Bool)) (f : Forest α) :
    removed qs (f.map u) =
      (removed (qs.map (· ∘ u)) f).map fun x ↦ (u x.1, x.2.map u) := by
  induction qs generalizing f with
  | nil => rfl
  | cons q qs ih =>
    rw [List.map_cons, removed, removed, pieces_map, cut_map, ih, List.map_append]

theorem has_map (f : Forest α) : (f.map u).has q = f.has (q ∘ u) := by
  induction f with
  | nil => rfl
  | node a c r ihc ihr => rw [map, has, has, ihc, ihr, Function.comp_apply]

theorem map_map {γ : Type*} (v : β → γ) (f : Forest α) : (f.map u).map v = f.map (v ∘ u) := by
  induction f with
  | nil => rfl
  | node a c r ihc ihr => rw [map, map, map, ihc, ihr, Function.comp_apply]

end Map

theorem map_append (u : α → β) (f g : Forest α) :
    (f.append g).map u = (f.map u).append (g.map u) := by
  induction f with
  | nil => rfl
  | node a c r _ ihr => rw [append, map, map, append, ihr]

theorem occurrences_append (f g : Forest α) :
    (f.append g).occurrences p = f.occurrences p ++ g.occurrences p := by
  induction f with
  | nil => rfl
  | node a c r _ ihr =>
    rw [append, occurrences, occurrences, ihr, List.append_assoc, List.append_assoc]

end Forest

end ConfdDemos
