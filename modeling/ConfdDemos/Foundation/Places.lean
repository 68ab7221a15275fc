import ConfdDemos.Foundation.Forest

/-!
# Places in a document

A node is addressed by counting: its number among the nodes next to it, then the number of the node
above it, and so on up to the document, which has the empty address. So the place of a node above is
the tail of a place.

`located` writes the places next to the labels. They stay there when nodes are cut out, and still
say where the nodes were before; this is what `Placed` states, and `Placed.cut` keeps.
-/

namespace ConfdDemos

namespace Forest

variable {α : Type*}

/-- The nodes that stand next to each other on top. -/
def tops : Forest α → List (Piece α)
  | nil => []
  | node a c r => (a, c) :: tops r

/-- What is below a place. -/
def under (f : Forest α) : List ℕ → Forest α
  | [] => f
  | i :: p => ((under f p).tops[i]?).elim nil Prod.snd

/-- The label at a place. The document itself has none. -/
def label? (f : Forest α) : List ℕ → Option α
  | [] => none
  | i :: p => ((f.under p).tops[i]?).map Prod.fst

/-- The labels before a place, of the nodes next to it. -/
def elder (f : Forest α) : List ℕ → List α
  | [] => []
  | i :: p => ((f.under p).tops.take i).map Prod.fst

/-- The nodes from number `i` on below the place `p`, with their places. -/
def located : List ℕ → ℕ → Forest α → Forest (List ℕ × α)
  | _, _, nil => nil
  | p, i, node a c r => node (i :: p, a) (located (i :: p) 0 c) (located p (i + 1) r)

/-- Some of the nodes of `f` below the place `p`, with the places they have in `f`. -/
inductive Placed (f : Forest α) : List ℕ → Forest (List ℕ × α) → Prop
  | nil {p : List ℕ} : Placed f p nil
  | node {p : List ℕ} {i : ℕ} {a : α} {c r : Forest (List ℕ × α)}
      (ha : f.label? (i :: p) = some a) (hc : Placed f (i :: p) c) (hr : Placed f p r) :
      Placed f p (node (i :: p, a) c r)

@[simp]
theorem map_located (p : List ℕ) (i : ℕ) (f : Forest α) : (f.located p i).map Prod.snd = f := by
  induction f generalizing p i with
  | nil => rfl
  | node a c r ihc ihr => rw [located, map, ihc, ihr]

theorem placed_located_of_tops {f : Forest α} {p : List ℕ} {l : List (Piece α)} {g : Forest α}
    (h : (f.under p).tops = l ++ g.tops) : Placed f p (g.located p l.length) := by
  induction g generalizing p l with
  | nil => exact .nil
  | node a c r ihc ihr =>
    have hnode : (f.under p).tops[l.length]? = some (a, c) := by
      rw [h, tops, List.getElem?_append_right (Nat.le_refl _), Nat.sub_self]
      rfl
    refine .node ?_ (ihc (l := []) ?_) ?_
    · rw [label?, hnode]
      rfl
    · rw [under, hnode]
      rfl
    · have hrest := ihr (l := l ++ [(a, c)]) (by rw [h, tops, List.append_assoc]; rfl)
      rwa [List.length_append] at hrest

/-- The places that are written next to the labels are right. -/
theorem placed_located (f : Forest α) : Placed f [] (f.located [] 0) :=
  placed_located_of_tops (l := []) rfl

theorem Placed.cut {f : Forest α} {p : List ℕ} {g : Forest (List ℕ × α)} (h : Placed f p g)
    (q : List ℕ × α → Bool) : Placed f p (g.cut q) := by
  induction h with
  | nil => exact .nil
  | @node p i a c r ha hc hr ihc ihr =>
    rw [Forest.cut]
    split_ifs
    · exact ihr
    · exact .node ha ihc ihr

end Forest

end ConfdDemos
