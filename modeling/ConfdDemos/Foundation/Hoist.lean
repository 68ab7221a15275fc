import ConfdDemos.Foundation.Forest

/-!
# Lifting nodes out of a document

Some nodes of a document are taken out of it, each turned into something that depends on the nodes
above it. What is below a node that is not taken comes in its place. So the nodes that are taken
keep their order, and one of them is below another exactly if it was before.

## Nodes with what is above them

`lineages` replaces every node by itself with the nodes above it, from the inside out, and leaves
out the nodes at which the walk stops. The result is a document again, and `chains` lists what is on
the way up from each of its nodes. Both together say where a node was and where it comes to,
`chains_hoist_lineages`.
-/

namespace ConfdDemos.Forest

variable {α β : Type*}

/-- The nodes with what is below and above each, without those with `stop` and all below them. -/
def lineages (stop : α → Bool) : List (Piece α) → Forest α → Forest (List (Piece α))
  | _, nil => nil
  | up, node a c r =>
    if stop a then lineages stop up r
    else node ((a, c) :: up) (lineages stop ((a, c) :: up) c) (lineages stop up r)

/-- The nodes that `f` takes. -/
def hoist (f : α → Option β) : Forest α → Forest β
  | nil => nil
  | node a c r =>
    match f a with
    | some b => node b (hoist f c) (hoist f r)
    | none => (hoist f c).append (hoist f r)

/-- The nodes in document order, each with the ones above it. -/
def chains : List α → Forest α → List (List α)
  | _, nil => []
  | up, node a c r => (a :: up) :: (chains (a :: up) c ++ chains up r)

variable {f : α → Option β} {stop : α → Bool}

theorem hoist_some {a : α} {b : β} (h : f a = some b) (c r : Forest α) :
    hoist f (node a c r) = node b (hoist f c) (hoist f r) := by
  rw [hoist, h]

theorem hoist_none {a : α} (h : f a = none) (c r : Forest α) :
    hoist f (node a c r) = (hoist f c).append (hoist f r) := by
  rw [hoist, h]

theorem chains_append (up : List α) (g h : Forest α) :
    chains up (g.append h) = chains up g ++ chains up h := by
  induction g generalizing up with
  | nil => rfl
  | node a c r _ ihr => rw [append, chains, chains, ihr, List.cons_append, List.append_assoc]

/-- A node that is taken comes below those above it that are taken. -/
theorem chains_hoist (up : List α) (g : Forest α) :
    chains (up.filterMap f) (hoist f g) =
      ((chains up g).filter fun l ↦ (l.head?.bind f).isSome).map (List.filterMap f) := by
  induction g generalizing up with
  | nil => rfl
  | node a c r ihc ihr =>
    rcases hf : f a with - | b
    · have hup : (a :: up).filterMap f = up.filterMap f := List.filterMap_cons_none hf
      rw [hoist_none hf, chains_append, ← hup, ihc, hup, ihr, chains, List.filter_cons_of_neg,
        List.filter_append, List.map_append]
      rw [List.head?_cons, Option.bind_some, hf]
      exact Bool.false_ne_true
    · have hup : (a :: up).filterMap f = b :: up.filterMap f := List.filterMap_cons_some hf
      rw [hoist_some hf, chains, ← hup, ihc, ihr, chains, List.filter_cons_of_pos,
        List.filter_append, List.map_cons, List.map_append]
      rw [List.head?_cons, Option.bind_some, hf]
      rfl

theorem tails_cons_dropLast (x : α) (l : List α) :
    (x :: l).tails.dropLast = (x :: l) :: l.tails.dropLast := by
  rw [List.tails_cons, List.dropLast_cons_of_ne_nil (List.ne_nil_of_mem
    ((List.mem_tails ..).mpr List.suffix_rfl))]

/-- Above a node with its lineage are those with the rest of the lineage. -/
theorem chains_lineages (up : List (Piece α)) (g : Forest α) :
    chains (up.tails.dropLast) (lineages stop up g) =
      (lineages stop up g).labels.map fun l ↦ l.tails.dropLast := by
  induction g generalizing up with
  | nil => rfl
  | node a c r ihc ihr =>
    rw [lineages]
    split_ifs with hstop
    · exact ihr up
    · rw [chains, labels, List.map_cons, List.map_append, tails_cons_dropLast, ← ihr, ← ihc,
        tails_cons_dropLast]

theorem exists_cons_of_mem_lineages {up l : List (Piece α)} {g : Forest α}
    (h : l ∈ (lineages stop up g).labels) : ∃ x up', l = x :: up' := by
  induction g generalizing up with
  | nil => exact absurd h List.not_mem_nil
  | node a c r ihc ihr =>
    rw [lineages] at h
    split_ifs at h
    · exact ihr h
    · rw [labels, List.mem_cons, List.mem_append] at h
      rcases h with rfl | h | h
      · exact ⟨_, _, rfl⟩
      · exact ihc h
      · exact ihr h

/-- **Where nodes come to.** The nodes that are taken, in the order of the document, each with the
nodes that are taken above it. -/
theorem chains_hoist_lineages {f : List (Piece α) → Option β} (g : Forest α) :
    chains [] (hoist f (lineages stop [] g)) =
      ((lineages stop [] g).labels.filter fun l ↦ (f l).isSome).map fun l ↦
        l.tails.dropLast.filterMap f := by
  have hchains := chains_hoist (f := f) [] (lineages stop [] g)
  have hlineages : chains [] (lineages stop [] g) = _ := chains_lineages [] g
  rw [List.filterMap_nil] at hchains
  rw [hchains, hlineages, List.filter_map, List.map_map]
  refine congrArg (List.map _) (List.filter_congr fun l hl ↦ ?_)
  obtain ⟨x, up, rfl⟩ := exists_cons_of_mem_lineages hl
  rw [Function.comp_apply, tails_cons_dropLast, List.head?_cons, Option.bind_some]

end ConfdDemos.Forest
