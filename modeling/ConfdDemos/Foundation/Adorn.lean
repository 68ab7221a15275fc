import ConfdDemos.Foundation.Places

/-!
# Adding to a document

`adorn g f` is the document `f` with `g p` put below every place `p`, behind what is there already.
No node moves, so a place of `f` is a place of `adorn g f`, with the same label, the same nodes
before it and the same node above it. What looks nodes up by their places, or searches for a kind of
node that is not added, cannot tell the two documents apart.

A program that appends to the nodes of a document one after the other adorns it in the end,
`adorn_adorn`.
-/

namespace ConfdDemos

namespace Forest

variable {α : Type*}

/-- The document itself, or a node. -/
def IsPlace (f : Forest α) (p : List ℕ) : Prop := p = [] ∨ ∃ a, f.label? p = some a

/-- The nodes from number `i` on below the place `p`, with what is put below each. -/
def decorate (g : List ℕ → Forest α) : List ℕ → ℕ → Forest α → Forest α
  | _, _, nil => nil
  | p, i, node a c r =>
    node a ((decorate g (i :: p) 0 c).append (g (i :: p))) (decorate g p (i + 1) r)

def adorn (g : List ℕ → Forest α) (f : Forest α) : Forest α := (decorate g [] 0 f).append (g [])

/-- `h` put below one place. -/
def graft (f : Forest α) (p : List ℕ) (h : Forest α) : Forest α :=
  f.adorn fun q ↦ if q = p then h else nil

/-- The places of the nodes that satisfy `q`, in document order. -/
def findAll (q : α → Bool) (f : Forest α) : List (List ℕ) :=
  ((f.located [] 0).labels.filter fun x ↦ q x.2).map Prod.fst

variable {f : Forest α} {g g' : List ℕ → Forest α} {p : List ℕ} {i : ℕ}

@[simp]
theorem append_nil (f : Forest α) : f.append nil = f := by
  induction f with
  | nil => rfl
  | node a c r _ ihr => rw [append, ihr]

theorem append_assoc (f g h : Forest α) : (f.append g).append h = f.append (g.append h) := by
  induction f with
  | nil => rfl
  | node a c r _ ihr => simp only [append, ihr]

theorem tops_append (f g : Forest α) : (f.append g).tops = f.tops ++ g.tops := by
  induction f with
  | nil => rfl
  | node a c r _ ihr => rw [append, tops, tops, ihr, List.cons_append]

theorem labels_append (f g : Forest α) : (f.append g).labels = f.labels ++ g.labels := by
  induction f with
  | nil => rfl
  | node a c r _ ihr => rw [append, labels, labels, ihr, List.cons_append, List.append_assoc]

theorem cut_append (q : α → Bool) (f g : Forest α) :
    (f.append g).cut q = (f.cut q).append (g.cut q) := by
  induction f with
  | nil => rfl
  | node a c r _ ihr =>
    rw [append, cut, cut, ihr]
    split_ifs
    · rfl
    · rfl

theorem map_tops_subset_labels (f : Forest α) : f.tops.map Prod.fst ⊆ f.labels := by
  induction f with
  | nil => exact List.Subset.refl _
  | node a c r _ ihr =>
    exact List.cons_subset_cons _ (List.subset_append_of_subset_right _ ihr)

theorem labels_map {β : Type*} (u : α → β) (f : Forest α) : (f.map u).labels = f.labels.map u := by
  induction f with
  | nil => rfl
  | node a c r ihc ihr => rw [map, labels, labels, ihc, ihr, List.map_cons, List.map_append]

/-! ## Places stay -/

theorem length_tops_decorate : (decorate g p i f).tops.length = f.tops.length := by
  induction f generalizing i with
  | nil => rfl
  | node a c r _ ihr => rw [decorate, tops, tops, List.length_cons, List.length_cons, ihr]

theorem getElem?_tops_decorate (j : ℕ) :
    (decorate g p i f).tops[j]? = f.tops[j]?.map fun x ↦
      (x.1, (decorate g ((i + j) :: p) 0 x.2).append (g ((i + j) :: p))) := by
  induction f generalizing i j with
  | nil => rfl
  | node a c r _ ihr =>
    rcases j with - | j
    · rfl
    · rw [decorate, tops, tops, List.getElem?_cons_succ, List.getElem?_cons_succ, ihr,
        Nat.add_right_comm i 1 j, Nat.add_assoc]

theorem exists_top_of_label {a : α} (h : f.label? (i :: p) = some a) :
    ∃ c, (f.under p).tops[i]? = some (a, c) := by
  obtain ⟨⟨b, c⟩, hnode, rfl⟩ := Option.map_eq_some_iff.mp h
  exact ⟨c, hnode⟩

theorem IsPlace.tail (h : f.IsPlace (i :: p)) : f.IsPlace p := by
  rcases p with - | ⟨j, p⟩
  · exact Or.inl rfl
  · obtain ⟨a, ha⟩ := h.resolve_left (List.cons_ne_nil _ _)
    obtain ⟨c, hc⟩ := exists_top_of_label ha
    rcases hnode : (f.under p).tops[j]? with - | x
    · -- below a place that is none there is nothing
      rw [under, hnode] at hc
      exact absurd hc (Option.some_ne_none _).symm
    · exact Or.inr ⟨x.1, by rw [label?, hnode]; rfl⟩

theorem IsPlace.parent (h : f.IsPlace p) : f.IsPlace p.tail := by
  rcases p with - | ⟨i, p⟩
  · exact h
  · exact h.tail

theorem under_adorn (h : f.IsPlace p) :
    (f.adorn g).under p = (decorate g p 0 (f.under p)).append (g p) := by
  induction p with
  | nil => rfl
  | cons i p ih =>
    obtain ⟨a, ha⟩ := h.resolve_left (List.cons_ne_nil _ _)
    obtain ⟨c, hc⟩ := exists_top_of_label ha
    have hlt : i < (decorate g p 0 (f.under p)).tops.length := by
      rw [length_tops_decorate]
      exact (List.getElem?_eq_some_iff.mp hc).1
    rw [under, ih h.tail, tops_append, List.getElem?_append_left hlt, getElem?_tops_decorate, hc,
      under, hc, Nat.zero_add]
    rfl

theorem take_map_tops_decorate (n : ℕ) :
    ((decorate g p i f).tops.take n).map Prod.fst = (f.tops.take n).map Prod.fst := by
  induction f generalizing i n with
  | nil => rfl
  | node a c r _ ihr =>
    rcases n with - | n
    · rfl
    · rw [decorate, tops, tops, List.take_succ_cons, List.take_succ_cons, List.map_cons,
        List.map_cons, ihr]

theorem map_tops_decorate : (decorate g p i f).tops.map Prod.fst = f.tops.map Prod.fst := by
  have htake := take_map_tops_decorate (g := g) (p := p) (i := i) (f := f) f.tops.length
  rwa [List.take_length, List.take_of_length_le length_tops_decorate.le] at htake

theorem label?_adorn {a : α} (h : f.label? p = some a) : (f.adorn g).label? p = some a := by
  rcases p with - | ⟨i, p⟩
  · exact absurd h nofun
  · have hp : f.IsPlace p := IsPlace.tail (Or.inr ⟨a, h⟩)
    obtain ⟨c, hc⟩ := exists_top_of_label h
    have hlt : i < (decorate g p 0 (f.under p)).tops.length := by
      rw [length_tops_decorate]
      exact (List.getElem?_eq_some_iff.mp hc).1
    rw [label?, under_adorn hp, tops_append, List.getElem?_append_left hlt, getElem?_tops_decorate,
      hc]
    rfl

theorem elder_adorn (h : f.IsPlace p) : (f.adorn g).elder p = f.elder p := by
  rcases p with - | ⟨i, p⟩
  · rfl
  · obtain ⟨a, ha⟩ := h.resolve_left (List.cons_ne_nil _ _)
    obtain ⟨c, hc⟩ := exists_top_of_label ha
    have hle : i ≤ (decorate g p 0 (f.under p)).tops.length := by
      rw [length_tops_decorate]
      exact (List.getElem?_eq_some_iff.mp hc).1.le
    rw [elder, elder, under_adorn h.tail, tops_append, List.take_append_of_le_length hle,
      take_map_tops_decorate]

/-- The document itself has no label before and after. -/
theorem label?_adorn_of_isPlace (h : f.IsPlace p) : (f.adorn g).label? p = f.label? p := by
  rcases h with rfl | ⟨a, ha⟩
  · rfl
  · rw [label?_adorn ha, ha]

/-! ## Adding more -/

/-- Nothing is put below a place that the nodes from number `i` on below `p` do not have. -/
def Supports : List ℕ → ℕ → Forest α → (List ℕ → Forest α) → Prop
  | p, i, nil, g => ∀ (s : List ℕ) (j : ℕ), i ≤ j → g (s ++ j :: p) = nil
  | p, i, node _ c r, g => Supports (i :: p) 0 c g ∧ Supports p (i + 1) r g

theorem Supports.beyond (h : Supports p i f g) (s : List ℕ) {j : ℕ} (hj : i + f.tops.length ≤ j) :
    g (s ++ j :: p) = nil := by
  induction f generalizing i with
  | nil => exact h s j hj
  | node a c r _ ihr =>
    rw [tops, List.length_cons] at hj
    exact ihr h.2 (by omega)

theorem decorate_append (f h : Forest α) :
    decorate g p i (f.append h) =
      (decorate g p i f).append (decorate g p (i + f.tops.length) h) := by
  induction f generalizing i with
  | nil => rfl
  | node a c r _ ihr =>
    rw [append, decorate, decorate, ihr, tops, List.length_cons, append, Nat.add_right_comm i 1,
      Nat.add_assoc i]

theorem decorate_eq_self (h : ∀ (s : List ℕ) (j : ℕ), i ≤ j → g (s ++ j :: p) = nil) :
    decorate g p i f = f := by
  induction f generalizing p i with
  | nil => rfl
  | node a c r ihc ihr =>
    have hhere : g (i :: p) = nil := h [] i (Nat.le_refl i)
    have hbelow : ∀ (s : List ℕ) (j : ℕ), 0 ≤ j → g (s ++ j :: i :: p) = nil := fun s j _ ↦ by
      simpa using h (s ++ [j]) i (Nat.le_refl i)
    rw [decorate, hhere, append_nil, ihc hbelow, ihr fun s j hj ↦ h s j (by omega)]

theorem decorate_decorate (h : Supports p i f g') :
    decorate g' p i (decorate g p i f) = decorate (fun q ↦ (g q).append (g' q)) p i f := by
  induction f generalizing p i with
  | nil => rfl
  | node a c r ihc ihr =>
    -- below the nodes that `g` puts there nothing is added
    have hnew : decorate g' (i :: p) (0 + (decorate g (i :: p) 0 c).tops.length) (g (i :: p)) =
        g (i :: p) := by
      refine decorate_eq_self fun s j hj ↦ h.1.beyond s ?_
      rwa [length_tops_decorate] at hj
    rw [decorate, decorate, decorate, decorate_append, hnew, ihc h.1, ihr h.2, append_assoc]

/-- **What is added in two steps is added in one.** -/
theorem adorn_adorn (h : Supports [] 0 f g') :
    (f.adorn g).adorn g' = f.adorn fun q ↦ (g q).append (g' q) := by
  have hnew : decorate g' [] (0 + (decorate g [] 0 f).tops.length) (g []) = g [] := by
    refine decorate_eq_self fun s j hj ↦ h.beyond s ?_
    rwa [length_tops_decorate] at hj
  rw [adorn, adorn, adorn, decorate_append, hnew, decorate_decorate h, append_assoc]

theorem adorn_nil (f : Forest α) : (f.adorn fun _ ↦ nil) = f := by
  rw [adorn, append_nil, decorate_eq_self fun _ _ _ ↦ rfl]

theorem mem_located_suffix {x : List ℕ × α} (h : x ∈ (f.located p i).labels) :
    ∃ (s : List ℕ) (j : ℕ), i ≤ j ∧ x.1 = s ++ j :: p := by
  induction f generalizing p i with
  | nil => exact absurd h List.not_mem_nil
  | node a c r ihc ihr =>
    rw [located, labels, List.mem_cons, List.mem_append] at h
    rcases h with rfl | h | h
    · exact ⟨[], i, Nat.le_refl i, rfl⟩
    · obtain ⟨s, j, -, hx⟩ := ihc h
      exact ⟨s ++ [j], i, Nat.le_refl i, by rw [hx, List.append_assoc]; rfl⟩
    · obtain ⟨s, j, hj, hx⟩ := ihr h
      exact ⟨s, j, by omega, hx⟩

/-- Places below different nodes are different. -/
theorem suffix_inj {s t : List ℕ} {j k : ℕ} (h : s ++ j :: p = t ++ k :: p) : s = t ∧ j = k := by
  have hcat : (s ++ [j]) ++ p = (t ++ [k]) ++ p := by
    rwa [List.append_assoc, List.append_assoc]
  simpa using List.append_cancel_right hcat

theorem supports_of_mem {q : List ℕ} {h : Forest α}
    (hq : ∀ (s : List ℕ) (j : ℕ), i ≤ j → q = s ++ j :: p → ∃ a, (q, a) ∈ (f.located p i).labels) :
    Supports p i f fun q' ↦ if q' = q then h else nil := by
  induction f generalizing p i with
  | nil =>
    refine fun s j hj ↦ if_neg fun heq ↦ ?_
    obtain ⟨a, ha⟩ := hq s j hj heq.symm
    exact List.not_mem_nil ha
  | node a c r ihc ihr =>
    constructor
    · refine ihc fun s j _ heq ↦ ?_
      have hsplit : q = (s ++ [j]) ++ i :: p := by rw [heq, List.append_assoc]; rfl
      obtain ⟨b, hb⟩ := hq (s ++ [j]) i (Nat.le_refl i) hsplit
      rw [located, labels, List.mem_cons, List.mem_append] at hb
      rcases hb with hb | hb | hb
      · have hself : [] ++ i :: p = (s ++ [j]) ++ i :: p := (congrArg Prod.fst hb).symm.trans hsplit
        exact absurd (suffix_inj hself).1.symm (List.append_ne_nil_of_right_ne_nil s
          (List.cons_ne_nil _ _))
      · exact ⟨b, hb⟩
      · obtain ⟨t, k, hk, heq'⟩ := mem_located_suffix hb
        have := (suffix_inj (hsplit.symm.trans heq')).2
        omega
    · refine ihr fun s j hj heq ↦ ?_
      obtain ⟨b, hb⟩ := hq s j (by omega) heq
      rw [located, labels, List.mem_cons, List.mem_append] at hb
      rcases hb with hb | hb | hb
      · have hself : [] ++ i :: p = s ++ j :: p := (congrArg Prod.fst hb).symm.trans heq
        have := (suffix_inj hself).2
        omega
      · obtain ⟨t, k, -, heq'⟩ := mem_located_suffix hb
        have hsplit : q = (t ++ [k]) ++ i :: p := heq'.trans (by rw [List.append_assoc]; rfl)
        have := (suffix_inj (heq.symm.trans hsplit)).2
        omega
      · exact ⟨b, hb⟩


/-! ## Places and labels -/

theorem Placed.label?_of_mem {h : Forest (List ℕ × α)} (hp : Placed f p h) {x : List ℕ × α}
    (hx : x ∈ h.labels) : f.label? x.1 = some x.2 := by
  induction hp with
  | nil => exact absurd hx List.not_mem_nil
  | node ha hc hr ihc ihr =>
    rw [labels, List.mem_cons, List.mem_append] at hx
    rcases hx with rfl | hx | hx
    · exact ha
    · exact ihc hx
    · exact ihr hx

theorem labels_located_of_top {a : α} {c : Forest α} {j : ℕ} (h : f.tops[j]? = some (a, c)) :
    ((i + j) :: p, a) :: (c.located ((i + j) :: p) 0).labels ⊆ (f.located p i).labels := by
  induction f generalizing i j with
  | nil => exact absurd h nofun
  | node b d r _ ihr =>
    rw [located, labels]
    rcases j with - | j
    · obtain ⟨rfl, rfl⟩ : b = a ∧ d = c := by simpa [tops] using h
      exact List.cons_subset_cons _ (List.subset_append_left _ _)
    · have hrest := ihr (i := i + 1) (j := j) h
      rw [Nat.add_right_comm, Nat.add_assoc] at hrest
      exact List.Subset.trans hrest
        (List.subset_cons_of_subset _ (List.subset_append_right _ _))

theorem labels_located_under (h : f.IsPlace p) :
    ((f.under p).located p 0).labels ⊆ (f.located [] 0).labels := by
  induction p with
  | nil => exact List.Subset.refl _
  | cons i p ih =>
    obtain ⟨a, ha⟩ := h.resolve_left (List.cons_ne_nil _ _)
    obtain ⟨c, hc⟩ := exists_top_of_label ha
    have hsub := labels_located_of_top (p := p) (i := 0) hc
    rw [Nat.zero_add] at hsub
    rw [under, hc]
    exact List.Subset.trans (List.subset_cons_self _ _) (List.Subset.trans hsub (ih h.tail))

theorem mem_labels_located_iff {a : α} :
    (p, a) ∈ (f.located [] 0).labels ↔ f.label? p = some a := by
  constructor
  · exact (placed_located f).label?_of_mem
  · intro h
    rcases p with - | ⟨i, p⟩
    · exact absurd h nofun
    · obtain ⟨c, hc⟩ := exists_top_of_label h
      have hsub := labels_located_of_top (p := p) (i := 0) hc
      rw [Nat.zero_add] at hsub
      exact labels_located_under (IsPlace.tail (Or.inr ⟨a, h⟩)) (hsub List.mem_cons_self)

theorem mem_findAll_iff {q : α → Bool} :
    p ∈ f.findAll q ↔ ∃ a, f.label? p = some a ∧ q a = true := by
  simp only [findAll, List.mem_map, List.mem_filter, Prod.exists, mem_labels_located_iff,
    exists_and_right, exists_eq_right]

theorem isPlace_of_mem_findAll {q : α → Bool} (h : p ∈ f.findAll q) : f.IsPlace p := by
  obtain ⟨a, ha, -⟩ := mem_findAll_iff.mp h
  exact Or.inr ⟨a, ha⟩

theorem nodup_places (f : Forest α) (p : List ℕ) (i : ℕ) :
    ((f.located p i).labels.map Prod.fst).Nodup := by
  induction f generalizing p i with
  | nil => exact List.nodup_nil
  | node a c r ihc ihr =>
    rw [located, labels, List.map_cons, List.map_append, List.nodup_cons, List.nodup_append,
      List.mem_append]
    have hc : ∀ q ∈ (c.located (i :: p) 0).labels.map Prod.fst,
        ∃ (s : List ℕ) (j : ℕ), q = s ++ j :: i :: p := by
      intro q hq
      obtain ⟨x, hx, rfl⟩ := List.mem_map.mp hq
      obtain ⟨s, j, -, heq⟩ := mem_located_suffix hx
      exact ⟨s, j, heq⟩
    have hr : ∀ q ∈ (r.located p (i + 1)).labels.map Prod.fst,
        ∃ (s : List ℕ) (j : ℕ), i + 1 ≤ j ∧ q = s ++ j :: p := by
      intro q hq
      obtain ⟨x, hx, rfl⟩ := List.mem_map.mp hq
      exact mem_located_suffix hx
    refine ⟨?_, ihc _ _, ihr _ _, ?_⟩
    · rintro (hmem | hmem)
      · obtain ⟨s, j, heq⟩ := hc _ hmem
        have := congrArg List.length heq
        simp only [List.length_append, List.length_cons] at this
        omega
      · obtain ⟨s, j, hj, heq⟩ := hr _ hmem
        have := (suffix_inj (s := []) heq).2
        omega
    · rintro q hq q' hq' rfl
      obtain ⟨s, j, heq⟩ := hc _ hq
      obtain ⟨t, k, hk, heq'⟩ := hr _ hq'
      have hsplit : (s ++ [j]) ++ i :: p = t ++ k :: p := by
        rw [← heq', heq, List.append_assoc]; rfl
      have := (suffix_inj hsplit).2
      omega

theorem nodup_findAll (q : α → Bool) (f : Forest α) : (f.findAll q).Nodup :=
  (nodup_places f [] 0).sublist (List.filter_sublist.map _)

/-! ## What is not added is found as before -/

theorem located_append (f h : Forest α) :
    (f.append h).located p i = (f.located p i).append (h.located p (i + f.tops.length)) := by
  induction f generalizing i with
  | nil => rfl
  | node a c r _ ihr =>
    rw [append, located, located, ihr, tops, List.length_cons, append, Nat.add_right_comm i 1,
      Nat.add_assoc i]

theorem filter_labels_located_eq_nil {q : α → Bool} (h : ∀ a ∈ f.labels, q a = false) :
    ((f.located p i).labels.filter fun x ↦ q x.2) = [] := by
  refine List.filter_eq_nil_iff.mpr fun x hx ↦ ?_
  have hmem : x.2 ∈ ((f.located p i).map Prod.snd).labels := by
    rw [labels_map]
    exact List.mem_map_of_mem hx
  rw [map_located] at hmem
  rw [h x.2 hmem]
  exact Bool.false_ne_true

variable {q : α → Bool}

theorem filter_labels_located_decorate (h : ∀ p, ∀ a ∈ (g p).labels, q a = false) :
    (((decorate g p i f).located p i).labels.filter fun x ↦ q x.2) =
      (f.located p i).labels.filter fun x ↦ q x.2 := by
  induction f generalizing p i with
  | nil => rfl
  | node a c r ihc ihr =>
    rw [decorate, located, located, located_append, labels, labels, labels_append,
      List.filter_cons, List.filter_cons, List.filter_append, List.filter_append,
      List.filter_append, ihc, ihr, filter_labels_located_eq_nil (h (i :: p)), List.append_nil]

theorem findAll_adorn (h : ∀ p, ∀ a ∈ (g p).labels, q a = false) :
    (f.adorn g).findAll q = f.findAll q := by
  rw [findAll, adorn, located_append, labels_append, List.filter_append,
    filter_labels_located_decorate h, filter_labels_located_eq_nil (h []), List.append_nil, findAll]

theorem cut_decorate (h : ∀ p, (g p).cut q = nil) : (decorate g p i f).cut q = f.cut q := by
  induction f generalizing p i with
  | nil => rfl
  | node a c r ihc ihr => rw [decorate, cut, cut, cut_append, h, append_nil, ihc, ihr]

theorem cut_adorn (h : ∀ p, (g p).cut q = nil) : (f.adorn g).cut q = f.cut q := by
  rw [adorn, cut_append, cut_decorate h, h, append_nil]

/-! ## Pieces -/

def ofPieces : List (Piece α) → Forest α
  | [] => nil
  | (a, c) :: l => node a c (ofPieces l)

/-- Pieces with the places they are put below, each behind the ones before it. -/
def behind (l : List (List ℕ × Piece α)) (p : List ℕ) : Forest α :=
  ofPieces ((l.filter (·.1 = p)).map Prod.snd)

/-- The nodes that satisfy `q` from number `i` on below the place `p`, with the place of the node
above each. -/
def placedBelow (q : α → Bool) : List ℕ → ℕ → Forest α → List (List ℕ × Piece α)
  | _, _, nil => []
  | p, i, node a c r =>
    (own q (a, c)).map (Prod.mk p) ++ (placedBelow q (i :: p) 0 c ++ placedBelow q p (i + 1) r)

theorem ofPieces_append (l l' : List (Piece α)) :
    ofPieces (l ++ l') = (ofPieces l).append (ofPieces l') := by
  induction l with
  | nil => rfl
  | cons x l ih => rw [List.cons_append, ofPieces, ofPieces, ih, append]

theorem behind_nil : behind ([] : List (List ℕ × Piece α)) = fun _ ↦ nil := rfl

theorem behind_concat (l : List (List ℕ × Piece α)) (x : List ℕ × Piece α) (p : List ℕ) :
    behind (l ++ [x]) p = (behind l p).append (if p = x.1 then ofPieces [x.2] else nil) := by
  rw [behind, List.filter_append, List.map_append, ofPieces_append, behind]
  by_cases hp : x.1 = p
  · rw [if_pos hp.symm, List.filter_cons_of_pos (by simpa using hp)]
    rfl
  · rw [if_neg (Ne.symm hp), List.filter_cons_of_neg (by simpa using hp)]
    rfl

/-- A piece that is put into an adorned document is one piece more. -/
theorem graft_adorn (l : List (List ℕ × Piece α)) (x : List ℕ × Piece α) (hx : f.IsPlace x.1) :
    (f.adorn (behind l)).graft x.1 (ofPieces [x.2]) = f.adorn (behind (l ++ [x])) := by
  have hsupports : Supports [] 0 f fun p ↦ if p = x.1 then ofPieces [x.2] else nil := by
    refine supports_of_mem fun s j _ heq ↦ ?_
    obtain ⟨a, ha⟩ := hx.resolve_left fun hnil ↦ by simp [hnil] at heq
    exact ⟨a, mem_labels_located_iff.mpr ha⟩
  rw [graft, adorn_adorn hsupports]
  exact congrArg (f.adorn ·) (funext fun p ↦ (behind_concat l x p).symm)

theorem labels_ofPieces {l : List (Piece α)} (h : ∀ x ∈ l, ∀ a ∈ x.1 :: x.2.labels, q a = false) :
    ∀ a ∈ (ofPieces l).labels, q a = false := by
  induction l with
  | nil => exact fun a ha ↦ absurd ha List.not_mem_nil
  | cons x l ih =>
    intro a ha
    rw [ofPieces, labels, ← List.cons_append, List.mem_append] at ha
    rcases ha with ha | ha
    · exact h x List.mem_cons_self a ha
    · exact ih (fun y hy ↦ h y (List.mem_cons_of_mem _ hy)) a ha

theorem labels_behind {l : List (List ℕ × Piece α)}
    (h : ∀ x ∈ l, ∀ a ∈ x.2.1 :: x.2.2.labels, q a = false) (p : List ℕ) :
    ∀ a ∈ (behind l p).labels, q a = false := by
  refine labels_ofPieces fun y hy ↦ ?_
  obtain ⟨x, hx, rfl⟩ := List.mem_map.mp hy
  exact h x (List.mem_filter.mp hx).1

theorem cut_ofPieces {l : List (Piece α)} (h : ∀ x ∈ l, q x.1 = true) :
    (ofPieces l).cut q = nil := by
  induction l with
  | nil => rfl
  | cons x l ih =>
    rw [ofPieces, cut, if_pos (h x List.mem_cons_self),
      ih fun y hy ↦ h y (List.mem_cons_of_mem _ hy)]

theorem cut_behind {l : List (List ℕ × Piece α)} (h : ∀ x ∈ l, q x.2.1 = true) (p : List ℕ) :
    (behind l p).cut q = nil := by
  refine cut_ofPieces fun y hy ↦ ?_
  obtain ⟨x, hx, rfl⟩ := List.mem_map.mp hy
  exact h x (List.mem_filter.mp hx).1

/-! ## What is put in is read off -/

theorem placedBelow_append (f h : Forest α) :
    placedBelow q p i (f.append h) =
      placedBelow q p i f ++ placedBelow q p (i + f.tops.length) h := by
  induction f generalizing i with
  | nil => rfl
  | node a c r _ ihr =>
    rw [append, placedBelow, placedBelow, ihr, tops, List.length_cons, Nat.add_right_comm i 1,
      Nat.add_assoc i, List.append_assoc, List.append_assoc]

theorem placedBelow_eq_nil (h : f.has q = false) : placedBelow q p i f = [] := by
  induction f generalizing p i with
  | nil => rfl
  | node a c r ihc ihr =>
    rw [has, Bool.or_eq_false_iff, Bool.or_eq_false_iff] at h
    rw [placedBelow, own, if_neg (by simp [h.1.1]), ihc h.1.2, ihr h.2]
    rfl

theorem placedBelow_ofPieces {l : List (Piece α)}
    (h : ∀ x ∈ l, q x.1 = true ∧ x.2.has q = false) :
    placedBelow q p i (ofPieces l) = l.map (Prod.mk p) := by
  induction l generalizing i with
  | nil => rfl
  | cons x l ih =>
    obtain ⟨hx, hbelow⟩ := h x List.mem_cons_self
    rw [ofPieces, placedBelow, own, if_pos hx, placedBelow_eq_nil hbelow,
      ih fun y hy ↦ h y (List.mem_cons_of_mem _ hy)]
    rfl

theorem placedBelow_behind {l : List (List ℕ × Piece α)}
    (h : ∀ x ∈ l, q x.2.1 = true ∧ x.2.2.has q = false) :
    placedBelow q p i (behind l p) = l.filter (·.1 = p) := by
  rw [behind, placedBelow_ofPieces, List.map_map]
  · refine (List.map_congr_left fun x hx ↦ ?_).trans (List.map_id _)
    have hp : x.1 = p := by simpa using (List.mem_filter.mp hx).2
    exact Prod.ext hp.symm rfl
  · intro y hy
    obtain ⟨x, hx, rfl⟩ := List.mem_map.mp hy
    exact h x (List.mem_filter.mp hx).1

theorem placedBelow_decorate {l : List (List ℕ × Piece α)}
    (h : ∀ x ∈ l, q x.2.1 = true ∧ x.2.2.has q = false) (hf : f.has q = false) :
    (placedBelow q p i (decorate (behind l) p i f)).Perm
      (((f.located p i).labels.map Prod.fst).flatMap fun p' ↦ l.filter (·.1 = p')) := by
  induction f generalizing p i with
  | nil => exact .nil
  | node a c r ihc ihr =>
    rw [has, Bool.or_eq_false_iff, Bool.or_eq_false_iff] at hf
    rw [decorate, placedBelow, own, if_neg (by simp [hf.1.1]), List.map_nil, List.nil_append,
      placedBelow_append, placedBelow_behind h, located, labels, List.map_cons, List.map_append,
      List.flatMap_cons, List.flatMap_append, ← List.append_assoc]
    exact ((List.Perm.append_right _ (ihc hf.1.2)).trans List.perm_append_comm).append (ihr hf.2)

/-- The places of a list taken one after the other. -/
theorem perm_flatMap_filter {β : Type*} {ps : List (List ℕ)} (hps : ps.Nodup)
    {l : List (List ℕ × β)} (hl : ∀ x ∈ l, x.1 ∈ ps) :
    (ps.flatMap fun p ↦ l.filter (·.1 = p)).Perm l := by
  induction ps generalizing l with
  | nil =>
    obtain rfl : l = [] := List.eq_nil_iff_forall_not_mem.mpr fun x hx ↦ by simpa using hl x hx
    exact .nil
  | cons p ps ih =>
    obtain ⟨hp, hps⟩ := List.nodup_cons.mp hps
    -- the pieces that are not put below `p`
    have hrest := ih hps (l := l.filter fun x ↦ !decide (x.1 = p)) fun x hx ↦ by
      obtain ⟨hx, hne⟩ := List.mem_filter.mp hx
      exact (List.mem_cons.mp (hl x hx)).resolve_left (by simpa using hne)
    have hsame : (ps.flatMap fun p' ↦ (l.filter fun x ↦ !decide (x.1 = p)).filter (·.1 = p')) =
        ps.flatMap fun p' ↦ l.filter (·.1 = p') := by
      refine List.flatMap_congr fun p' hp' ↦ ?_
      rw [List.filter_filter]
      refine List.filter_congr fun x _ ↦ ?_
      have hne : p' ≠ p := fun heq ↦ hp (heq ▸ hp')
      by_cases hx : x.1 = p'
      · simp [hx, hne]
      · simp [hx]
    rw [hsame] at hrest
    rw [List.flatMap_cons]
    exact (hrest.append_left _).trans (List.filter_append_perm (·.1 = p) l)

/-- **What is put into a document is read off again.** -/
theorem perm_placedBelow_adorn {l : List (List ℕ × Piece α)}
    (h : ∀ x ∈ l, q x.2.1 = true ∧ x.2.2.has q = false) (hl : ∀ x ∈ l, f.IsPlace x.1)
    (hf : f.has q = false) : (placedBelow q [] 0 (f.adorn (behind l))).Perm l := by
  have hnodup : ([] :: (f.located [] 0).labels.map Prod.fst).Nodup := by
    refine List.nodup_cons.mpr ⟨fun hmem ↦ ?_, nodup_places f [] 0⟩
    obtain ⟨x, hx, hnil⟩ := List.mem_map.mp hmem
    have hlabel : f.label? [] = some x.2 := hnil ▸ mem_labels_located_iff.mp hx
    exact absurd hlabel nofun
  have hmem : ∀ x ∈ l, x.1 ∈ [] :: (f.located [] 0).labels.map Prod.fst := by
    intro x hx
    rcases hl x hx with hnil | ⟨a, ha⟩
    · exact List.mem_cons.mpr (Or.inl hnil)
    · exact List.mem_cons_of_mem _
        (List.mem_map_of_mem (f := Prod.fst) (mem_labels_located_iff.mpr ha))
  rw [adorn, placedBelow_append, placedBelow_behind h]
  refine ((placedBelow_decorate h hf).append_right _).trans (List.perm_append_comm.trans ?_)
  rw [← List.flatMap_cons (f := fun p ↦ l.filter (·.1 = p))]
  exact perm_flatMap_filter hnodup hmem

end Forest

end ConfdDemos
