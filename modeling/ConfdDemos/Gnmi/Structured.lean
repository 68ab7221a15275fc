import ConfdDemos.Foundation.Entrywise
import ConfdDemos.Gnmi.Transaction

/-!
# Structured updates

A `json_ietf_val` that is an object asks for one write for each leaf in it, at the path of the
update followed by the member names on the way to the leaf (`Members.leaves`). The adapter writes
where the position is (`Members.placed`), and nothing ever pops a directory off the stack.

## Straying

A leaf that comes after a closed object is written below that object. From there on the position is
deeper than it should be, or has another base when a member name is an absolute path
(`Location.Off`), and no later member brings it back. So the two lists of writes have the same
length and are compared entry by entry: an entry is right, or it has strayed.

A write that has strayed is deeper than it should be, and a rearrangement keeps the sum of the
depths. Hence the writes are not even a rearrangement of the right ones unless all of them are right
(`eq_of_forall₂_of_perm`).
-/

namespace ConfdDemos.Gnmi

/-! ## The leaves of a value -/

section Leaves

variable {N D : Type} (m : Maapi N D)

/-- One write for each leaf of an object at `here`. -/
def Members.leaves (here : Location) (node : Option N) : Members → List Edit
  | .nil => []
  | .leaf name v rest =>
    .set (here.child (m.prefixes.fixPathPrefixes name))
      (m.value (m.csNodeCd node (m.prefixes.fixPathPrefixes name)) v) :: rest.leaves here node
  | .obj name members rest =>
    members.leaves (here.child (m.prefixes.fixPathPrefixes name))
        (m.csNodeCd node (m.prefixes.fixPathPrefixes name)) ++ rest.leaves here node

def Json.leaves (here : Location) (node : Option N) : Json → List Edit
  | .leaf v => [.set here (m.value node v)]
  | .obj members => members.leaves m here node

end Leaves

def Members.hasLeaf : Members → Bool
  | .nil => false
  | .leaf _ _ _ => true
  | .obj _ members rest => members.hasLeaf || rest.hasLeaf

/-- No leaf comes after an object member. -/
def Members.ordered : Members → Bool
  | .nil => true
  | .leaf _ _ rest => rest.ordered
  | .obj _ members rest => members.ordered && !rest.hasLeaf

/-- No member name on the way to a leaf is an absolute path. -/
def Members.relative : Members → Bool
  | .nil => true
  | .leaf name _ rest => !decide (IsAbsolute name) && rest.relative
  | .obj name members rest =>
    (!members.hasLeaf || !decide (IsAbsolute name)) && members.relative && rest.relative

def Members.names : Members → List (List Char)
  | .nil => []
  | .leaf name _ rest => name :: rest.names
  | .obj name members rest => name :: (members.names ++ rest.names)

def Json.hasLeaf : Json → Bool
  | .leaf _ => true
  | .obj members => members.hasLeaf

def Json.ordered : Json → Bool
  | .leaf _ => true
  | .obj members => members.ordered

def Json.relative : Json → Bool
  | .leaf _ => true
  | .obj members => members.relative

def Json.names : Json → List (List Char)
  | .leaf _ => []
  | .obj members => members.names

/-- The position at every leaf of an object that is to be at `here` is the right one. -/
def Members.InPlace (P : Prefixes) (here pos : Location) : Members → Prop
  | .nil => True
  | .leaf name _ rest =>
    pos.resolve (P.fixPathPrefixes name) = here.child (P.fixPathPrefixes name) ∧
      rest.InPlace P here pos
  | .obj name members rest =>
    members.InPlace P (here.child (P.fixPathPrefixes name)) (pos.resolve (P.fixPathPrefixes name)) ∧
      rest.InPlace P here (members.lastDir P (pos.resolve (P.fixPathPrefixes name)))

/-- Every leaf of a value at `here` is written where it belongs. -/
def Json.InPlace (P : Prefixes) (here : Location) : Json → Prop
  | .leaf _ => True
  | .obj members => members.InPlace P here here

section InPlace

variable {N D : Type} {m : Maapi N D}

theorem Members.placed_of_not_hasLeaf {members : Members} (h : members.hasLeaf = false)
    (pos : Location) (node : Option N) : members.placed m pos node = [] := by
  induction members generalizing pos node with
  | nil => rfl
  | leaf name v rest ih => exact absurd h (by simp [Members.hasLeaf])
  | obj name members rest ihm ihr =>
    rw [Members.hasLeaf, Bool.or_eq_false_iff] at h
    rw [Members.placed, ihm h.1, ihr h.2, List.append_nil]

theorem Members.length_placed (members : Members) (pos here : Location) (node : Option N) :
    (members.placed m pos node).length = (members.leaves m here node).length := by
  induction members generalizing pos here node with
  | nil => rfl
  | leaf name v rest ih =>
    rw [Members.placed, Members.leaves, List.length_cons, List.length_cons, ih pos here]
  | obj name members rest ihm ihr =>
    rw [Members.placed, Members.leaves, List.length_append, List.length_append, ihr _ here,
      ihm _ (here.child (m.prefixes.fixPathPrefixes name))]

theorem Members.leaves_of_not_hasLeaf {members : Members} (h : members.hasLeaf = false)
    (here : Location) (node : Option N) : members.leaves m here node = [] := by
  have hlen := members.length_placed (m := m) here here node
  rw [Members.placed_of_not_hasLeaf h, List.length_nil] at hlen
  exact List.eq_nil_of_length_eq_zero hlen.symm

theorem Members.leaves_ne_nil {members : Members} (h : members.hasLeaf = true) (here : Location)
    (node : Option N) : members.leaves m here node ≠ [] := by
  induction members generalizing here node with
  | nil => exact absurd h (by simp [Members.hasLeaf])
  | leaf name v rest ih => exact List.cons_ne_nil _ _
  | obj name members rest ihm ihr =>
    rw [Members.hasLeaf, Bool.or_eq_true] at h
    intro hnil
    obtain ⟨hmembers, hrest⟩ := List.append_eq_nil_iff.mp hnil
    rcases h with h | h
    · exact ihm h _ _ hmembers
    · exact ihr h _ _ hrest

theorem Members.placed_eq_leaves_iff {members : Members} {pos here : Location} {node : Option N} :
    members.placed m pos node = members.leaves m here node ↔
      members.InPlace m.prefixes here pos := by
  induction members generalizing pos here node with
  | nil => exact iff_of_true rfl trivial
  | leaf name v rest ih =>
    rw [Members.placed, Members.leaves, List.cons_eq_cons, Edit.set.injEq, and_iff_left rfl, ih,
      Members.InPlace]
  | obj name members rest ihm ihr =>
    rw [Members.placed, Members.leaves, Members.InPlace, ← ihm, ← ihr]
    constructor
    · exact fun heq ↦ List.append_inj heq (Members.length_placed members _ _ _)
    · rintro ⟨hmembers, hrest⟩
      rw [hmembers, hrest]

/-- A relative member name leads to the child. -/
theorem Location.resolve_name {P : Prefixes} {name : List Char} (h : ¬ IsAbsolute name)
    (pos : Location) :
    pos.resolve (P.fixPathPrefixes name) = pos.child (P.fixPathPrefixes name) :=
  if_neg fun habs ↦ h (Prefixes.isAbsolute_fixPathPrefixes.mp habs)

/-- **Leaves before objects are written where they belong.** -/
theorem Members.placed_eq_leaves {members : Members} (hord : members.ordered = true)
    (hrel : members.relative = true) (here : Location) (node : Option N) :
    members.placed m here node = members.leaves m here node := by
  induction members generalizing here node with
  | nil => rfl
  | leaf name v rest ih =>
    rw [Members.relative, Bool.and_eq_true, Bool.not_eq_true', decide_eq_false_iff_not] at hrel
    rw [Members.placed, Members.leaves, ih hord hrel.2, Location.resolve_name hrel.1]
  | obj name members rest ihm ihr =>
    rw [Members.ordered, Bool.and_eq_true, Bool.not_eq_true'] at hord
    simp only [Members.relative, Bool.and_eq_true, Bool.or_eq_true, Bool.not_eq_true',
      decide_eq_false_iff_not] at hrel
    obtain ⟨⟨hname, hmembers⟩, -⟩ := hrel
    rw [Members.placed, Members.leaves, Members.placed_of_not_hasLeaf hord.2,
      Members.leaves_of_not_hasLeaf hord.2]
    -- an object without leaves may be entered anywhere
    rcases hname with hleaf | hname
    · rw [Members.placed_of_not_hasLeaf hleaf, Members.leaves_of_not_hasLeaf hleaf]
    · rw [Location.resolve_name hname, ihm hord.1 hmembers]

/-! ## Straying -/

/-- A position that is not, and will not be again, at `here`: it has another base or is deeper. -/
def Location.Off (here pos : Location) : Prop :=
  pos.base ≠ here.base ∨ here.names.length < pos.names.length

theorem Location.Off.ne {here pos : Location} (h : here.Off pos) : pos ≠ here := by
  rintro rfl
  rcases h with hbase | hlt
  · exact hbase rfl
  · exact Nat.lt_irrefl _ hlt

theorem Location.Off.of_child {here pos : Location} {name : List Char}
    (h : (here.child name).Off pos) : here.Off pos := by
  refine h.imp id fun hlt ↦ ?_
  simp only [Location.child, List.length_append, List.length_singleton] at hlt
  omega

theorem Location.Off.resolve {here pos : Location} {path : List Char} (h : here.Off pos)
    (hpath : path ≠ here.base) : (here.child path).Off (pos.resolve path) := by
  unfold Location.resolve
  split_ifs
  · exact Or.inl hpath
  · refine h.imp id fun hlt ↦ ?_
    simp only [Location.child, List.length_append, List.length_singleton]
    omega

/-- Entering an object leaves its parent behind. -/
theorem Location.off_resolve {here pos : Location} {path : List Char}
    (h : pos = here ∨ here.Off pos) (hpath : path ≠ here.base) : here.Off (pos.resolve path) := by
  rcases h with rfl | h
  · unfold Location.resolve
    split_ifs
    · exact Or.inl hpath
    · refine Or.inr ?_
      simp only [Location.child, List.length_append, List.length_singleton]
      omega
  · exact (h.resolve hpath).of_child

/-- Entering an object leads to it or astray. -/
theorem Location.resolve_eq_or_off {here pos : Location} {path : List Char}
    (h : pos = here ∨ here.Off pos) (hpath : path ≠ here.base) :
    pos.resolve path = here.child path ∨ (here.child path).Off (pos.resolve path) := by
  rcases h with rfl | h
  · unfold Location.resolve
    split_ifs
    · exact Or.inr (Or.inl hpath)
    · exact Or.inl rfl
  · exact Or.inr (h.resolve hpath)

/-- No member name is rewritten to the path of the update itself. -/
def Members.Avoids (P : Prefixes) (base : List Char) (members : Members) : Prop :=
  ∀ name ∈ members.names, P.fixPathPrefixes name ≠ base

theorem Members.Avoids.leaf {P : Prefixes} {base name : List Char} {v : Leaf} {rest : Members}
    (h : (Members.leaf name v rest).Avoids P base) :
    P.fixPathPrefixes name ≠ base ∧ rest.Avoids P base :=
  ⟨h name List.mem_cons_self, fun n hn ↦ h n (List.mem_cons_of_mem _ hn)⟩

theorem Members.Avoids.obj {P : Prefixes} {base name : List Char} {members rest : Members}
    (h : (Members.obj name members rest).Avoids P base) :
    P.fixPathPrefixes name ≠ base ∧ members.Avoids P base ∧ rest.Avoids P base :=
  ⟨h name List.mem_cons_self,
    fun n hn ↦ h n (List.mem_cons_of_mem _ (List.mem_append_left _ hn)),
    fun n hn ↦ h n (List.mem_cons_of_mem _ (List.mem_append_right _ hn))⟩

theorem Members.off_lastDir {P : Prefixes} {members : Members} {here pos : Location}
    (havoid : members.Avoids P here.base) (h : here.Off pos) :
    here.Off (members.lastDir P pos) := by
  induction members generalizing pos with
  | nil => exact h
  | leaf name v rest ih => exact ih havoid.leaf.2 h
  | obj name members rest ihm ihr =>
    obtain ⟨hname, hmembers, hrest⟩ := havoid.obj
    exact ihr hrest (ihm hmembers (Location.off_resolve (Or.inr h) hname))

def Edit.place : Edit → Location
  | .set place _ => place
  | .delete place => place

/-- **Every write is right or has strayed.** -/
theorem Members.forall₂_placed {members : Members} {here pos : Location} {node : Option N}
    (h : pos = here ∨ here.Off pos) (havoid : members.Avoids m.prefixes here.base) :
    List.Forall₂ (fun p l ↦ p = l ∨ l.place.Off p.place) (members.placed m pos node)
      (members.leaves m here node) := by
  induction members generalizing here pos node with
  | nil => exact List.Forall₂.nil
  | leaf name v rest ih =>
    obtain ⟨hname, hrest⟩ := havoid.leaf
    refine List.Forall₂.cons ?_ (ih h hrest)
    rcases Location.resolve_eq_or_off h hname with heq | hoff
    · exact Or.inl (by rw [heq])
    · exact Or.inr hoff
  | obj name members rest ihm ihr =>
    obtain ⟨hname, hmembers, hrest⟩ := havoid.obj
    have hoff := Members.off_lastDir hmembers (Location.off_resolve h hname)
    exact List.rel_append (ihm (Location.resolve_eq_or_off h hname) hmembers)
      (ihr (Or.inr hoff) hrest)

/-- A position that has strayed writes no leaf where it belongs. -/
theorem Members.not_hasLeaf_of_off {members : Members} {here pos : Location} {node : Option N}
    (h : here.Off pos) (havoid : members.Avoids m.prefixes here.base)
    (heq : members.placed m pos node = members.leaves m here node) : members.hasLeaf = false := by
  induction members generalizing here pos node with
  | nil => rfl
  | leaf name v rest ih =>
    obtain ⟨hname, -⟩ := havoid.leaf
    rw [Members.placed, Members.leaves, List.cons_eq_cons] at heq
    exact absurd (Edit.set.inj heq.1).1 (h.resolve hname).ne
  | obj name members rest ihm ihr =>
    obtain ⟨hname, hmembers, hrest⟩ := havoid.obj
    rw [Members.placed, Members.leaves] at heq
    obtain ⟨heqm, heqr⟩ := List.append_inj heq (Members.length_placed members _ _ _)
    have hoff := Members.off_lastDir hmembers (Location.off_resolve (Or.inr h) hname)
    rw [Members.hasLeaf, ihm (h.resolve hname) hmembers heqm, ihr hoff hrest heqr]
    rfl

theorem Members.ordered_of_not_hasLeaf {members : Members} (h : members.hasLeaf = false) :
    members.ordered = true ∧ members.relative = true := by
  induction members with
  | nil => exact ⟨rfl, rfl⟩
  | leaf name v rest ih => exact absurd h (by simp [Members.hasLeaf])
  | obj name members rest ihm ihr =>
    rw [Members.hasLeaf, Bool.or_eq_false_iff] at h
    simp [Members.ordered, Members.relative, ihm h.1, ihr h.2, h.1, h.2]

/-- **Only leaves before objects are written where they belong.** -/
theorem Members.ordered_of_placed_eq {members : Members} {here : Location} {node : Option N}
    (heq : members.placed m here node = members.leaves m here node)
    (havoid : members.Avoids m.prefixes here.base) :
    members.ordered = true ∧ members.relative = true := by
  induction members generalizing here node with
  | nil => exact ⟨rfl, rfl⟩
  | leaf name v rest ih =>
    rw [Members.placed, Members.leaves, List.cons_eq_cons] at heq
    have hname : ¬ IsAbsolute name := fun habs ↦ by
      have hres := (Edit.set.inj heq.1).1
      rw [Location.resolve_of_isAbsolute (Prefixes.isAbsolute_fixPathPrefixes.mpr habs)] at hres
      simp [Location.child] at hres
    obtain ⟨hord, hrel⟩ := ih heq.2 havoid.leaf.2
    exact ⟨hord, by simp [Members.relative, hname, hrel]⟩
  | obj name members rest ihm ihr =>
    obtain ⟨hname, hmembers, hrest⟩ := havoid.obj
    rw [Members.placed, Members.leaves] at heq
    obtain ⟨heqm, heqr⟩ := List.append_inj heq (Members.length_placed members _ _ _)
    -- whatever comes after the object is off its place
    have hoff := Members.off_lastDir hmembers (Location.off_resolve (Or.inl rfl) hname)
    have hno := Members.not_hasLeaf_of_off hoff hrest heqr
    have hrestRel := (Members.ordered_of_not_hasLeaf hno).2
    by_cases habs : IsAbsolute name
    · have habs' := Prefixes.isAbsolute_fixPathPrefixes (P := m.prefixes).mpr habs
      rw [Location.resolve_of_isAbsolute habs'] at heqm
      have hlost : (here.child (m.prefixes.fixPathPrefixes name)).Off
          ⟨m.prefixes.fixPathPrefixes name, []⟩ := Or.inl hname
      have hno' := Members.not_hasLeaf_of_off hlost hmembers heqm
      obtain ⟨hord, hrel⟩ := Members.ordered_of_not_hasLeaf hno'
      simp [Members.ordered, Members.relative, hord, hrel, hno, hno', hrestRel]
    · rw [Location.resolve_name habs] at heqm
      obtain ⟨hord, hrel⟩ := ihm heqm hmembers
      simp [Members.ordered, Members.relative, hord, hrel, hno, habs, hrestRel]

/-! ## Rearranging the writes -/

theorem Members.base_leaves {members : Members} {here : Location} {node : Option N} {e : Edit}
    (he : e ∈ members.leaves m here node) : e.place.base = here.base := by
  induction members generalizing here node with
  | nil => exact absurd he (by simp [Members.leaves])
  | leaf name v rest ih =>
    rcases List.mem_cons.mp he with rfl | he'
    · rfl
    · exact ih he'
  | obj name members rest ihm ihr =>
    rcases List.mem_append.mp he with he' | he'
    · exact (ihm he').trans rfl
    · exact ihr he'

theorem Members.base_lastDir {P : Prefixes} {members : Members}
    (h : ∀ name ∈ members.names, ¬ IsAbsolute name) (pos : Location) :
    (members.lastDir P pos).base = pos.base := by
  induction members generalizing pos with
  | nil => rfl
  | leaf name v rest ih => exact ih (fun n hn ↦ h n (List.mem_cons_of_mem _ hn)) pos
  | obj name members rest ihm ihr =>
    have hname := h name List.mem_cons_self
    rw [Members.lastDir, ihr fun n hn ↦ h n (List.mem_cons_of_mem _ (List.mem_append_right _ hn)),
      ihm fun n hn ↦ h n (List.mem_cons_of_mem _ (List.mem_append_left _ hn))]
    rw [Location.resolve_name hname]
    rfl

theorem Members.base_placed {members : Members} (h : ∀ name ∈ members.names, ¬ IsAbsolute name)
    {pos : Location} {node : Option N} {e : Edit} (he : e ∈ members.placed m pos node) :
    e.place.base = pos.base := by
  induction members generalizing pos node with
  | nil => exact absurd he (by simp [Members.placed])
  | leaf name v rest ih =>
    rcases List.mem_cons.mp he with rfl | he'
    · rw [Edit.place, Location.resolve_name (h name List.mem_cons_self)]
      rfl
    · exact ih (fun n hn ↦ h n (List.mem_cons_of_mem _ hn)) he'
  | obj name members rest ihm ihr =>
    have hmembers : ∀ n ∈ members.names, ¬ IsAbsolute n :=
      fun n hn ↦ h n (List.mem_cons_of_mem _ (List.mem_append_left _ hn))
    have hrest : ∀ n ∈ rest.names, ¬ IsAbsolute n :=
      fun n hn ↦ h n (List.mem_cons_of_mem _ (List.mem_append_right _ hn))
    rw [Members.placed, Location.resolve_name (h name List.mem_cons_self)] at he
    rcases List.mem_append.mp he with he' | he'
    · exact (ihm hmembers he').trans rfl
    · rw [ihr hrest he', Members.base_lastDir hmembers]
      rfl

/-- Under one base, a write that has strayed is deeper than it should be. -/
theorem forall₂_deeper {base : List Char} {xs ys : List Edit}
    (h : List.Forall₂ (fun p l ↦ p = l ∨ l.place.Off p.place) xs ys)
    (hxs : ∀ p ∈ xs, p.place.base = base) (hys : ∀ l ∈ ys, l.place.base = base) :
    List.Forall₂ (fun p l ↦ p = l ∨ l.place.names.length < p.place.names.length) xs ys := by
  induction h with
  | nil => exact List.Forall₂.nil
  | @cons p l xs ys hpl _ ih =>
    rw [List.forall_mem_cons] at hxs hys
    refine List.Forall₂.cons (hpl.imp id fun hoff ↦ ?_) (ih hxs.2 hys.2)
    exact hoff.resolve_left fun hbase ↦ hbase (hxs.1.trans hys.1.symm)

/-! ## Values -/

theorem Members.relative_of_names {members : Members}
    (h : ∀ name ∈ members.names, ¬ IsAbsolute name) : members.relative = true := by
  induction members with
  | nil => rfl
  | leaf name v rest ih =>
    have hrest := ih fun n hn ↦ h n (List.mem_cons_of_mem _ hn)
    simp [Members.relative, h name List.mem_cons_self, hrest]
  | obj name members rest ihm ihr =>
    have hmembers := ihm fun n hn ↦ h n (List.mem_cons_of_mem _ (List.mem_append_left _ hn))
    have hrest := ihr fun n hn ↦ h n (List.mem_cons_of_mem _ (List.mem_append_right _ hn))
    simp [Members.relative, h name List.mem_cons_self, hmembers, hrest]

theorem Json.length_placed (jval : Json) (pos here : Location) (node : Option N) :
    (jval.placed m pos node).length = (jval.leaves m here node).length := by
  cases jval with
  | leaf v => rfl
  | obj members => exact members.length_placed pos here node

theorem Json.placed_eq_leaves {jval : Json} (hord : jval.ordered = true)
    (hrel : jval.relative = true) (here : Location) (node : Option N) :
    jval.placed m here node = jval.leaves m here node := by
  cases jval with
  | leaf v => rfl
  | obj members => exact Members.placed_eq_leaves hord hrel here node

theorem Json.ordered_of_placed_eq {jval : Json} {here : Location} {node : Option N}
    (heq : jval.placed m here node = jval.leaves m here node)
    (havoid : ∀ name ∈ jval.names, m.prefixes.fixPathPrefixes name ≠ here.base) :
    jval.ordered = true ∧ jval.relative = true := by
  cases jval with
  | leaf v => exact ⟨rfl, rfl⟩
  | obj members => exact Members.ordered_of_placed_eq heq havoid

theorem Json.placed_eq_leaves_iff {jval : Json} {here : Location} {node : Option N} :
    jval.placed m here node = jval.leaves m here node ↔ jval.InPlace m.prefixes here := by
  cases jval with
  | leaf v => exact iff_of_true rfl trivial
  | obj members => exact Members.placed_eq_leaves_iff

/-- Which values are written where they belong, unless a member name is the path of the update. -/
theorem Json.inPlace_iff {jval : Json} {here : Location}
    (havoid : ∀ name ∈ jval.names, m.prefixes.fixPathPrefixes name ≠ here.base) :
    jval.InPlace m.prefixes here ↔ jval.ordered = true ∧ jval.relative = true := by
  have hplaced : jval.placed m here none = jval.leaves m here none ↔
      jval.InPlace m.prefixes here := Json.placed_eq_leaves_iff
  rw [← hplaced]
  exact ⟨fun heq ↦ Json.ordered_of_placed_eq heq havoid,
    fun h ↦ Json.placed_eq_leaves h.1 h.2 _ _⟩

theorem Json.forall₂_placed {jval : Json} {here : Location} {node : Option N}
    (havoid : ∀ name ∈ jval.names, m.prefixes.fixPathPrefixes name ≠ here.base) :
    List.Forall₂ (fun p l ↦ p = l ∨ l.place.Off p.place) (jval.placed m here node)
      (jval.leaves m here node) := by
  cases jval with
  | leaf v => exact List.Forall₂.cons (Or.inl rfl) List.Forall₂.nil
  | obj members => exact Members.forall₂_placed (Or.inl rfl) havoid

theorem Json.hasLeaf_iff {jval : Json} {here : Location} {node : Option N} :
    jval.hasLeaf = true ↔ jval.leaves m here node ≠ [] := by
  cases jval with
  | leaf v => exact iff_of_true rfl (List.cons_ne_nil _ _)
  | obj members =>
    refine ⟨fun h ↦ Members.leaves_ne_nil h here node, fun hne ↦ ?_⟩
    by_contra hno
    exact hne (Members.leaves_of_not_hasLeaf (by simpa [Json.hasLeaf] using hno) here node)

/-- Without leaves there is nothing to be out of place. -/
theorem Json.inPlace_of_not_hasLeaf {jval : Json} {here : Location} (h : jval.hasLeaf = false) :
    jval.InPlace m.prefixes here := by
  cases jval with
  | leaf v => exact trivial
  | obj members =>
    have hplaced : members.placed m here none = members.leaves m here none := by
      rw [Members.placed_of_not_hasLeaf h, Members.leaves_of_not_hasLeaf h]
    exact Members.placed_eq_leaves_iff.mp hplaced

theorem Json.base_leaves {jval : Json} {here : Location} {node : Option N} {e : Edit}
    (he : e ∈ jval.leaves m here node) : e.place.base = here.base := by
  cases jval with
  | leaf v =>
    rw [List.mem_singleton.mp he]
    rfl
  | obj members => exact Members.base_leaves he

/-- Writes that are the right ones up to their order are the right ones. -/
theorem Json.placed_eq_leaves_of_perm {jval : Json} {here : Location} {node : Option N}
    (havoid : ∀ name ∈ jval.names, m.prefixes.fixPathPrefixes name ≠ here.base)
    (hperm : (jval.placed m here node).Perm (jval.leaves m here node)) :
    jval.placed m here node = jval.leaves m here node := by
  refine eq_of_forall₂_of_perm (forall₂_deeper (Json.forall₂_placed havoid) (fun p hp ↦ ?_)
    fun l hl ↦ Json.base_leaves hl) hperm
  exact Json.base_leaves (hperm.mem_iff.mp hp)

end InPlace

/-! ## Every write of a transaction -/

/-- The JSON value an update carries. -/
def TypedValue.decoded (loads : List UInt8 → Option Json) : TypedValue → Option Json
  | .jsonVal bytes => loads bytes
  | .jsonIetfVal bytes => loads bytes
  | _ => none

section Transaction

variable {N D : Type}

/-- MAAPI carries out every `pushd` and every edit. -/
structure Maapi.AcceptsAll (m : Maapi N D) (d : D) : Prop where
  pushd : ∀ edits place, m.pushdOk d edits place = true
  edit : ∀ edits e, m.editOk d edits e = true

/-- A node that takes the value: an identityref takes text only. -/
def Maapi.Takes (m : Maapi N D) (node : Option N) (v : Leaf) : Prop :=
  ∃ n, node = some n ∧ (m.identityref n = true → v.isStr = true)

/-- The member names are known to the schema. -/
def Members.Known (m : Maapi N D) (node : Option N) : Members → Prop
  | .nil => True
  | .leaf name v rest =>
    m.Takes (m.csNodeCd node (m.prefixes.fixPathPrefixes name)) v ∧ rest.Known m node
  | .obj name members rest =>
    members.Known m (m.csNodeCd node (m.prefixes.fixPathPrefixes name)) ∧ rest.Known m node

def Json.Known (m : Maapi N D) (node : Option N) : Json → Prop
  | .leaf v => m.Takes node v
  | .obj members => members.Known m node

variable {m : Maapi N D} {d : D}

theorem Maapi.AcceptsAll.setLeaf (h : m.AcceptsAll d) {t : Trans} {path : List Char}
    {node : Option N} {v : Leaf} (htakes : m.Takes node v) :
    ∃ t', m.setLeaf d t path node v = .ok t' := by
  have hedit := Maapi.edit_eq_ok.mpr
    ⟨h.edit t.edits (.set (t.position.resolve path) (m.value node v)), rfl⟩
  exact ⟨_, Maapi.setLeaf_eq_ok.mpr ⟨htakes, hedit⟩⟩

theorem Maapi.AcceptsAll.updateMembers (h : m.AcceptsAll d) {t : Trans} {node : Option N}
    {members : Members} (hknown : members.Known m node) :
    ∃ t', m.updateMembers d t node members = .ok t' := by
  induction members generalizing t node with
  | nil => exact ⟨t, rfl⟩
  | leaf name v rest ih =>
    obtain ⟨t₁, hleaf⟩ := h.setLeaf (t := t) hknown.1
    obtain ⟨t', hrest⟩ := ih (t := t₁) hknown.2
    exact ⟨t', bind_eq_ok.mpr ⟨t₁, hleaf, hrest⟩⟩
  | obj name members rest ihm ihr =>
    have hpushd := Maapi.pushd_eq_ok.mpr
      ⟨h.pushd t.edits (t.position.resolve (m.prefixes.fixPathPrefixes name)), rfl⟩
    obtain ⟨t₂, hmembers⟩ := ihm hknown.1
    obtain ⟨t', hrest⟩ := ihr (t := t₂) hknown.2
    exact ⟨t', bind_eq_ok.mpr ⟨_, hpushd, bind_eq_ok.mpr ⟨t₂, hmembers, hrest⟩⟩⟩

theorem Maapi.AcceptsAll.updatePaths (h : m.AcceptsAll d) {t : Trans} {path : List Char}
    {jval : Json} (hknown : jval.Known m (m.csNodeCd none path)) :
    ∃ t', m.updatePaths d t path none jval = .ok t' := by
  cases jval with
  | leaf v => exact h.setLeaf hknown
  | obj members =>
    have hpushd := Maapi.pushd_eq_ok.mpr ⟨h.pushd t.edits (t.position.resolve path), rfl⟩
    obtain ⟨t', hmembers⟩ := h.updateMembers hknown
    exact ⟨t', bind_eq_ok.mpr ⟨_, hpushd, hmembers⟩⟩

variable {loads : List UInt8 → Option Json}

/-- The writes an update asks for: one for each leaf of its value. -/
def Maapi.intended (loads : List UInt8 → Option Json) (m : Maapi N D) (pfx : Path) (up : Update) :
    List Edit :=
  ((up.val.decoded loads).map fun jval ↦
    jval.leaves m (m.place pfx up.path) (m.node pfx up.path)).getD []

/-- An update with a structured value: a `json_ietf_val` whose member names are known to the schema
and are not absolute paths. -/
structure Maapi.Structured (loads : List UInt8 → Option Json) (m : Maapi N D) (pfx : Path)
    (up : Update) (jval : Json) : Prop where
  val : ∃ bytes, up.val = .jsonIetfVal bytes ∧ bytes ≠ [] ∧ loads bytes = some jval
  known : jval.Known m (m.node pfx up.path)
  relative : ∀ name ∈ jval.names, ¬ IsAbsolute name

theorem Maapi.Structured.written_eq {pfx : Path} {up : Update} {jval : Json}
    (h : m.Structured loads pfx up jval) :
    m.written loads pfx up = jval.placed m (m.place pfx up.path) (m.node pfx up.path) := by
  obtain ⟨bytes, hval, hne, hloads⟩ := h.val
  simp [Maapi.written, hval, hne, hloads]

theorem Maapi.Structured.decoded_eq {pfx : Path} {up : Update} {jval : Json}
    (h : m.Structured loads pfx up jval) : up.val.decoded loads = some jval := by
  obtain ⟨bytes, hval, -, hloads⟩ := h.val
  rw [hval, TypedValue.decoded, hloads]

theorem Maapi.Structured.intended_eq {pfx : Path} {up : Update} {jval : Json}
    (h : m.Structured loads pfx up jval) :
    m.intended loads pfx up = jval.leaves m (m.place pfx up.path) (m.node pfx up.path) := by
  rw [Maapi.intended, h.decoded_eq]
  rfl

theorem Maapi.Structured.avoids {pfx : Path} {up : Update} {jval : Json}
    (h : m.Structured loads pfx up jval) : ∀ name ∈ jval.names,
      m.prefixes.fixPathPrefixes name ≠ (m.place pfx up.path).base := by
  intro name hname heq
  have habs : IsAbsolute (m.prefixes.fixPathPrefixes name) := by
    rw [heq]
    exact m.isAbsolute_pathStr pfx up.path
  exact h.relative name hname (Prefixes.isAbsolute_fixPathPrefixes.mp habs)

/-- The names of a structured value never lead to another base, so what strays is deeper. -/
theorem Maapi.Structured.forall₂_written {pfx : Path} {up : Update} {jval : Json}
    (h : m.Structured loads pfx up jval) :
    List.Forall₂ (fun p l ↦ p = l ∨ l.place.names.length < p.place.names.length)
      (m.written loads pfx up) (m.intended loads pfx up) := by
  rw [h.written_eq, h.intended_eq]
  refine forall₂_deeper (Json.forall₂_placed h.avoids) (fun p hp ↦ ?_)
    fun l hl ↦ Json.base_leaves hl
  cases jval with
  | leaf v => rw [List.mem_singleton.mp hp]; rfl
  | obj members => exact Members.base_placed h.relative hp

theorem Maapi.AcceptsAll.setUpdate (h : m.AcceptsAll d) {t : Trans} {pfx : Path} {up : Update}
    {jval : Json} (hup : m.Structured loads pfx up jval) :
    ∃ t', m.setUpdate loads d t pfx up.path up.val = .ok (t', .update) := by
  obtain ⟨bytes, hval, hne, hloads⟩ := hup.val
  obtain ⟨t', ht'⟩ := h.updatePaths (t := t) hup.known
  refine ⟨t', bind_eq_ok.mpr ⟨t', ?_, rfl⟩⟩
  simpa [Maapi.setValue, hval, hne, hloads] using ht'

theorem Maapi.AcceptsAll.setUpdates (h : m.AcceptsAll d) {pfx : Path} {updates : List Update}
    (hups : ∀ up ∈ updates, ∃ jval, m.Structured loads pfx up jval) (t : Trans) :
    ∃ t' ops, m.setUpdates loads d pfx t updates = .ok (t', ops) := by
  induction updates generalizing t with
  | nil => exact ⟨t, [], rfl⟩
  | cons up updates ih =>
    rw [List.forall_mem_cons] at hups
    obtain ⟨⟨jval, hup⟩, hrest⟩ := hups
    obtain ⟨t₁, ht₁⟩ := h.setUpdate (t := t) hup
    obtain ⟨t', ops, ht'⟩ := ih hrest t₁
    exact ⟨t', _, bind_eq_ok.mpr ⟨(t₁, .update), ht₁, bind_eq_ok.mpr ⟨(t', ops), ht', rfl⟩⟩⟩

/-- No leaf of the value comes after an object member. -/
def TypedValue.ordered (loads : List UInt8 → Option Json) (val : TypedValue) : Bool :=
  (val.decoded loads).all Json.ordered

/-- The updates of a `set()` call make exactly one write for each leaf, at its place. -/
def Maapi.WritesLeaves (loads : List UInt8 → Option Json) (m : Maapi N D) (d : D) (pfx : Path)
    (updates : List Update) : Prop :=
  ∃ t ops, m.setUpdates loads d pfx .init updates = .ok (t, ops) ∧
    t.edits.Perm (updates.flatMap (m.intended loads pfx))

/-- A structured value is written where it belongs exactly when its leaves come before its
objects. -/
theorem Maapi.Structured.written_eq_intended_iff {pfx : Path} {up : Update} {jval : Json}
    (h : m.Structured loads pfx up jval) :
    m.written loads pfx up = m.intended loads pfx up ↔ up.val.ordered loads = true := by
  rw [TypedValue.ordered, h.decoded_eq, Option.all_some, h.written_eq, h.intended_eq,
    Json.placed_eq_leaves_iff, Json.inPlace_iff h.avoids]
  refine and_iff_left ?_
  cases jval with
  | leaf v => rfl
  | obj members => exact Members.relative_of_names h.relative

/-- **Structured updates.** When MAAPI carries out what it is told, the updates of a `set()` call
write each leaf exactly once and where it belongs if and only if, in every update, no leaf comes
after an object member in document order. -/
theorem writesLeaves_iff (loads : List UInt8 → Option Json) (m : Maapi N D) (d : D) (pfx : Path)
    (updates : List Update) (haccepts : m.AcceptsAll d)
    (hups : ∀ up ∈ updates, ∃ jval, m.Structured loads pfx up jval) :
    m.WritesLeaves loads d pfx updates ↔ ∀ up ∈ updates, up.val.ordered loads = true := by
  have hforall : ∀ up ∈ updates, List.Forall₂
      (fun p l ↦ p = l ∨ l.place.names.length < p.place.names.length)
      (m.written loads pfx up) (m.intended loads pfx up) := fun up hup ↦ by
    obtain ⟨jval, hs⟩ := hups up hup
    exact hs.forall₂_written
  constructor
  · rintro ⟨t, ops, hrun, hperm⟩ up hup
    have hedits := (Maapi.setUpdates_eq_ok hrun).1
    rw [hedits] at hperm
    have heq := eq_of_forall₂_of_perm (forall₂_flatMap hforall) hperm
    obtain ⟨jval, hs⟩ := hups up hup
    refine hs.written_eq_intended_iff.mp (eq_of_flatMap_eq (fun up hup ↦ ?_) heq up hup)
    exact Nat.le_of_eq (hforall up hup).length_eq
  · intro hord
    obtain ⟨t, ops, hrun⟩ := haccepts.setUpdates hups .init
    refine ⟨t, ops, hrun, ?_⟩
    have heq : ∀ up ∈ updates, m.written loads pfx up = m.intended loads pfx up := fun up hup ↦ by
      obtain ⟨jval, hs⟩ := hups up hup
      exact hs.written_eq_intended_iff.mpr (hord up hup)
    rw [(Maapi.setUpdates_eq_ok hrun).1, List.flatMap_congr heq]
    exact List.Perm.refl _

end Transaction

/-- No module name is replaced. -/
def noPrefixes : Prefixes := ⟨fun _ ↦ none, fun h ↦ absurd h (by simp)⟩

/-- A ConfD that knows every name, replaces no module name and accepts everything. -/
def openMaapi : Maapi Unit Unit where
  prefixes := noPrefixes
  csNodeCd _ _ := some ()
  identityref _ := false
  pushdOk _ _ _ := true
  editOk _ _ _ := true
  applyOk _ _ := true
  perform _ _ := ()

theorem openMaapi_acceptsAll : openMaapi.AcceptsAll () := ⟨fun _ _ ↦ rfl, fun _ _ ↦ rfl⟩

theorem Json.known_openMaapi (jval : Json) : jval.Known openMaapi (some ()) := by
  have htakes (v : Leaf) : openMaapi.Takes (some ()) v :=
    ⟨(), rfl, fun h ↦ absurd h (by simp [openMaapi])⟩
  have hmembers (members : Members) : members.Known openMaapi (some ()) := by
    induction members with
    | nil => trivial
    | leaf name v rest ih => exact ⟨htakes v, ih⟩
    | obj name members rest ihm ihr => exact ⟨ihm, ihr⟩
  cases jval with
  | leaf v => exact htakes v
  | obj members => exact hmembers members

/-- The path `/x`. -/
def pathX : Path := ⟨[⟨['x'], []⟩]⟩

/-- The text `{"c":2,"a":{"b":1}}`. -/
def leafFirst : List UInt8 :=
  [123, 34, 99, 34, 58, 50, 44, 34, 97, 34, 58, 123, 34, 98, 34, 58, 49, 125, 125]

def leafFirstValue : Json :=
  .obj (.leaf ['c'] (.num ['2']) (.obj ['a'] (.leaf ['b'] (.num ['1']) .nil) .nil))

/-- The text `{"a":{"b":1},"c":2}`. -/
def leafLast : List UInt8 :=
  [123, 34, 97, 34, 58, 123, 34, 98, 34, 58, 49, 125, 44, 34, 99, 34, 58, 50, 125]

def leafLastValue : Json :=
  .obj (.obj ['a'] (.leaf ['b'] (.num ['1']) .nil) (.leaf ['c'] (.num ['2']) .nil))

/-- `json.loads` on these two texts. -/
def loadsBoth (bytes : List UInt8) : Option Json :=
  if bytes = leafFirst then some leafFirstValue
  else if bytes = leafLast then some leafLastValue
  else none

theorem writesLeaves_leafFirst :
    openMaapi.WritesLeaves loadsBoth () ⟨[]⟩
      [⟨pathX, .jsonIetfVal leafFirst⟩, ⟨pathX, .jsonIetfVal leafFirst⟩] := by
  refine (writesLeaves_iff loadsBoth openMaapi () ⟨[]⟩ _ openMaapi_acceptsAll ?_).mpr (by decide)
  have hup : openMaapi.Structured loadsBoth ⟨[]⟩ ⟨pathX, .jsonIetfVal leafFirst⟩ leafFirstValue :=
    ⟨⟨leafFirst, rfl, by decide, rfl⟩, leafFirstValue.known_openMaapi, by decide⟩
  exact fun up h ↦ ⟨leafFirstValue, by rcases h with _ | ⟨_, _ | ⟨_, ⟨⟩⟩⟩ <;> exact hup⟩

/-- The leaf after the object is written below it, at `/x/a/c`. -/
theorem not_writesLeaves_leafLast :
    ¬ ∀ (loads : List UInt8 → Option Json) (m : Maapi Unit Unit) (d : Unit) (pfx : Path)
      (updates : List Update), m.AcceptsAll d →
      (∀ up ∈ updates, ∃ jval, m.Structured loads pfx up jval) →
      m.WritesLeaves loads d pfx updates := by
  intro h
  have hup : openMaapi.Structured loadsBoth ⟨[]⟩ ⟨pathX, .jsonIetfVal leafLast⟩ leafLastValue :=
    ⟨⟨leafLast, rfl, by decide, rfl⟩, leafLastValue.known_openMaapi, by decide⟩
  obtain ⟨t, ops, hrun, hperm⟩ := h loadsBoth openMaapi () ⟨[]⟩ [⟨pathX, .jsonIetfVal leafLast⟩]
    openMaapi_acceptsAll fun up hmem ↦ ⟨leafLastValue, List.mem_singleton.mp hmem ▸ hup⟩
  rw [(Maapi.setUpdates_eq_ok hrun).1] at hperm
  exact absurd hperm (by decide)

end ConfdDemos.Gnmi
