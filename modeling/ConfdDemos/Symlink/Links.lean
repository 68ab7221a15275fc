import Mathlib.Data.Fintype.Card
import Mathlib.Data.List.Find
import Mathlib.Data.List.Forall2
import ConfdDemos.Foundation.Delimited
import ConfdDemos.Symlink.Replacements

/-!
# Links of replaced symlinks

A symlink to a tree of containers and leaves becomes a copy of the tree, and every leaf of the copy
gets a link to the leaf that it is a copy of. The links are put in one after the other by a
recursion over the tree as it is in the heap, so each step has to leave the rest of the tree as it
was.

## Trees in the heap

`Below` is a path of data nodes, which `add_links` follows and `can_use_link` looks at. Two paths to
the same statement come from the same siblings, because a statement in a list has the owner of the
list as its parent.

## The copy

`pyang` copies the target. What is used of the copying is `Copied`: each statement has a copy with
the same keyword, its substatements are copied in order, and no argument changes but those that hold
an XPath expression.
-/

namespace ConfdDemos.SymlinkFixer

variable {isData : Keyword → Bool}

/-! ## Data nodes -/

def Heap.IsLeaf (h : Heap) (n : ℕ) : Prop :=
  (h.stmt n).keyword = .leaf ∨ (h.stmt n).keyword = .leafList

instance (h : Heap) (n : ℕ) : Decidable (h.IsLeaf n) := inferInstanceAs (Decidable (_ ∨ _))

/-- A data node below `n`, or `n` itself, with the names on the way to it. Leaves have no data nodes
below them. -/
inductive Below (isData : Keyword → Bool) (h : Heap) (n : ℕ) : List Text → ℕ → Prop
  | refl : Below isData h n [] n
  | tail {ns : List Text} {y z : ℕ} (hy : Below isData h n ns y) (hleaf : ¬h.IsLeaf y)
    (hz : z ∈ h.lists y) (hdata : isData (h.stmt z).keyword = true) :
    Below isData h n (ns ++ [(h.stmt z).arg]) z

namespace Below

variable {h : Heap} {n a z : ℕ} {ns : List Text}

theorem head (hleaf : ¬h.IsLeaf n) (ha : a ∈ h.lists n) (hdata : isData (h.stmt a).keyword = true)
    (hz : Below isData h a ns z) : Below isData h n ((h.stmt a).arg :: ns) z := by
  induction hz with
  | refl => exact .tail .refl hleaf ha hdata
  | tail _ hleaf' hz hdata' ih => exact .tail ih hleaf' hz hdata'

theorem cases_head (hz : Below isData h n ns z) : (ns = [] ∧ z = n) ∨
    (¬h.IsLeaf n ∧ ∃ a ∈ h.lists n, isData (h.stmt a).keyword = true ∧
      ∃ ms, ns = (h.stmt a).arg :: ms ∧ Below isData h a ms z) := by
  induction hz with
  | refl => exact .inl ⟨rfl, rfl⟩
  | tail _ hleaf hz hdata ih =>
    rcases ih with ⟨rfl, rfl⟩ | ⟨hleaf', a, ha, hdata', ms, rfl, hms⟩
    · exact .inr ⟨hleaf, _, hz, hdata, [], rfl, .refl⟩
    · exact .inr ⟨hleaf', a, ha, hdata', _, rfl, hms.tail hleaf hz hdata⟩

theorem of_isLeaf (hleaf : h.IsLeaf n) (hz : Below isData h n ns z) : ns = [] ∧ z = n :=
  hz.cases_head.resolve_right fun h ↦ h.1 hleaf

end Below

/-! ## Heaps that are alike -/

theorem exists_mem_of_forall₂ {α β : Type*} {R : α → β → Prop} {l : List α} {l' : List β} {a : α}
    (h : List.Forall₂ R l l') (ha : a ∈ l) : ∃ b ∈ l', R a b := by
  induction h with
  | nil => exact absurd ha List.not_mem_nil
  | cons hab _ ih =>
    rcases List.mem_cons.mp ha with rfl | ha
    · exact ⟨_, List.mem_cons_self, hab⟩
    · obtain ⟨b, hb, hr⟩ := ih ha
      exact ⟨b, List.mem_cons_of_mem _ hb, hr⟩

/-- The data nodes that are related have the same names below them. -/
structure Alike (isData : Keyword → Bool) (h h' : Heap) (R : ℕ → ℕ → Prop) : Prop where
  keyword : ∀ x y, R x y → (h'.stmt y).keyword = (h.stmt x).keyword
  substmts : ∀ x y, R x y → ¬h.IsLeaf x → List.Forall₂ (fun u v ↦
    (h'.stmt v).keyword = (h.stmt u).keyword ∧ (isData (h.stmt u).keyword = true →
      R u v ∧ (h'.stmt v).arg = (h.stmt u).arg)) (h.lists x) (h'.lists y)

/-- The names of the data nodes in a statement. -/
def Heap.names (isData : Keyword → Bool) (h : Heap) (n : ℕ) : List Text :=
  ((h.lists n).filter fun y ↦ isData (h.stmt y).keyword).map fun y ↦ (h.stmt y).arg

namespace Alike

variable {h h' : Heap} {R : ℕ → ℕ → Prop} {a b x y : ℕ} {ns : List Text}

theorem isLeaf_iff (hal : Alike isData h h' R) (hr : R x y) : h'.IsLeaf y ↔ h.IsLeaf x := by
  rw [Heap.IsLeaf, Heap.IsLeaf, hal.keyword x y hr]

theorem symm (hal : Alike isData h h' R) : Alike isData h' h (flip R) where
  keyword y x hr := (hal.keyword x y hr).symm
  substmts y x hr hleaf := by
    have hlists := hal.substmts x y hr fun hl ↦ hleaf ((hal.isLeaf_iff hr).mpr hl)
    refine List.Forall₂.flip (hlists.imp ?_)
    intro u v ⟨hkey, hdata⟩
    refine ⟨hkey.symm, fun hv ↦ ?_⟩
    rw [hkey] at hv
    exact ⟨(hdata hv).1, (hdata hv).2.symm⟩

theorem below (hal : Alike isData h h' R) (hr : R a b) (hx : Below isData h a ns x) :
    ∃ y, Below isData h' b ns y ∧ R x y := by
  induction hx with
  | refl => exact ⟨b, .refl, hr⟩
  | tail _ hleaf hz hdata ih =>
    obtain ⟨y', hy', hr'⟩ := ih
    obtain ⟨v, hv, hkey, hrv⟩ := exists_mem_of_forall₂ (hal.substmts _ _ hr' hleaf) hz
    obtain ⟨hrv, harg⟩ := hrv hdata
    refine ⟨v, ?_, hrv⟩
    rw [← harg]
    exact hy'.tail (fun hl ↦ hleaf ((hal.isLeaf_iff hr').mp hl)) hv (hkey ▸ hdata)

theorem names_eq (hal : Alike isData h h' R) (hr : R x y) (hleaf : ¬h.IsLeaf x) :
    h'.names isData y = h.names isData x := by
  have hlists := hal.substmts x y hr hleaf
  rw [Heap.names, Heap.names]
  generalize h.lists x = l, h'.lists y = l' at hlists
  induction hlists with
  | nil => rfl
  | cons huv _ ih =>
    obtain ⟨hkey, hdata⟩ := huv
    rw [List.filter_cons, List.filter_cons, hkey]
    split_ifs with hd
    · rw [List.map_cons, List.map_cons, ih, (hdata hd).2]
    · exact ih

end Alike

/-! ## New statements -/

/-- The new statements are trees of one module. -/
structure Grown (h₀ : Heap) (top : ℕ) (h : Heap) : Prop extends Fresh h₀ h where
  parent : ∀ n, h₀.next ≤ n → ∀ y ∈ h.lists n, (h.stmt y).parent = some n
  top_eq : ∀ x, h₀.next ≤ x → x < h.next → (h.stmt x).top = top

section Grown

variable {h₀ h : Heap} {top n a b z : ℕ} {ns ms : List Text}

theorem Fresh.below_le (hf : Fresh h₀ h) (hn : h₀.next ≤ n) (hz : Below isData h n ns z) :
    n ≤ z := by
  induction hz with
  | refl => exact le_rfl
  | tail _ _ hz _ ih => exact ih.trans (hf.child _ (hn.trans ih) _ hz).1.le

theorem Fresh.below_lt (hf : Fresh h₀ h) (hn : h₀.next ≤ n) (hlt : n < h.next)
    (hz : Below isData h n ns z) : z < h.next := by
  rcases hz with - | ⟨hy, -, hmem, -⟩
  · exact hlt
  · exact (hf.child _ (hn.trans (hf.below_le hn hy)) _ hmem).2

/-- Of two nodes above a statement one is above the other. -/
theorem Grown.linear (hg : Grown h₀ top h) (ha : h₀.next ≤ a) (hb : h₀.next ≤ b)
    (haz : Below isData h a ns z) (hbz : Below isData h b ms z) :
    (∃ ls, Below isData h a ls b) ∨ ∃ ls, Below isData h b ls a := by
  induction haz generalizing ms with
  | refl => exact .inr ⟨ms, hbz⟩
  | tail hy hleaf hz hdata ih =>
    rcases hbz with - | ⟨hy', -, hz', -⟩
    · exact .inl ⟨_, hy.tail hleaf hz hdata⟩
    · have hparent := hg.parent _ (ha.trans (hg.below_le ha hy)) _ hz
      rw [hg.parent _ (hb.trans (hg.below_le hb hy')) _ hz'] at hparent
      obtain rfl := Option.some_inj.mp hparent
      exact ih hy'

/-- A sibling is not below a sibling. -/
theorem Grown.sibling_eq (hg : Grown h₀ top h) (hn : h₀.next ≤ n) (ha : a ∈ h.lists n)
    (hb : b ∈ h.lists n) (hab : Below isData h a ns b) : b = a := by
  have hlt := (hg.child n hn a ha).1
  rcases hab with - | ⟨hy, -, hz, -⟩
  · rfl
  · have hle := hg.below_le (hn.trans hlt.le) hy
    have hparent := hg.parent _ (hn.trans (hlt.le.trans hle)) _ hz
    rw [hg.parent n hn b hb] at hparent
    obtain rfl := Option.some_inj.mp hparent
    exact absurd hle (Nat.not_le.mpr hlt)

/-- Nothing is below two siblings. -/
theorem Grown.disjoint (hg : Grown h₀ top h) (hn : h₀.next ≤ n) (ha : a ∈ h.lists n)
    (hb : b ∈ h.lists n) (haz : Below isData h a ns z) (hbz : Below isData h b ms z) : a = b := by
  have hle : h₀.next ≤ a := hn.trans (hg.child n hn a ha).1.le
  have hle' : h₀.next ≤ b := hn.trans (hg.child n hn b hb).1.le
  rcases hg.linear hle hle' haz hbz with ⟨ls, hab⟩ | ⟨ls, hba⟩
  · exact (hg.sibling_eq hn ha hb hab).symm
  · exact hg.sibling_eq hn hb ha hba

end Grown

/-! ## Links -/

def linkStmt (tfPrefix arg : Text) (node top : ℕ) : Stmt :=
  ⟨.extension tfPrefix "link".toList, arg, some node, top, []⟩

/-- Each statement that `L` has an argument for has got one link with it, behind what it had, and
nothing else has changed. -/
structure Linked (tfPrefix : Text) (L : ℕ → Text → Prop) (h h' : Heap) : Prop where
  le : h.next ≤ h'.next
  link : ∀ z arg, L z arg → ∃ l, h.next ≤ l ∧ l < h'.next ∧
    h'.stmt z = { h.stmt z with substmts := h.lists z ++ [l] } ∧
    h'.stmt l = linkStmt tfPrefix arg z (h.stmt z).top
  other : ∀ x < h.next, (∀ arg, ¬L x arg) → h'.stmt x = h.stmt x
  only : ∀ l, h.next ≤ l → l < h'.next → ∃ z arg, L z arg ∧ l ∈ h'.lists z

namespace Linked

variable {tfPrefix : Text} {L M : ℕ → Text → Prop} {h k h' : Heap}

theorem refl (hL : ∀ z arg, ¬L z arg) : Linked tfPrefix L h h where
  le := le_rfl
  link z arg hz := absurd hz (hL z arg)
  other _ _ _ := rfl
  only _ hle hlt := absurd hle (Nat.not_le.mpr hlt)

theorem congr (hlinked : Linked tfPrefix L h h') (hLM : ∀ z arg, L z arg ↔ M z arg) :
    Linked tfPrefix M h h' := by
  obtain rfl : L = M := funext₂ fun z arg ↦ propext (hLM z arg)
  exact hlinked

/-- First some statements get their links, then others. -/
theorem trans (h₁ : Linked tfPrefix L h k) (h₂ : Linked tfPrefix M k h')
    (hL : ∀ z arg, L z arg → z < h.next) (hM : ∀ z arg, M z arg → z < h.next)
    (hdisj : ∀ z arg arg', L z arg → ¬M z arg') :
    Linked tfPrefix (fun z arg ↦ L z arg ∨ M z arg) h h' where
  le := h₁.le.trans h₂.le
  link z arg hz := by
    rcases hz with hz | hz
    · obtain ⟨l, hle, hlt, hstmt, hl⟩ := h₁.link z arg hz
      refine ⟨l, hle, hlt.trans_le h₂.le, ?_, ?_⟩
      · rw [h₂.other z ((hL z arg hz).trans_le h₁.le) fun arg' ↦ hdisj z arg arg' hz, hstmt]
      · rw [h₂.other l hlt fun arg' hl' ↦ Nat.not_lt.mpr hle (hM l arg' hl'), hl]
    · obtain ⟨l, hle, hlt, hstmt, hl⟩ := h₂.link z arg hz
      have hsame : k.stmt z = h.stmt z :=
        h₁.other z (hM z arg hz) fun arg' hz' ↦ hdisj z arg' arg hz' hz
      refine ⟨l, h₁.le.trans hle, hlt, ?_, ?_⟩
      · rw [hstmt, Heap.lists, hsame, Heap.lists]
      · rw [hl, hsame]
  other x hx hnot := by
    rw [h₂.other x (hx.trans_le h₁.le) fun arg hm ↦ hnot arg (.inr hm)]
    exact h₁.other x hx fun arg hl ↦ hnot arg (.inl hl)
  only l hle hlt := by
    rcases lt_or_ge l k.next with hl | hl
    · obtain ⟨z, arg, hz, hmem⟩ := h₁.only l hle hl
      refine ⟨z, arg, .inl hz, ?_⟩
      rwa [Heap.lists, h₂.other z ((hL z arg hz).trans_le h₁.le) fun arg' ↦ hdisj z arg arg' hz]
    · obtain ⟨z, arg, hz, hmem⟩ := h₂.only l hl hlt
      exact ⟨z, arg, .inr hz, hmem⟩

end Linked

/-! ## Adding links -/

/-- A slash, the prefix and the name for each step. -/
def steps (targetPrefix : Text) (ns : List Text) : Text :=
  ns.flatMap fun n ↦ '/' :: (targetPrefix ++ ':' :: n)

/-- The leaves that get a link, and the arguments of the links. -/
def Gets (isData : Keyword → Bool) (targetPrefix : Text) (h : Heap) (path : Text) (n z : ℕ)
    (arg : Text) : Prop :=
  ∃ ns, Below isData h n ns z ∧ h.IsLeaf z ∧ arg = path ++ steps targetPrefix ns

section Gets

variable {h : Heap} {targetPrefix path arg : Text} {n z : ℕ}

theorem gets_iff_of_isLeaf (hleaf : h.IsLeaf n) :
    Gets isData targetPrefix h path n z arg ↔ z = n ∧ arg = path := by
  constructor
  · rintro ⟨ns, hz, -, rfl⟩
    obtain ⟨rfl, rfl⟩ := hz.of_isLeaf hleaf
    exact ⟨rfl, List.append_nil _⟩
  · rintro ⟨rfl, rfl⟩
    exact ⟨[], .refl, hleaf, (List.append_nil _).symm⟩

theorem gets_iff_of_not_isLeaf (hleaf : ¬h.IsLeaf n) :
    Gets isData targetPrefix h path n z arg ↔
      ∃ a ∈ h.lists n, isData (h.stmt a).keyword = true ∧ Gets isData targetPrefix h
        (path ++ '/' :: (targetPrefix ++ ':' :: (h.stmt a).arg)) a z arg := by
  constructor
  · rintro ⟨ns, hz, hz', rfl⟩
    rcases hz.cases_head with ⟨rfl, rfl⟩ | ⟨-, a, ha, hdata, ms, rfl, hms⟩
    · exact absurd hz' hleaf
    · refine ⟨a, ha, hdata, ms, hms, hz', ?_⟩
      rw [steps, List.flatMap_cons, List.append_assoc]
      rfl
  · rintro ⟨a, ha, hdata, ms, hms, hz', rfl⟩
    refine ⟨(h.stmt a).arg :: ms, hms.head hleaf ha hdata, hz', ?_⟩
    rw [List.append_assoc]
    rfl

end Gets

section AddLinks

variable {h₀ h k : Heap} {top node : ℕ} {tfPrefix targetPrefix path : Text}

/-- What `add_links` does at a leaf. -/
theorem exists_addLink (path : Text) (hlt : node < h.next)
    (hmod : h.modulePrefix (h.stmt node).top tailf = some tfPrefix) :
    ∃ h', h.addLink path node = some h' ∧ h'.next = h.next + 1 ∧
      h'.stmt node = { h.stmt node with substmts := h.lists node ++ [h.next] } ∧
      h'.stmt h.next = linkStmt tfPrefix path node (h.stmt node).top ∧
      ∀ x, x ≠ node → x ≠ h.next → h'.stmt x = h.stmt x := by
  rw [Heap.addLink, hmod]
  refine ⟨_, rfl, rfl, ?_, ?_, fun x hx hx' ↦ ?_⟩
  · rw [Heap.stmt_setSubstmts, Heap.lists, Heap.stmt_alloc_of_ne _ hlt.ne, Heap.lists]
  · rw [Heap.stmt_setSubstmts_of_ne _ hlt.ne', Heap.stmt_alloc_next]
    rfl
  · rw [Heap.stmt_setSubstmts_of_ne _ hx, Heap.stmt_alloc_of_ne _ hx']

theorem linked_addLink (path : Text) (hg : Grown h₀ top h) (hle : h₀.next ≤ node)
    (hlt : node < h.next) (hmod : h.modulePrefix top tailf = some tfPrefix) :
    ∃ h', h.addLink path node = some h' ∧
      Linked tfPrefix (fun z arg ↦ z = node ∧ arg = path) h h' ∧ Grown h₀ top h' := by
  have htop := hg.top_eq node hle hlt
  obtain ⟨h', heq, hnext, hnode, hlink, hother⟩ :=
    exists_addLink path hlt (by rw [htop]; exact hmod)
  have hkept := Kept.addLink heq
  have hfresh := hg.toFresh.addLink hle hlt heq
  have hsub (n y : ℕ) (hy : y ∈ h'.lists n) : (n = node ∧ y = h.next) ∨ y ∈ h.lists n := by
    rcases eq_or_ne n node with rfl | hn
    · rw [Heap.lists, hnode, List.mem_append, List.mem_singleton] at hy
      exact hy.symm.imp_left fun hy ↦ ⟨rfl, hy⟩
    rcases eq_or_ne n h.next with rfl | hn'
    · rw [Heap.lists, hlink] at hy
      exact absurd hy List.not_mem_nil
    · rw [Heap.lists, hother n hn hn'] at hy
      exact .inr hy
  refine ⟨h', heq, ⟨by omega, ?_, ?_, ?_⟩, hfresh, ?_, ?_⟩
  · rintro z arg ⟨rfl, rfl⟩
    exact ⟨h.next, le_rfl, by omega, hnode, hlink⟩
  · exact fun x hx hnot ↦ hother x (fun hx' ↦ hnot path ⟨hx', rfl⟩) hx.ne
  · intro l hl hl'
    obtain rfl : l = h.next := by omega
    refine ⟨node, path, ⟨rfl, rfl⟩, ?_⟩
    rw [Heap.lists, hnode]
    exact List.mem_append_right _ (List.mem_singleton_self _)
  · intro n hn y hy
    rcases hsub n y hy with ⟨rfl, rfl⟩ | hy
    · rw [hlink]
      rfl
    · rw [hkept.parent (hg.child n hn y hy).2]
      exact hg.parent n hn y hy
  · intro x hx hx'
    rcases Nat.lt_succ_iff_lt_or_eq.mp (hnext ▸ hx') with hlt' | rfl
    · rw [hkept.top hlt']
      exact hg.top_eq x hx hlt'
    · rw [hlink]
      exact htop

/-- A tree that has not changed. -/
theorem alike_of_same {a : ℕ} (hf : Fresh h₀ h) (ha : h₀.next ≤ a) (hkept : Kept h k)
    (hsame : ∀ ns z, Below isData h a ns z → k.stmt z = h.stmt z) :
    Alike isData h k fun x y ↦ x = y ∧ ∃ ns, Below isData h a ns x where
  keyword := by
    rintro x y ⟨rfl, ns, hx⟩
    rw [hsame ns x hx]
  substmts := by
    rintro x y ⟨rfl, ns, hx⟩ hleaf
    rw [Heap.lists, Heap.lists, hsame ns x hx, List.forall₂_same]
    intro u hu
    have hlt := (hf.child x (ha.trans (hf.below_le ha hx)) u hu).2
    exact ⟨hkept.keyword hlt, fun hdata ↦ ⟨⟨rfl, _, hx.tail hleaf hu hdata⟩, hkept.arg hlt⟩⟩

theorem gets_iff_of_same {a z : ℕ} {arg : Text} (hf : Fresh h₀ h) (ha : h₀.next ≤ a)
    (hkept : Kept h k) (hsame : ∀ ns z, Below isData h a ns z → k.stmt z = h.stmt z) :
    Gets isData targetPrefix k path a z arg ↔ Gets isData targetPrefix h path a z arg := by
  have hal := alike_of_same hf ha hkept hsame
  constructor
  · rintro ⟨ns, hz, hleaf, rfl⟩
    obtain ⟨y, hy, rfl, hr⟩ := hal.symm.below ⟨rfl, [], .refl⟩ hz
    exact ⟨ns, hy, (hal.isLeaf_iff ⟨rfl, hr⟩).mp hleaf, rfl⟩
  · rintro ⟨ns, hz, hleaf, rfl⟩
    obtain ⟨y, hy, rfl, hr⟩ := hal.below ⟨rfl, [], .refl⟩ hz
    exact ⟨ns, hy, (hal.isLeaf_iff ⟨rfl, hr⟩).mpr hleaf, rfl⟩

/-- What a call of `add_links` has to do. -/
def AddsLinks (isData : Keyword → Bool) (targetPrefix tfPrefix : Text) (h₀ : Heap)
    (top fuel : ℕ) : Prop :=
  ∀ path node h, Grown h₀ top h → h₀.next ≤ node → node < h.next →
    (∀ ns z, Below isData h node ns z → z < node + fuel) →
    ∃ h', Heap.addLinks isData targetPrefix fuel path node h = some h' ∧
      Linked tfPrefix (Gets isData targetPrefix h path node) h h' ∧ Grown h₀ top h'

/-- The loop over the substatements; those that it has not come to are still as they were. -/
theorem linked_foldlM {fuel : ℕ} (ih : AddsLinks isData targetPrefix tfPrefix h₀ top fuel)
    (hg : Grown h₀ top h) (hle : h₀.next ≤ node) (hleaf : ¬h.IsLeaf node)
    (hfuel : ∀ ns z, Below isData h node ns z → z < node + (fuel + 1)) (l : List ℕ)
    (hl : l ⊆ h.lists node) (hnodup : l.Nodup) (hk : Grown h₀ top k) (hkept : Kept h k)
    (hsame : ∀ a ∈ l, isData (h.stmt a).keyword = true → ∀ ns z, Below isData h a ns z →
      k.stmt z = h.stmt z) :
    ∃ h', l.foldlM (fun h subnode ↦
        if isData (h.stmt subnode).keyword then
          Heap.addLinks isData targetPrefix fuel
            (path ++ '/' :: (targetPrefix ++ ':' :: (h.stmt subnode).arg)) subnode h
        else some h) k = some h' ∧
      Linked tfPrefix (fun z arg ↦ ∃ a ∈ l, isData (h.stmt a).keyword = true ∧
        Gets isData targetPrefix h (path ++ '/' :: (targetPrefix ++ ':' :: (h.stmt a).arg)) a z arg)
        k h' ∧ Grown h₀ top h' := by
  induction l generalizing k with
  | nil => exact ⟨k, rfl, .refl fun z arg ⟨a, ha, _⟩ ↦ List.not_mem_nil ha, hk⟩
  | cons a l ihl =>
    have ha := hl List.mem_cons_self
    have hl' : l ⊆ h.lists node := fun b hb ↦ hl (List.mem_cons_of_mem _ hb)
    have hnot := (List.nodup_cons.mp hnodup).1
    have hnodup' := (List.nodup_cons.mp hnodup).2
    obtain ⟨hlt, hlt'⟩ := hg.child node hle a ha
    rw [List.foldlM_cons, hkept.keyword hlt', hkept.arg hlt']
    by_cases hdata : isData (h.stmt a).keyword = true
    · rw [if_pos hdata]
      have hle_a : h₀.next ≤ a := hle.trans hlt.le
      have hsame_a := hsame a List.mem_cons_self hdata
      have hfuel_a : ∀ ns z, Below isData k a ns z → z < a + fuel := by
        intro ns z hz
        obtain ⟨y, hy, rfl, -⟩ := (alike_of_same hg.toFresh hle_a hkept hsame_a).symm.below
          ⟨rfl, [], .refl⟩ hz
        have := hfuel _ _ (hy.head hleaf ha hdata)
        omega
      obtain ⟨k₁, hk₁, hlinked, hg₁⟩ := ih (path ++ '/' :: (targetPrefix ++ ':' :: (h.stmt a).arg))
        a k hk hle_a (hlt'.trans_le hkept.le) hfuel_a
      have hL := hlinked.congr fun z arg ↦ gets_iff_of_same hg.toFresh hle_a hkept hsame_a
      -- what is below the other substatements is not below this one
      have hdisj : ∀ b ∈ l, ∀ ns ms z, Below isData h a ns z → ¬Below isData h b ms z := by
        intro b hb ns ms z haz hbz
        obtain rfl := hg.disjoint hle ha (hl' hb) haz hbz
        exact hnot hb
      have hlt_of : ∀ b ∈ h.lists node, ∀ ns z, Below isData h b ns z → z < k.next := by
        intro b hb ns z hz
        obtain ⟨hb, hb'⟩ := hg.child node hle b hb
        exact (hg.toFresh.below_lt (hle.trans hb.le) hb' hz).trans_le hkept.le
      have hsame' : ∀ b ∈ l, isData (h.stmt b).keyword = true → ∀ ns z, Below isData h b ns z →
          k₁.stmt z = h.stmt z := by
        intro b hb hdata' ns z hz
        rw [hL.other z (hlt_of b (hl' hb) ns z hz),
          hsame b (List.mem_cons_of_mem _ hb) hdata' ns z hz]
        rintro arg ⟨ms, hms, -⟩
        exact hdisj b hb ms ns z hms hz
      obtain ⟨h', hfold, hlinked', hg'⟩ :=
        ihl hl' hnodup' hg₁ (hkept.trans (Kept.addLinks hk₁)) hsame'
      refine ⟨h', ?_, (hL.trans hlinked' ?_ ?_ ?_).congr ?_, hg'⟩
      · rw [hk₁]
        exact hfold
      · rintro z arg ⟨ns, hz, -⟩
        exact hlt_of a ha ns z hz
      · rintro z arg ⟨b, hb, -, ns, hz, -⟩
        exact hlt_of b (hl' hb) ns z hz
      · rintro z arg arg' ⟨ns, hz, -⟩ ⟨b, hb, -, ms, hz', -⟩
        exact hdisj b hb ns ms z hz hz'
      · intro z arg
        rw [List.exists_mem_cons_iff]
        exact or_congr_left (and_iff_right hdata).symm
    · rw [if_neg hdata]
      obtain ⟨h', hfold, hlinked, hg'⟩ :=
        ihl hl' hnodup' hk hkept fun b hb ↦ hsame b (List.mem_cons_of_mem _ hb)
      refine ⟨h', hfold, hlinked.congr fun z arg ↦ ?_, hg'⟩
      rw [List.exists_mem_cons_iff]
      exact (or_iff_right fun h ↦ hdata h.1).symm

theorem addsLinks (hmod : ∀ k, Fresh h₀ k → k.modulePrefix top tailf = some tfPrefix) (fuel : ℕ) :
    AddsLinks isData targetPrefix tfPrefix h₀ top fuel := by
  induction fuel with
  | zero =>
    intro path node h _ _ _ hfuel
    exact absurd (hfuel [] node .refl) (lt_irrefl _)
  | succ fuel ih =>
    intro path node h hg hle hlt hfuel
    by_cases hleaf : h.IsLeaf node
    · obtain ⟨h', heq, hlinked, hg'⟩ := linked_addLink path hg hle hlt (hmod h hg.toFresh)
      exact ⟨h', (if_pos hleaf).trans heq,
        hlinked.congr fun z arg ↦ (gets_iff_of_isLeaf hleaf).symm, hg'⟩
    · obtain ⟨h', heq, hlinked, hg'⟩ := linked_foldlM ih hg hle hleaf hfuel (h.lists node)
        (List.Subset.refl _) (hg.nodup node hle) hg (.refl h) fun _ _ _ _ _ _ ↦ rfl
      exact ⟨h', (if_neg hleaf).trans heq,
        hlinked.congr fun z arg ↦ (gets_iff_of_not_isLeaf hleaf).symm, hg'⟩

end AddLinks

/-! ## Prefixes -/

section Prefixes

variable {h k : Heap} {n : ℕ}

theorem Fresh.find?_lists (hf : Fresh h k) (hlists : ∀ n, ∀ y ∈ h.lists n, y < h.next)
    (hn : n < h.next) (p : Stmt → Bool) :
    ((k.lists n).find? fun x ↦ p (k.stmt x)) = (h.lists n).find? fun x ↦ p (h.stmt x) := by
  rw [hf.lists_old hn]
  exact List.find?_congr fun x hx ↦ by rw [hf.old x (hlists n x hx)]

/-- New statements do not change the prefixes of a module. -/
theorem Fresh.modulePrefix_eq (hf : Fresh h k) (hlists : ∀ n, ∀ y ∈ h.lists n, y < h.next)
    (hn : n < h.next) (name : Text) : k.modulePrefix n name = h.modulePrefix n name := by
  have himport : k.searchImport n name = h.searchImport n name :=
    hf.find?_lists hlists hn fun st ↦ st.keyword = .importStmt ∧ st.arg = name
  rw [Heap.modulePrefix, Heap.modulePrefix, hf.old n hn, himport]
  refine Option.bind_congr fun m hm ↦ ?_
  have hm' : m < h.next := by
    split_ifs at hm with harg
    · obtain rfl := Option.some_inj.mp hm
      exact hn
    · exact hlists n m (List.mem_of_find?_eq_some hm)
  have hone : k.searchOne m .prefixStmt = h.searchOne m .prefixStmt :=
    hf.find?_lists hlists hm' fun st ↦ st.keyword = .prefixStmt
  rw [hone]
  refine Option.map_congr fun p hp ↦ ?_
  rw [hf.old p (hlists m p (List.mem_of_find?_eq_some hp))]

end Prefixes

/-! ## Trees that are accepted

There is no bound on the depth of the recursion in `can_use_link`. One that ends is not deeper than
there are statements: the depths that are left on the way down are all different. -/

section CanUseLink

variable {h : Heap} {n fuel fuel' : ℕ}

theorem canUseLink_mono (hle : fuel ≤ fuel') (hn : h.canUseLink isData fuel n = true) :
    h.canUseLink isData fuel' n = true := by
  induction fuel generalizing n fuel' with
  | zero => exact absurd hn Bool.false_ne_true
  | succ fuel ih =>
    obtain ⟨f, rfl⟩ := Nat.exists_eq_add_of_lt hle
    rw [Heap.canUseLink] at hn ⊢
    split_ifs at hn ⊢ with hkey
    rw [List.all_eq_true] at hn ⊢
    intro y hy
    have := hn y hy
    rw [Bool.or_eq_true] at this ⊢
    exact this.imp_right (ih (by omega))

/-- The depth of a tree that is accepted. -/
def Depth (isData : Keyword → Bool) (h : Heap) (fuel n : ℕ) : Prop :=
  h.canUseLink isData fuel n = true ∧ ∀ f < fuel, h.canUseLink isData f n = false

theorem Depth.unique (hd : Depth isData h fuel n) (hd' : Depth isData h fuel' n) :
    fuel = fuel' := by
  rcases lt_trichotomy fuel fuel' with hlt | rfl | hlt
  · exact absurd ((hd'.2 _ hlt).symm.trans hd.1) Bool.false_ne_true
  · rfl
  · exact absurd ((hd.2 _ hlt).symm.trans hd'.1) Bool.false_ne_true

theorem exists_depth (hn : h.canUseLink isData fuel n = true) :
    ∃ f ≤ fuel, Depth isData h f n := by
  classical
  have hex : ∃ f, h.canUseLink isData f n = true := ⟨fuel, hn⟩
  refine ⟨Nat.find hex, Nat.find_min' hex hn, Nat.find_spec hex, fun f hf ↦ ?_⟩
  exact Bool.eq_false_iff.mpr (Nat.find_min hex hf)

/-- Something in a tree is one less deep. -/
theorem Depth.exists_mem (hd : Depth isData h (fuel + 2) n) :
    ∃ y ∈ h.lists n, Depth isData h (fuel + 1) y := by
  obtain ⟨htrue, hfalse⟩ := hd
  have hshallow := hfalse (fuel + 1) (Nat.lt_succ_self _)
  rw [Heap.canUseLink] at htrue hshallow
  split_ifs at htrue hshallow with hkey
  rw [List.all_eq_true] at htrue
  rw [List.all_eq_false] at hshallow
  obtain ⟨y, hy, hnot⟩ := hshallow
  have hacc := htrue y hy
  rw [Bool.or_eq_true] at hnot hacc
  refine ⟨y, hy, hacc.resolve_left fun h ↦ hnot (.inl h), fun f hf ↦ ?_⟩
  exact Bool.eq_false_iff.mpr fun h ↦ hnot (.inr (canUseLink_mono (Nat.lt_succ_iff.mp hf) h))

theorem Depth.exists_of_lt (hlists : ∀ n, ∀ y ∈ h.lists n, y < h.next) (hn : n < h.next)
    (hd : Depth isData h fuel n) {i d : ℕ} (hi : i + 1 + d = fuel) :
    ∃ y : Fin h.next, Depth isData h (i + 1) y := by
  induction d generalizing i with
  | zero => exact ⟨⟨n, hn⟩, hi ▸ hd⟩
  | succ d ih =>
    obtain ⟨y, hy⟩ := ih (i := i + 1) (by omega)
    obtain ⟨z, hz, hdz⟩ := hy.exists_mem
    exact ⟨⟨z, hlists y z hz⟩, hdz⟩

theorem Depth.le_next (hlists : ∀ n, ∀ y ∈ h.lists n, y < h.next) (hn : n < h.next)
    (hd : Depth isData h fuel n) : fuel ≤ h.next := by
  have hall (i : Fin fuel) : ∃ y : Fin h.next, Depth isData h (i + 1) y :=
    hd.exists_of_lt hlists hn (d := fuel - (i + 1)) (by omega)
  choose g hg using hall
  have hinj : Function.Injective g := by
    intro i j hij
    have := (hg i).unique (hij ▸ hg j)
    exact Fin.ext (by omega)
  simpa using Fintype.card_le_of_injective g hinj

/-- The number of statements is enough. -/
theorem canUseLink_next (hlists : ∀ n, ∀ y ∈ h.lists n, y < h.next) (hn : n < h.next)
    (hacc : h.canUseLink isData fuel n = true) : h.canUseLink isData h.next n = true := by
  obtain ⟨f, -, hd⟩ := exists_depth hacc
  exact canUseLink_mono (hd.le_next hlists hn) hd.1

end CanUseLink

/-! ## Different links -/

/-- The data nodes in a tree have names without a slash, and siblings have different names. -/
structure Named (isData : Keyword → Bool) (h : Heap) (n : ℕ) : Prop where
  nodup : ∀ ns y, Below isData h n ns y → ¬h.IsLeaf y → (h.names isData y).Nodup
  slash : ∀ ns y, Below isData h n ns y → ¬h.IsLeaf y → ∀ name ∈ h.names isData y, '/' ∉ name

section Named

variable {h h' : Heap} {n y z : ℕ} {ns ms : List Text} {targetPrefix : Text}

theorem mem_names (hz : z ∈ h.lists y) (hdata : isData (h.stmt z).keyword = true) :
    (h.stmt z).arg ∈ h.names isData y :=
  List.mem_map_of_mem (List.mem_filter.mpr ⟨hz, hdata⟩)

/-- A data node is found by the names on the way to it. -/
theorem Named.unique (hnamed : Named isData h n) (hy : Below isData h n ns y)
    (hz : Below isData h n ms z) (heq : ns = ms) : y = z := by
  induction hy generalizing ms z with
  | refl =>
    rcases hz with - | -
    · rfl
    · exact absurd heq.symm (List.append_ne_nil_of_right_ne_nil _ (List.cons_ne_nil _ _))
  | tail hy hleaf hmem hdata ih =>
    rcases hz with - | ⟨hz, -, hmem', hdata'⟩
    · exact absurd heq (List.append_ne_nil_of_right_ne_nil _ (List.cons_ne_nil _ _))
    · obtain ⟨hns, hlast⟩ := List.append_inj' heq rfl
      obtain rfl := ih hz hns
      have hinj := List.inj_on_of_nodup_map (hnamed.nodup _ _ hy hleaf)
      exact hinj (List.mem_filter.mpr ⟨hmem, hdata⟩) (List.mem_filter.mpr ⟨hmem', hdata'⟩)
        (List.cons.inj hlast).1

theorem Named.slash_notMem (hnamed : Named isData h n) (hy : Below isData h n ns y) :
    ∀ name ∈ ns, '/' ∉ name := by
  induction hy with
  | refl => exact fun name hname ↦ absurd hname List.not_mem_nil
  | tail hy hleaf hmem hdata ih =>
    intro name hname
    rcases List.mem_append.mp hname with hname | hname
    · exact ih name hname
    · obtain rfl := List.mem_singleton.mp hname
      exact hnamed.slash _ _ hy hleaf _ (mem_names hmem hdata)

theorem steps_injective (hns : ∀ name ∈ ns, '/' ∉ name) (hms : ∀ name ∈ ms, '/' ∉ name)
    (heq : steps targetPrefix ns = steps targetPrefix ms) : ns = ms := by
  have hstop (a : Text) (ha : '/' ∉ a) : ∀ c ∈ a, ¬c = '/' := fun c hc heq ↦ ha (heq ▸ hc)
  have hhead (l : List Text) : ∀ c ∈ (steps targetPrefix l).head?, c = '/' := by
    rcases l with - | ⟨a, l⟩
    · exact fun c hc ↦ absurd hc (Option.not_mem_none c)
    · exact fun c hc ↦ (Option.some_inj.mp hc).symm
  induction ns generalizing ms with
  | nil =>
    rcases ms with - | ⟨m, ms⟩
    · rfl
    · exact absurd heq (List.cons_ne_nil _ _).symm
  | cons n ns ih =>
    rcases ms with - | ⟨m, ms⟩
    · exact absurd heq (List.cons_ne_nil _ _)
    · have htail : n ++ steps targetPrefix ns = m ++ steps targetPrefix ms := by
        rw [steps, steps, List.flatMap_cons, List.flatMap_cons, List.cons_append, List.cons_append,
          List.append_assoc, List.append_assoc] at heq
        exact (List.cons.inj (List.append_cancel_left (List.cons.inj heq).2)).2
      obtain ⟨rfl, hrest⟩ := append_inj_of_stop (hstop n (hns n List.mem_cons_self))
        (hstop m (hms m List.mem_cons_self)) (hhead ns) (hhead ms) htail
      rw [ih (fun a ha ↦ hns a (List.mem_cons_of_mem _ ha))
        (fun a ha ↦ hms a (List.mem_cons_of_mem _ ha)) hrest]

theorem Named.eq_of_gets {path arg : Text} (hnamed : Named isData h n)
    (hy : Gets isData targetPrefix h path n y arg) (hz : Gets isData targetPrefix h path n z arg) :
    y = z := by
  obtain ⟨ns, hns, -, rfl⟩ := hy
  obtain ⟨ms, hms, -, heq⟩ := hz
  refine hnamed.unique hns hms (steps_injective (hnamed.slash_notMem hns)
    (hnamed.slash_notMem hms) (List.append_cancel_left heq))

theorem Named.of_alike {R : ℕ → ℕ → Prop} {m : ℕ} (hnamed : Named isData h n)
    (hal : Alike isData h h' R) (hr : R n m) : Named isData h' m where
  nodup ns y hy hleaf := by
    obtain ⟨x, hx, hrx⟩ := hal.symm.below hr hy
    have hleaf' : ¬h.IsLeaf x := fun hl ↦ hleaf ((hal.isLeaf_iff hrx).mpr hl)
    rw [hal.names_eq hrx hleaf']
    exact hnamed.nodup ns x hx hleaf'
  slash ns y hy hleaf := by
    obtain ⟨x, hx, hrx⟩ := hal.symm.below hr hy
    have hleaf' : ¬h.IsLeaf x := fun hl ↦ hleaf ((hal.isLeaf_iff hrx).mpr hl)
    rw [hal.names_eq hrx hleaf']
    exact hnamed.slash ns x hx hleaf'

end Named

/-! ## The copy of a target -/

/-- `fix_xpaths` changes the arguments of these only. -/
def xpathKeywords : List Keyword :=
  [.other "path".toList, .other "must".toList, .other "when".toList]

/-- What `copy` makes of a tree, when `copyf` sets the module to `top`; `R` relates the statements
to their copies. -/
structure Copied (h h' : Heap) (top : ℕ) (R : ℕ → ℕ → Prop) : Prop where
  keyword : ∀ x y, R x y → (h'.stmt y).keyword = (h.stmt x).keyword
  arg : ∀ x y, R x y → (h.stmt x).keyword ∉ xpathKeywords → (h'.stmt y).arg = (h.stmt x).arg
  substmts : ∀ x y, R x y → List.Forall₂ R (h.lists x) (h'.lists y)
  parent : ∀ n, h.next ≤ n → ∀ y ∈ h'.lists n, (h'.stmt y).parent = some n
  top_eq : ∀ y, h.next ≤ y → y < h'.next → (h'.stmt y).top = top

section Copied

variable {h h' : Heap} {top new : ℕ} {R : ℕ → ℕ → Prop}

theorem lists_setArg (h : Heap) (n x : ℕ) (arg : Text) : (h.setArg n arg).lists x = h.lists x := by
  obtain ⟨arg', harg⟩ := h.exists_stmt_setArg n x arg
  rw [Heap.lists, harg, Heap.lists]

/-- The name of the copy itself is not seen below it. -/
theorem Copied.alike (hcopied : Copied h h' top R) (hf : Fresh h h') (hnew : h.next ≤ new)
    (hdata : ∀ keyword ∈ xpathKeywords, isData keyword = false) (arg : Text) :
    Alike isData h (h'.setArg new arg) fun x y ↦ R x y ∧ new ≤ y where
  keyword x y hr := by
    obtain ⟨arg', harg⟩ := h'.exists_stmt_setArg new y arg
    rw [harg]
    exact hcopied.keyword x y hr.1
  substmts x y hr _ := by
    rw [lists_setArg]
    have hchild (v : ℕ) (hv : v ∈ h'.lists y) : new < v :=
      hr.2.trans_lt (hf.child y (hnew.trans hr.2) v hv).1
    have hpairs : List.Forall₂ (fun v u ↦ new < v ∧ R u v) (h'.lists y) (h.lists x) :=
      (List.forall₂_and_left _ _).mpr ⟨hchild, (hcopied.substmts x y hr.1).flip⟩
    refine List.Forall₂.flip (hpairs.imp fun v u ⟨hlt, hru⟩ ↦ ?_)
    rw [flip, h'.stmt_setArg_of_ne hlt.ne']
    refine ⟨hcopied.keyword u v hru, fun hu ↦ ⟨⟨hru, hlt.le⟩, hcopied.arg u v hru fun hmem ↦ ?_⟩⟩
    exact Bool.false_ne_true ((hdata _ hmem).symm.trans hu)

theorem Copied.grown (hcopied : Copied h h' top R) (hf : Fresh h h') (hnew : h.next ≤ new)
    (arg : Text) : Grown h top (h'.setArg new arg) where
  toFresh := hf.setArg hnew arg
  parent n hn y hy := by
    rw [lists_setArg] at hy
    obtain ⟨arg', harg⟩ := h'.exists_stmt_setArg new y arg
    rw [harg]
    exact hcopied.parent n hn y hy
  top_eq y hy hlt := by
    obtain ⟨arg', harg⟩ := h'.exists_stmt_setArg new y arg
    rw [harg]
    exact hcopied.top_eq y hy hlt

end Copied

namespace Fixer

variable {P : Fixer} {s : State} {owner symlink path target : ℕ} {targetPrefix tfPrefix : Text}

/-- The copy of the target, before it gets links. -/
def copyTarget (P : Fixer) (h : Heap) (symlink target : ℕ) : Heap × ℕ :=
  let copied := P.copy h target (h.stmt symlink).parent (some (h.stmt symlink).top)
  (copied.1.setArg copied.2 (h.stmt symlink).arg, copied.2)

/-- `pyang` copies the target with all that is below it. -/
def Copies (P : Fixer) (h : Heap) (symlink target : ℕ) : Prop :=
  let copied := P.copy h target (h.stmt symlink).parent (some (h.stmt symlink).top)
  ∃ R, R target copied.2 ∧ Copied h copied.1 (h.stmt symlink).top R

/-- **Links of a replaced symlink.** The symlink becomes a copy that has the leaves of the target
under the same names, and each leaf of it gets one link: the path of the symlink with the steps from
the target down to the leaf. Nothing else gets one, and different leaves have different links if
siblings have different names. -/
theorem linked_doReplaceSymlink (hc : Closed s.heap)
    (hlists : ∀ n, ∀ y ∈ s.heap.lists n, y < s.heap.next) (hx : symlink < s.heap.next)
    (ht : target < s.heap.next)
    (hfind : P.findTarget s.heap symlink = some (path, target, targetPrefix))
    (htailf : s.heap.modulePrefix (s.heap.stmt symlink).top tailf = some tfPrefix)
    (hdata : ∀ keyword ∈ xpathKeywords, P.isData keyword = false)
    (hcopies : P.Copies s.heap symlink target)
    (haccept : ∃ fuel, s.heap.canUseLink P.isData fuel target = true) :
    let h := (P.copyTarget s.heap symlink target).1
    let new := (P.copyTarget s.heap symlink target).2
    let arg := (s.heap.stmt path).arg
    (∃ h', P.doReplaceSymlink s owner symlink = some ({ s with heap := h' }, new) ∧
      Linked tfPrefix (Gets P.isData targetPrefix h arg new) h h') ∧
    (∀ ns, (∃ x, Below P.isData s.heap target ns x ∧ s.heap.IsLeaf x) ↔
      ∃ y, Below P.isData h new ns y ∧ h.IsLeaf y) ∧
    (Named P.isData s.heap target → ∀ y z link link', Gets P.isData targetPrefix h arg new y link →
      Gets P.isData targetPrefix h arg new z link' → y ≠ z → link ≠ link') := by
  obtain ⟨R, hr, hcopied⟩ := hcopies
  have hcopy := renewal_copy (P := P) hc hx ht
  have htop := hc.top_lt symlink hx
  have hfresh := P.copy_fresh s.heap target (s.heap.stmt symlink).parent
    (some (s.heap.stmt symlink).top) ht (fun m hm ↦ Option.some_inj.mp hm ▸ htop) hc
  -- the name of the symlink is not seen on the way from the copy down
  have hal := hcopied.alike hfresh hcopy.le hdata (s.heap.stmt symlink).arg
  have hgrown := hcopied.grown hfresh hcopy.le (s.heap.stmt symlink).arg
  refine ⟨?_, fun ns ↦ ⟨?_, ?_⟩, ?_⟩
  · -- the prefix of the extensions is that of an old module, however many links there are
    have hadds : AddsLinks P.isData targetPrefix tfPrefix s.heap (s.heap.stmt symlink).top
        (P.copyTarget s.heap symlink target).1.next :=
      addsLinks (fun k hk ↦ (hk.modulePrefix_eq hlists htop tailf).trans htailf) _
    obtain ⟨h', heq, hlinked, -⟩ := hadds (s.heap.stmt path).arg _ _ hgrown hcopy.le hcopy.lt
      fun ns z hz ↦ (hgrown.below_lt hcopy.le hcopy.lt hz).trans_le (Nat.le_add_left _ _)
    refine ⟨h', ?_, hlinked⟩
    obtain ⟨fuel, haccept⟩ := haccept
    have hnew : P.copyWithLinks s.heap symlink path target targetPrefix =
        some (h', (P.copyTarget s.heap symlink target).2) := congrArg (Option.map _) heq
    rw [doReplaceSymlink, hfind, Option.bind_some]
    dsimp only
    rw [if_pos (canUseLink_next hlists ht haccept), hnew, Option.map_some]
  · rintro ⟨x, hx, hleaf⟩
    obtain ⟨y, hy, hry⟩ := hal.below ⟨hr, le_rfl⟩ hx
    exact ⟨y, hy, (hal.isLeaf_iff hry).mpr hleaf⟩
  · rintro ⟨y, hy, hleaf⟩
    obtain ⟨x, hx, hrx⟩ := hal.symm.below ⟨hr, le_rfl⟩ hy
    exact ⟨x, hx, (hal.isLeaf_iff hrx).mp hleaf⟩
  · rintro hnamed y z link link' hy hz hne rfl
    exact hne ((hnamed.of_alike hal ⟨hr, le_rfl⟩).eq_of_gets hy hz)

end Fixer

/-! ## A symlink to a container -/

/-- A container with a leaf and a container, and behind it a container with a symlink to it. -/
def nestedLeaves : List Stmt :=
  [⟨.other "module".toList, ['m'], none, 0, [1, 2, 4, 9]⟩,
    ⟨.prefixStmt, ['m'], some 0, 0, []⟩,
    ⟨.importStmt, tailf, some 0, 0, [3]⟩, ⟨.prefixStmt, ['t'], some 2, 0, []⟩,
    ⟨.container, ['c'], some 0, 0, [5, 6]⟩, ⟨.leaf, ['a'], some 4, 0, []⟩,
    ⟨.container, ['d'], some 4, 0, [7]⟩, ⟨.leafList, ['b'], some 6, 0, [8]⟩,
    ⟨.other "type".toList, "string".toList, some 7, 0, []⟩,
    ⟨.container, ['e'], some 0, 0, [10]⟩,
    ⟨symlinkKeyword, ['x'], some 9, 0, [11]⟩, ⟨pathKeyword, ['/', 'm', ':', 'c'], some 10, 0, []⟩]

def nestedState : State := parsed nestedLeaves [0]

def nestedFixer : Fixer := plain [(['/', 'm', ':', 'c'], 4)]

theorem started_nestedLeaves : Started nestedFixer nestedState :=
  started_parsed (by decide +kernel) (by decide +kernel) (by decide +kernel) (by decide +kernel)
    (by decide +kernel)

/-- The copies are eight statements further. -/
theorem copies_nestedLeaves : nestedFixer.Copies nestedState.heap 10 4 := by
  have hfresh : Fresh nestedState.heap (nestedFixer.copy nestedState.heap 4 (some 9) (some 0)).1 :=
    nestedFixer.copy_fresh _ _ _ _ (by decide +kernel) (by decide) started_nestedLeaves.closed
  have hsub : ∀ x ∈ [4, 5, 6, 7, 8], ∀ u ∈ nestedState.heap.lists x, u ∈ [4, 5, 6, 7, 8] := by
    decide +kernel
  have hmap : ∀ x ∈ [4, 5, 6, 7, 8],
      (nestedFixer.copy nestedState.heap 4 (some 9) (some 0)).1.lists (x + 8) =
        (nestedState.heap.lists x).map (· + 8) := by
    decide +kernel
  have hnew : ∀ n < (nestedFixer.copy nestedState.heap 4 (some 9) (some 0)).1.next, 12 ≤ n →
      ((nestedFixer.copy nestedState.heap 4 (some 9) (some 0)).1.stmt n).top = 0 ∧
      ∀ y ∈ (nestedFixer.copy nestedState.heap 4 (some 9) (some 0)).1.lists n,
        ((nestedFixer.copy nestedState.heap 4 (some 9) (some 0)).1.stmt y).parent = some n := by
    decide +kernel
  refine ⟨fun x y ↦ x ∈ [4, 5, 6, 7, 8] ∧ y = x + 8, by decide +kernel, ?_, ?_, ?_, ?_, ?_⟩
  · rintro x y ⟨hx, rfl⟩
    revert x
    decide +kernel
  · rintro x y ⟨hx, rfl⟩ -
    revert x
    decide +kernel
  · rintro x y ⟨hx, rfl⟩
    refine (hmap x hx).symm ▸ ?_
    rw [List.forall₂_map_right_iff, List.forall₂_same]
    exact fun u hu ↦ ⟨hsub x hx u hu, rfl⟩
  · intro n hn y hy
    rcases lt_or_ge n (nestedFixer.copy nestedState.heap 4 (some 9) (some 0)).1.next with hlt | hge
    · exact (hnew n hlt hn).2 y hy
    · exact absurd ((hfresh.unused n hge) ▸ hy) List.not_mem_nil
  · exact fun y hy hlt ↦ (hnew y hlt hy).1

theorem named_nestedLeaves : Named nestedFixer.isData nestedState.heap 4 := by
  have hstep : ∀ x ∈ [4, 5, 6, 7], ∀ z ∈ nestedState.heap.lists x,
      nestedFixer.isData (nestedState.heap.stmt z).keyword = true → z ∈ [4, 5, 6, 7] := by
    decide +kernel
  have hnames : ∀ x ∈ [4, 5, 6, 7], (nestedState.heap.names nestedFixer.isData x).Nodup ∧
      ∀ name ∈ nestedState.heap.names nestedFixer.isData x, '/' ∉ name := by
    decide +kernel
  have hbelow {ns : List Text} {y : ℕ} (hy : Below nestedFixer.isData nestedState.heap 4 ns y) :
      y ∈ [4, 5, 6, 7] := by
    induction hy with
    | refl => exact List.mem_cons_self
    | tail _ _ hz hdata ih => exact hstep _ ih _ hz hdata
  exact ⟨fun ns y hy _ ↦ (hnames y (hbelow hy)).1, fun ns y hy _ ↦ (hnames y (hbelow hy)).2⟩

theorem linked_nestedLeaves :
    let h := (nestedFixer.copyTarget nestedState.heap 10 4).1
    (∃ h', nestedFixer.doReplaceSymlink nestedState 9 10 =
        some ({ nestedState with heap := h' }, 12) ∧
      Linked ['t'] (Gets nestedFixer.isData ['m'] h ['/', 'm', ':', 'c'] 12) h h') ∧
    ∀ y z link link', Gets nestedFixer.isData ['m'] h ['/', 'm', ':', 'c'] 12 y link →
      Gets nestedFixer.isData ['m'] h ['/', 'm', ':', 'c'] 12 z link' → y ≠ z → link ≠ link' := by
  have hstart := started_nestedLeaves
  have hfind : nestedFixer.findTarget nestedState.heap 10 = some (11, 4, ['m']) := by
    decide +kernel
  have htailf : nestedState.heap.modulePrefix (nestedState.heap.stmt 10).top tailf =
      some ['t'] := by
    decide +kernel
  have hnew : (nestedFixer.copyTarget nestedState.heap 10 4).2 = 12 := by decide +kernel
  obtain ⟨hlinked, -, hne⟩ := Fixer.linked_doReplaceSymlink (P := nestedFixer) (s := nestedState)
    hstart.closed hstart.lt (by decide +kernel) (by decide +kernel) hfind htailf
    (by decide +kernel) copies_nestedLeaves ⟨4, by decide +kernel⟩
  rw [hnew] at hlinked hne
  exact ⟨hlinked, hne named_nestedLeaves⟩

end ConfdDemos.SymlinkFixer
