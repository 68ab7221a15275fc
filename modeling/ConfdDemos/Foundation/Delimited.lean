import Mathlib.Data.List.Basic

/-!
# Strings with delimiters

Two facts about text put together with separators and brackets, over any alphabet.

## Splitting

`List.splitOn` cuts a list at every occurrence of a separator. What it returns contains no
separator, and pieces without one that are written down each behind a separator come back as they
were.

## Bracketed segments

A segment is a name, optionally followed by a payload between an opening letter and a closing word.
Nothing in a payload is escaped, so a payload that looks like the end of its own segment followed by
the beginning of another reads as two segments. `Brackets.determined_iff` says that this is all that
can go wrong: a sequence of segments is determined by its text exactly when at most one segment has
a payload and that payload cannot be cut in two.
-/

namespace ConfdDemos

variable {α : Type*}

/-! ## Splitting -/

section Splitting

variable [DecidableEq α] {a : α}

/-- A piece contains no separator. -/
theorem notMem_of_mem_splitOn {xs piece : List α} (h : piece ∈ xs.splitOn a) : a ∉ piece := by
  induction xs generalizing piece with
  | nil =>
    rw [List.splitOn_nil, List.mem_singleton] at h
    simp [h]
  | cons x xs ih =>
    rw [List.splitOn_cons_eq_if_modifyHead] at h
    split_ifs at h with hx
    · rcases List.mem_cons.mp h with rfl | h'
      · exact List.not_mem_nil
      · exact ih h'
    · obtain ⟨first, rest, heq⟩ := List.exists_cons_of_ne_nil (List.splitOn_ne_nil a xs)
      rw [heq] at h ih
      rcases List.mem_cons.mp h with rfl | h'
      · have hfirst := ih List.mem_cons_self
        simp only [beq_iff_eq] at hx
        simp [hfirst, Ne.symm hx]
      · exact ih (List.mem_cons_of_mem _ h')

/-- A piece has no letters of its own. -/
theorem subset_of_mem_splitOn {xs piece : List α} (h : piece ∈ xs.splitOn a) : piece ⊆ xs := by
  induction xs generalizing piece with
  | nil =>
    rw [List.splitOn_nil, List.mem_singleton] at h
    simp [h]
  | cons x xs ih =>
    rw [List.splitOn_cons_eq_if_modifyHead] at h
    split_ifs at h with hx
    · rcases List.mem_cons.mp h with rfl | h'
      · exact List.nil_subset _
      · exact List.subset_cons_of_subset x (ih h')
    · obtain ⟨first, rest, heq⟩ := List.exists_cons_of_ne_nil (List.splitOn_ne_nil a xs)
      rw [heq] at h ih
      rcases List.mem_cons.mp h with rfl | h'
      · exact List.cons_subset_cons x (ih List.mem_cons_self)
      · exact List.subset_cons_of_subset x (ih (List.mem_cons_of_mem _ h'))

/-- Pieces written down each behind a separator come back. -/
theorem splitOn_append_flatMap {start : List α} {pieces : List (List α)} (hstart : a ∉ start)
    (hpieces : ∀ piece ∈ pieces, a ∉ piece) :
    (start ++ pieces.flatMap (a :: ·)).splitOn a = start :: pieces := by
  induction pieces generalizing start with
  | nil => rw [List.flatMap_nil, List.append_nil, List.splitOn_eq_singleton hstart]
  | cons piece pieces ih =>
    rw [List.flatMap_cons, List.cons_append, List.splitOn_append_cons_self_of_not_mem hstart,
      ih (hpieces piece List.mem_cons_self)
        fun q hq ↦ hpieces q (List.mem_cons_of_mem _ hq)]

end Splitting

/-! ## Bracketed segments -/

/-- A letter that is missing from the first of two parts has to be looked for in the second. -/
theorem exists_append_of_notMem {a : α} {xs ys left right : List α} (ha : a ∉ xs)
    (h : xs ++ ys = left ++ a :: right) : ∃ rest, left = xs ++ rest ∧ ys = rest ++ a :: right := by
  rcases List.append_eq_append_iff.mp h with ⟨rest, hleft, hys⟩ | ⟨rest, hxs, hright⟩
  · exact ⟨rest, hleft, hys⟩
  · cases rest with
    | nil => exact ⟨[], by simpa using hxs.symm, by simpa using hright.symm⟩
    | cons b rest =>
      obtain rfl : a = b := by simpa using (List.cons.inj hright).1
      exact absurd (hxs ▸ List.mem_append_right _ List.mem_cons_self) ha

/-- A word without stop letters is read off from what it is followed by a stop letter in. -/
theorem append_inj_of_stop {stop : α → Prop} {xs xs' ys ys' : List α} (hxs : ∀ a ∈ xs, ¬ stop a)
    (hxs' : ∀ a ∈ xs', ¬ stop a) (hys : ∀ a ∈ ys.head?, stop a) (hys' : ∀ a ∈ ys'.head?, stop a)
    (h : xs ++ ys = xs' ++ ys') : xs = xs' ∧ ys = ys' := by
  induction xs generalizing xs' with
  | nil =>
    cases xs' with
    | nil => exact ⟨rfl, h⟩
    | cons a xs' =>
      rw [List.nil_append] at h
      exact absurd (hys a (by simp [h])) (hxs' a List.mem_cons_self)
  | cons a xs ih =>
    cases xs' with
    | nil =>
      rw [List.nil_append] at h
      exact absurd (hys' a (by simp [← h])) (hxs a List.mem_cons_self)
    | cons b xs' =>
      obtain ⟨rfl, h'⟩ := List.cons.inj h
      obtain ⟨rfl, rfl⟩ := ih (fun c hc ↦ hxs c (List.mem_cons_of_mem _ hc))
        (fun c hc ↦ hxs' c (List.mem_cons_of_mem _ hc)) h'
      exact ⟨rfl, rfl⟩

/-- A word does not reach over a letter it does not have. -/
theorem prefix_append_iff_of_notMem {word xs ys : List α} (hys : ∀ a ∈ ys.head?, a ∉ word) :
    word <+: xs ++ ys ↔ word <+: xs := by
  refine ⟨fun h ↦ ?_, fun h ↦ h.trans (List.prefix_append _ _)⟩
  obtain ⟨tail, h⟩ := h
  rcases List.append_eq_append_iff.mp h with ⟨rest, hxs, -⟩ | ⟨rest, rfl, hys'⟩
  · exact ⟨rest, hxs.symm⟩
  · rcases rest with - | ⟨a, rest⟩
    · simp
    · exact absurd (by simp) (hys a (by simp [hys']))

/-- The delimiters of segments: a letter before each name, a letter before a payload, and a word
behind it whose first letter occurs in it once. -/
structure Brackets (α : Type*) where
  separator : α
  opening : α
  /-- The first letter of the closing word. -/
  closing : α
  /-- The rest of the closing word. -/
  tail : List α
  opening_ne : separator ≠ opening
  separator_ne : closing ≠ separator
  closing_ne : closing ≠ opening
  notMem_tail : closing ∉ tail

namespace Brackets

variable (B : Brackets α)

/-- The text of a name with, optionally, a payload. -/
def text (s : List α × Option (List α)) : List α :=
  B.separator :: s.1 ++ match s.2 with
    | none => []
    | some w => B.opening :: w ++ B.closing :: B.tail

def render (p : List (List α × Option (List α))) : List α := p.flatMap B.text

/-- A payload that reads as the end of one segment, segments without payload, and the beginning of
a segment with one. -/
def joined (v : List α) (ns : List (List α)) (m u : List α) : List α :=
  v ++ B.closing :: B.tail ++ ns.flatMap (B.separator :: ·) ++ B.separator :: (m ++ B.opening :: u)

variable {B}

/-- The closing word does not overlap with itself. -/
theorem closing_append {left right right' : List α} (hne : left ≠ [])
    (h : B.closing :: B.tail ++ right = left ++ (B.closing :: B.tail ++ right')) :
    ∃ rest, left = B.closing :: B.tail ++ rest ∧
      right = rest ++ (B.closing :: B.tail ++ right') := by
  obtain ⟨c, left, rfl⟩ := List.exists_cons_of_ne_nil hne
  obtain ⟨rfl, h'⟩ := List.cons.inj h
  obtain ⟨rest, rfl, hrest⟩ := exists_append_of_notMem B.notMem_tail h'
  exact ⟨rest, rfl, hrest⟩

theorem render_cons (s : List α × Option (List α)) (p : List (List α × Option (List α))) :
    B.render (s :: p) = B.text s ++ B.render p := List.flatMap_cons

theorem render_append (p q : List (List α × Option (List α))) :
    B.render (p ++ q) = B.render p ++ B.render q := List.flatMap_append

/-- Segments without payload are their names behind separators. -/
theorem render_names (ns : List (List α)) :
    B.render (ns.map fun n ↦ (n, none)) = ns.flatMap (B.separator :: ·) := by
  rw [render, List.flatMap_map]
  exact congrArg (List.flatMap · ns) (funext fun n ↦ List.append_nil _)

/-- **One text, two readings.** -/
theorem render_joined (n v : List α) (ns : List (List α)) (m u : List α)
    (p : List (List α × Option (List α))) :
    B.render ((n, some (B.joined v ns m u)) :: p)
      = B.render ((n, some v) :: (ns.map fun n ↦ (n, none)) ++ (m, some u) :: p) := by
  rw [render_append, render_cons, render_cons, render_cons, render_names]
  simp only [text, joined, List.append_assoc, List.cons_append]

theorem head_render {a : α} {p : List (List α × Option (List α))} (h : a ∈ (B.render p).head?) :
    a = B.separator := by
  cases p with
  | nil => simp [render] at h
  | cons s p => simpa [render_cons, text, eq_comm] using h

/-! ### Which texts determine their segments -/

section Determined

variable {IsName IsPayload : List α → Prop} {p q : List (List α × Option (List α))}

/-- Segments whose names and payloads are admissible. -/
def Proper (IsName IsPayload : List α → Prop) (p : List (List α × Option (List α))) : Prop :=
  ∀ s ∈ p, IsName s.1 ∧ ∀ w ∈ s.2, IsPayload w

theorem Proper.cons {s : List α × Option (List α)} (hs : IsName s.1 ∧ ∀ w ∈ s.2, IsPayload w)
    (hp : Proper IsName IsPayload p) : Proper IsName IsPayload (s :: p) :=
  List.forall_mem_cons.mpr ⟨hs, hp⟩

theorem Proper.append (hp : Proper IsName IsPayload p) (hq : Proper IsName IsPayload q) :
    Proper IsName IsPayload (p ++ q) :=
  fun s hs ↦ (List.mem_append.mp hs).elim (hp s) (hq s)

theorem Proper.names {ns : List (List α)} (h : ∀ n ∈ ns, IsName n) :
    Proper IsName IsPayload (ns.map fun n ↦ (n, none)) := by
  intro s hs
  obtain ⟨n, hn, rfl⟩ := List.mem_map.mp hs
  exact ⟨h n hn, by simp⟩

variable (B) in
/-- The payload can be cut into the end of a segment and the beginning of another. -/
def Cut (IsName IsPayload : List α → Prop) (w : List α) : Prop :=
  ∃ v ns m u, (∀ n ∈ ns, IsName n) ∧ IsName m ∧ IsPayload v ∧ IsPayload u ∧ w = B.joined v ns m u

/-- A payload that can be cut contains the closing word. -/
theorem Cut.subset {w : List α} (h : B.Cut IsName IsPayload w) : B.closing :: B.tail ⊆ w := by
  obtain ⟨v, ns, m, u, -, -, -, -, rfl⟩ := h
  intro a ha
  simp only [joined, List.mem_append]
  exact Or.inl (Or.inl (Or.inr ha))

/-- The segments with a payload. -/
def payloads (p : List (List α × Option (List α))) : ℕ := p.countP fun s ↦ s.2.isSome

/-- The first segment with a payload, and the names before it. -/
theorem exists_first_payload (h : 0 < payloads p) :
    ∃ (ns : List (List α)) (m u : List α) (rest : List (List α × Option (List α))),
      p = (ns.map fun n ↦ (n, none)) ++ (m, some u) :: rest := by
  induction p with
  | nil => exact absurd h (by simp [payloads])
  | cons s p ih =>
    obtain ⟨n, w⟩ := s
    cases w with
    | some w => exact ⟨[], n, w, p, rfl⟩
    | none =>
      obtain ⟨ns, m, u, rest, rfl⟩ := ih (by simpa [payloads] using h)
      exact ⟨n :: ns, m, u, rest, rfl⟩

section

variable (hname : ∀ n, IsName n → B.separator ∉ n ∧ B.opening ∉ n ∧ B.closing ∉ n)

include hname

/-- Without payloads there is nothing to close. -/
theorem closing_notMem_render (hp : Proper IsName IsPayload p) (h : payloads p = 0) :
    B.closing ∉ B.render p := by
  induction p with
  | nil => simp [render]
  | cons s p ih =>
    obtain ⟨n, w⟩ := s
    obtain ⟨hs, hp'⟩ := List.forall_mem_cons.mp hp
    cases w with
    | some w => simp [payloads] at h
    | none =>
      have hrest := ih hp' (by simpa [payloads] using h)
      simp [render_cons, text, hrest, (hname n hs.1).2.2, B.separator_ne]

/-- The text of segments up to the last closing word reads as names and the beginning of a segment
with a payload. -/
theorem exists_names_of_closing (hext : ∀ x t, IsPayload x → IsPayload (x ++ t))
    (hq : Proper IsName IsPayload q) {left right : List α} (hright : B.closing ∉ right)
    (h : B.render q = left ++ B.closing :: right) :
    ∃ (ns : List (List α)) (m u : List α), (∀ n ∈ ns, IsName n) ∧ IsName m ∧ IsPayload u ∧
      left = ns.flatMap (B.separator :: ·) ++ B.separator :: (m ++ B.opening :: u) := by
  induction q generalizing left with
  | nil => simp [render] at h
  | cons s q ih =>
    obtain ⟨n, w⟩ := s
    obtain ⟨hs, hq'⟩ := List.forall_mem_cons.mp hq
    have hclose := (hname n hs.1).2.2
    rw [render_cons] at h
    cases w with
    | none =>
      have hnot : B.closing ∉ B.text (n, none) := by simp [text, hclose, B.separator_ne]
      obtain ⟨rest, rfl, hrest⟩ := exists_append_of_notMem hnot h
      obtain ⟨ns, m, u, hns, hm, hu, rfl⟩ := ih hq' hrest
      refine ⟨n :: ns, m, u, List.forall_mem_cons.mpr ⟨hs.1, hns⟩, hm, hu, ?_⟩
      simp [text]
    | some w =>
      have hnot : B.closing ∉ B.separator :: (n ++ [B.opening]) := by
        simp [hclose, B.separator_ne, B.closing_ne]
      have h' : (B.separator :: (n ++ [B.opening])) ++
          (w ++ B.closing :: B.tail ++ B.render q) = left ++ B.closing :: right := by
        simpa [text] using h
      obtain ⟨u, rfl, hu⟩ := exists_append_of_notMem hnot h'
      refine ⟨[], n, u, by simp, hs.1, ?_, by simp⟩
      -- the payload that starts here ends no later than the one the text is cut in
      rw [List.append_assoc] at hu
      rcases List.append_eq_append_iff.mp hu with ⟨t, rfl, -⟩ | ⟨t, rfl, ht⟩
      · exact hext w t (hs.2 w rfl)
      · cases t with
        | nil => simpa using hs.2 _ rfl
        | cons c t =>
          obtain ⟨rfl, hmem⟩ := List.cons.inj ht
          exact absurd (hmem ▸ by simp) hright

/-- The first name is read off from the text, and with it whether a payload follows. -/
theorem render_cons_inj {n n' : List α} {w w' : Option (List α)} (hn : IsName n) (hn' : IsName n')
    (h : B.render ((n, w) :: p) = B.render ((n', w') :: q)) :
    n = n' ∧ (w = none ∧ w' = none ∧ B.render p = B.render q ∨
      ∃ x y, w = some x ∧ w' = some y ∧
        x ++ (B.closing :: B.tail ++ B.render p) = y ++ (B.closing :: B.tail ++ B.render q)) := by
  have hstop : ∀ n, IsName n → ∀ a ∈ n, ¬ (a = B.separator ∨ a = B.opening) := by
    rintro n hn a ha (rfl | rfl)
    · exact (hname n hn).1 ha
    · exact (hname n hn).2.1 ha
  have hhead : ∀ (w : Option (List α)) (r : List (List α × Option (List α))),
      ∀ a ∈ ((B.text ([], w)).tail ++ B.render r).head?, a = B.separator ∨ a = B.opening := by
    intro w r a ha
    cases w with
    | none => exact Or.inl (head_render (by simpa [text] using ha))
    | some w => exact Or.inr (by simpa [text, eq_comm] using ha)
  have htext : n ++ ((B.text ([], w)).tail ++ B.render p)
      = n' ++ ((B.text ([], w')).tail ++ B.render q) := by
    simpa [render_cons, text] using h
  obtain ⟨rfl, hrest⟩ := append_inj_of_stop (hstop n hn) (hstop n' hn') (hhead w p) (hhead w' q)
    htext
  refine ⟨rfl, ?_⟩
  cases w with
  | none =>
    cases w' with
    | none => exact Or.inl ⟨rfl, rfl, by simpa [text] using hrest⟩
    | some y =>
      -- one of the two would begin with an opening bracket, and a rendering never does
      have hopen : B.opening ∈ (B.render p).head? := by
        have : B.render p = (B.text ([], some y)).tail ++ B.render q := by simpa [text] using hrest
        simp [this, text]
      exact absurd (head_render hopen).symm B.opening_ne
  | some x =>
    cases w' with
    | none =>
      have hopen : B.opening ∈ (B.render q).head? := by
        have : B.render q = (B.text ([], some x)).tail ++ B.render p := by
          simpa [text] using hrest.symm
        simp [this, text]
      exact absurd (head_render hopen).symm B.opening_ne
    | some y => exact Or.inr ⟨x, y, rfl, rfl, by simpa [text] using hrest⟩

/-- Two readings of a text with at most one payload differ by a cut of that payload. -/
theorem exists_cut_of_render_eq (hext : ∀ x t, IsPayload x → IsPayload (x ++ t))
    (hp : Proper IsName IsPayload p) (hq : Proper IsName IsPayload q) (hone : payloads p ≤ 1)
    (h : B.render p = B.render q) (hne : p ≠ q) :
    ∃ s ∈ p, ∃ w ∈ s.2, B.Cut IsName IsPayload w := by
  induction p generalizing q with
  | nil =>
    cases q with
    | nil => exact absurd rfl hne
    | cons t q => simp [render, text] at h
  | cons s p ih =>
    cases q with
    | nil => simp [render, text] at h
    | cons t q =>
      obtain ⟨n, w⟩ := s
      obtain ⟨n', w'⟩ := t
      obtain ⟨hs, hp'⟩ := List.forall_mem_cons.mp hp
      obtain ⟨ht, hq'⟩ := List.forall_mem_cons.mp hq
      obtain ⟨rfl, ⟨rfl, rfl, hrest⟩ | ⟨w, v, rfl, rfl, hrest⟩⟩ :=
        render_cons_inj hname hs.1 ht.1 h
      · obtain ⟨s, hs, hcut⟩ :=
          ih hp' hq' (by simpa [payloads] using hone) hrest (by simpa using hne)
        exact ⟨s, List.mem_cons_of_mem _ hs, hcut⟩
      · have hzero : payloads p = 0 := by simpa [payloads] using hone
        have hclose := closing_notMem_render hname hp' hzero
        by_cases hwv : w = v
        · -- the difference lies further on, where no payload is left
          subst hwv
          obtain ⟨s, hs, u, hu, -⟩ := ih hp' hq' (by omega) (by simpa using hrest)
            (by simpa using hne)
          have hpos : 0 < payloads p :=
            List.countP_pos_iff.mpr ⟨s, hs, by simp [Option.mem_def.mp hu]⟩
          omega
        · refine ⟨_, List.mem_cons_self, w, rfl, ?_⟩
          rcases List.append_eq_append_iff.mp hrest with ⟨t, rfl, ht'⟩ | ⟨t, rfl, ht'⟩
          · -- the other payload goes on behind this one, into a text without closing words
            obtain ⟨rest, -, hclosed⟩ := closing_append (by simpa using hwv) ht'
            exact absurd (hclosed ▸ by simp) hclose
          · obtain ⟨rest, rfl, hclosed⟩ := closing_append (by simpa using hwv) ht'
            have hright : B.closing ∉ B.tail ++ B.render p := by simp [B.notMem_tail, hclose]
            obtain ⟨ns, m, u, hns, hm, hu, rfl⟩ :=
              exists_names_of_closing hname hext hq' hright hclosed
            exact ⟨v, ns, m, u, hns, hm, ht.2 v rfl, hu, by simp [joined]⟩

/-- **Determined texts.** Segments are the only reading of their text if and only if at most one of
them has a payload and that payload cannot be cut. -/
theorem determined_iff (hext : ∀ x t, IsPayload x → IsPayload (x ++ t))
    (hp : Proper IsName IsPayload p) :
    (∀ q, Proper IsName IsPayload q → B.render p = B.render q → p = q) ↔
      payloads p ≤ 1 ∧ ∀ s ∈ p, ∀ w ∈ s.2, ¬ B.Cut IsName IsPayload w := by
  constructor
  · intro h
    refine ⟨?_, ?_⟩
    · -- two payloads can be joined to one
      by_contra htwo
      obtain ⟨as, n, v, l, rfl⟩ := exists_first_payload (p := p) (by omega)
      have hnone : payloads (as.map fun n ↦ ((n, none) : List α × Option (List α))) = 0 := by
        simp [payloads, List.countP_map]
      have hone : 0 < payloads l := by
        simp only [payloads, List.countP_append, List.countP_cons, Option.isSome_some,
          if_true] at htwo hnone ⊢
        omega
      obtain ⟨ns, m, u, rest, rfl⟩ := exists_first_payload hone
      obtain ⟨has, hl⟩ := List.forall_mem_append.mp hp
      obtain ⟨hn, hl⟩ := List.forall_mem_cons.mp hl
      obtain ⟨-, hrest⟩ := List.forall_mem_append.mp hl
      have hpay : IsPayload (B.joined v ns m u) := by
        rw [joined, List.append_assoc, List.append_assoc]
        exact hext v _ (hn.2 v rfl)
      have heq := h ((as.map fun n ↦ (n, none)) ++ (n, some (B.joined v ns m u)) :: rest)
        (Proper.append has (Proper.cons ⟨hn.1, by simpa using hpay⟩
          (List.forall_mem_cons.mp hrest).2))
        (by rw [render_append, render_append, render_joined]; rfl)
      have hlen := congrArg List.length heq
      simp only [List.length_append, List.length_cons, List.length_map] at hlen
      omega
    · -- a payload that can be cut is two
      rintro ⟨n, w⟩ hs w' hw ⟨v, ns, m, u, hns, hm, hv, hu, rfl⟩
      obtain rfl := Option.mem_def.mp hw
      obtain ⟨as, bs, rfl⟩ := List.append_of_mem hs
      obtain ⟨has, hbs⟩ := List.forall_mem_append.mp hp
      obtain ⟨hn, hbs⟩ := List.forall_mem_cons.mp hbs
      have heq := h (as ++ ((n, some v) :: (ns.map fun n ↦ (n, none)) ++ (m, some u) :: bs))
        (Proper.append has (Proper.append (Proper.cons ⟨hn.1, by simpa using hv⟩ (Proper.names hns))
          (Proper.cons ⟨hm, by simpa using hu⟩ hbs)))
        (by rw [render_append, render_append, render_joined])
      have hlen := congrArg List.length heq
      simp only [List.length_append, List.length_cons, List.length_map] at hlen
      omega
  · rintro ⟨hone, hcut⟩ q hq h
    by_contra hne
    obtain ⟨s, hs, w, hw, hc⟩ := exists_cut_of_render_eq hname hext hp hq hone h hne
    exact hcut s hs w hw hc

end

end Determined

end Brackets

end ConfdDemos
