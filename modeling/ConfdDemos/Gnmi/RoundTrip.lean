import Mathlib.Data.List.Forall2
import ConfdDemos.Foundation.Delimited
import ConfdDemos.Gnmi.Path

/-!
# From strings back to gNMI paths

`make_gnmi_path` reads the string that `make_xpath_path` writes. It splits at every `/`, drops the
empty pieces, splits each piece at every `[`, deletes every `]` and splits at `=`. Nothing is
escaped on the way out, so a name or a value that contains one of these characters does not come
back.

## What the reader can produce

`makeGnmiPath_clean` says which elements the reader can produce from any string at all. A path that
comes back is such a path, whatever its string looked like; what is then left to exclude is an
element that leaves no trace in the string.
-/

namespace ConfdDemos.Gnmi

/-! ## The reader -/

def makeXpathPath (gnmiPath gnmiPrefix : Option Path) (quoteVal : Bool) : List Char :=
  makeStringPath gnmiPath gnmiPrefix quoteVal true

/-- `keys[k] = v` for a Python dictionary, which keeps the place of a key it has. -/
def setKey (keys : List (List Char × List Char)) (k v : List Char) :
    List (List Char × List Char) :=
  if k ∈ keys.map Prod.fst then keys.map fun q ↦ if q.1 = k then (k, v) else q
  else keys ++ [(k, v)]

/-- `k.replace("]", '').split('=')`, of which the first two parts are used; there is no result when
the second is missing. -/
def splitKey (k : List Char) : Option (List Char × List Char) :=
  match (k.filter (· ≠ ']')).splitOn '=' with
  | name :: value :: _ => some (name, value)
  | _ => none

/-- The loop of `make_name_keys` over what stands behind each `[`. -/
def readKeys (keys : List (List Char × List Char)) :
    List (List Char) → Option (List (List Char × List Char))
  | [] => some keys
  | k :: ks =>
    if k = [] then readKeys keys ks
    else (splitKey k).bind fun q ↦ readKeys (setKey keys q.1 q.2) ks

/-- `make_name_keys`. -/
def makeNameKeys (elemString : List Char) : Option PathElem :=
  if '[' ∈ elemString then
    (readKeys [] (elemString.splitOn '[').tail).map fun keys ↦
      ⟨(elemString.splitOn '[').headD [], keys⟩
  else some ⟨elemString, []⟩

/-- The loop of `make_gnmi_path`. -/
def makeElems : List (List Char) → Option (List PathElem)
  | [] => some []
  | e :: es =>
    if e = [] then makeElems es
    else (makeNameKeys e).bind fun elem ↦ (makeElems es).map (elem :: ·)

/-- `make_gnmi_path`, with no result for an exception. -/
def makeGnmiPath (xpathString : List Char) : Option Path :=
  (makeElems (xpathString.splitOn '/')).map Path.mk

/-! ## What a string is read as -/

/-- Free of every character the reader gives a meaning to inside brackets. -/
def Clean (s : List Char) : Prop := '/' ∉ s ∧ '[' ∉ s ∧ ']' ∉ s ∧ '=' ∉ s

/-- No character of the element is taken for a delimiter. -/
structure PathElem.Delimited (e : PathElem) : Prop where
  name : '/' ∉ e.name ∧ '[' ∉ e.name
  key : ∀ q ∈ e.key, Clean q.1 ∧ Clean q.2

theorem mem_setKey {keys : List (List Char × List Char)} {k v : List Char}
    {q : List Char × List Char} (h : q ∈ setKey keys k v) : q = (k, v) ∨ q ∈ keys := by
  rw [setKey] at h
  split_ifs at h with hk
  · obtain ⟨q', hq', rfl⟩ := List.mem_map.mp h
    split_ifs with heq
    · exact Or.inl rfl
    · exact Or.inr hq'
  · rcases List.mem_append.mp h with h' | h'
    · exact Or.inr h'
    · exact Or.inl (List.mem_singleton.mp h')

theorem splitKey_clean {k : List Char} {q : List Char × List Char} (hslash : '/' ∉ k)
    (hopen : '[' ∉ k) (h : splitKey k = some q) : Clean q.1 ∧ Clean q.2 := by
  have hpiece : ∀ piece ∈ (k.filter (· ≠ ']')).splitOn '=', Clean piece := by
    intro piece hmem
    have hsub := subset_of_mem_splitOn hmem
    refine ⟨fun hc ↦ hslash (List.mem_of_mem_filter (hsub hc)),
      fun hc ↦ hopen (List.mem_of_mem_filter (hsub hc)), fun hc ↦ ?_, notMem_of_mem_splitOn hmem⟩
    have := List.of_mem_filter (hsub hc)
    simp at this
  rw [splitKey] at h
  split at h
  next name value rest heq =>
    rw [heq] at hpiece
    rw [Option.some_inj] at h
    subst h
    exact ⟨hpiece _ List.mem_cons_self,
      hpiece _ (List.mem_cons_of_mem _ List.mem_cons_self)⟩
  next => exact absurd h (by simp)

theorem readKeys_clean {ks : List (List Char)} {keys keys' : List (List Char × List Char)}
    (hks : ∀ k ∈ ks, '/' ∉ k ∧ '[' ∉ k) (hkeys : ∀ q ∈ keys, Clean q.1 ∧ Clean q.2)
    (h : readKeys keys ks = some keys') : ∀ q ∈ keys', Clean q.1 ∧ Clean q.2 := by
  induction ks generalizing keys with
  | nil =>
    rw [readKeys, Option.some_inj] at h
    exact h ▸ hkeys
  | cons k ks ih =>
    have hrest : ∀ k ∈ ks, '/' ∉ k ∧ '[' ∉ k := fun k hk ↦ hks k (List.mem_cons_of_mem _ hk)
    rw [readKeys] at h
    split_ifs at h with hk
    · exact ih hrest hkeys h
    · rw [Option.bind_eq_some_iff] at h
      obtain ⟨q, hq, h⟩ := h
      obtain ⟨hslash, hopen⟩ := hks k List.mem_cons_self
      refine ih hrest (fun q' hq' ↦ ?_) h
      rcases mem_setKey hq' with rfl | hmem
      · exact splitKey_clean hslash hopen hq
      · exact hkeys q' hmem

theorem makeNameKeys_delimited {s : List Char} {e : PathElem} (hslash : '/' ∉ s)
    (h : makeNameKeys s = some e) : e.Delimited := by
  rw [makeNameKeys] at h
  split_ifs at h with hopen
  · rw [Option.map_eq_some_iff] at h
    obtain ⟨keys, hkeys, rfl⟩ := h
    obtain ⟨name, ks, heq⟩ := List.exists_cons_of_ne_nil (List.splitOn_ne_nil '[' s)
    have hpiece : ∀ piece ∈ name :: ks, '/' ∉ piece ∧ '[' ∉ piece := by
      intro piece hmem
      rw [← heq] at hmem
      exact ⟨fun hc ↦ hslash (subset_of_mem_splitOn hmem hc), notMem_of_mem_splitOn hmem⟩
    rw [heq] at hkeys ⊢
    exact ⟨hpiece name List.mem_cons_self,
      readKeys_clean (fun k hk ↦ hpiece k (List.mem_cons_of_mem _ hk)) (by simp) hkeys⟩
  · rw [Option.some_inj] at h
    subst h
    exact ⟨⟨hslash, hopen⟩, by simp⟩

theorem makeElems_delimited {es : List (List Char)} {elems : List PathElem}
    (hes : ∀ e ∈ es, '/' ∉ e) (h : makeElems es = some elems) : ∀ e ∈ elems, e.Delimited := by
  induction es generalizing elems with
  | nil =>
    rw [makeElems, Option.some_inj] at h
    simp [← h]
  | cons s es ih =>
    have hrest : ∀ e ∈ es, '/' ∉ e := fun e he ↦ hes e (List.mem_cons_of_mem _ he)
    rw [makeElems] at h
    split_ifs at h with hs
    · exact ih hrest h
    · simp only [Option.bind_eq_some_iff, Option.map_eq_some_iff] at h
      obtain ⟨e, he, elems', helems, rfl⟩ := h
      intro e' he'
      rcases List.mem_cons.mp he' with rfl | hmem
      · exact makeNameKeys_delimited (hes s List.mem_cons_self) he
      · exact ih hrest helems e' hmem

/-- **What the reader can produce**, from any string. -/
theorem makeGnmiPath_clean {s : List Char} {q : Path} (h : makeGnmiPath s = some q) :
    ∀ e ∈ q.elem, e.Delimited := by
  rw [makeGnmiPath, Option.map_eq_some_iff] at h
  obtain ⟨elems, helems, rfl⟩ := h
  exact makeElems_delimited (fun _ he ↦ notMem_of_mem_splitOn he) helems

/-! ## Reading back what was written -/

/-- What is written of a key behind its `[`. -/
def keyBody (q : List Char × List Char) : List Char := q.1 ++ '=' :: q.2 ++ [']']

/-- What is written of an element behind its `/`. -/
def PathElem.body (e : PathElem) : List Char := e.name ++ (e.key.map keyBody).flatMap ('[' :: ·)

theorem elemText_eq (e : PathElem) : elemText false true e = '/' :: e.body := by
  have hkey : e.key.flatMap (keyText false true) = (e.key.map keyBody).flatMap ('[' :: ·) := by
    rw [List.flatMap_map]
    rfl
  rw [elemText, hkey]
  rfl

theorem splitKey_keyBody {q : List Char × List Char} (h₁ : Clean q.1) (h₂ : Clean q.2) :
    splitKey (keyBody q) = some q := by
  have hkeep : ∀ s : List Char, ']' ∉ s → s.filter (· ≠ ']') = s := by
    intro s hs
    rw [List.filter_eq_self]
    intro c hc
    simpa using fun heq : c = ']' ↦ hs (heq ▸ hc)
  have hfilter : (keyBody q).filter (· ≠ ']') = q.1 ++ '=' :: q.2 := by
    rw [keyBody, List.filter_append, hkeep]
    · simp
    · simp [h₁.2.2.1, h₂.2.2.1]
  rw [splitKey, hfilter, List.splitOn_append_cons_self_of_not_mem h₁.2.2.2,
    List.splitOn_eq_singleton h₂.2.2.2]

theorem setKey_of_notMem {keys : List (List Char × List Char)} {k v : List Char}
    (h : k ∉ keys.map Prod.fst) : setKey keys k v = keys ++ [(k, v)] := if_neg h

/-- The keys of a map come back in their order. -/
theorem readKeys_map_keyBody {ks keys : List (List Char × List Char)}
    (hclean : ∀ q ∈ ks, Clean q.1 ∧ Clean q.2) (hnodup : ((keys ++ ks).map Prod.fst).Nodup) :
    readKeys keys (ks.map keyBody) = some (keys ++ ks) := by
  induction ks generalizing keys with
  | nil => rw [List.map_nil, readKeys, List.append_nil]
  | cons q ks ih =>
    obtain ⟨h₁, h₂⟩ := hclean q List.mem_cons_self
    have hnew : q.1 ∉ keys.map Prod.fst := by
      rw [List.map_append, List.map_cons, List.nodup_append] at hnodup
      exact fun hmem ↦ hnodup.2.2 q.1 hmem q.1 List.mem_cons_self rfl
    rw [List.map_cons, readKeys, if_neg (by simp [keyBody]), splitKey_keyBody h₁ h₂,
      Option.bind_some, setKey_of_notMem hnew, ih, List.append_assoc, List.singleton_append]
    · exact fun q' hq' ↦ hclean q' (List.mem_cons_of_mem _ hq')
    · rwa [List.append_assoc, List.singleton_append]

theorem keyBody_notMem_open {e : PathElem} (h : e.Delimited) :
    ∀ piece ∈ e.key.map keyBody, '[' ∉ piece := by
  intro piece hmem
  obtain ⟨q, hq, rfl⟩ := List.mem_map.mp hmem
  obtain ⟨h₁, h₂⟩ := h.key q hq
  simp [keyBody, h₁.2.1, h₂.2.1]

/-- An element of which no character is taken for a delimiter comes back. -/
theorem makeNameKeys_body {e : PathElem} (h : e.Delimited) (hkeyed : (e.key.map Prod.fst).Nodup) :
    makeNameKeys e.body = some e := by
  have hsplit : e.body.splitOn '[' = e.name :: e.key.map keyBody :=
    splitOn_append_flatMap h.name.2 (keyBody_notMem_open h)
  rw [makeNameKeys, hsplit]
  split_ifs with hopen
  · rw [List.tail_cons, List.headD_cons, readKeys_map_keyBody h.key (by simpa using hkeyed),
      List.nil_append, Option.map_some]
  · have hkey : e.key = [] := by
      by_contra hne
      obtain ⟨q, ks, hq⟩ := List.exists_cons_of_ne_nil hne
      exact hopen (by simp [PathElem.body, hq])
    have hbody : e.body = e.name := by simp [PathElem.body, hkey]
    rw [hbody, ← hkey]

/-- An element that leaves no trace is dropped, the others come back. -/
theorem makeElems_map_body {es : List PathElem} (h : ∀ e ∈ es, e.Delimited)
    (hkeyed : ∀ e ∈ es, (e.key.map Prod.fst).Nodup) :
    makeElems (es.map PathElem.body) = some (es.filter fun e ↦ e.body ≠ []) := by
  induction es with
  | nil => rfl
  | cons e es ih =>
    have hrest := ih (fun e' he' ↦ h e' (List.mem_cons_of_mem _ he'))
      fun e' he' ↦ hkeyed e' (List.mem_cons_of_mem _ he')
    rw [List.map_cons, makeElems, hrest, List.filter_cons]
    by_cases hbody : e.body = []
    · simp [hbody]
    · rw [if_neg hbody, makeNameKeys_body (h e List.mem_cons_self) (hkeyed e List.mem_cons_self)]
      simp [hbody]

theorem body_notMem_slash {e : PathElem} (h : e.Delimited) : '/' ∉ e.body := by
  simp only [PathElem.body, List.mem_append, List.mem_flatMap, List.mem_map, not_or]
  refine ⟨h.name.1, ?_⟩
  rintro ⟨piece, ⟨q, hq, rfl⟩, hmem⟩
  obtain ⟨h₁, h₂⟩ := h.key q hq
  simp [keyBody, h₁.1, h₂.1] at hmem

/-- What is read back from the string of a path. -/
theorem makeGnmiPath_makeXpathPath {p : Path} (h : ∀ e ∈ p.elem, e.Delimited)
    (hkeyed : ∀ e ∈ p.elem, (e.key.map Prod.fst).Nodup) :
    makeGnmiPath (makeXpathPath (some p) none false)
      = some ⟨p.elem.filter fun e ↦ e.body ≠ []⟩ := by
  have htext : p.elem.flatMap (elemText false true)
      = [] ++ (p.elem.map PathElem.body).flatMap ('/' :: ·) := by
    rw [List.nil_append, List.flatMap_map]
    exact congrArg (List.flatMap · p.elem) (funext elemText_eq)
  have hslash : ∀ piece ∈ p.elem.map PathElem.body, '/' ∉ piece := by
    intro piece hmem
    obtain ⟨e, he, rfl⟩ := List.mem_map.mp hmem
    exact body_notMem_slash (h e he)
  obtain ⟨elem⟩ := p
  cases elem with
  | nil => rfl
  | cons e es =>
    have hne : (e :: es).flatMap (elemText false true) ≠ [] := by simp [elemText]
    simp only [makeGnmiPath, makeXpathPath, makeStringPath, makePath, List.nil_append,
      if_neg hne]
    rw [htext, splitOn_append_flatMap List.not_mem_nil hslash, makeElems, if_pos rfl,
      makeElems_map_body h hkeyed, Option.map_some]

/-! ## The round trip -/

/-- A path as gNMI has it, with a map of keys in every element. -/
structure GnmiPath extends Path where
  keyed : ∀ e ∈ elem, (e.key.map Prod.fst).Nodup

/-- The same name and the same map of keys, in whatever order these are iterated. -/
def PathElem.Same (a b : PathElem) : Prop := a.name = b.name ∧ a.key.Perm b.key

/-- The string of the path is read, and as the path. -/
def GnmiPath.ComesBack (p : GnmiPath) : Prop :=
  ∃ q, makeGnmiPath (makeXpathPath (some p.toPath) none false) = some q ∧
    List.Forall₂ PathElem.Same q.elem p.elem

theorem PathElem.Same.delimited {a b : PathElem} (h : a.Same b) (ha : a.Delimited) :
    b.Delimited :=
  ⟨h.1 ▸ ha.name, fun q hq ↦ ha.key q (h.2.mem_iff.mpr hq)⟩

theorem PathElem.body_eq_nil_iff {e : PathElem} : e.body = [] ↔ e.name = [] ∧ e.key = [] := by
  rw [PathElem.body, List.append_eq_nil_iff]
  refine and_congr_right fun _ ↦ ?_
  cases e.key <;> simp

/-- **The exact domain of the round trip.** A path comes back from its string if and only if no
element name contains `/` or `[`, no key name or value contains `/`, `[`, `]` or `=`, and no element
has an empty name and no keys. -/
theorem comesBack_iff (p : GnmiPath) :
    p.ComesBack ↔ ∀ e ∈ p.elem, ('/' ∉ e.name ∧ '[' ∉ e.name) ∧
      (∀ q ∈ e.key, Clean q.1 ∧ Clean q.2) ∧ ¬ (e.name = [] ∧ e.key = []) := by
  constructor
  · rintro ⟨q, hq, hsame⟩ e he
    have hdel : ∀ e ∈ p.elem, e.Delimited := by
      intro e he
      obtain ⟨i, hi, rfl⟩ := List.getElem_of_mem he
      have hi' : i < q.elem.length := hsame.length_eq ▸ hi
      exact (hsame.get hi' hi).delimited (makeGnmiPath_clean hq _ (List.getElem_mem hi'))
    -- what came back is as long as what was sent, so nothing was dropped
    rw [makeGnmiPath_makeXpathPath hdel p.keyed, Option.some_inj] at hq
    subst hq
    have hall := List.length_filter_eq_length_iff.mp hsame.length_eq e he
    refine ⟨(hdel e he).name, (hdel e he).key, fun hempty ↦ ?_⟩
    simp [PathElem.body_eq_nil_iff.mpr hempty] at hall
  · intro h
    have hdel : ∀ e ∈ p.elem, e.Delimited := fun e he ↦ ⟨(h e he).1, (h e he).2.1⟩
    have hall : p.elem.filter (fun e ↦ e.body ≠ []) = p.elem := by
      rw [List.filter_eq_self]
      intro e he
      exact decide_eq_true fun hbody ↦ (h e he).2.2 (PathElem.body_eq_nil_iff.mp hbody)
    refine ⟨p.toPath, ?_, List.forall₂_same.mpr fun e _ ↦ ⟨rfl, List.Perm.refl _⟩⟩
    rw [makeGnmiPath_makeXpathPath hdel p.keyed, hall]

end ConfdDemos.Gnmi
