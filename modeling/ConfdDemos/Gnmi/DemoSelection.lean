import ConfdDemos.Gnmi.DemoDb
import ConfdDemos.Gnmi.DemoStream

/-!
# What a request of the demo adapter selects

The demo adapter compares paths as text: an entry of a database is selected, and a change is
reported, when its path starts with the text of the request. This module says what that means for
the elements of the paths.

A request selects what is at and below its elements. Its last element can leave out the keys behind
those it gives, so that a list without keys stands for all of its entries.

## What is left out

A text can go on in the middle of a name: that of `/interfaces-state` starts with that of
`/interfaces`. `CutsName` singles these entries out, and nothing is said about them. Nor is anything
said about the entry that the prefix names when the path is empty (`BareFront`), for which
`make_path` writes a slash behind the prefix; or about a database with entries of several containers
when one of the two containers at the top is asked for, since only the first entry is looked at.
-/

namespace ConfdDemos.Gnmi

/-! ## Paths without the module name -/

/-- No character of the element ends a part of its text early. -/
structure PathElem.Readable (e : PathElem) : Prop where
  name : '/' ∉ e.name ∧ '[' ∉ e.name
  key : ∀ q ∈ e.key, '=' ∉ q.1 ∧ ']' ∉ q.2

instance (e : PathElem) : Decidable e.Readable :=
  decidable_of_iff (('/' ∉ e.name ∧ '[' ∉ e.name) ∧ ∀ q ∈ e.key, '=' ∉ q.1 ∧ ']' ∉ q.2)
    ⟨fun h ↦ ⟨h.1, h.2⟩, fun h ↦ ⟨h.name, h.key⟩⟩

def PathElem.nsless (e : PathElem) : PathElem :=
  ⟨nslessXpath e.name, e.key.map fun q ↦ (nslessXpath q.1, nslessXpath q.2)⟩

def elemsText (es : List PathElem) : List Char := es.flatMap (elemText false true)

section Nsless

variable {c : Char} {xs ys : List Char}

theorem nslessXpath_append (h : ∀ c ∈ ys.head?, c ∉ "ietf-interfaces:".toList) :
    nslessXpath (xs ++ ys) = nslessXpath xs ++ nslessXpath ys :=
  AnnStmt.replaceFrom_append h (Nat.zero_le _)

theorem nslessXpath_cons (h : c ∉ "ietf-interfaces:".toList) :
    nslessXpath (c :: ys) = c :: nslessXpath ys := by
  have hpre : ¬ "ietf-interfaces:".toList.isPrefixOf (c :: ys) = true := by
    rw [List.isPrefixOf_iff_prefix]
    exact fun hpre ↦ h ((List.cons_prefix_cons.mp hpre).1 ▸ List.mem_cons_self)
  rw [nslessXpath, AnnStmt.replace, AnnStmt.replaceFrom, if_neg hpre]
  rfl

theorem nslessXpath_subset : nslessXpath xs ⊆ xs := AnnStmt.replaceFrom_nil_subset

theorem nslessXpath_keyText (q : List Char × List Char) : nslessXpath (keyText false true q) =
    keyText false true (nslessXpath q.1, nslessXpath q.2) := by
  have hclose : nslessXpath (q.2 ++ [']']) = nslessXpath q.2 ++ [']'] :=
    nslessXpath_append (by simp)
  have hequals : nslessXpath (q.1 ++ '=' :: (q.2 ++ [']'])) =
      nslessXpath q.1 ++ '=' :: (nslessXpath q.2 ++ [']']) := by
    rw [nslessXpath_append (by simp), nslessXpath_cons (by decide), hclose]
  have htext : keyText false true q = '[' :: (q.1 ++ '=' :: (q.2 ++ [']'])) := by simp [keyText]
  rw [htext, nslessXpath_cons (by decide), hequals]
  simp [keyText]

/-- The module name is removed part by part. -/
theorem nslessXpath_flatMap {α : Type*} {text : α → List Char} {f : α → α} {l : List α}
    (hhead : ∀ a ∈ l, ∀ c ∈ (text a).head?, c ∉ "ietf-interfaces:".toList) (hne : ∀ a, text a ≠ [])
    (htext : ∀ a, nslessXpath (text a) = text (f a)) :
    nslessXpath (l.flatMap text) = (l.map f).flatMap text := by
  induction l with
  | nil => rfl
  | cons a l ih =>
    have hrest : ∀ c ∈ (l.flatMap text).head?, c ∉ "ietf-interfaces:".toList := by
      rcases l with - | ⟨b, l⟩
      · simp
      · rw [List.flatMap_cons, List.head?_append_of_ne_nil _ (hne b)]
        exact hhead b (by simp)
    rw [List.flatMap_cons, nslessXpath_append hrest, htext a,
      ih fun b hb ↦ hhead b (List.mem_cons_of_mem _ hb), List.map_cons, List.flatMap_cons]

theorem elemText_ne_nil (e : PathElem) : elemText false true e ≠ [] := List.cons_ne_nil _ _

theorem keyText_ne_nil (q : List Char × List Char) : keyText false true q ≠ [] :=
  List.cons_ne_nil _ _

theorem head?_keys (ks : List (List Char × List Char)) :
    ∀ c ∈ (ks.flatMap (keyText false true)).head?, c = '[' := by
  rcases ks with - | ⟨q, ks⟩
  · simp
  · rw [List.flatMap_cons, List.head?_append_of_ne_nil _ (keyText_ne_nil q)]
    rintro c ⟨⟩
    rfl

theorem nslessXpath_elemText (e : PathElem) :
    nslessXpath (elemText false true e) = elemText false true e.nsless := by
  have hkeys : nslessXpath (e.key.flatMap (keyText false true)) =
      (e.key.map fun q ↦ (nslessXpath q.1, nslessXpath q.2)).flatMap (keyText false true) := by
    refine nslessXpath_flatMap (fun q _ c hc ↦ ?_) keyText_ne_nil nslessXpath_keyText
    cases hc
    decide
  have hhead : ∀ c ∈ (e.key.flatMap (keyText false true)).head?,
      c ∉ "ietf-interfaces:".toList := by
    intro c hc
    rw [head?_keys e.key c hc]
    decide
  have htext : elemText false true e = '/' :: (e.name ++ e.key.flatMap (keyText false true)) := rfl
  rw [htext, nslessXpath_cons (by decide), nslessXpath_append hhead, hkeys]
  rfl

theorem nslessXpath_elemsText (es : List PathElem) :
    nslessXpath (elemsText es) = elemsText (es.map PathElem.nsless) := by
  refine nslessXpath_flatMap (fun e _ c hc ↦ ?_) elemText_ne_nil nslessXpath_elemText
  cases hc
  decide

theorem PathElem.Readable.nsless {e : PathElem} (h : e.Readable) : e.nsless.Readable where
  name := ⟨fun hc ↦ h.name.1 (nslessXpath_subset hc), fun hc ↦ h.name.2 (nslessXpath_subset hc)⟩
  key := by
    intro q hq
    obtain ⟨p, hp, rfl⟩ := List.mem_map.mp hq
    exact ⟨fun hc ↦ (h.key p hp).1 (nslessXpath_subset hc),
      fun hc ↦ (h.key p hp).2 (nslessXpath_subset hc)⟩

end Nsless

/-! ## Reading elements off a text -/

/-- What a text goes on with when it has not stopped in the middle of a name. -/
def AtBoundary (rest : List Char) : Prop := ∀ c ∈ rest.head?, c = '/' ∨ c = '['

instance : (rest : List Char) → Decidable (AtBoundary rest)
  | [] => isTrue (by simp [AtBoundary])
  | c :: _ => decidable_of_iff (c = '/' ∨ c = '[') (by simp [AtBoundary])

/-- The request `rs` has `es` at or below it. Its last element can leave out the keys of the entry
behind those it gives. -/
def Covers (rs es : List PathElem) : Prop :=
  rs <+: es ∨ ∃ front r e rest, rs = front ++ [r] ∧ es = front ++ e :: rest ∧ r.name = e.name ∧
    r.key <+: e.key

section Elements

variable {rs es : List PathElem} {r e : PathElem} {rest : List Char}

theorem elemsText_cons : elemsText (e :: es) =
    '/' :: (e.name ++ (e.key.flatMap (keyText false true) ++ elemsText es)) := by
  simp [elemsText, elemText]

theorem elemsText_append (rs es : List PathElem) :
    elemsText (rs ++ es) = elemsText rs ++ elemsText es := List.flatMap_append

theorem head?_elemsText (es : List PathElem) : ∀ c ∈ (elemsText es).head?, c = '/' := by
  rcases es with - | ⟨e, es⟩
  · simp [elemsText]
  · rw [elemsText_cons]
    rintro c ⟨⟩
    rfl

theorem keyText_append_inj {q p : List Char × List Char} {left right : List Char}
    (hq : '=' ∉ q.1 ∧ ']' ∉ q.2) (hp : '=' ∉ p.1 ∧ ']' ∉ p.2)
    (h : keyText false true q ++ left = keyText false true p ++ right) : q = p ∧ left = right := by
  have h' : q.1 ++ '=' :: (q.2 ++ ']' :: left) = p.1 ++ '=' :: (p.2 ++ ']' :: right) := by
    simpa [keyText] using h
  have stop : ∀ {c : Char} {t : List Char}, c ∉ t → ∀ a ∈ t, ¬ a = c :=
    fun hc a ha heq ↦ hc (heq ▸ ha)
  obtain ⟨hname, hrest⟩ := append_inj_of_stop (stop hq.1) (stop hp.1) (by simp) (by simp) h'
  obtain ⟨hval, hend⟩ := append_inj_of_stop (stop hq.2) (stop hp.2) (by simp) (by simp)
    (List.cons.inj hrest).2
  exact ⟨Prod.ext hname hval, (List.cons.inj hend).2⟩

/-- Keys are read one by one, up to where either list ends. -/
theorem keys_append_cases {ks ls : List (List Char × List Char)} {left right : List Char}
    (hks : ∀ q ∈ ks, '=' ∉ q.1 ∧ ']' ∉ q.2) (hls : ∀ q ∈ ls, '=' ∉ q.1 ∧ ']' ∉ q.2)
    (hright : ∀ c ∈ right.head?, c = '/')
    (h : ks.flatMap (keyText false true) ++ left = ls.flatMap (keyText false true) ++ right) :
    (ks = ls ∧ left = right) ∨ (ks <+: ls ∧ left.head? = some '[') := by
  induction ks generalizing ls with
  | nil =>
    rcases ls with - | ⟨p, ls⟩
    · exact .inl ⟨rfl, h⟩
    · refine .inr ⟨List.nil_prefix, ?_⟩
      rw [List.flatMap_nil, List.nil_append] at h
      rw [h]
      rfl
  | cons q ks ih =>
    rcases ls with - | ⟨p, ls⟩
    · have hbracket : right.head? = some '[' := by
        rw [List.flatMap_nil, List.nil_append] at h
        rw [← h]
        rfl
      exact absurd (hright '[' hbracket) (by decide)
    · rw [List.flatMap_cons, List.flatMap_cons, List.append_assoc, List.append_assoc] at h
      obtain ⟨rfl, h'⟩ := keyText_append_inj (hks q List.mem_cons_self) (hls p List.mem_cons_self) h
      rcases ih (fun p hp ↦ hks p (List.mem_cons_of_mem _ hp))
        (fun p hp ↦ hls p (List.mem_cons_of_mem _ hp)) h' with ⟨rfl, hl⟩ | ⟨hpre, hl⟩
      · exact .inl ⟨rfl, hl⟩
      · exact .inr ⟨List.cons_prefix_cons.mpr ⟨rfl, hpre⟩, hl⟩

theorem AtBoundary.keys_append (ks : List (List Char × List Char)) (h : AtBoundary rest) :
    AtBoundary (ks.flatMap (keyText false true) ++ rest) := by
  rcases ks with - | ⟨q, ks⟩
  · exact h
  · rintro c ⟨⟩
    exact .inr rfl

theorem AtBoundary.elems_append (es : List PathElem) (h : AtBoundary rest) :
    AtBoundary (elemsText es ++ rest) := by
  rcases es with - | ⟨e, es⟩
  · exact h
  · rw [elemsText_cons]
    rintro c ⟨⟩
    exact .inl rfl

theorem atBoundary_elemsText (es : List PathElem) : AtBoundary (elemsText es) :=
  fun c hc ↦ .inl (head?_elemsText es c hc)

theorem PathElem.Readable.not_stop (h : e.Readable) : ∀ c ∈ e.name, ¬ (c = '/' ∨ c = '[') := by
  rintro c hc (rfl | rfl)
  · exact h.name.1 hc
  · exact h.name.2 hc

theorem Covers.cons (h : Covers rs es) (e : PathElem) : Covers (e :: rs) (e :: es) := by
  rcases h with hpre | ⟨front, r, x, rest, rfl, rfl, hname, hkey⟩
  · exact .inl (List.cons_prefix_cons.mpr ⟨rfl, hpre⟩)
  · exact .inr ⟨e :: front, r, x, rest, rfl, rfl, hname, hkey⟩

/-- A text that stops at a boundary has the elements it is made of at the beginning of any other way
to read it, except that keys of the last one can still follow. -/
theorem elems_of_append (hrs : ∀ r ∈ rs, r.Readable) (hes : ∀ e ∈ es, e.Readable)
    (hrest : AtBoundary rest) (h : elemsText rs ++ rest = elemsText es) :
    (∃ tail, es = rs ++ tail ∧ rest = elemsText tail) ∨ (rest.head? = some '[' ∧ Covers rs es) := by
  induction rs generalizing es with
  | nil => exact .inl ⟨es, rfl, h⟩
  | cons r rs ih =>
    rcases es with - | ⟨e, es⟩
    · rw [elemsText_cons] at h
      exact absurd h (List.cons_ne_nil _ _)
    have hr := hrs r List.mem_cons_self
    have he := hes e List.mem_cons_self
    rw [elemsText_cons, elemsText_cons, List.cons_append, List.append_assoc, List.append_assoc] at h
    obtain ⟨hname, hafter⟩ := append_inj_of_stop hr.not_stop he.not_stop
      ((hrest.elems_append rs).keys_append r.key) ((atBoundary_elemsText es).keys_append e.key)
      (List.cons.inj h).2
    rcases keys_append_cases hr.key he.key (head?_elemsText es) hafter with
      ⟨hkey, hmore⟩ | ⟨hkey, hbracket⟩
    · obtain rfl : r = e := by
        cases r
        cases e
        exact congrArg₂ PathElem.mk hname hkey
      rcases ih (fun x hx ↦ hrs x (List.mem_cons_of_mem _ hx))
        (fun x hx ↦ hes x (List.mem_cons_of_mem _ hx)) hmore with
        ⟨tail, rfl, htail⟩ | ⟨hhead, hcovers⟩
      · exact .inl ⟨tail, rfl, htail⟩
      · exact .inr ⟨hhead, hcovers.cons r⟩
    · -- a bracket follows the keys of `r`, so no element does
      rcases rs with - | ⟨x, rs⟩
      · exact .inr ⟨hbracket, .inr ⟨[], r, e, es, rfl, rfl, hname, hkey⟩⟩
      · rw [elemsText_cons] at hbracket
        exact absurd hbracket (by simp)

/-- What is covered starts with the text of the request. -/
theorem Covers.isPrefix (h : Covers rs es) : elemsText rs <+: elemsText es := by
  rcases h with ⟨tail, rfl⟩ | ⟨front, r, e, rest, rfl, rfl, hname, ⟨ks, hkey⟩⟩
  · rw [elemsText_append]
    exact List.prefix_append _ _
  · have htext : elemsText [r] <+: elemsText (e :: rest) := by
      rw [elemsText_cons, elemsText_cons, ← hkey, hname, List.flatMap_append]
      simp [elemsText]
    rw [elemsText_append, elemsText_append]
    exact (List.prefix_append_right_inj _).mpr htext

/-- Where the text does not go on in the middle of a name, a request and an entry are compared
element by element. -/
theorem prefix_iff_covers (hrs : ∀ r ∈ rs, r.Readable) (hes : ∀ e ∈ es, e.Readable)
    (hcut : ∀ rest, elemsText es = elemsText rs ++ rest → AtBoundary rest) :
    elemsText rs <+: elemsText es ↔ Covers rs es := by
  refine ⟨fun ⟨rest, h⟩ ↦ ?_, Covers.isPrefix⟩
  rcases elems_of_append hrs hes (hcut rest h.symm) h with ⟨tail, htail, -⟩ | ⟨-, hcovers⟩
  · exact .inl ⟨tail, htail.symm⟩
  · exact hcovers

/-- A slash behind the request asks for what is strictly below it. -/
theorem prefix_slash_iff (hrs : ∀ r ∈ rs, r.Readable) (hes : ∀ e ∈ es, e.Readable) :
    elemsText rs ++ ['/'] <+: elemsText es ↔ rs <+: es ∧ rs ≠ es := by
  constructor
  · rintro ⟨rest, h⟩
    rw [List.append_assoc] at h
    have hbound : AtBoundary (['/'] ++ rest) := by
      rintro c ⟨⟩
      exact .inl rfl
    rcases elems_of_append hrs hes hbound h with ⟨tail, rfl, htail⟩ | ⟨hbracket, -⟩
    · refine ⟨List.prefix_append _ _, fun heq ↦ ?_⟩
      obtain rfl : tail = [] := by simpa using heq
      exact absurd htail (by simp [elemsText])
    · exact absurd hbracket (by simp)
  · rintro ⟨⟨tail, rfl⟩, hne⟩
    rcases tail with - | ⟨e, tail⟩
    · exact absurd (List.append_nil rs).symm hne
    · rw [elemsText_append, elemsText_cons]
      simp

/-- A name is compared with the name of the first element only. -/
theorem prefix_head_iff {name : List Char} (hname : '/' ∉ name ∧ '[' ∉ name) :
    '/' :: name <+: elemsText (e :: es) ↔ name <+: e.name := by
  rw [elemsText_cons, List.cons_prefix_cons, and_iff_right rfl]
  refine prefix_append_iff_of_notMem fun c hc ↦ ?_
  rcases (atBoundary_elemsText es).keys_append e.key c hc with rfl | rfl
  · exact hname.1
  · exact hname.2

end Elements

/-! ## Requests -/

/-- The path of an entry of a database. -/
structure StoredPath extends Path where
  ne_nil : elem ≠ []
  readable : ∀ e ∈ elem, e.Readable

namespace StoredPath

def text (p : StoredPath) : List Char := makePath false true p.toPath

def nslessElem (p : StoredPath) : List PathElem := p.elem.map PathElem.nsless

end StoredPath

def storedDb (entries : List (StoredPath × List Char)) : Db := entries.map fun q ↦ (q.1.text, q.2)

/-- The paths of the entries that `get_db_updates_for_path` takes into account. -/
def taken (db : Db) (request : List Char) : List (List Char) :=
  if isTop (nslessXpath request) then
    match db with
    | [] => []
    | first :: _ => if (nslessXpath request).isPrefixOf first.1 then db.map Prod.fst else []
  else startingWith db request

/-- What is reported is made from the entries taken into account. -/
theorem pathValList_eq_taken {db : Db} (hdb : db ≠ []) (request : List Char) :
    pathValList request db =
      if isTop (nslessXpath request) then
        .ok (if taken db request = [] then []
          else [(request, .interfaces ((demoDbToKeyElemMap db).map Prod.snd))])
      else pathVals (demoDbToKeyElemMap db) (getElemFromXpath request) [] (taken db request) := by
  obtain ⟨first, db, rfl⟩ := List.exists_cons_of_ne_nil hdb
  unfold pathValList taken
  by_cases htop : isTop (nslessXpath request) = true
  · simp only [htop, if_true]
    by_cases hfirst : (nslessXpath request).isPrefixOf first.1 = true
    · simp [hfirst]
    · simp [hfirst]
  · simp only [htop, Bool.false_eq_true, if_false]

def Path.Readable (p : Path) : Prop := ∀ e ∈ p.elem, e.Readable

/-- A path under a prefix asks for the entry `es`. An empty path asks for what is below the
prefix. -/
def Requested (path gnmiPrefix : Path) (es : List PathElem) : Prop :=
  let front := gnmiPrefix.elem.map PathElem.nsless
  if path.elem = [] then front <+: es else Covers (front ++ path.elem.map PathElem.nsless) es

/-- The path is empty and the entry is the one that the prefix names. -/
def BareFront (path gnmiPrefix : Path) (es : List PathElem) : Prop :=
  path.elem = [] ∧ gnmiPrefix.elem.map PathElem.nsless = es

/-- The text of the entry goes on in the middle of the name that ends the request. -/
def CutsName (path gnmiPrefix : Path) (entry : List Char) : Prop :=
  path.elem ≠ [] ∧ ∃ rest,
    nslessXpath entry = nslessXpath (pathWithPrefix path gnmiPrefix) ++ rest ∧ ¬ AtBoundary rest

theorem not_cutsName {path gnmiPrefix : Path} {entry : List Char}
    (h : AtBoundary
      ((nslessXpath entry).drop (nslessXpath (pathWithPrefix path gnmiPrefix)).length)) :
    ¬ CutsName path gnmiPrefix entry := by
  rintro ⟨-, rest, hrest, hbound⟩
  rw [hrest, List.drop_left] at h
  exact hbound h

/-- A database with the entries of one container, the first of them written without the module
name. -/
structure OneContainer (entries : List (StoredPath × List Char)) : Prop where
  head : ∀ q ∈ entries, ∀ q' ∈ entries, q.1.nslessElem.head? = q'.1.nslessElem.head?
  first : ∀ q ∈ entries.head?, nslessXpath q.1.text = q.1.text

section Requests

variable {path gnmiPrefix : Path} {entries : List (StoredPath × List Char)} {p : StoredPath}

theorem makePath_eq_elemsText {q : Path} (h : q.elem ≠ []) :
    makePath false true q = elemsText q.elem := by
  obtain ⟨e, es, hes⟩ := List.exists_cons_of_ne_nil h
  unfold makePath
  rw [hes, List.flatMap_cons, if_neg (by simp [elemText]), elemsText, List.flatMap_cons]

theorem StoredPath.nslessXpath_text (p : StoredPath) :
    nslessXpath p.text = elemsText p.nslessElem := by
  rw [StoredPath.text, makePath_eq_elemsText p.ne_nil, nslessXpath_elemsText]
  rfl

theorem StoredPath.readable_nslessElem (p : StoredPath) : ∀ e ∈ p.nslessElem, e.Readable := by
  intro e he
  obtain ⟨x, hx, rfl⟩ := List.mem_map.mp he
  exact (p.readable x hx).nsless

theorem Path.Readable.nsless {q : Path} (h : q.Readable) :
    ∀ e ∈ q.elem.map PathElem.nsless, e.Readable := by
  intro e he
  obtain ⟨x, hx, rfl⟩ := List.mem_map.mp he
  exact (h x hx).nsless

theorem makeXpathPath_none (gnmiPrefix : Path) :
    makeXpathPath none (some gnmiPrefix) false = elemsText gnmiPrefix.elem := by
  unfold makeXpathPath makeStringPath
  by_cases h : gnmiPrefix.elem = []
  · simp [h, elemsText]
  · simp [h, makePath_eq_elemsText h]

theorem pathWithPrefix_eq :
    pathWithPrefix path gnmiPrefix = elemsText gnmiPrefix.elem ++ makePath false true path := by
  rw [← makeXpathPath_none]
  rfl

theorem exists_makePath (path : Path) : ∃ t, makePath false true path = '/' :: t := by
  by_cases h : path.elem = []
  · exact ⟨[], by simp [makePath, h]⟩
  · obtain ⟨e, es, hes⟩ := List.exists_cons_of_ne_nil h
    exact ⟨_, by rw [makePath_eq_elemsText h, hes, elemsText_cons]⟩

theorem nslessXpath_pathWithPrefix : nslessXpath (pathWithPrefix path gnmiPrefix) =
    elemsText (gnmiPrefix.elem.map PathElem.nsless) ++
      if path.elem = [] then ['/'] else elemsText (path.elem.map PathElem.nsless) := by
  have hslash : nslessXpath ['/'] = ['/'] := by decide
  rw [pathWithPrefix_eq]
  by_cases h : path.elem = []
  · have hmake : makePath false true path = ['/'] := by simp [makePath, h]
    rw [hmake, nslessXpath_append (by simp), nslessXpath_elemsText, if_pos h, hslash]
  · rw [makePath_eq_elemsText h, if_neg h, ← elemsText_append, nslessXpath_elemsText,
      List.map_append, elemsText_append]

/-- The comparison of the texts is one of the elements. -/
theorem prefix_iff_requested (hpath : path.Readable) (hfront : gnmiPrefix.Readable)
    (hcut : ¬ CutsName path gnmiPrefix p.text) (hbare : ¬ BareFront path gnmiPrefix p.nslessElem) :
    nslessXpath (pathWithPrefix path gnmiPrefix) <+: nslessXpath p.text ↔
      Requested path gnmiPrefix p.nslessElem := by
  rw [p.nslessXpath_text, nslessXpath_pathWithPrefix, Requested]
  by_cases h : path.elem = []
  · rw [if_pos h, if_pos h]
    rw [prefix_slash_iff hfront.nsless p.readable_nslessElem]
    exact and_iff_left fun heq ↦ hbare ⟨h, heq⟩
  · rw [if_neg h, if_neg h, ← elemsText_append]
    refine prefix_iff_covers ?_ p.readable_nslessElem fun rest hrest ↦ ?_
    · intro r hr
      rcases List.mem_append.mp hr with hr | hr
      · exact hfront.nsless r hr
      · exact hpath.nsless r hr
    · by_contra hbound
      refine hcut ⟨h, rest, ?_, hbound⟩
      rw [p.nslessXpath_text, nslessXpath_pathWithPrefix, if_neg h, hrest, elemsText_append]

/-- One of the containers at the top is found in the first entry if it is found in any. -/
theorem top_prefix_iff {top : List Char} (htop : isTop top = true) {p p' : StoredPath}
    (hhead : p.nslessElem.head? = p'.nslessElem.head?) :
    top <+: nslessXpath p.text ↔ top <+: nslessXpath p'.text := by
  obtain ⟨name, rfl, hname⟩ : ∃ name, top = '/' :: name ∧ '/' ∉ name ∧ '[' ∉ name := by
    rcases Bool.or_eq_true_iff.mp htop with h | h
    · exact ⟨"interfaces".toList, eq_of_beq h, by decide⟩
    · exact ⟨"interfaces-state".toList, eq_of_beq h, by decide⟩
  have hne : ∀ q : StoredPath, q.nslessElem ≠ [] :=
    fun q ↦ by simp [StoredPath.nslessElem, q.ne_nil]
  obtain ⟨e, es, hes⟩ := List.exists_cons_of_ne_nil (hne p)
  obtain ⟨e', es', hes'⟩ := List.exists_cons_of_ne_nil (hne p')
  obtain rfl : e = e' := by simpa [hes, hes'] using hhead
  rw [p.nslessXpath_text, p'.nslessXpath_text, hes, hes', prefix_head_iff hname,
    prefix_head_iff hname]

theorem mem_taken_iff {q : StoredPath × List Char} (hq : q ∈ entries) (hpath : path.Readable)
    (hfront : gnmiPrefix.Readable) (hcut : ¬ CutsName path gnmiPrefix q.1.text)
    (hbare : ¬ BareFront path gnmiPrefix q.1.nslessElem)
    (hone : isTop (nslessXpath (pathWithPrefix path gnmiPrefix)) → OneContainer entries) :
    q.1.text ∈ taken (storedDb entries) (pathWithPrefix path gnmiPrefix) ↔
      Requested path gnmiPrefix q.1.nslessElem := by
  rw [← prefix_iff_requested hpath hfront hcut hbare]
  unfold taken
  have hmem : q.1.text ∈ (storedDb entries).map Prod.fst :=
    List.mem_map.mpr ⟨_, List.mem_map.mpr ⟨q, hq, rfl⟩, rfl⟩
  split_ifs with htop
  · obtain ⟨first, rest, rfl⟩ := List.exists_cons_of_ne_nil (List.ne_nil_of_mem hq)
    have hraw : nslessXpath first.1.text = first.1.text := (hone htop).first first rfl
    rw [← top_prefix_iff htop ((hone htop).head first List.mem_cons_self q hq), hraw,
      ← List.isPrefixOf_iff_prefix]
    simp only [storedDb, List.map_cons] at hmem ⊢
    split_ifs with hpre
    · exact iff_of_true hmem hpre
    · exact iff_of_false List.not_mem_nil hpre
  · rw [startingWith, List.mem_filter, and_iff_right hmem, List.isPrefixOf_iff_prefix]

end Requests

/-! ## Changes -/

/-- `add_path_for_monitoring`. -/
def addPathForMonitoring (monitored : List (List Char)) (path gnmiPrefix : Path) :
    List (List Char) :=
  monitored ++ [nslessXpath (pathWithPrefix path gnmiPrefix)]

/-- The monitored paths of a subscriber, for the paths and prefixes of its subscriptions. -/
def monitoredPaths (subs : List (Path × Path)) : List (List Char) :=
  subs.foldl (fun monitored sub ↦ addPathForMonitoring monitored sub.1 sub.2) []

section Changes

variable {subs : List (Path × Path)} {known : List Char → Bool} {p : StoredPath}

theorem mem_monitoredPaths {t : List Char} : t ∈ monitoredPaths subs ↔
    ∃ sub ∈ subs, nslessXpath (pathWithPrefix sub.1 sub.2) = t := by
  have hfold : ∀ front, t ∈ subs.foldl (fun monitored sub ↦
      addPathForMonitoring monitored sub.1 sub.2) front ↔
        t ∈ front ∨ ∃ sub ∈ subs, nslessXpath (pathWithPrefix sub.1 sub.2) = t := by
    induction subs with
    | nil => simp
    | cons sub subs ih =>
      intro front
      rw [List.foldl_cons, ih, addPathForMonitoring, List.mem_append, List.mem_singleton,
        List.exists_mem_cons_iff, or_assoc, eq_comm]
  rw [monitoredPaths, hfold, or_iff_right List.not_mem_nil]

theorem any_monitored_iff (hsubs : ∀ sub ∈ subs, sub.1.Readable ∧ sub.2.Readable)
    (hcut : ∀ sub ∈ subs, ¬ CutsName sub.1 sub.2 p.text)
    (hbare : ∀ sub ∈ subs, ¬ BareFront sub.1 sub.2 p.nslessElem) :
    ((monitoredPaths subs).any fun elem ↦ elem.isPrefixOf (nslessXpath p.text)) = true ↔
      ∃ sub ∈ subs, Requested sub.1 sub.2 p.nslessElem := by
  rw [List.any_eq_true]
  constructor
  · rintro ⟨t, ht, hpre⟩
    obtain ⟨sub, hsub, rfl⟩ := mem_monitoredPaths.mp ht
    rw [List.isPrefixOf_iff_prefix] at hpre
    exact ⟨sub, hsub, (prefix_iff_requested (hsubs sub hsub).1 (hsubs sub hsub).2
      (hcut sub hsub) (hbare sub hsub)).mp hpre⟩
  · rintro ⟨sub, hsub, hreq⟩
    refine ⟨_, mem_monitoredPaths.mpr ⟨sub, hsub, rfl⟩, ?_⟩
    rw [List.isPrefixOf_iff_prefix]
    exact (prefix_iff_requested (hsubs sub hsub).1 (hsubs sub hsub).2 (hcut sub hsub)
      (hbare sub hsub)).mpr hreq

/-- A change is kept for the subscriber exactly when it passes the filter. -/
theorem changeDb_next_iff {s : DemoStream} {path val : List Char} {todo : List DemoChange}
    {monitored : List (List Char)} (hpath : path ≠ []) :
    (s.next monitored known (.change path val :: todo)).chan.changeDb =
        s.chan.changeDb ++ [(slashed path, val)] ↔
      (monitored.any fun elem ↦ elem.isPrefixOf (slashed path)) = true := by
  rw [DemoStream.next, if_neg hpath]
  by_cases hany : (monitored.any fun elem ↦ elem.isPrefixOf (slashed path)) = true
  · rw [if_pos hany]
    refine iff_of_true ?_ hany
    split_ifs
    · rfl
    · rfl
  · rw [if_neg hany]
    exact iff_of_false (by simp) hany

/-- **Subtree selection.** Of the entries that do not go on in the middle of a name, and are not the
one that the prefix of an empty path names, a request takes those into account that it asks for, and
a change is reported when one of the subscriptions asks for its path. -/
theorem selection_by_elements :
    (∀ (entries : List (StoredPath × List Char)) (path gnmiPrefix : Path), path.Readable →
      gnmiPrefix.Readable →
      (isTop (nslessXpath (pathWithPrefix path gnmiPrefix)) → OneContainer entries) →
      ∀ q ∈ entries, ¬ CutsName path gnmiPrefix q.1.text →
        ¬ BareFront path gnmiPrefix q.1.nslessElem →
        (q.1.text ∈ taken (storedDb entries) (pathWithPrefix path gnmiPrefix) ↔
          Requested path gnmiPrefix q.1.nslessElem)) ∧
    ∀ (subs : List (Path × Path)) (known : List Char → Bool) (s : DemoStream) (path val : List Char)
      (todo : List DemoChange) (p : StoredPath), path ≠ [] → slashed path = nslessXpath p.text →
      (∀ sub ∈ subs, sub.1.Readable ∧ sub.2.Readable) →
      (∀ sub ∈ subs, ¬ CutsName sub.1 sub.2 p.text) →
      (∀ sub ∈ subs, ¬ BareFront sub.1 sub.2 p.nslessElem) →
        ((s.next (monitoredPaths subs) known (.change path val :: todo)).chan.changeDb =
            s.chan.changeDb ++ [(slashed path, val)] ↔
          ∃ sub ∈ subs, Requested sub.1 sub.2 p.nslessElem) := by
  refine ⟨fun entries path gnmiPrefix hpath hfront hone q hq hcut hbare ↦
    mem_taken_iff hq hpath hfront hcut hbare hone, ?_⟩
  intro subs known s path val todo p hne hpath hsubs hcut hbare
  rw [changeDb_next_iff hne, hpath, any_monitored_iff hsubs hcut hbare]

/-- The path of a leaf of the interface `if_1`. -/
def ifOne (leaf : String) (h : '/' ∉ leaf.toList ∧ '[' ∉ leaf.toList) : StoredPath where
  elem := [⟨"interfaces".toList, []⟩, ⟨"interface".toList, [("name".toList, "if_1".toList)]⟩,
    ⟨leaf.toList, []⟩]
  ne_nil := List.cons_ne_nil _ _
  readable := by
    intro e he
    simp only [List.mem_cons, List.not_mem_nil, or_false] at he
    rcases he with rfl | rfl | rfl
    · decide
    · decide
    · exact ⟨h, by simp⟩

def interfacesPrefix : Path := ⟨[⟨"ietf-interfaces:interfaces".toList, []⟩]⟩

def interfacePath : Path := ⟨[⟨"interface".toList, []⟩]⟩

def ifOneType : StoredPath := ifOne "type" (by decide)

def ifOneEntries : List (StoredPath × List Char) :=
  [(ifOne "name" (by decide), "if_1".toList), (ifOneType, "gigabitEthernet".toList)]

/-- The list without keys, asked for in a request and in a subscription. -/
theorem selection_interface :
    (ifOneType.text ∈
        taken (storedDb ifOneEntries) (pathWithPrefix interfacePath interfacesPrefix) ↔
      Requested interfacePath interfacesPrefix ifOneType.nslessElem) ∧
    ((DemoStream.init.next (monitoredPaths [(interfacePath, interfacesPrefix)]) (fun _ ↦ true)
        [.change ifOneType.text "fastEther".toList]).chan.changeDb =
          DemoStream.init.chan.changeDb ++ [(slashed ifOneType.text, "fastEther".toList)] ↔
      ∃ sub ∈ [(interfacePath, interfacesPrefix)],
        Requested sub.1 sub.2 ifOneType.nslessElem) := by
  have hreadable : interfacePath.Readable ∧ interfacesPrefix.Readable := by
    unfold Path.Readable
    decide
  have hcut : ¬ CutsName interfacePath interfacesPrefix ifOneType.text := by
    refine not_cutsName ?_
    decide +kernel
  have hbare : ¬ BareFront interfacePath interfacesPrefix ifOneType.nslessElem :=
    fun h ↦ absurd h.1 (by decide)
  refine ⟨selection_by_elements.1 ifOneEntries interfacePath interfacesPrefix hreadable.1
    hreadable.2 (fun htop ↦ absurd htop (by decide +kernel))
    (ifOneType, "gigabitEthernet".toList) (by simp [ifOneEntries]) hcut hbare, ?_⟩
  refine selection_by_elements.2 _ _ _ _ _ [] ifOneType (by decide +kernel) (by decide +kernel) ?_
    ?_ ?_
  · simpa using hreadable
  · simpa using hcut
  · simpa using hbare

/-- The entries of a list are selected by the list without keys, which is not an element of their
paths. -/
theorem not_initial_segment_interface : ¬ ∀ q ∈ ifOneEntries,
    (q.1.text ∈ taken (storedDb ifOneEntries) (pathWithPrefix interfacePath interfacesPrefix) ↔
      (interfacesPrefix.elem ++ interfacePath.elem).map PathElem.nsless <+: q.1.nslessElem) := by
  intro h
  have htaken : ifOneType.text ∈
      taken (storedDb ifOneEntries) (pathWithPrefix interfacePath interfacesPrefix) := by
    decide +kernel
  have hpre := (h (ifOneType, "gigabitEthernet".toList) (by simp [ifOneEntries])).mp htaken
  revert hpre
  decide +kernel

end Changes

end ConfdDemos.Gnmi
