import ConfdDemos.AnnStmt.Conservation
import ConfdDemos.Foundation.Places

/-!
# Statement paths lead back

A statement that is moved is wrapped into one annotation for every statement above it. The path of
an annotation is a single step, from a statement to some of the statements right below it: by
keyword and argument, by keyword and number, or by keyword alone. The steps together have to lead
from the module to the statement above the one that was moved, and nowhere else.

## Which step is chosen

A statement with an argument is addressed by it, a statement without one by its keyword. An augment
whose target another augment had earlier in the document is addressed by number. The number counts
all augments before it in the document, and not those next to it; and the first of several augments
with one target is still addressed by the target, which fits the others as well.

## Results

`leads_back_iff` is exact. The steps lead back if and only if every augment that is addressed by
number has no augments before it but those next to it, and there is no other way down from the
module along statements that look like those above the one that was moved.

The steps are those that `add_stmt` builds, and paths are resolved in the document as the script has
parsed it, where the attribute for names is called `yname`. When the annotations are written, the
replaces of `annOut` run over these steps as over all other text: a step to a container
`annotate_module` then names a container `annotate-module`.
-/

namespace ConfdDemos.AnnStmt

open Forest

/-! ## Steps and their resolution -/

/-- The argument of a statement. The augments are asked for their target by name. -/
def Item.argument (a : Item) : Option Text :=
  if a.name = "augment".toList then some (augmentTarget a.attrs)
  else a.attrs.head?.map Prod.snd

/-- How many of the statements before a place, and next to it, have a keyword. -/
def rank (f : Xml) (p : List ℕ) (keyword : Text) : ℕ :=
  (f.elder p).countP fun a ↦ decide (a.name = keyword)

inductive Step
  | argument (keyword attr value : Text)
  | nth (keyword : Text) (n : ℕ)
  | all (keyword : Text)
  deriving DecidableEq

namespace Step

/-- The text of a step in a statement path. -/
def print : Step → Text
  | argument keyword attr value =>
    keyword ++ "[".toList ++ attr ++ "='".toList ++ value ++ "']".toList
  | nth keyword n => keyword ++ "[".toList ++ (toString n).toList ++ "]".toList
  | all keyword => keyword

def keyword : Step → Text
  | argument keyword _ _ => keyword
  | nth keyword _ => keyword
  | all keyword => keyword

/-- A step to the statement `a` at the place `p`, from the statement above it. -/
def Fits (f : Xml) (p : List ℕ) (a : Item) : Step → Prop
  | argument _ _ value => a.argument = some value
  | nth keyword n => rank f p keyword + 1 = n
  | all _ => True

/-- The statement at the place `p` is among those that a step leads to. -/
def Selects (f : Xml) (s : Step) (p : List ℕ) : Prop :=
  ∃ a, f.label? p = some a ∧ a.name = s.keyword ∧ s.Fits f p a

end Step

/-- Steps lead from the module to a place. The last step comes first, as in places. -/
def Resolves (f : Xml) : List Step → List ℕ → Prop
  | [], [] => True
  | s :: up, i :: p => s.Selects f (i :: p) ∧ Resolves f up p
  | _, _ => False

/-! ## Moved statements -/

/-- A statement above one that is moved: its place in the module, and the targets of the augments
before it in the document. -/
structure Level where
  place : List ℕ
  stmt : Item
  before : List Text
  deriving DecidableEq

namespace Level

/-- An augment whose target another one had earlier. -/
def isRepeated (l : Level) : Bool :=
  decide (l.stmt.name = "augment".toList) && l.before.contains (augmentTarget l.stmt.attrs)

def step (l : Level) : Step :=
  if l.stmt.name = "augment".toList then
    if l.before.contains (augmentTarget l.stmt.attrs) then .nth l.stmt.name (l.before.length + 1)
    else .argument l.stmt.name "name".toList (augmentTarget l.stmt.attrs)
  else
    match l.stmt.attrs with
    | [] => .all l.stmt.name
    | (k, v) :: _ => .argument l.stmt.name k v

def text (l : Level) : Text := pathStep l.before l.stmt.name l.stmt.attrs

/-- The steps are those that the script writes. -/
theorem print_step (l : Level) : l.step.print = l.text := by
  unfold step text pathStep
  by_cases haug : l.stmt.name = "augment".toList
  · have hname : "[".toList ++ ("name".toList ++ "='".toList) = "[name='".toList := by decide
    simp only [if_pos haug]
    split_ifs
    · rfl
    · rw [← hname, Step.print]
      simp only [List.append_assoc]
  · simp only [if_neg haug]
    rcases l.stmt.attrs with - | ⟨⟨k, v⟩, attrs⟩
    · rfl
    · rfl

end Level

/-- A statement that is moved, with its place in the module and the statements above it, from the
innermost one on. -/
structure Moved where
  place : List ℕ
  stmt : Item
  children : Xml
  levels : List Level
  deriving DecidableEq

/-- What is put into the annotation module. -/
def Moved.annotation (s : Moved) : Xml :=
  addStmt (s.levels.map fun l ↦ l.step.print) (.node s.stmt s.children .nil)

/-- The statements a pass moves, for a document that knows where its statements were in the module.
`up` are the statements above, and `seen` the targets of the augments met so far. -/
def Kind.moves (k : Kind) : Text → List Level → List Text → Forest (List ℕ × Item) →
    List Moved × List Text
  | _, _, seen, .nil => ([], seen)
  | parent, up, seen, .node (p, a) c r =>
    if k.takes parent a then
      let (moved, seen) := moves k parent up seen r
      (⟨p, a, c.map Prod.snd, up⟩ :: moved, seen)
    else
      let level := ⟨p, a, seen⟩
      let seen := if a.name = "augment".toList then seen ++ [augmentTarget a.attrs] else seen
      let (moved, seen) := moves k a.name (level :: up) seen c
      let (moved', seen) := moves k parent up seen r
      (moved ++ moved', seen)

/-- The statements moved by one pass after the other. -/
def moved (root : Text) : List Kind → Forest (List ℕ × Item) → List Moved
  | [], _ => []
  | k :: ks, g => (k.moves root [] [] g).1 ++ moved root ks (g.cut (k.finds ∘ Prod.snd))

/-- The document as it is parsed. -/
def YinModule.parsed (m : YinModule) : Xml := m.body.map (Item.substitute yinIn)

/-- The statements that the script moves. -/
def YinModule.moved (m : YinModule) (flags : Kind → Bool) (leafref : Bool) : List Moved :=
  AnnStmt.moved m.rootName (passes flags leafref) (m.parsed.located [] 0)

/-- The annotations that the script makes. -/
def YinModule.annotations (m : YinModule) (flags : Kind → Bool) (leafref : Bool) : List Xml :=
  ((passes flags leafref).foldl (Soup.pass m.rootName)
    { yin := m.parsed, anns := [], noted := false }).anns

theorem Kind.annotated_map (k : Kind) (parent : Text) (up : List Level) (seen : List Text)
    (g : Forest (List ℕ × Item)) :
    k.annotated parent (up.map fun l ↦ l.step.print) seen (g.map Prod.snd) =
      ((k.moves parent up seen g).1.map Moved.annotation, (k.moves parent up seen g).2) := by
  induction g generalizing parent up seen with
  | nil => rfl
  | node pa c r ihc ihr =>
    obtain ⟨p, a⟩ := pa
    have hlevel := ihc a.name (⟨p, a, seen⟩ :: up)
    rw [List.map_cons, Level.print_step, Level.text] at hlevel
    rw [map, annotated, moves]
    split_ifs
    · simp only [ihr, List.map_cons, Moved.annotation]
    · simp only [hlevel, ihr, List.map_append]
    · simp only [hlevel, ihr, List.map_append]

theorem anns_foldl_pass_eq {root : Text} (hroot : ∀ k : Kind, k.hits root = false)
    (ks : List Kind) (g : Forest (List ℕ × Item)) (s : Soup) (hs : s.yin = g.map Prod.snd) :
    (ks.foldl (Soup.pass root) s).anns = s.anns ++ (moved root ks g).map Moved.annotation := by
  induction ks generalizing g s with
  | nil => exact (List.append_nil _).symm
  | cons k ks ih =>
    have hyin : (s.pass root k).yin = (g.cut (k.finds ∘ Prod.snd)).map Prod.snd := by
      rw [Soup.pass, Kind.remaining_eq_cut (hroot k), hs, cut_map]
    have hanns : (s.pass root k).anns =
        s.anns ++ (k.moves root [] [] g).1.map Moved.annotation := by
      have hmap := k.annotated_map root [] [] g
      rw [List.map_nil] at hmap
      rw [Soup.pass, hs, hmap]
    rw [List.foldl_cons, ih _ _ hyin, hanns, moved, List.map_append, List.append_assoc]

/-- The annotations of the script are those of the statements it moves. -/
theorem annotations_eq (m : YinModule) (flags : Kind → Bool) (leafref : Bool) :
    m.annotations flags leafref = (m.moved flags leafref).map Moved.annotation :=
  anns_foldl_pass_eq m.hits_rootName _ _ _ (map_located [] 0 m.parsed).symm

/-! ## The statements above a moved one -/

/-- The statements above a place, from the innermost one on. -/
def Chain (f : Xml) : List Level → List ℕ → Prop
  | [], [] => True
  | l :: up, i :: p => l.place = i :: p ∧ f.label? (i :: p) = some l.stmt ∧ Chain f up p
  | _, _ => False

/-- A moved statement stood at its place in the module, and its levels are what was above it. -/
structure Moved.IsFrom (f : Xml) (s : Moved) : Prop where
  label : f.label? s.place = some s.stmt
  chain : Chain f s.levels s.place.tail

theorem Kind.isFrom_of_mem_moves {k : Kind} {f : Xml} {parent : Text} {up : List Level}
    {seen : List Text} {p : List ℕ} {g : Forest (List ℕ × Item)} (hg : Placed f p g)
    (hup : Chain f up p) {s : Moved} (hs : s ∈ (k.moves parent up seen g).1) : s.IsFrom f := by
  induction hg generalizing parent up seen with
  | nil => exact absurd hs List.not_mem_nil
  | @node p i a c r ha hc hr ihc ihr =>
    have hlevel : ∀ seen, Chain f (⟨i :: p, a, seen⟩ :: up) (i :: p) := fun _ ↦ ⟨rfl, ha, hup⟩
    rw [moves] at hs
    by_cases htakes : k.takes parent a = true
    · rw [if_pos htakes] at hs
      rcases List.mem_cons.mp hs with rfl | hs
      · exact ⟨ha, hup⟩
      · exact ihr hup hs
    · rw [if_neg htakes] at hs
      rcases List.mem_append.mp hs with hs | hs
      · exact ihc (hlevel seen) hs
      · exact ihr hup hs

theorem isFrom_of_mem_moved {f : Xml} {root : Text} {ks : List Kind}
    {g : Forest (List ℕ × Item)} (hg : Placed f [] g) {s : Moved} (hs : s ∈ moved root ks g) :
    s.IsFrom f := by
  induction ks generalizing g with
  | nil => exact absurd hs List.not_mem_nil
  | cons k ks ih =>
    rcases List.mem_append.mp hs with hs | hs
    · have htop : Chain f [] [] := trivial
      exact k.isFrom_of_mem_moves hg htop hs
    · exact ih (hg.cut _) hs

/-! ## Other ways down -/

/-- The statement at the place `q` looks like one above the moved statement. An augment with an
earlier target looks like the one with as many augments before it. -/
def Level.Alike (f : Xml) (l : Level) (q : List ℕ) : Prop :=
  ∃ b, f.label? q = some b ∧ b.name = l.stmt.name ∧
    if l.isRepeated then rank f q l.stmt.name = l.before.length
    else ∀ v, l.stmt.argument = some v → b.argument = some v

/-- The statements on the way down to `q` look like those above the moved statement. -/
def LookAlike (f : Xml) : List Level → List ℕ → Prop
  | [], [] => True
  | l :: up, i :: q => l.Alike f (i :: q) ∧ LookAlike f up q
  | _, _ => False

/-- The augments with an earlier target have no augments before them but those next to them, and
there is no other way down along statements that look the same. -/
structure Unambiguous (f : Xml) (s : Moved) : Prop where
  counted : ∀ l ∈ s.levels, l.isRepeated = true → rank f l.place l.stmt.name = l.before.length
  unique : ∀ q, LookAlike f s.levels q → q = s.place.tail

/-- The steps lead to the statement above, and nowhere else. -/
def LeadsBack (f : Xml) (s : Moved) : Prop :=
  ∀ q, Resolves f (s.levels.map Level.step) q ↔ q = s.place.tail

namespace Level

variable {f : Xml} {l : Level}

theorem keyword_step (l : Level) : l.step.keyword = l.stmt.name := by
  unfold step
  split_ifs
  · rfl
  · rfl
  · rcases l.stmt.attrs with - | ⟨⟨k, v⟩, attrs⟩
    · rfl
    · rfl

/-- What a step is made of decides which statements look alike. -/
theorem fits_step_iff (q : List ℕ) (b : Item) :
    l.step.Fits f q b ↔
      if l.isRepeated then rank f q l.stmt.name = l.before.length
      else ∀ v, l.stmt.argument = some v → b.argument = some v := by
  by_cases haug : l.stmt.name = "augment".toList
  · have harg : l.stmt.argument = some (augmentTarget l.stmt.attrs) := if_pos haug
    by_cases hseen : l.before.contains (augmentTarget l.stmt.attrs) = true
    · have hstep : l.step = .nth l.stmt.name (l.before.length + 1) :=
        (if_pos haug).trans (if_pos hseen)
      have hrep : l.isRepeated = true := by
        rw [isRepeated, decide_eq_true haug, hseen, Bool.and_self]
      rw [hstep, if_pos hrep, Step.Fits, Nat.add_right_cancel_iff]
    · have hstep : l.step = .argument l.stmt.name "name".toList (augmentTarget l.stmt.attrs) :=
        (if_pos haug).trans (if_neg hseen)
      have hrep : ¬l.isRepeated = true := by
        rw [isRepeated, decide_eq_true haug, Bool.true_and]
        exact hseen
      rw [hstep, if_neg hrep, harg, Step.Fits]
      exact ⟨fun h v hv ↦ Option.some_inj.mp hv ▸ h, fun h ↦ h _ rfl⟩
  · have harg : l.stmt.argument = l.stmt.attrs.head?.map Prod.snd := if_neg haug
    have hrep : ¬l.isRepeated = true := by
      rw [isRepeated, decide_eq_false haug, Bool.false_and]
      exact Bool.false_ne_true
    rw [if_neg hrep, harg, step, if_neg haug]
    rcases l.stmt.attrs with - | ⟨⟨k, v⟩, attrs⟩
    · exact iff_of_true trivial fun v hv ↦ absurd hv.symm (Option.some_ne_none v)
    · exact ⟨fun h v hv ↦ Option.some_inj.mp hv ▸ h, fun h ↦ h _ rfl⟩

theorem selects_step_iff (q : List ℕ) : l.step.Selects f q ↔ l.Alike f q := by
  unfold Step.Selects Alike
  simp only [keyword_step, fits_step_iff]

/-- A statement looks like itself, unless it is an augment that is not counted right. -/
theorem alike_place_iff (h : f.label? l.place = some l.stmt) :
    l.Alike f l.place ↔ (l.isRepeated = true → rank f l.place l.stmt.name = l.before.length) := by
  unfold Alike
  simp only [h, Option.some.injEq, exists_eq_left', true_and]
  by_cases hrep : l.isRepeated = true
  · simp only [hrep, if_true, true_imp_iff]
  · rw [if_neg hrep]
    exact iff_of_true (fun v hv ↦ hv) fun hyes ↦ absurd hyes hrep

end Level

theorem resolves_iff_lookAlike (f : Xml) (levels : List Level) (q : List ℕ) :
    Resolves f (levels.map Level.step) q ↔ LookAlike f levels q := by
  induction levels generalizing q with
  | nil => cases q <;> rfl
  | cons l up ih =>
    rcases q with - | ⟨i, q⟩
    · rfl
    · exact and_congr (l.selects_step_iff (i :: q)) (ih q)

theorem Chain.lookAlike_iff {f : Xml} {levels : List Level} {p : List ℕ} (h : Chain f levels p) :
    LookAlike f levels p ↔
      ∀ l ∈ levels, l.isRepeated = true → rank f l.place l.stmt.name = l.before.length := by
  induction levels generalizing p with
  | nil =>
    rcases p with - | ⟨i, p⟩
    · exact iff_of_true trivial fun l hl ↦ absurd hl List.not_mem_nil
    · exact absurd h id
  | cons l up ih =>
    rcases p with - | ⟨i, p⟩
    · exact absurd h id
    · obtain ⟨hplace, hlabel, hup⟩ := h
      rw [← hplace] at hlabel
      rw [List.forall_mem_cons, ← ih hup, ← Level.alike_place_iff hlabel, LookAlike, hplace]

theorem leadsBack_iff {f : Xml} {s : Moved} (hs : s.IsFrom f) :
    LeadsBack f s ↔ Unambiguous f s := by
  constructor
  · intro h
    have hself := (h s.place.tail).mpr rfl
    rw [resolves_iff_lookAlike] at hself
    exact ⟨hs.chain.lookAlike_iff.mp hself,
      fun q hq ↦ (h q).mp ((resolves_iff_lookAlike f s.levels q).mpr hq)⟩
  · intro h q
    rw [resolves_iff_lookAlike]
    refine ⟨h.unique q, ?_⟩
    rintro rfl
    exact hs.chain.lookAlike_iff.mpr h.counted

/-- It is enough to look at the statements next to those above the moved one. -/
theorem Chain.eq_of_lookAlike {f : Xml} {levels : List Level} {p q : List ℕ}
    (h : Chain f levels p)
    (hnext : ∀ l ∈ levels, ∀ j, l.Alike f (j :: l.place.tail) → j :: l.place.tail = l.place)
    (hq : LookAlike f levels q) : q = p := by
  induction levels generalizing p q with
  | nil =>
    rcases p with - | ⟨i, p⟩
    · rcases q with - | ⟨j, q⟩
      · rfl
      · exact absurd hq id
    · exact absurd h id
  | cons l up ih =>
    rcases p with - | ⟨i, p⟩
    · exact absurd h id
    · rcases q with - | ⟨j, q⟩
      · exact absurd hq id
      · obtain ⟨hplace, -, hup⟩ := h
        obtain ⟨halike, hqup⟩ := hq
        obtain rfl := ih hup (fun l hl ↦ hnext l (List.mem_cons_of_mem _ hl)) hqup
        have hj := hnext l List.mem_cons_self j
        rw [hplace, List.tail_cons] at hj
        exact hj halike

/-- **Statement paths lead back**, as `add_stmt` builds them and before the replaces of `annOut`,
exactly when they are unambiguous. -/
theorem leads_back_iff (m : YinModule) (flags : Kind → Bool) (leafref : Bool) :
    m.annotations flags leafref = (m.moved flags leafref).map Moved.annotation ∧
      ∀ s ∈ m.moved flags leafref, m.parsed.label? s.place = some s.stmt ∧
        (LeadsBack m.parsed s ↔ Unambiguous m.parsed s) := by
  refine ⟨annotations_eq m flags leafref, ?_⟩
  intro s hs
  have hfrom : s.IsFrom m.parsed := isFrom_of_mem_moved (placed_located m.parsed) hs
  exact ⟨hfrom.label, leadsBack_iff hfrom⟩

/-! ## A module with two augments

Both augments have the same target and a condition. The second one is addressed by number, and its
annotation finds it. The first one is addressed by its target, and so are both. -/

def twoAugments : YinModule where
  isSubmodule := false
  attrs := [("name".toList, "m".toList)]
  body := concat
    [element "namespace" [("uri".toList, "urn:m".toList)] .nil,
      element "prefix" [("value".toList, "m".toList)] .nil,
      element "augment" [("target-node".toList, "/o:c".toList)] (concat
        [element "when" [("condition".toList, "o:a".toList)] .nil,
          element "leaf" [("name".toList, "x".toList)] .nil]),
      element "augment" [("target-node".toList, "/o:c".toList)] (concat
        [element "when" [("condition".toList, "o:b".toList)] .nil,
          element "leaf" [("name".toList, "y".toList)] .nil])]

def augmentItem : Item := .element "augment".toList [("target_node".toList, "/o:c".toList)]

def firstWhen : Moved where
  place := [0, 2]
  stmt := .element "when".toList [("condition".toList, "o:a".toList)]
  children := .nil
  levels := [⟨[2], augmentItem, []⟩]

def secondWhen : Moved where
  place := [0, 3]
  stmt := .element "when".toList [("condition".toList, "o:b".toList)]
  children := .nil
  levels := [⟨[3], augmentItem, ["/o:c".toList]⟩]

theorem secondWhen_leads_back :
    secondWhen ∈ twoAugments.moved (· == .when) false ∧
      LeadsBack twoAugments.parsed secondWhen := by
  have hmem : secondWhen ∈ twoAugments.moved (· == .when) false := by decide +kernel
  have hchain : Chain twoAugments.parsed secondWhen.levels [3] := ⟨rfl, by decide +kernel, trivial⟩
  refine ⟨hmem, ((leads_back_iff twoAugments (· == .when) false).2 _ hmem).2.mpr ⟨?_, ?_⟩⟩
  · decide +kernel
  · intro q hq
    refine hchain.eq_of_lookAlike ?_ hq
    rintro l hl j ⟨b, hb, -, hrank⟩
    obtain rfl := List.mem_singleton.mp hl
    have hsmall : j < 4 := by
      by_contra hj
      have hlen : twoAugments.parsed.tops.length ≤ j :=
        (by decide +kernel : twoAugments.parsed.tops.length ≤ 4).trans (Nat.le_of_not_lt hj)
      rw [List.tail_cons, label?, under, List.getElem?_eq_none hlen] at hb
      exact absurd hb (Option.some_ne_none b).symm
    have hall : ∀ j < 4, rank twoAugments.parsed [j] augmentItem.name = 1 → j = 3 := by
      decide +kernel
    obtain rfl := hall j hsmall hrank
    rfl

theorem not_firstWhen_leads_back :
    ¬ ∀ s ∈ twoAugments.moved (· == .when) false, LeadsBack twoAugments.parsed s := by
  intro h
  have hmem : firstWhen ∈ twoAugments.moved (· == .when) false := by decide +kernel
  have hlabel : twoAugments.parsed.label? [3] = some augmentItem := by decide +kernel
  have hsecond : Resolves twoAugments.parsed (firstWhen.levels.map Level.step) [3] :=
    ⟨⟨augmentItem, hlabel, rfl, rfl⟩, trivial⟩
  exact absurd ((h firstWhen hmem [3]).mp hsecond) (by decide)

end ConfdDemos.AnnStmt
