import Mathlib.Data.List.Forall2
import Mathlib.Logic.Function.Iterate
import ConfdDemos.CdbOper.Choices
import ConfdDemos.Foundation.Forest

/-!
# Templates of objects

To read a whole object the provider builds an array with a cell for every leaf below the object, has
CDB fill in the values, and answers ConfD with those that exist. `traverse_cs_nodes` writes the
array in a recursion over the schema nodes, and `format_object` reads it in one loop that follows
the containers with a pointer into the schema.

## Two schemas

The array is about the module CDB has, and the answer about the one ConfD asks for, whose prefixes
lack the ending `-state`. So `format_object` looks every entry up below the node it has reached, by
its prefix without the ending. The ending is cut off in place, in the text that belongs to the
library, so the next lookup in the same namespace finds the shorter prefix and would cut it again.

## What the library has to do

A lookup with one step goes from a node to a child, and the parent of the child is the node. That
the two schemas have the same nodes is `Mirrors`.
-/

namespace ConfdDemos.CdbOper

variable {N T V P : Type*}

/-! ## Schema nodes and tagged values -/

/-- The bits of `info.flags` that are tested. -/
structure Flags where
  isContainer : Bool
  isList : Bool
  isAction : Bool
  isParam : Bool
  isResult : Bool
  isNotif : Bool
  deriving DecidableEq

/-- A schema node; the nodes below it and next to it are those of the forest. -/
structure CsNode (N T : Type*) where
  tag : T
  ns : N
  flags : Flags
  deriving DecidableEq

inductive TagType (V : Type*)
  | noExists
  | xmlBegin
  | xmlEnd
  | value (v : V)
  deriving DecidableEq

namespace TagType

def isNoExists : TagType V → Bool
  | noExists => true
  | _ => false

def isXmlBegin : TagType V → Bool
  | xmlBegin => true
  | _ => false

def isXmlEnd : TagType V → Bool
  | xmlEnd => true
  | _ => false

end TagType

structure TagValue (N T V : Type*) where
  tag : T
  ns : N
  v : TagType V
  deriving DecidableEq

namespace CsNode

/-- No bit of `lmask` is set. -/
def isLeaf (a : CsNode N T) : Bool :=
  !(a.flags.isAction || a.flags.isParam || a.flags.isResult || a.flags.isNotif || a.flags.isList)

def entry (a : CsNode N T) (v : TagType V) : TagValue N T V := ⟨a.tag, a.ns, v⟩

end CsNode

/-! ## Writing the template -/

/-- `traverse_cs_nodes`: the array from the index on, and the index behind what is written. -/
def traverseCsNodes : Forest (CsNode N T) → (ℕ → TagValue N T V) → ℕ → (ℕ → TagValue N T V) × ℕ
  | .nil, itv, j => (itv, j)
  | .node csNode children next, itv, j =>
    if csNode.flags.isContainer then
      let itv := Function.update itv j (csNode.entry .xmlBegin)
      let (itv, j) := traverseCsNodes children itv (j + 1)
      let itv := Function.update itv j (csNode.entry .xmlEnd)
      traverseCsNodes next itv (j + 1)
    else if csNode.isLeaf then
      traverseCsNodes next (Function.update itv j (csNode.entry .noExists)) (j + 1)
    else traverseCsNodes next itv j

/-! ## Reading it back -/

/-- What the code uses of the library, for nodes of the other schema. -/
structure SchemaLibrary (N T P : Type*) where
  /-- `confd_cs_node_cd` from a node, with a prefix and a tag. -/
  csNodeCd : P → List Char → Option P
  /-- `node->parent`. -/
  parent : P → Option P
  /-- `node->ns`. -/
  ns : P → N
  /-- `confd_find_cs_root`. -/
  findCsRoot : N → P
  /-- `confd_hash2str`. -/
  hash2str : T → List Char
  /-- A step leads to a child. -/
  parent_of_csNodeCd : ∀ s name n, csNodeCd s name = some n → parent n = some s

/-- A prefix without `-state`. Where it is shorter than this, what is compared and overwritten is in
front of the text. -/
def stripPrefix (p : List Char) : List Char :=
  if kpMod.isSuffixOf p then p.take (p.length - kpMod.length) else p

/-- A call of `confd_cs_node_cd`. -/
structure Lookup (P : Type*) where
  start : P
  name : List Char
  found : P
  deriving DecidableEq

/-- The variables of the loop, the prefixes of the library, and the lookups that were made. The
array `tv` is written from its beginning, and `n` is its length. -/
structure Formatting (N T V P : Type*) where
  tv : List (TagValue N T V)
  start : P
  prefixes : N → List Char
  lookups : List (Lookup P)

namespace SchemaLibrary

variable [DecidableEq N] (L : SchemaLibrary N T P)

def name (p : List Char) (tag : T) : List Char := p ++ ':' :: L.hash2str tag

/-- The node around a container. -/
def leave (start : P) : P := (L.parent start).getD (L.findCsRoot (L.ns start))

/-- The body of the loop. Where a lookup finds nothing, the code follows a null pointer. -/
def formatEntry (s : Formatting N T V P) (e : TagValue N T V) : Option (Formatting N T V P) :=
  if e.v.isNoExists then some s
  else
    let p := stripPrefix (s.prefixes e.ns)
    let start := if e.v.isXmlEnd then L.leave s.start else s.start
    (L.csNodeCd start (L.name p e.tag)).map fun csNode ↦
      { tv := s.tv ++ [{ e with ns := L.ns csNode }]
        start := if e.v.isXmlBegin then csNode else start
        prefixes := Function.update s.prefixes e.ns p
        lookups := s.lookups ++ [⟨start, L.name p e.tag, csNode⟩] }

/-- `format_object`. -/
def formatObject (prefixes : N → List Char) (itv : ℕ → TagValue N T V) (nItv : ℕ) (start : P) :
    Option (Formatting N T V P) :=
  (List.range nItv).foldlM (fun s i ↦ L.formatEntry s (itv i)) ⟨[], start, prefixes, []⟩

end SchemaLibrary

/-! ## What the array has to be -/

/-- The cells of an object, in schema order. -/
def template : Forest (CsNode N T) → List (TagValue N T V)
  | .nil => []
  | .node a children next =>
    if a.flags.isContainer then
      a.entry .xmlBegin :: (template children ++ a.entry .xmlEnd :: template next)
    else if a.isLeaf then a.entry .noExists :: template next
    else template next

/-- The containers and leaves, in schema order. A node is a container by its bit; lists, actions and
notifications, and what belongs to an action, are neither. -/
def shown : Forest (CsNode N T) → List (CsNode N T)
  | .nil => []
  | .node a children next =>
    if a.flags.isContainer then a :: (shown children ++ shown next)
    else if a.isLeaf then a :: shown next
    else shown next

/-- Every begin has its end. -/
inductive Nested : List (TagValue N T V) → Prop
  | nil : Nested []
  | leaf {e : TagValue N T V} {l : List (TagValue N T V)} (hbegin : e.v ≠ .xmlBegin)
      (hend : e.v ≠ .xmlEnd) (hl : Nested l) : Nested (e :: l)
  | container (tag : T) (ns : N) {inner l : List (TagValue N T V)} (hinner : Nested inner)
      (hl : Nested l) : Nested (⟨tag, ns, .xmlBegin⟩ :: (inner ++ ⟨tag, ns, .xmlEnd⟩ :: l))

/-- The array with `l` written from `j` on. -/
def writeAt (itv : ℕ → TagValue N T V) (j : ℕ) (l : List (TagValue N T V)) (i : ℕ) :
    TagValue N T V :=
  if j ≤ i then (l[i - j]?).getD (itv i) else itv i

/-- What CDB fills in: a leaf gets its value or none, and a container is there or not. Where a
container is not there, neither is anything in it. -/
def fill (there : Bool) : Forest (CsNode N T × Option V) → List (TagValue N T V)
  | .nil => []
  | .node (a, o) children next =>
    if a.flags.isContainer then
      if there && o.isSome then
        a.entry .xmlBegin :: (fill true children ++ a.entry .xmlEnd :: fill there next)
      else a.entry .noExists :: (fill false children ++ a.entry .noExists :: fill there next)
    else if a.isLeaf then
      a.entry (if there then o.elim .noExists .value else .noExists) :: fill there next
    else fill there next

section Template

variable {F : Forest (CsNode N T)} {itv : ℕ → TagValue N T V} {j : ℕ}
  {l l' : List (TagValue N T V)}

theorem nested_template : Nested (template (V := V) F) := by
  induction F with
  | nil => exact .nil
  | node a children next ihc ihn =>
    rw [template]
    split_ifs
    · exact .container a.tag a.ns ihc ihn
    · exact .leaf nofun nofun ihn
    · exact ihn

/-- Without the ends there is one cell for each container and leaf. -/
theorem filter_template :
    (template (V := V) F).filter (fun e ↦ !e.v.isXmlEnd) = (shown F).map fun a ↦
      a.entry (if a.flags.isContainer then .xmlBegin else .noExists) := by
  induction F with
  | nil => rfl
  | node a children next ihc ihn =>
    rw [template, shown]
    by_cases hcontainer : a.flags.isContainer
    · have hend : (a.entry .xmlEnd :: template (V := V) next).filter (fun e ↦ !e.v.isXmlEnd) =
          (template next).filter fun e ↦ !e.v.isXmlEnd :=
        List.filter_cons_of_neg Bool.false_ne_true
      rw [if_pos hcontainer, if_pos hcontainer, List.filter_cons_of_pos rfl, List.filter_append,
        hend, ihc, ihn, List.map_cons, List.map_append, if_pos hcontainer]
    rw [if_neg hcontainer, if_neg hcontainer]
    split_ifs
    · rw [List.filter_cons_of_pos rfl, ihn, List.map_cons, if_neg hcontainer]
    · exact ihn

theorem writeAt_nil : writeAt itv j [] = itv := by
  funext i
  simp [writeAt]

theorem update_writeAt (e : TagValue N T V) :
    Function.update (writeAt itv j l) (j + l.length) e = writeAt itv j (l ++ [e]) := by
  funext i
  by_cases hi : i = j + l.length
  · rw [hi, Function.update_self, writeAt, if_pos (Nat.le_add_right j _), Nat.add_sub_cancel_left,
      List.getElem?_concat_length, Option.getD_some]
  rw [Function.update_of_ne hi, writeAt, writeAt]
  by_cases hj : j ≤ i
  · have hsame : (l ++ [e])[i - j]? = l[i - j]? := by
      rw [List.getElem?_append]
      split_ifs with hlt
      · rfl
      · rw [List.getElem?_eq_none (Nat.not_lt.mp hlt), List.getElem?_eq_none]
        rw [List.length_singleton]
        omega
    rw [if_pos hj, if_pos hj, hsame]
  · rw [if_neg hj, if_neg hj]

theorem traverseCsNodes_writeAt :
    traverseCsNodes F (writeAt itv j l) (j + l.length) =
      (writeAt itv j (l ++ template F), j + (l ++ template F).length) := by
  have hnext (l : List (TagValue N T V)) (e : TagValue N T V) :
      j + l.length + 1 = j + (l ++ [e]).length := by
    rw [List.length_append, List.length_singleton, Nat.add_assoc]
  induction F generalizing l with
  | nil => rw [traverseCsNodes, template, List.append_nil]
  | node a children next ihc ihn =>
    rw [traverseCsNodes, template]
    split_ifs
    · simp only [update_writeAt]
      rw [hnext l (a.entry .xmlBegin), ihc]
      simp only [update_writeAt]
      rw [hnext _ (a.entry .xmlEnd), ihn]
      simp only [List.append_assoc, List.cons_append, List.nil_append]
    · rw [update_writeAt, hnext l (a.entry .noExists), ihn]
      simp only [List.append_assoc, List.singleton_append]
    · exact ihn

theorem traverseCsNodes_eq : traverseCsNodes F itv j =
    (writeAt itv j (template F), j + (template (V := V) F).length) := by
  have h := @traverseCsNodes_writeAt _ _ _ F itv j []
  rwa [writeAt_nil] at h

end Template

/-! ## What the reply has to be -/

namespace SchemaLibrary

section Reply

variable (L : SchemaLibrary N T P) (prefixes : N → List Char)

/-- The node is found, also after its prefix has been cut. -/
def Finds (start : P) (a : CsNode N T) (n : P) : Prop :=
  ∀ k, L.csNodeCd start (L.name (stripPrefix^[k + 1] (prefixes a.ns)) a.tag) = some n

/-- The schema node of a container below `start`. -/
def child (start : P) (a : CsNode N T) : P :=
  (L.csNodeCd start (L.name (stripPrefix (prefixes a.ns)) a.tag)).getD start

/-- The schema of the provider has the nodes of the object. -/
def Mirrors : Forest (CsNode N T) → P → Prop
  | .nil, _ => True
  | .node a children next, start =>
    ((a.flags.isContainer || a.isLeaf) = true →
        L.Finds prefixes start a (L.child prefixes start a)) ∧
      (a.flags.isContainer = true → Mirrors children (L.child prefixes start a)) ∧
      Mirrors next start

/-- The entries that are there, each with the schema node around it. -/
def kept : Forest (CsNode N T × Option V) → P → List (P × TagValue N T V)
  | .nil, _ => []
  | .node (a, o) children next, start =>
    if a.flags.isContainer then
      if o.isSome then
        (start, a.entry .xmlBegin) :: (kept children (L.child prefixes start a) ++
          (start, a.entry .xmlEnd) :: kept next start)
      else kept next start
    else if a.isLeaf then
      (o.map fun v ↦ (start, a.entry (.value v))).toList ++ kept next start
    else kept next start

/-- The lookup for an entry is made at the node around it, with its name. -/
structure Answers (x : P × TagValue N T V) (c : Lookup P) : Prop where
  start_eq : c.start = x.1
  name_eq : ∃ k, c.name = L.name (stripPrefix^[k + 1] (prefixes x.2.ns)) x.2.tag
  found : L.csNodeCd c.start c.name = some c.found

/-- The entries are added, each with the namespace of the node that was found. -/
def Extends (l : List (P × TagValue N T V)) (s s' : Formatting N T V P) : Prop :=
  ∃ calls, List.Forall₂ (L.Answers prefixes) l calls ∧ s'.lookups = s.lookups ++ calls ∧
    s'.tv = s.tv ++ List.zipWith (fun x c ↦ { x.2 with ns := L.ns c.found }) l calls

end Reply

section Extends

variable {L : SchemaLibrary N T P} {prefixes : N → List Char} {s s' s'' : Formatting N T V P}
  {l l' : List (P × TagValue N T V)}

theorem Extends.refl : L.Extends prefixes [] s s :=
  ⟨[], .nil, (List.append_nil _).symm, (List.append_nil _).symm⟩

theorem Extends.trans (h : L.Extends prefixes l s s') (h' : L.Extends prefixes l' s' s'') :
    L.Extends prefixes (l ++ l') s s'' := by
  obtain ⟨calls, hcalls, hlookups, htv⟩ := h
  obtain ⟨calls', hcalls', hlookups', htv'⟩ := h'
  refine ⟨calls ++ calls', List.rel_append hcalls hcalls', ?_, ?_⟩
  · rw [hlookups', hlookups, List.append_assoc]
  · rw [htv', htv, List.append_assoc, List.zipWith_append hcalls.length_eq]

end Extends

/-- The prefixes have been cut some number of times each. -/
def Stripped (prefixes prefixes' : N → List Char) : Prop :=
  ∀ ns, ∃ k, prefixes' ns = stripPrefix^[k] (prefixes ns)

/-- The loop over `es`: it adds what `l` says. -/
structure Runs [DecidableEq N] (L : SchemaLibrary N T P) (prefixes : N → List Char)
    (s : Formatting N T V P) (es : List (TagValue N T V)) (l : List (P × TagValue N T V))
    (s' : Formatting N T V P) : Prop where
  run : es.foldlM L.formatEntry s = some s'
  adds : L.Extends prefixes l s s'
  stripped : Stripped prefixes s'.prefixes

section Format

variable [DecidableEq N] {L : SchemaLibrary N T P} {prefixes : N → List Char}
  {s s' s'' : Formatting N T V P} {a : CsNode N T} {start n : P} {v : TagType V}

theorem Stripped.update {prefixes' : N → List Char} (h : Stripped prefixes prefixes') (ns : N) :
    Stripped prefixes (Function.update prefixes' ns (stripPrefix (prefixes' ns))) := by
  intro ns'
  by_cases hns : ns' = ns
  · obtain ⟨k, hk⟩ := h ns
    refine ⟨k + 1, ?_⟩
    rw [hns, Function.update_self, hk, Function.iterate_succ_apply']
  · rw [Function.update_of_ne hns]
    exact h ns'

theorem Runs.append {es es' : List (TagValue N T V)} {l l' : List (P × TagValue N T V)}
    (h : L.Runs prefixes s es l s') (h' : L.Runs prefixes s' es' l' s'') :
    L.Runs prefixes s (es ++ es') (l ++ l') s'' where
  run := by rw [List.foldlM_append, h.run, Option.bind_eq_bind, Option.bind_some, h'.run]
  adds := h.adds.trans h'.adds
  stripped := h'.stripped

/-- A cell without a value is skipped. -/
theorem runs_noExists (hs : Stripped prefixes s.prefixes) (a : CsNode N T) :
    L.Runs prefixes s [a.entry .noExists] [] s :=
  ⟨rfl, .refl, hs⟩

/-- An entry that is there is looked up. -/
theorem exists_runs_entry (hs : Stripped prefixes s.prefixes) (hv : v.isNoExists = false)
    (hstart : (if v.isXmlEnd then L.leave s.start else s.start) = start)
    (h : L.Finds prefixes start a n) :
    ∃ s', L.Runs prefixes s [a.entry v] [(start, a.entry v)] s' ∧
      s'.start = if v.isXmlBegin then n else start := by
  obtain ⟨k, hk⟩ := hs a.ns
  have hname : stripPrefix (s.prefixes a.ns) = stripPrefix^[k + 1] (prefixes a.ns) := by
    rw [hk, Function.iterate_succ_apply']
  have hfound : L.csNodeCd start (L.name (stripPrefix (s.prefixes a.ns)) a.tag) = some n := by
    rw [hname]
    exact h k
  have hthere : ¬(a.entry v).v.isNoExists = true := Bool.eq_false_iff.mp hv
  let s' : Formatting N T V P :=
    { tv := s.tv ++ [{ a.entry v with ns := L.ns n }]
      start := if v.isXmlBegin then n else start
      prefixes := Function.update s.prefixes a.ns (stripPrefix (s.prefixes a.ns))
      lookups := s.lookups ++ [⟨start, L.name (stripPrefix (s.prefixes a.ns)) a.tag, n⟩] }
  have hrun : L.formatEntry s (a.entry v) = some s' := by
    subst hstart
    rw [formatEntry, if_neg hthere]
    exact congrArg (Option.map _) hfound
  refine ⟨s', ⟨?_, ⟨[_], .cons ⟨rfl, ⟨k, ?_⟩, hfound⟩ .nil, rfl, rfl⟩, hs.update a.ns⟩, rfl⟩
  · rw [List.foldlM_cons, hrun]
    rfl
  · exact congrArg (L.name · a.tag) hname

/-- Where nothing is there, nothing happens. -/
theorem runs_fill_false (hs : Stripped prefixes s.prefixes) (G : Forest (CsNode N T × Option V)) :
    L.Runs prefixes s (fill false G) [] s := by
  induction G with
  | nil => exact ⟨rfl, .refl, hs⟩
  | node b children next ihc ihn =>
    obtain ⟨a, o⟩ := b
    rw [fill, Bool.false_and, if_neg Bool.false_ne_true, if_neg Bool.false_ne_true]
    split_ifs
    · exact (runs_noExists hs a).append (ihc.append ((runs_noExists hs a).append ihn))
    · exact (runs_noExists hs a).append ihn
    · exact ihn

/-- The loop over a filled array: the induction is on the schema, and behind every part of it the
pointer is back. -/
theorem exists_runs_fill (G : Forest (CsNode N T × Option V)) (hs : Stripped prefixes s.prefixes)
    (hm : L.Mirrors prefixes (G.map Prod.fst) s.start) :
    ∃ s', L.Runs prefixes s (fill true G) (L.kept prefixes G s.start) s' ∧ s'.start = s.start := by
  induction G generalizing s with
  | nil => exact ⟨s, ⟨rfl, .refl, hs⟩, rfl⟩
  | node b children next ihc ihn =>
    obtain ⟨a, o⟩ := b
    obtain ⟨hfinds, hchildren, hnext⟩ := hm
    rw [fill, kept, Bool.true_and, if_pos rfl]
    by_cases hcontainer : a.flags.isContainer
    · rw [if_pos hcontainer, if_pos hcontainer]
      have hfind := hfinds (by rw [hcontainer, Bool.true_or])
      split_ifs with ho
      · obtain ⟨s₁, hbegin, hstart₁⟩ :=
          exists_runs_entry (v := .xmlBegin) hs rfl (if_neg Bool.false_ne_true) hfind
        have hstart₁ : s₁.start = L.child prefixes s.start a := hstart₁.trans (if_pos rfl)
        obtain ⟨s₂, hinner, hstart₂⟩ := ihc hbegin.stripped (hstart₁ ▸ hchildren hcontainer)
        rw [hstart₁] at hinner hstart₂
        -- the end tag leads back to where the begin tag was found
        have hleave : L.leave s₂.start = s.start := by
          rw [leave, hstart₂, L.parent_of_csNodeCd _ _ _ (hfind 0), Option.getD_some]
        obtain ⟨s₃, hend, hstart₃⟩ :=
          exists_runs_entry (v := .xmlEnd) hinner.stripped rfl ((if_pos rfl).trans hleave) hfind
        have hstart₃ : s₃.start = s.start := hstart₃.trans (if_neg Bool.false_ne_true)
        obtain ⟨s₄, hrest, hstart₄⟩ := ihn hend.stripped (hstart₃ ▸ hnext)
        rw [hstart₃] at hrest hstart₄
        exact ⟨s₄, hbegin.append (hinner.append (hend.append hrest)), hstart₄⟩
      · obtain ⟨s', hrest, hstart⟩ := ihn hs hnext
        -- nothing below a container that is not there is looked up
        have hmissing := runs_noExists (L := L) hs a
        exact ⟨s', hmissing.append ((runs_fill_false hs children).append (hmissing.append hrest)),
          hstart⟩
    rw [if_neg hcontainer, if_neg hcontainer]
    by_cases hleaf : a.isLeaf
    · rw [if_pos hleaf, if_pos hleaf]
      rcases o with - | v
      · obtain ⟨s', hrest, hstart⟩ := ihn hs hnext
        exact ⟨s', (runs_noExists hs a).append hrest, hstart⟩
      · obtain ⟨s₁, hvalue, hstart₁⟩ := exists_runs_entry (v := .value v) hs rfl
          (if_neg Bool.false_ne_true) (hfinds (by rw [hleaf, Bool.or_true]))
        have hstart₁ : s₁.start = s.start := hstart₁.trans (if_neg Bool.false_ne_true)
        obtain ⟨s₂, hrest, hstart₂⟩ := ihn hvalue.stripped (hstart₁ ▸ hnext)
        rw [hstart₁] at hrest hstart₂
        exact ⟨s₂, hvalue.append hrest, hstart₂⟩
    · rw [if_neg hleaf, if_neg hleaf]
      exact ihn hs hnext

theorem formatObject_eq (itv : ℕ → TagValue N T V) (nItv : ℕ) (start : P) :
    L.formatObject prefixes itv nItv start =
      ((List.range nItv).map itv).foldlM L.formatEntry ⟨[], start, prefixes, []⟩ := by
  rw [formatObject, List.foldlM_map]

end Format

theorem filter_noExists_cons (a : CsNode N T) (l : List (TagValue N T V)) :
    (a.entry .noExists :: l).filter (fun e ↦ !e.v.isNoExists) =
      l.filter fun e ↦ !e.v.isNoExists :=
  List.filter_cons_of_neg Bool.false_ne_true

/-- No entry of a container that is not there exists. -/
theorem filter_fill_false (G : Forest (CsNode N T × Option V)) :
    (fill false G).filter (fun e ↦ !e.v.isNoExists) = [] := by
  induction G with
  | nil => rfl
  | node b children next ihc ihn =>
    obtain ⟨a, o⟩ := b
    rw [fill, Bool.false_and, if_neg Bool.false_ne_true, if_neg Bool.false_ne_true]
    split_ifs
    · rw [filter_noExists_cons, List.filter_append, filter_noExists_cons, ihc, ihn,
        List.append_nil]
    · rw [filter_noExists_cons, ihn]
    · exact ihn

/-- The entries that are kept are those that exist. -/
theorem map_snd_kept (L : SchemaLibrary N T P) (prefixes : N → List Char)
    (G : Forest (CsNode N T × Option V)) (start : P) :
    (L.kept prefixes G start).map Prod.snd = (fill true G).filter fun e ↦ !e.v.isNoExists := by
  induction G generalizing start with
  | nil => rfl
  | node b children next ihc ihn =>
    obtain ⟨a, o⟩ := b
    rw [fill, kept, Bool.true_and, if_pos rfl]
    by_cases hcontainer : a.flags.isContainer
    · rw [if_pos hcontainer, if_pos hcontainer]
      split_ifs
      · rw [List.filter_cons_of_pos rfl, List.filter_append, List.filter_cons_of_pos rfl,
          List.map_cons, List.map_append, List.map_cons, ihc, ihn]
      · rw [filter_noExists_cons, List.filter_append, filter_noExists_cons, filter_fill_false,
          List.nil_append, ihn]
    rw [if_neg hcontainer, if_neg hcontainer]
    split_ifs
    · rcases o with - | v
      · rw [Option.elim_none, filter_noExists_cons, ← ihn]
        rfl
      · rw [Option.elim_some, List.filter_cons_of_pos rfl, ← ihn]
        rfl
    · exact ihn start

end SchemaLibrary

/-- A filling keeps the tags. -/
theorem map_fill (there : Bool) (G : Forest (CsNode N T × Option V)) :
    (fill there G).map (fun e ↦ (e.tag, e.ns)) =
      (template (V := V) (G.map Prod.fst)).map fun e ↦ (e.tag, e.ns) := by
  induction G generalizing there with
  | nil => rfl
  | node b children next ihc ihn =>
    obtain ⟨a, o⟩ := b
    rw [fill, Forest.map, template]
    by_cases hcontainer : a.flags.isContainer
    · rw [if_pos hcontainer, if_pos hcontainer]
      split_ifs
      · simp only [List.map_cons, List.map_append, ihc, ihn]
      · simp only [List.map_cons, List.map_append, ihc, ihn]
        rfl
    rw [if_neg hcontainer, if_neg hcontainer]
    by_cases hleaf : a.isLeaf
    · rw [if_pos hleaf, if_pos hleaf, List.map_cons, List.map_cons, ihn]
      rfl
    · rw [if_neg hleaf, if_neg hleaf, ihn]

/-- The array has a cell for each leaf and two for each container, and of every filling the reply
has what is there, looked up at the schema node of the container around it. -/
theorem traverseCsNodes_formatObject (F : Forest (CsNode N T)) :
    (∀ (itv : ℕ → TagValue N T V) (j : ℕ), traverseCsNodes F itv j =
      (writeAt itv j (template F), j + (template (V := V) F).length)) ∧
    Nested (template (V := V) F) ∧
    (template (V := V) F).filter (fun e ↦ !e.v.isXmlEnd) = (shown F).map (fun a ↦
      a.entry (if a.flags.isContainer then .xmlBegin else .noExists)) ∧
    ∀ (P : Type*) [DecidableEq N] (L : SchemaLibrary N T P) (prefixes : N → List Char) (start : P),
      L.Mirrors prefixes F start →
      ∀ (G : Forest (CsNode N T × Option V)) (itv : ℕ → TagValue N T V), G.map Prod.fst = F →
        (List.range (template (V := V) F).length).map itv = fill true G →
        (fill true G).map (fun e ↦ (e.tag, e.ns)) =
          (template (V := V) F).map (fun e ↦ (e.tag, e.ns)) ∧
        ∃ s, L.formatObject prefixes itv (template (V := V) F).length start = some s ∧
          (L.kept prefixes G start).map Prod.snd = (fill true G).filter (fun e ↦ !e.v.isNoExists) ∧
          s.tv = List.zipWith (fun x c ↦ { x.2 with ns := L.ns c.found })
            (L.kept prefixes G start) s.lookups ∧
          List.Forall₂ (L.Answers prefixes) (L.kept prefixes G start) s.lookups ∧
          s.start = start := by
  refine ⟨fun itv j ↦ traverseCsNodes_eq, nested_template, filter_template, ?_⟩
  intro P _ L prefixes start hm G itv hG hfilled
  have hs : SchemaLibrary.Stripped prefixes prefixes := fun ns ↦ ⟨0, rfl⟩
  obtain ⟨s, hruns, hstart⟩ := SchemaLibrary.exists_runs_fill
    (s := ⟨[], start, prefixes, []⟩) G hs (hG ▸ hm)
  obtain ⟨calls, hanswers, hlookups, htv⟩ := hruns.adds
  refine ⟨hG ▸ map_fill true G, s, ?_, L.map_snd_kept prefixes G start, ?_, ?_, hstart⟩
  · rw [SchemaLibrary.formatObject_eq, hfilled, hruns.run]
  · rw [htv, hlookups]
    rfl
  · rw [hlookups]
    exact hanswers

/-! ## An object with one container -/

def containerFlags : Flags := ⟨true, false, false, false, false, false⟩

def leafFlags : Flags := ⟨false, false, false, false, false, false⟩

/-- A container `c` with a leaf `x`, of the module with the prefix `r-state`. -/
def routerObject : Forest (CsNode Unit Char) :=
  .node ⟨'c', (), containerFlags⟩ (.node ⟨'x', (), leafFlags⟩ .nil .nil) .nil

/-- The node of the object, the container and the leaf are numbered. -/
def routerLibrary : SchemaLibrary Unit Char ℕ where
  csNodeCd start name :=
    if start = 0 ∧ name = ['r', ':', 'c'] then some 1
    else if start = 1 ∧ name = ['r', ':', 'x'] then some 2
    else none
  parent n := if n = 0 then none else some (n - 1)
  ns _ := ()
  findCsRoot _ := 0
  hash2str t := [t]
  parent_of_csNodeCd start name n h := by
    split_ifs at h with hc hx
    · rw [← Option.some.inj h, hc.1]
      rfl
    · rw [← Option.some.inj h, hx.1]
      rfl

def routerPrefixes (_ : Unit) : List Char := ['r', '-', 's', 't', 'a', 't', 'e']

theorem mirrors_routerObject : routerLibrary.Mirrors routerPrefixes routerObject 0 := by
  have hcut (k : ℕ) : stripPrefix^[k + 1] (routerPrefixes ()) = ['r'] := by
    rw [Function.iterate_succ_apply]
    exact Function.iterate_fixed (by decide) k
  refine ⟨fun _ k ↦ ?_, fun _ ↦ ⟨fun _ k ↦ ?_, nofun, trivial⟩, trivial⟩
  · rw [hcut]
    rfl
  · rw [hcut]
    rfl

/-- The leaf has the value seven. -/
def routerFilling : Forest (CsNode Unit Char × Option ℕ) :=
  .node (⟨'c', (), containerFlags⟩, some 0) (.node (⟨'x', (), leafFlags⟩, some 7) .nil .nil) .nil

theorem formatObject_routerObject : ∃ s,
    routerLibrary.formatObject routerPrefixes (writeAt (fun _ ↦ ⟨'c', (), .noExists⟩) 0
      [⟨'c', (), .xmlBegin⟩, ⟨'x', (), .value 7⟩, ⟨'c', (), .xmlEnd⟩]) 3 0 = some s ∧
      s.lookups.length = 3 ∧ s.start = 0 := by
  obtain ⟨-, -, -, hformat⟩ := traverseCsNodes_formatObject (V := ℕ) routerObject
  obtain ⟨-, s, hs, -, -, hanswers, hstart⟩ := hformat ℕ routerLibrary routerPrefixes 0
    mirrors_routerObject routerFilling (writeAt (fun _ ↦ ⟨'c', (), .noExists⟩) 0
      [⟨'c', (), .xmlBegin⟩, ⟨'x', (), .value 7⟩, ⟨'c', (), .xmlEnd⟩]) rfl rfl
  exact ⟨s, hs, hanswers.length_eq.symm, hstart⟩

end ConfdDemos.CdbOper
