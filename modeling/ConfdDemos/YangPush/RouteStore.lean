import Mathlib.Data.List.Sort
import ConfdDemos.Foundation.Cursor
import ConfdDemos.Foundation.Decimal
import ConfdDemos.Foundation.Dict

/-!
# The route store of the YANG-push provider

The routes are kept twice: a vector in key order for the enumerations, and a map from ids to
pointers for the look-ups. A look-up is not free of effects, since `routes_map[id]` puts a null
pointer under an id that is not there.

## Pointers

The vector owns the routes, and the map has the same pointers. A pointer is the number of the call
of `new` that made it. `generate_changes` sets a leaf through a pointer of the vector, and the map
sees that, too.

## The invariant

`Agrees` says that the vector is in strict key order and that the map has a pointer under an id if
and only if the vector has the pointer and the route has the id. It holds after `fill_routes`, since
an id ends in the number of its route, and no event takes it away.
-/

namespace ConfdDemos.YangPush

structure Route where
  id : List Char
  leaf1 : BitVec 32
  leaf2 : BitVec 32
  leaf3 : BitVec 32
  leaf4 : BitVec 32

/-- The routes in memory, the vector, and the map. -/
structure Store where
  objects : ℕ → Route
  routes : List ℕ
  routesMap : List (List Char × Option ℕ)

inductive Value
  | str (text : List Char)
  | int32 (n : BitVec 32)
  deriving DecidableEq

inductive Leaf
  | id | leaf1 | leaf2 | leaf3 | leaf4
  deriving DecidableEq

/-- `get_route_value`. -/
def Route.value (rt : Route) : Leaf → Value
  | .id => .str rt.id
  | .leaf1 => .int32 rt.leaf1
  | .leaf2 => .int32 rt.leaf2
  | .leaf3 => .int32 rt.leaf3
  | .leaf4 => .int32 rt.leaf4

/-- `fill_confd_values`. -/
def Route.values (rt : Route) : List Value :=
  [.str rt.id, .int32 rt.leaf1, .int32 rt.leaf2, .int32 rt.leaf3, .int32 rt.leaf4]

/-- Where a leaf stands among the values of a route. -/
def Leaf.position : Leaf → ℕ
  | id => 0
  | leaf1 => 1
  | leaf2 => 2
  | leaf3 => 3
  | leaf4 => 4

/-! ## Filling the store -/

/-- The id of a route, where `draws` is what `rand` returns. -/
def rtid (draws : ℕ → ℕ) (i : ℕ) : List Char :=
  Nat.toDigits 10 (draws i % 100 + 1) ++ 'r' :: 't' :: Nat.toDigits 10 i

def newRoute (draws : ℕ → ℕ) (i : ℕ) : Route where
  id := rtid draws i
  leaf1 := BitVec.ofNat 32 (i * 2)
  leaf2 := BitVec.ofNat 32 (i * 3)
  leaf3 := BitVec.ofNat 32 (i * 4)
  leaf4 := BitVec.ofNat 32 (i * 5)

namespace Store

def empty : Store := ⟨fun _ ↦ ⟨[], 0, 0, 0, 0⟩, [], []⟩

/-- The body of the loop. -/
def addRoute (draws : ℕ → ℕ) (s : Store) (i : ℕ) : Store where
  objects := Function.update s.objects i (newRoute draws i)
  routes := s.routes ++ [i]
  routesMap := Dict.set (newRoute draws i).id (some i) s.routesMap

/-- `std::sort` by ids. -/
def sortRoutes (s : Store) : Store :=
  { s with routes := s.routes.insertionSort fun p q ↦ (s.objects p).id ≤ (s.objects q).id }

def fillRoutes (number : ℕ) (draws : ℕ → ℕ) (s : Store) : Store :=
  ((List.range' 1 number).foldl (addRoute draws) s).sortRoutes

/-! ## Callbacks -/

variable (s : Store)

/-- `routes_map[id]`, with the store after it. -/
def getRoute (id : List Char) : Option ℕ × Store :=
  match Dict.get? id s.routesMap with
  | some p => (p, s)
  | none => (none, { s with routesMap := Dict.set id none s.routesMap })

/-- Without a value the reply is that there is none. -/
def getElem (id : List Char) (leaf : Leaf) : Option Value × Store :=
  ((s.getRoute id).1.map fun p ↦ (s.objects p).value leaf, (s.getRoute id).2)

def getObject (id : List Char) : Option (List Value) × Store :=
  ((s.getRoute id).1.map fun p ↦ (s.objects p).values, (s.getRoute id).2)

/-- The route in a reply, and the index for the next request. -/
def nextRoute (next : ℤ) : List Route × Option ℤ :=
  if (s.routes.length : ℤ) ≤ next ∨ s.routes.length = 0 then ([], none)
  else
    let next := if next = -1 then 0 else next
    (s.routes[next.toNat]?.toList.map s.objects, some (next + 1))

def getNext (next : ℤ) : List (List Char) × Option ℤ :=
  ((s.nextRoute next).1.map Route.id, (s.nextRoute next).2)

def getNextObject (next : ℤ) : List (List Value) × Option ℤ :=
  ((s.nextRoute next).1.map Route.values, (s.nextRoute next).2)

/-- The body of the loop of `generate_changes`, at an index of the vector. -/
def change (rtIdx : ℕ) (leaf1 : BitVec 32) : Store :=
  match s.routes[rtIdx]? with
  | some p => { s with objects := Function.update s.objects p { s.objects p with leaf1 } }
  | none => s

end Store

/-- What happens to a store after it was filled. -/
inductive Event
  | getElem (id : List Char) (leaf : Leaf)
  | getObject (id : List Char)
  | change (rtIdx : ℕ) (leaf1 : BitVec 32)

def Event.run (s : Store) : Event → Store
  | getElem id leaf => (s.getElem id leaf).2
  | getObject id => (s.getObject id).2
  | change rtIdx leaf1 => s.change rtIdx leaf1

/-! ## The invariant -/

/-- The vector is in strict key order, and the map has its pointers. -/
structure Store.Agrees (s : Store) (ids : List (List Char)) : Prop where
  ordered : (s.routes.map fun p ↦ (s.objects p).id).Pairwise (· < ·)
  perm : (s.routes.map fun p ↦ (s.objects p).id).Perm ids
  found : ∀ id p, Dict.get? id s.routesMap = some (some p) ↔ p ∈ s.routes ∧ (s.objects p).id = id

namespace Store

variable {s : Store} {ids : List (List Char)} {draws : ℕ → ℕ}

theorem getRoute_fst (s : Store) (id : List Char) :
    (s.getRoute id).1 = (Dict.get? id s.routesMap).join := by
  rw [getRoute]
  rcases Dict.get? id s.routesMap with - | p
  · rfl
  · rfl

/-- A look-up keeps what can be found. -/
theorem Agrees.getRoute (h : s.Agrees ids) (id : List Char) : (s.getRoute id).2.Agrees ids := by
  rw [Store.getRoute]
  rcases hget : Dict.get? id s.routesMap with - | p
  · refine ⟨h.ordered, h.perm, fun id' p ↦ ?_⟩
    change Dict.get? id' (Dict.set id none s.routesMap) = some (some p) ↔ _
    rw [← h.found id' p, Dict.get?_set]
    by_cases hid : id = id'
    · rw [if_pos hid, ← hid, hget]
      simp
    · rw [if_neg hid]
  · exact h

theorem Agrees.change (h : s.Agrees ids) (rtIdx : ℕ) (leaf1 : BitVec 32) :
    (s.change rtIdx leaf1).Agrees ids := by
  rw [Store.change]
  rcases s.routes[rtIdx]? with - | p
  · exact h
  · have hid : ∀ q, (Function.update s.objects p { s.objects p with leaf1 } q).id =
        (s.objects q).id := by
      intro q
      rw [Function.update_apply]
      split_ifs with hq
      · rw [hq]
      · rfl
    refine ⟨?_, ?_, fun id q ↦ ?_⟩
    · simpa only [hid] using h.ordered
    · simpa only [hid] using h.perm
    · simpa only [hid] using h.found id q

theorem Agrees.run (h : s.Agrees ids) (events : List Event) :
    (events.foldl Event.run s).Agrees ids := by
  induction events generalizing s with
  | nil => exact h
  | cons e events ih =>
    rw [List.foldl_cons]
    rcases e with ⟨id, leaf⟩ | id | ⟨rtIdx, leaf1⟩
    · exact ih (h.getRoute id)
    · exact ih (h.getRoute id)
    · exact ih (h.change rtIdx leaf1)

/-! ## The store after filling -/

theorem rtid_injective (draws : ℕ → ℕ) : Function.Injective (rtid draws) := by
  intro i j h
  exact Decimal.eq_of_append_toDigits (c := 'r') (t := ['t']) (by decide)
    (Decimal.notMem_toDigits (by decide) _) (by decide) h

theorem addRoute_objects (draws : ℕ → ℕ) (s : Store) (i : ℕ) :
    (addRoute draws s i).objects = Function.update s.objects i (newRoute draws i) := rfl

theorem foldl_addRoute (draws : ℕ → ℕ) (l : List ℕ) (s : Store) :
    (l.foldl (addRoute draws) s).routes = s.routes ++ l ∧
      (∀ i, (l.foldl (addRoute draws) s).objects i =
        if i ∈ l then newRoute draws i else s.objects i) ∧
      (l.foldl (addRoute draws) s).routesMap =
        l.foldl (fun d i ↦ Dict.set (rtid draws i) (some i) d) s.routesMap := by
  induction l generalizing s with
  | nil => simp
  | cons j l ih =>
    obtain ⟨hroutes, hobjects, hmap⟩ := ih (addRoute draws s j)
    refine ⟨?_, fun i ↦ ?_, hmap⟩
    · rw [List.foldl_cons, hroutes, addRoute, List.append_assoc, List.singleton_append]
    · rw [List.foldl_cons, hobjects, addRoute_objects]
      by_cases hi : i ∈ l
      · rw [if_pos hi, if_pos (List.mem_cons_of_mem _ hi)]
      · rw [if_neg hi]
        by_cases hij : i = j
        · rw [if_pos (hij ▸ List.mem_cons_self), hij, Function.update_self]
        · have hnot : i ∉ j :: l := by
            rw [List.mem_cons, not_or]
            exact ⟨hij, hi⟩
          rw [if_neg hnot, Function.update_of_ne hij]

/-- Ids are different, so a vector in key order is in strict key order. -/
theorem pairwise_lt_insertionSort {κ : Type*} [LinearOrder κ] (f : ℕ → κ) {l : List ℕ}
    (h : (l.map f).Nodup) :
    ((l.insertionSort fun p q ↦ f p ≤ f q).map f).Pairwise (· < ·) := by
  have hperm := (List.perm_insertionSort (fun p q ↦ f p ≤ f q) l).map f
  have hnodup := hperm.nodup_iff.mpr h
  have htotal : Std.Total fun p q ↦ f p ≤ f q := ⟨fun p q ↦ le_total (f p) (f q)⟩
  have htrans : IsTrans ℕ fun p q ↦ f p ≤ f q := ⟨fun p q r ↦ le_trans⟩
  have hle := List.pairwise_map.mpr (List.pairwise_insertionSort (fun p q ↦ f p ≤ f q) l)
  exact hle.imp₂ (fun _ _ hle hne ↦ lt_of_le_of_ne hle hne) hnodup

theorem agrees_fillRoutes (number : ℕ) (draws : ℕ → ℕ) :
    (fillRoutes number draws empty).Agrees ((List.range' 1 number).map (rtid draws)) := by
  obtain ⟨hroutes, hobjects, hmap⟩ := foldl_addRoute draws (List.range' 1 number) empty
  have hid : ∀ i ∈ List.range' 1 number,
      (((List.range' 1 number).foldl (addRoute draws) empty).objects i).id = rtid draws i := by
    intro i hi
    rw [hobjects, if_pos hi]
    rfl
  have hids : ((List.range' 1 number).map fun p ↦
      (((List.range' 1 number).foldl (addRoute draws) empty).objects p).id) =
        (List.range' 1 number).map (rtid draws) :=
    List.map_congr_left hid
  -- an id ends in the number of the route, so the ids are different whatever is drawn
  have hnodup : ((List.range' 1 number).map (rtid draws)).Nodup :=
    List.Nodup.map (rtid_injective draws) List.nodup_range'
  have hitems := Dict.foldl_set (d := []) (rtid draws) some hnodup
  rw [show empty.routesMap = [] from rfl, hitems, List.nil_append] at hmap
  rw [show empty.routes = [] from rfl, List.nil_append] at hroutes
  refine ⟨?_, ?_, fun id p ↦ ?_⟩
  · rw [fillRoutes, sortRoutes, hroutes]
    exact pairwise_lt_insertionSort _ (hids ▸ hnodup)
  · rw [fillRoutes, sortRoutes, hroutes, ← hids]
    exact (List.perm_insertionSort _ _).map _
  · rw [fillRoutes, sortRoutes, hroutes, hmap]
    change _ ↔ p ∈ List.insertionSort _ _ ∧ _
    rw [List.mem_insertionSort]
    constructor
    · intro hget
      obtain ⟨i, hi, heq⟩ := List.mem_map.mp (Dict.mem_of_get? hget)
      rw [Prod.mk.injEq, Option.some.injEq] at heq
      obtain ⟨rfl, rfl⟩ := heq
      exact ⟨hi, hid i hi⟩
    · rintro ⟨hp, rfl⟩
      rw [hid p hp]
      refine Dict.get?_eq_some_of_mem (List.mem_map.mpr ⟨p, hp, rfl⟩) fun q hq hkey ↦ ?_
      obtain ⟨i, -, rfl⟩ := List.mem_map.mp hq
      rw [rtid_injective draws hkey]

/-! ## Enumerations and look-ups -/

/-- The routes in the order in which they are given out. -/
def rows (s : Store) : List Route := s.routes.map s.objects

theorem nextRoute_indexCursor (s : Store) {p : ℕ} (hp : p < s.routes.length) :
    s.nextRoute (indexCursor p) =
      ([s.objects (s.routes.get ⟨p, hp⟩)], some (indexCursor (p + 1))) := by
  have hcond : ¬ ((s.routes.length : ℤ) ≤ indexCursor p ∨ s.routes.length = 0) := by
    rw [indexCursor]
    split_ifs <;> omega
  have hget : s.routes[p]? = some (s.routes.get ⟨p, hp⟩) := List.getElem?_eq_getElem hp
  simp only [nextRoute, if_neg hcond, index_indexCursor, Int.toNat_natCast, hget,
    Option.toList_some, List.map_singleton, indexCursor_succ]

theorem nextRoute_end (s : Store) : s.nextRoute (indexCursor s.routes.length) = ([], none) := by
  rw [nextRoute, if_pos]
  rw [indexCursor]
  split_ifs with h
  · exact .inr h
  · exact .inl le_rfl

theorem collects_getNext (s : Store) : Collects s.getNext (-1) (s.rows.map Route.id) := by
  have hlength : (s.rows.map Route.id).length = s.routes.length := by
    rw [rows, List.length_map, List.length_map]
  refine Collects.of_each _ indexCursor (fun p hp ↦ ?_) ?_
  · rw [getNext, nextRoute_indexCursor s (hlength ▸ hp)]
    simp [rows]
  · rw [hlength, getNext, nextRoute_end]
    rfl

theorem collects_getNextObject (s : Store) :
    Collects s.getNextObject (-1) (s.rows.map Route.values) := by
  have hlength : (s.rows.map Route.values).length = s.routes.length := by
    rw [rows, List.length_map, List.length_map]
  refine Collects.of_each _ indexCursor (fun p hp ↦ ?_) ?_
  · rw [getNextObject, nextRoute_indexCursor s (hlength ▸ hp)]
    simp [rows]
  · rw [hlength, getNextObject, nextRoute_end]
    rfl

theorem value_eq (rt : Route) (leaf : Leaf) : some (rt.value leaf) = rt.values[leaf.position]? := by
  rcases leaf <;> rfl

theorem Agrees.getRoute_fst (h : s.Agrees ids) {p : ℕ} (hp : p ∈ s.routes) :
    (s.getRoute (s.objects p).id).1 = some p := by
  rw [Store.getRoute_fst, (h.found _ p).mpr ⟨hp, rfl⟩]
  rfl

theorem Agrees.getRoute_fst_eq_none (h : s.Agrees ids) {id : List Char}
    (hid : id ∉ s.rows.map Route.id) : (s.getRoute id).1 = none := by
  rw [Store.getRoute_fst]
  rcases hget : Dict.get? id s.routesMap with - | - | p
  · rfl
  · rfl
  · obtain ⟨hp, rfl⟩ := (h.found id p).mp hget
    exact absurd (List.mem_map_of_mem (List.mem_map_of_mem hp)) hid

/-- What a client can rely on: both enumerations give out the same rows, one for each id, in strict
key order, and the look-ups find these rows and no others. -/
structure Serves (s : Store) (ids : List (List Char)) (rows : List Route) : Prop where
  keys : Collects s.getNext (-1) (rows.map Route.id)
  objects : Collects s.getNextObject (-1) (rows.map Route.values)
  all : (rows.map Route.id).Perm ids
  increasing : (rows.map Route.id).Pairwise (· < ·)
  object : ∀ rt ∈ rows, (s.getObject rt.id).1 = some rt.values
  elem : ∀ rt ∈ rows, ∀ leaf : Leaf, (s.getElem rt.id leaf).1 = rt.values[leaf.position]?
  notFound : ∀ id ∉ ids, (s.getObject id).1 = none ∧ ∀ leaf, (s.getElem id leaf).1 = none

theorem Agrees.serves (h : s.Agrees ids) : s.Serves ids s.rows := by
  have hrows : s.rows.map Route.id = s.routes.map fun p ↦ (s.objects p).id := by
    rw [rows, List.map_map]
    rfl
  refine ⟨s.collects_getNext, s.collects_getNextObject, hrows ▸ h.perm, hrows ▸ h.ordered, ?_, ?_,
    fun id hid ↦ ?_⟩
  · intro rt hrt
    obtain ⟨p, hp, rfl⟩ := List.mem_map.mp hrt
    rw [getObject, h.getRoute_fst hp, Option.map_some]
  · intro rt hrt leaf
    obtain ⟨p, hp, rfl⟩ := List.mem_map.mp hrt
    rw [getElem, h.getRoute_fst hp, Option.map_some, value_eq]
  · have hnone : (s.getRoute id).1 = none := by
      refine h.getRoute_fst_eq_none fun hmem ↦ hid ?_
      rw [hrows] at hmem
      exact h.perm.mem_iff.mp hmem
    rw [getObject, hnone]
    refine ⟨rfl, fun leaf ↦ ?_⟩
    rw [getElem, hnone]
    rfl

/-- After any events on a store that was filled, the two enumerations and the look-ups agree. -/
theorem fillRoutes_serves (number : ℕ) (draws : ℕ → ℕ) (events : List Event) :
    ∃ rows, rows.length = number ∧
      (events.foldl Event.run (fillRoutes number draws empty)).Serves
        ((List.range' 1 number).map (rtid draws)) rows := by
  have h := ((agrees_fillRoutes number draws).run events).serves
  refine ⟨_, ?_, h⟩
  have hlength := h.all.length_eq
  rwa [List.length_map, List.length_map, List.length_range'] at hlength

end Store

end ConfdDemos.YangPush
