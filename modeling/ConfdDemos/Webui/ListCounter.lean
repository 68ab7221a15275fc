import Mathlib.Data.List.Nodup
import Mathlib.Data.List.Perm.Subperm
import ConfdDemos.Foundation.Machine
import ConfdDemos.Webui.Removal

/-!
# The counter of a list

The state of a list keeps the number of its entries, `total`. It is read from ConfD when the list is
bound, and from then on it is kept up by the operations: adding an entry increments it, deleting the
list resets it, loading a page leaves it alone, and deleting an entry sets it to the number of
siblings that are loaded.

## Results

A page has at most ten entries. `total_eq_of_reach`: the counter is right in every state of a run in
which entries are deleted only while all entries of the list are loaded, and have tree keys of their
own. `deleteListEntry_total_iff` says that this is needed: a deletion under any other circumstances
makes the counter too small.

## Requests

Operations complete one after the other. ConfD counts right, a page consists of entries of the list,
an entry is added only if the list has none with its keys, and requests succeed.
-/

namespace ConfdDemos.Webui

/-! ## Operations on a list -/

/-- A list in the transaction and what the web UI has of it: the keys of the entries below its node,
and the context. -/
structure ListView where
  entries : List (List Text)
  children : Option (List (List Text))
  context : Context

inductive ListEvent
  | bindList
  | getNextListEntries (fromStart : Bool) (keys : List (List Text)) (lh : Option ℤ)
  | addListEntry (keyArr : List Text)
  | deleteListEntry (keyArr : List Text)
  | deleteList

/-- The data of a list, as long as its state holds some. -/
def listData (state : Props StateEntry) (node : TreeNode) : Option ListMeta :=
  match getState state node with
  | some (.list m) => some m
  | _ => none

def setListData (state : Props StateEntry) (node : TreeNode) (m : ListMeta) : Props StateEntry :=
  Function.update state node.key (some (.list m))

variable (listNode : TreeNode)

/-- Sets the data up, then puts in the number of entries that ConfD counts. -/
def bindList (s : ListView) : Option ListView :=
  let state := initListData s.context.state listNode
  (listData state listNode).map fun m ↦
    let state := setListData state listNode { m with total := s.entries.length }
    { s with context := { s.context with state } }

/-- The new data of a list after a page: the position, and the handle of the reply if it has one. -/
def pageMeta (m : ListMeta) (fromStart : Bool) (lh : Option ℤ) : ListMeta :=
  let listHandle := if fromStart then -1 else m.lh
  let newPosition := if listHandle = -1 then 0 else m.position + m.chunk_size
  { m with position := newPosition, lh := lh.getD listHandle }

/-- Drops what belongs to the nodes of a page. -/
def dropChildren {β : Type*} (obj : Props β) (oldChildren : List TreeNode) : Props β :=
  oldChildren.foldl (fun obj child ↦ dropPrefixProps obj child.key) obj

def getNextListEntries (s : ListView) (fromStart : Bool) (keys : List (List Text))
    (lh : Option ℤ) : Option ListView :=
  (listData s.context.state listNode).map fun m ↦
    let oldChildren := generateListEntries listNode (s.children.getD [])
    let state := setListData s.context.state listNode (pageMeta m fromStart lh)
    { s with
      children := some keys
      context :=
        { state := dropChildren state oldChildren
          lazy := dropChildren s.context.lazy oldChildren } }

def addListEntry (s : ListView) (keyArr : List Text) : Option ListView :=
  (listData s.context.state listNode).map fun m ↦
    let state := setListData s.context.state listNode { m with total := m.total + 1 }
    { entries := s.entries ++ [keyArr]
      children := some (s.children.getD [] ++ [keyArr])
      context := { s.context with state } }

/-- The loaded entries with another tree key. -/
def siblings (children : List (List Text)) (keyArr : List Text) : List (List Text) :=
  children.filter fun el ↦
    (generateListEntry listNode el).key ≠ (generateListEntry listNode keyArr).key

def deleteListEntryIn (s : ListView) (keyArr : List Text) : Option ListView :=
  let children := s.children.getD []
  (deleteListEntry s.context (generateListEntries listNode children)
    (generateListEntry listNode keyArr)).map fun context ↦
    { entries := s.entries.erase keyArr
      children := some (siblings listNode children keyArr)
      context }

def deleteListIn (s : ListView) : Option ListView :=
  (deleteList s.context listNode).map fun context ↦ { entries := [], children := none, context }

/-- One list and its operations. A page is made of different entries of the list, at most as many as
were asked for; an entry that is added is new, and one that is deleted has a node. -/
def listMachine : Machine ListView ListEvent where
  step s
    | .bindList => bindList listNode s
    | .getNextListEntries fromStart keys lh =>
      if keys.Nodup ∧ keys ⊆ s.entries ∧
          ∀ m ∈ listData s.context.state listNode, (keys.length : ℤ) ≤ m.chunk_size then
        getNextListEntries listNode s fromStart keys lh
      else none
    | .addListEntry keyArr => if keyArr ∉ s.entries then addListEntry listNode s keyArr else none
    | .deleteListEntry keyArr =>
      if keyArr ∈ s.children.getD [] then deleteListEntryIn listNode s keyArr else none
    | .deleteList => deleteListIn listNode s

/-! ## Invariant -/

section Invariant

variable {listNode : TreeNode} {s s' : ListView}

/-- A list before it is bound. -/
structure Unbound (listNode : TreeNode) (s : ListView) : Prop where
  nodup : s.entries.Nodup
  children : s.children = none
  data : listData s.context.state listNode = none

/-- The loaded entries are different entries of the list, and the counter is right. -/
structure Counted (listNode : TreeNode) (s : ListView) : Prop where
  nodup : s.entries.Nodup
  loaded_nodup : (s.children.getD []).Nodup
  loaded_subset : s.children.getD [] ⊆ s.entries
  total : ∀ m ∈ listData s.context.state listNode, m.total = s.entries.length

/-- An entry is deleted only while all entries are loaded, and no other one has its tree key. -/
def AllLoaded (listNode : TreeNode) (s : ListView) : ListEvent → Prop
  | .deleteListEntry keyArr => (s.children.getD []).length = s.entries.length ∧
      ∀ el ∈ s.children.getD [],
        (generateListEntry listNode el).key = (generateListEntry listNode keyArr).key → el = keyArr
  | _ => True

instance (s : ListView) (e : ListEvent) : Decidable (AllLoaded listNode s e) :=
  match e with
  | .deleteListEntry _ => inferInstanceAs (Decidable (_ ∧ _))
  | .bindList => inferInstanceAs (Decidable True)
  | .getNextListEntries _ _ _ => inferInstanceAs (Decidable True)
  | .addListEntry _ => inferInstanceAs (Decidable True)
  | .deleteList => inferInstanceAs (Decidable True)

@[simp] theorem listData_setListData (state : Props StateEntry) (m : ListMeta) :
    listData (setListData state listNode m) listNode = some m := by
  rw [listData, getState, setListData, Function.update_self]

theorem listData_initListData (state : Props StateEntry) :
    listData (initListData state listNode) listNode =
      some { total := 0, position := -10, chunk_size := 10, lh := -1 } :=
  listData_setListData state _

theorem some_of_dropPrefixProps {β : Type*} {obj : Props β} {pfx key : Text} {v : β}
    (h : dropPrefixProps obj pfx key = some v) : obj key = some v := by
  rw [dropPrefixProps] at h
  split_ifs at h
  exact h

theorem some_of_dropChildren {β : Type*} {obj : Props β} {children : List TreeNode} {key : Text}
    {v : β} (h : dropChildren obj children key = some v) : obj key = some v := by
  induction children generalizing obj with
  | nil => exact h
  | cons child children ih => exact some_of_dropPrefixProps (ih h)

/-- Data that is found after something was dropped was there before. -/
theorem listData_of_le {state state' : Props StateEntry} {m : ListMeta}
    (hle : ∀ v, state' listNode.key = some v → state listNode.key = some v)
    (h : listData state' listNode = some m) : listData state listNode = some m := by
  rw [listData] at h ⊢
  split at h
  next m' hstate =>
    rw [getState, hle _ hstate]
    exact h
  next => exact absurd h (by simp)

/-! ## Steps -/

theorem Counted.bindList (h : Counted listNode s) (hs : bindList listNode s = some s') :
    Counted listNode s' := by
  rw [Webui.bindList, listData_initListData, Option.map_some] at hs
  obtain rfl := Option.some.inj hs
  refine ⟨h.nodup, h.loaded_nodup, h.loaded_subset, fun m hm ↦ ?_⟩
  obtain rfl := Option.some.inj ((listData_setListData _ _).symm.trans hm)
  rfl

theorem Counted.getNextListEntries (h : Counted listNode s) {fromStart : Bool}
    {keys : List (List Text)} {lh : Option ℤ} (hnodup : keys.Nodup) (hsubset : keys ⊆ s.entries)
    (hs : getNextListEntries listNode s fromStart keys lh = some s') : Counted listNode s' := by
  obtain ⟨m, hm, rfl⟩ := Option.map_eq_some_iff.mp hs
  refine ⟨h.nodup, hnodup, hsubset, fun m' hm' ↦ ?_⟩
  have hdata := listData_of_le (fun v hv ↦ some_of_dropChildren hv) hm'
  obtain rfl := Option.some.inj ((listData_setListData _ _).symm.trans hdata)
  exact h.total m hm

theorem Counted.addListEntry (h : Counted listNode s) {keyArr : List Text}
    (hnew : keyArr ∉ s.entries) (hs : addListEntry listNode s keyArr = some s') :
    Counted listNode s' := by
  obtain ⟨m, hm, rfl⟩ := Option.map_eq_some_iff.mp hs
  have hnew' : keyArr ∉ s.children.getD [] := fun hmem ↦ hnew (h.loaded_subset hmem)
  refine ⟨?_, ?_, ?_, fun m' hm' ↦ ?_⟩
  · exact h.nodup.append (List.nodup_singleton _) (by simpa using hnew)
  · exact h.loaded_nodup.append (List.nodup_singleton _) (by simpa using hnew')
  · exact List.append_subset.mpr ⟨List.Subset.trans h.loaded_subset (List.subset_append_left _ _),
      List.subset_append_right _ _⟩
  · obtain rfl := Option.some.inj ((listData_setListData _ _).symm.trans hm')
    have htotal := h.total m hm
    rw [List.length_append, List.length_singleton]
    change m.total + 1 = _
    omega

theorem Counted.deleteList (h : deleteListIn listNode s = some s') : Counted listNode s' := by
  obtain ⟨context, hcontext, rfl⟩ := Option.map_eq_some_iff.mp h
  refine ⟨List.nodup_nil, List.nodup_nil, List.Subset.refl _, fun m hm ↦ ?_⟩
  rw [Webui.deleteList] at hcontext
  split at hcontext
  · obtain rfl := Option.some.inj hcontext
    obtain rfl := Option.some.inj ((listData_initListData _).symm.trans hm)
    rfl
  · exact absurd hcontext (by simp)

/-! ## Deleting an entry -/

/-- The counter after a deletion is the number of loaded siblings. -/
theorem total_of_deleteListEntryIn {keyArr : List Text} {m : ListMeta}
    (hs : deleteListEntryIn listNode s keyArr = some s')
    (hm : listData s'.context.state listNode = some m) :
    m.total = (siblings listNode (s.children.getD []) keyArr).length := by
  obtain ⟨context, hcontext, rfl⟩ := Option.map_eq_some_iff.mp hs
  rw [deleteListEntry] at hcontext
  split at hcontext
  · obtain rfl := Option.some.inj hcontext
    have hdata := listData_of_le (fun v hv ↦ some_of_dropPrefixProps hv) hm
    obtain rfl := Option.some.inj ((listData_setListData _ _).symm.trans hdata)
    rw [siblings, generateListEntries, List.filter_map, List.length_map]
    rfl
  · exact absurd hcontext (by simp)

/-- All siblings but the entry itself are left exactly when no other one has its tree key. -/
theorem siblings_length_iff {children : List (List Text)} {keyArr : List Text}
    (hnodup : children.Nodup) (hmem : keyArr ∈ children) :
    (siblings listNode children keyArr).length + 1 ≤ children.length ∧
      ((siblings listNode children keyArr).length + 1 = children.length ↔
        ∀ el ∈ children,
          (generateListEntry listNode el).key = (generateListEntry listNode keyArr).key →
            el = keyArr) := by
  have herase : (children.erase keyArr).length + 1 = children.length := by
    rw [List.length_erase_of_mem hmem]
    have := List.length_pos_of_mem hmem
    omega
  have hsib : (siblings listNode children keyArr).Nodup := hnodup.filter _
  have hsubset : siblings listNode children keyArr ⊆ children.erase keyArr := by
    intro el hel
    obtain ⟨hel, hkey⟩ := List.mem_filter.mp hel
    refine (hnodup.mem_erase_iff).mpr ⟨?_, hel⟩
    rintro rfl
    exact absurd hkey (by simp)
  have hle := (List.subperm_of_subset hsib hsubset).length_le
  refine ⟨by omega, fun heq el hel hkey ↦ ?_, fun hunique ↦ ?_⟩
  · by_contra hne
    -- otherwise the entry with the same key is missing as well
    have hmem' : el ∈ children.erase keyArr := (hnodup.mem_erase_iff).mpr ⟨hne, hel⟩
    have hsubset' : siblings listNode children keyArr ⊆ (children.erase keyArr).erase el := by
      intro el' hel'
      refine ((hnodup.erase keyArr).mem_erase_iff).mpr ⟨?_, hsubset hel'⟩
      rintro rfl
      exact absurd (List.mem_filter.mp hel').2 (by simp [hkey])
    have hle' := (List.subperm_of_subset hsib hsubset').length_le
    rw [List.length_erase_of_mem hmem'] at hle'
    have := List.length_pos_of_mem hmem'
    omega
  · have hsame : siblings listNode children keyArr = children.erase keyArr := by
      rw [hnodup.erase_eq_filter, siblings]
      refine List.filter_congr fun el hel ↦ ?_
      by_cases hel' : el = keyArr
      · simp [hel']
      · have hkey : (generateListEntry listNode el).key ≠ (generateListEntry listNode keyArr).key :=
          fun hkey ↦ hel' (hunique el hel hkey)
        simp [hel', hkey]
    rw [hsame]
    exact herase

/-- **A deletion keeps the counter right** exactly when all entries are loaded. -/
theorem deleteListEntry_total_iff {keyArr : List Text} {m : ListMeta} (h : Counted listNode s)
    (hmem : keyArr ∈ s.children.getD []) (hs : deleteListEntryIn listNode s keyArr = some s')
    (hm : listData s'.context.state listNode = some m) :
    m.total = s'.entries.length ↔ AllLoaded listNode s (.deleteListEntry keyArr) := by
  have htotal := total_of_deleteListEntryIn hs hm
  have hentries : s'.entries.length + 1 = s.entries.length := by
    obtain ⟨context, -, rfl⟩ := Option.map_eq_some_iff.mp hs
    have hpos := List.length_pos_of_mem (h.loaded_subset hmem)
    change (s.entries.erase keyArr).length + 1 = _
    rw [List.length_erase_of_mem (h.loaded_subset hmem)]
    omega
  have hloaded := (List.subperm_of_subset h.loaded_nodup h.loaded_subset).length_le
  obtain ⟨hle, hiff⟩ := @siblings_length_iff listNode _ _ h.loaded_nodup hmem
  rw [AllLoaded, ← hiff]
  omega

theorem Counted.deleteListEntry {keyArr : List Text} (h : Counted listNode s)
    (hmem : keyArr ∈ s.children.getD []) (hok : AllLoaded listNode s (.deleteListEntry keyArr))
    (hs : deleteListEntryIn listNode s keyArr = some s') : Counted listNode s' := by
  have htotal : ∀ m ∈ listData s'.context.state listNode, m.total = s'.entries.length :=
    fun m hm ↦ (deleteListEntry_total_iff h hmem hs hm).mpr hok
  obtain ⟨context, -, rfl⟩ := Option.map_eq_some_iff.mp hs
  refine ⟨h.nodup.erase keyArr, h.loaded_nodup.filter _, fun el hel ↦ ?_, htotal⟩
  obtain ⟨hel, hkey⟩ := List.mem_filter.mp hel
  refine (h.nodup.mem_erase_iff).mpr ⟨?_, h.loaded_subset hel⟩
  rintro rfl
  exact absurd hkey (by simp)

/-! ## Runs -/

theorem Unbound.counted (h : Unbound listNode s) : Counted listNode s := by
  refine ⟨h.nodup, ?_, ?_, fun m hm ↦ ?_⟩
  · rw [h.children]
    exact List.nodup_nil
  · rw [h.children]
    exact List.nil_subset _
  · exact absurd (h.data.symm.trans hm) (by simp)

theorem Counted.step {e : ListEvent} (h : Counted listNode s) (hok : AllLoaded listNode s e)
    (hs : (listMachine listNode).step s e = some s') : Counted listNode s' := by
  cases e with
  | bindList => exact h.bindList hs
  | getNextListEntries fromStart keys lh =>
    obtain ⟨hguard, hs⟩ := Option.ite_none_right_eq_some.mp hs
    exact h.getNextListEntries hguard.1 hguard.2.1 hs
  | addListEntry keyArr =>
    obtain ⟨hguard, hs⟩ := Option.ite_none_right_eq_some.mp hs
    exact h.addListEntry hguard hs
  | deleteListEntry keyArr =>
    obtain ⟨hguard, hs⟩ := Option.ite_none_right_eq_some.mp hs
    exact h.deleteListEntry hguard hok hs
  | deleteList => exact Counted.deleteList hs

/-- **The counter of a list is right** in every state of a run that deletes entries only while all
of them are loaded. -/
theorem total_eq_of_reach {s₀ : ListView} (h₀ : Unbound listNode s₀)
    (h : (listMachine listNode).Reach (AllLoaded listNode) s₀ s) :
    ∀ m ∈ listData s.context.state listNode, m.total = s.entries.length :=
  (h.invariant h₀.counted fun _ _ _ hinv hok hs ↦ hinv.step hok hs).total

end Invariant

/-! ## Two runs -/

def unbound (entries : List (List Text)) : ListView where
  entries := entries
  children := none
  context := { state := fun _ ↦ none, lazy := fun _ ↦ none }

def shortList : List (List Text) := [[['a']], [['b']]]

/-- The two entries of a list are loaded, one is deleted, and another one is added. -/
theorem shortList_total :
    ∃ s, (listMachine pairList).Reach (AllLoaded pairList) (unbound shortList) s ∧
      ∃ m ∈ listData s.context.state pairList, m.total = s.entries.length := by
  have hrun : (((listMachine pairList).restrict (AllLoaded pairList)).runFrom (unbound shortList)
      [.bindList, .getNextListEntries true [[['a']], [['b']]] none, .deleteListEntry [['a']],
        .addListEntry [['c']]]).any
      (fun s ↦ (listData s.context.state pairList).isSome) = true := by decide
  obtain ⟨s, hs, htest⟩ := Machine.exists_reach_of_any hrun
  obtain ⟨m, hm⟩ := Option.isSome_iff_exists.mp htest
  have hunbound : Unbound pairList (unbound shortList) := ⟨by decide, rfl, rfl⟩
  exact ⟨s, hs, m, hm, total_eq_of_reach hunbound hs m hm⟩

def longList : List (List Text) := "abcdefghijk".toList.map fun c ↦ [[c]]

/-- A page of a list with eleven entries is loaded, and one of them is deleted. -/
theorem longList_total_wrong :
    ∃ s, (listMachine pairList).Reachable (unbound longList) s ∧
      ∃ m ∈ listData s.context.state pairList, m.total ≠ s.entries.length := by
  have hrun : (((listMachine pairList).restrict fun _ _ ↦ True).runFrom (unbound longList)
      [.bindList, .getNextListEntries true (longList.take 10) (some 1),
        .deleteListEntry [['a']]]).any
      (fun s ↦ (listData s.context.state pairList).any fun m ↦ m.total != s.entries.length) =
        true := by decide
  obtain ⟨s, hs, htest⟩ := Machine.exists_reach_of_any hrun
  obtain ⟨m, hm, hne⟩ := (Option.any_eq_true _ _).mp htest
  exact ⟨s, hs, m, hm, by simpa using hne⟩

end ConfdDemos.Webui
