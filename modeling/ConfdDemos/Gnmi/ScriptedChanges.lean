import Mathlib.Data.List.Infix
import Mathlib.Data.List.TakeWhile
import ConfdDemos.Gnmi.DemoDb
import ConfdDemos.Gnmi.DemoStream

/-!
# Scripted changes of the demo adapter

The demo adapter may be given a script: a list of changes, with strings in between that say when the
changes are sent. Each `ADD` takes the entries up to the next string, that one included, or up to
the end of the list. The place where it stopped is kept in `changes_idx`, and a script that is used
up begins again.

An entry is a pair or the text of an XML element. An element without text gives `None`, which is
neither a pair nor a string.
-/

namespace ConfdDemos.Gnmi

/-- An entry of the script; `none` is Python's `None`. -/
abbrev Entry := Option DemoChange

/-- `isinstance(c, str)`. -/
def Entry.isStr : Entry → Bool
  | some (.marker _) => true
  | _ => false

/-- `config["changes"]` and `config["changes_idx"]`. -/
structure DemoConfig where
  changes : List Entry
  changesIdx : ℕ

/-! ## Loading a script -/

/-- An `element` of the script: its text, and the texts of its children. -/
structure ScriptElement where
  text : Option (List Char)
  children : List (Option (List Char))

/-- What an `element` adds to the script. An element with one child or with more than two is passed
over, and a child without text is an error. -/
def ScriptElement.entries (el : ScriptElement) : Option (List Entry) :=
  match el.children with
  | [] => some [el.text.map .marker]
  | [path, val] =>
    path.bind fun path ↦ val.map fun val ↦
      [some (.change (nslessXpath path) (AnnStmt.replace val "iana-if-type:" ""))]
  | _ => some []

/-- `load_config_string`, for the elements that are found. -/
def loadConfigString (config : Option DemoConfig) (elements : List ScriptElement) :
    Option (Option DemoConfig) :=
  if elements.length = 0 then some config
  else
    let c := config.getD ⟨[], 0⟩
    (elements.foldlM (fun changes (el : ScriptElement) ↦ el.entries.map (changes ++ ·))
      c.changes).map fun changes ↦ some { c with changes }

/-- Entries are added at the end, and the place stays. A script that is loaded first begins at its
first entry. -/
theorem loadConfigString_eq {config config' : Option DemoConfig} {elements : List ScriptElement}
    (h : loadConfigString config elements = some config') (hne : elements ≠ []) :
    ∃ added, config' = some ⟨(config.getD ⟨[], 0⟩).changes ++ added,
      (config.getD ⟨[], 0⟩).changesIdx⟩ := by
  rw [loadConfigString, if_neg (by simpa using hne)] at h
  obtain ⟨changes, hfold, rfl⟩ := Option.map_eq_some_iff.mp h
  suffices hadded : ∃ added, changes = (config.getD ⟨[], 0⟩).changes ++ added by
    obtain ⟨added, rfl⟩ := hadded
    exact ⟨added, rfl⟩
  generalize (config.getD ⟨[], 0⟩).changes = start at hfold
  clear h hne
  induction elements generalizing start with
  | nil =>
    obtain rfl := Option.some_inj.mp hfold
    exact ⟨[], (List.append_nil _).symm⟩
  | cons el elements ih =>
    rw [List.foldlM_cons] at hfold
    obtain ⟨start', hel, hrest⟩ := Option.bind_eq_some_iff.mp hfold
    obtain ⟨entries, -, rfl⟩ := Option.map_eq_some_iff.mp hel
    obtain ⟨added, rfl⟩ := ih _ hrest
    exact ⟨entries ++ added, List.append_assoc ..⟩

/-! ## Taking changes -/

/-- The loop of `_get_config_changes`, over the entries from the index on. -/
def collectChanges : List Entry → ℕ → List Entry → ℕ × List Entry
  | [], idx, changes => (idx, changes)
  | c :: rest, idx, changes =>
    if c.isStr then (idx + 1, changes ++ [c]) else collectChanges rest (idx + 1) (changes ++ [c])

/-- `_get_config_changes`. -/
def DemoConfig.getConfigChanges (config : DemoConfig) : DemoConfig × List Entry :=
  let idx := if config.changes.length ≤ config.changesIdx then 0 else config.changesIdx
  let (idx, changes) := collectChanges (config.changes.drop idx) idx []
  ({ config with changesIdx := idx }, changes)

/-- What a number of calls return, one after the other. -/
def DemoConfig.calls (config : DemoConfig) : ℕ → List (List Entry)
  | 0 => []
  | k + 1 => config.getConfigChanges.2 :: config.getConfigChanges.1.calls k

section Calls

variable {config : DemoConfig} {rest changes : List Entry} {idx : ℕ}

/-- The entries up to the first string, that one included. -/
def chunk (rest : List Entry) : List Entry :=
  rest.takeWhile (!·.isStr) ++ (rest.dropWhile (!·.isStr)).take 1

theorem chunk_cons (c : Entry) (rest : List Entry) :
    chunk (c :: rest) = c :: if c.isStr then [] else chunk rest := by
  by_cases hc : c.isStr
  · simp [chunk, hc]
  · simp [chunk, hc]

theorem collectChanges_eq :
    collectChanges rest idx changes = (idx + (chunk rest).length, changes ++ chunk rest) := by
  induction rest generalizing idx changes with
  | nil => simp [collectChanges, chunk]
  | cons c rest ih =>
    rw [collectChanges, chunk_cons]
    split_ifs with hc
    · rfl
    · rw [ih, List.length_cons, List.append_assoc, List.singleton_append, Nat.add_assoc,
        Nat.add_comm 1]

theorem chunk_isPrefix (rest : List Entry) : chunk rest <+: rest := by
  refine ⟨(rest.dropWhile (!·.isStr)).drop 1, ?_⟩
  rw [chunk, List.append_assoc, List.take_append_drop, List.takeWhile_append_dropWhile]

theorem chunk_ne_nil (h : rest ≠ []) : chunk rest ≠ [] := by
  rcases rest with - | ⟨c, rest⟩
  · exact absurd rfl h
  · rw [chunk_cons]
    exact List.cons_ne_nil _ _

/-- A string is the last entry. -/
theorem not_isStr_of_mem_dropLast_chunk {e : Entry} (h : e ∈ (chunk rest).dropLast) :
    e.isStr = false := by
  have hmem : e ∈ rest.takeWhile (!·.isStr) := by
    rcases hdrop : rest.dropWhile (!·.isStr) with - | ⟨c, tail⟩
    · rw [chunk, hdrop, List.take_nil, List.append_nil] at h
      exact List.mem_of_mem_dropLast h
    · rw [chunk, hdrop, List.take_succ_cons, List.take_zero, List.dropLast_concat] at h
      exact h
  simpa using List.mem_takeWhile_imp hmem

/-- Where a call starts. -/
def DemoConfig.place (config : DemoConfig) : ℕ :=
  if config.changes.length ≤ config.changesIdx then 0 else config.changesIdx

theorem getConfigChanges_eq : config.getConfigChanges =
    ({ config with changesIdx := config.place + (chunk (config.changes.drop config.place)).length },
      chunk (config.changes.drop config.place)) := by
  rw [DemoConfig.getConfigChanges, ← DemoConfig.place]
  dsimp only
  rw [collectChanges_eq, List.nil_append]

theorem place_lt (h : config.changes ≠ []) : config.place < config.changes.length := by
  rw [DemoConfig.place]
  split_ifs with hidx
  · exact List.length_pos_iff.mpr h
  · exact Nat.not_le.mp hidx

/-- What was taken so far, and what one more call takes. -/
theorem take_place_append_chunk :
    config.changes.take config.place ++ chunk (config.changes.drop config.place) =
      config.changes.take (config.place + (chunk (config.changes.drop config.place)).length) := by
  rw [List.take_add]
  exact congrArg _ (List.prefix_iff_eq_take.mp (chunk_isPrefix _))

theorem changesIdx_le :
    config.getConfigChanges.1.changesIdx ≤ max config.place config.changes.length := by
  have hle := (chunk_isPrefix (config.changes.drop config.place)).length_le
  rw [List.length_drop] at hle
  rw [getConfigChanges_eq]
  dsimp only
  omega

/-- A number of calls goes through the list some times, and on to some place in it. -/
theorem exists_calls_eq (config : DemoConfig) (hne : config.changes ≠ [])
    (hidx : config.changesIdx ≤ config.changes.length) (k : ℕ) :
    ∃ m n, config.changes.take config.changesIdx ++ (config.calls k).flatten =
      (List.replicate m config.changes).flatten ++ config.changes.take n := by
  induction k generalizing config with
  | zero => exact ⟨0, config.changesIdx, by simp [DemoConfig.calls]⟩
  | succ k ih =>
    have hplace := place_lt hne
    have hle : config.getConfigChanges.1.changesIdx ≤ config.changes.length :=
      changesIdx_le.trans (by rw [max_eq_right hplace.le])
    obtain ⟨m, n, h⟩ := ih config.getConfigChanges.1 hne hle
    have hstep : config.changes.take config.place ++ (config.calls (k + 1)).flatten =
        (List.replicate m config.changes).flatten ++ config.changes.take n := by
      rw [DemoConfig.calls, List.flatten_cons, ← List.append_assoc]
      refine Eq.trans ?_ h
      rw [getConfigChanges_eq]
      exact congrArg (· ++ _) take_place_append_chunk
    rcases Nat.lt_or_ge config.changesIdx config.changes.length with hlt | hge
    · rw [DemoConfig.place, if_neg (Nat.not_le.mpr hlt)] at hstep
      exact ⟨m, n, hstep⟩
    · -- the list is used up, and the call starts again
      rw [DemoConfig.place, if_pos hge, List.take_zero, List.nil_append] at hstep
      refine ⟨m + 1, n, ?_⟩
      rw [List.take_of_length_le hge, hstep, List.replicate_succ, List.flatten_cons,
        List.append_assoc]

theorem mem_calls (config : DemoConfig) {c : List Entry} {k : ℕ} (hne : config.changes ≠ [])
    (hc : c ∈ config.calls k) :
    c ≠ [] ∧ ∀ e ∈ c.dropLast, e.isStr = false := by
  induction k generalizing config with
  | zero => exact absurd hc List.not_mem_nil
  | succ k ih =>
    rcases List.mem_cons.mp hc with rfl | hc
    · rw [getConfigChanges_eq]
      refine ⟨chunk_ne_nil ?_, fun e he ↦ not_isStr_of_mem_dropLast_chunk he⟩
      rw [Ne, List.drop_eq_nil_iff]
      exact Nat.not_le.mpr (place_lt hne)
    · exact ih config.getConfigChanges.1 hne hc

theorem exists_calls_isPrefix (hchanges : changes ≠ []) (k : ℕ) :
    ∃ m, (DemoConfig.calls ⟨changes, 0⟩ k).flatten <+: (List.replicate m changes).flatten := by
  obtain ⟨m, n, h⟩ := exists_calls_eq ⟨changes, 0⟩ hchanges (Nat.zero_le _) k
  rw [List.take_zero, List.nil_append] at h
  refine ⟨m + 1, ?_⟩
  rw [h, List.replicate_succ', List.flatten_concat]
  exact (List.prefix_append_right_inj _).mpr <| List.take_prefix n changes

/-- **Scripted changes.** What a number of calls return is a beginning of the script repeated, in
pieces that are not empty and in which a string is the last entry. -/
theorem calls_scripted (hchanges : changes ≠ []) (k : ℕ) :
    (∃ m, (DemoConfig.calls ⟨changes, 0⟩ k).flatten <+: (List.replicate m changes).flatten) ∧
      ∀ c ∈ DemoConfig.calls ⟨changes, 0⟩ k, c ≠ [] ∧ ∀ e ∈ c.dropLast, e.isStr = false :=
  ⟨exists_calls_isPrefix hchanges k, fun _ hc ↦ mem_calls ⟨changes, 0⟩ hchanges hc⟩

/-- Two changes, with a string between them. -/
def twoChanges : List Entry :=
  [some (.change ['a'] ['1']), some (.marker ['s', 'e', 'n', 'd']), some (.change ['b'] ['2'])]

theorem calls_scripted_twoChanges : twoChanges ≠ [] ∧
    (∃ m, (DemoConfig.calls ⟨twoChanges, 0⟩ 3).flatten <+: (List.replicate m twoChanges).flatten) ∧
      ∀ c ∈ DemoConfig.calls ⟨twoChanges, 0⟩ 3, c ≠ [] ∧ ∀ e ∈ c.dropLast, e.isStr = false :=
  ⟨by decide, calls_scripted (by decide) 3⟩

example : (DemoConfig.calls ⟨twoChanges, 0⟩ 3).map List.length = [2, 1, 2] := by decide

/-- The same for a script as it has been loaded. -/
theorem calls_loaded {elements : List ScriptElement}
    (hload : loadConfigString none elements = some (some config)) (hne : config.changes ≠ [])
    (k : ℕ) :
    (∃ m, (config.calls k).flatten <+: (List.replicate m config.changes).flatten) ∧
      ∀ c ∈ config.calls k, c ≠ [] ∧ ∀ e ∈ c.dropLast, e.isStr = false := by
  have helements : elements ≠ [] := by
    rintro rfl
    exact absurd hload (by simp [loadConfigString])
  obtain ⟨added, hconfig⟩ := loadConfigString_eq hload helements
  obtain rfl := Option.some_inj.mp hconfig
  exact ⟨exists_calls_isPrefix hne k, fun c hc ↦ mem_calls _ hne hc⟩

end Calls

end ConfdDemos.Gnmi
