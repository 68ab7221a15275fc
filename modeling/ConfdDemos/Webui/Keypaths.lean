import ConfdDemos.Webui.TreeKeys

/-!
# What the keypaths of the web UI denote

The keypath of a node goes to ConfD, which reads it back. `KeypathReader.Denotes` is that reading:
names behind slashes, list keys in braces, each key either bare or between quotes, and in a quoted
key a letter behind a backslash stands for what the reader makes of it. The reader is ConfD's, so
only what its documentation promises is assumed of it.

## Results

`ModuleTree.denote_and_distinct_iff`: in any part of a module tree every keypath denotes the data
path of its node and different data nodes have different tree keys exactly when no key value on
these paths contains a quote, a backslash or a bar. Each of the three spoils the keypath of its node
already: a quote ends the key for the reader, a backslash makes it lag behind, and a bar is taken
for the end of the namespace.
-/

namespace ConfdDemos.Webui

/-! ## ConfD's reader -/

/-- ConfD's reader of keypaths. A bare key does not contain a quote, and no escape stands for a bar
except a bar behind a backslash. -/
structure KeypathReader extends Quoting '"' '\\' where
  bare : Char → Bool
  bare_quote : bare '"' = false
  unescape_bar : ∀ c, unescape c = '|' → c = '|'

namespace KeypathReader

variable (R : KeypathReader)

/-- One key, between quotes or bare. -/
inductive ReadsKey : Text → Text → Prop
  | quoted {body k : Text} (h : R.Reads body k) : ReadsKey (quoteKey body) k
  | unquoted {k : Text} (hne : k ≠ []) (h : ∀ c ∈ k, R.bare c = true) : ReadsKey k k

/-- The keys in a pair of braces. -/
inductive ReadsKeys : Text → List Text → Prop
  | last {t k : Text} (h : R.ReadsKey t k) : ReadsKeys t [k]
  | cons {t ts k : Text} {ks : List Text} (h : R.ReadsKey t k) (hs : ReadsKeys ts ks) :
      ReadsKeys (t ++ ' ' :: ts) (k :: ks)

/-- `R.Denotes t p`: the keypath `t` is read as the path `p`. -/
inductive Denotes : Text → List Step → Prop
  | root : Denotes [] []
  | child {q t : Text} {p : List Step} (hq : Gnmi.isYangName q = true) (h : Denotes t p) :
      Denotes ('/' :: (q ++ t)) (.child q :: p)
  | keys {kt t : Text} {ks : List Text} {p : List Step} (hk : R.ReadsKeys kt ks)
      (h : Denotes t p) : Denotes ('{' :: (kt ++ '}' :: t)) (.keys ks :: p)
  | pseudo {kt t k : Text} {p : List Step} (hk : R.ReadsKey kt k) (h : Denotes t p) :
      Denotes ('[' :: (kt ++ ']' :: t)) (.pseudo k :: p)

/-! ## Clean values are read back -/

variable {R}

theorem readsKeys_of_clean {k : Text} {ks : List Text} (hquote : ∀ x ∈ k :: ks, '"' ∉ x)
    (hescape : ∀ x ∈ k :: ks, '\\' ∉ x) : R.ReadsKeys (quoteKey k ++ keysTail ks) (k :: ks) := by
  have hk : R.ReadsKey (quoteKey k) k :=
    .quoted (Quoting.reads_self (hquote k List.mem_cons_self) (hescape k List.mem_cons_self))
  induction ks generalizing k with
  | nil => simpa [keysTail] using ReadsKeys.last hk
  | cons k' ks ih =>
    have hquote' : ∀ x ∈ k' :: ks, '"' ∉ x := fun x hx ↦ hquote x (List.mem_cons_of_mem _ hx)
    have hescape' : ∀ x ∈ k' :: ks, '\\' ∉ x := fun x hx ↦ hescape x (List.mem_cons_of_mem _ hx)
    have hk' : R.ReadsKey (quoteKey k') k' := .quoted
      (Quoting.reads_self (hquote' k' List.mem_cons_self) (hescape' k' List.mem_cons_self))
    exact .cons hk (ih hquote' hescape' hk')

theorem denotes_spell {p : List Step} (hp : ∀ s ∈ p, s.WellFormed) (hquote : Free '"' p)
    (hescape : Free '\\' p) : R.Denotes (spell p) p := by
  induction p with
  | nil => exact .root
  | cons s p ih =>
    have hs := hp s List.mem_cons_self
    have hsq := hquote s List.mem_cons_self
    have hse := hescape s List.mem_cons_self
    have hrest : R.Denotes (spell p) p := ih (fun t ht ↦ hp t (List.mem_cons_of_mem _ ht))
      (fun t ht ↦ hquote t (List.mem_cons_of_mem _ ht))
      (fun t ht ↦ hescape t (List.mem_cons_of_mem _ ht))
    have hspell : spell (s :: p) = s.text ++ spell p := List.flatMap_cons
    rw [hspell]
    cases s with
    | via choice case => exact hs.elim
    | child q => exact .child hs hrest
    | keys ks =>
      obtain ⟨k, ks, rfl⟩ := List.exists_cons_of_ne_nil hs
      have hden := Denotes.keys (readsKeys_of_clean hsq hse) hrest
      rw [text_keys_cons]
      simpa using hden
    | pseudo k =>
      have hden := Denotes.pseudo (.quoted (Quoting.reads_self (hsq k List.mem_cons_self)
        (hse k List.mem_cons_self))) hrest
      rw [text_pseudo]
      simpa using hden

/-! ## Other values are not -/

/-- A key that is read back from its raw spelling is clean, and was read to its closing quote. -/
theorem clean_of_readsKey {t k y z : Text} (h : R.ReadsKey t k) (heq : t ++ y = quoteKey k ++ z) :
    ('"' ∉ k ∧ '\\' ∉ k) ∧ y = z := by
  cases h with
  | quoted h =>
    rename_i body
    have heq' : body ++ '"' :: y = k ++ '"' :: z := by simpa [quoteKey] using heq
    obtain ⟨-, hrest, hquote, hescape⟩ := Quoting.clean_of_reads h heq'
    exact ⟨⟨hquote, hescape⟩, hrest⟩
  | unquoted hne h =>
    obtain ⟨c, k, rfl⟩ := List.exists_cons_of_ne_nil hne
    obtain rfl : c = '"' := (List.cons.inj heq).1
    exact absurd (h _ List.mem_cons_self) (by simp [R.bare_quote])

theorem clean_of_readsKeys {t k y z : Text} {ks : List Text} (h : R.ReadsKeys t (k :: ks))
    (heq : t ++ y = quoteKey k ++ (keysTail ks ++ z)) :
    (∀ x ∈ k :: ks, '"' ∉ x ∧ '\\' ∉ x) ∧ y = z := by
  induction ks generalizing t k with
  | nil =>
    cases h with
    | last h =>
      obtain ⟨hk, hy⟩ := clean_of_readsKey h heq
      exact ⟨by simpa using hk, hy⟩
    | cons _ hs => exact absurd hs (by rintro ⟨⟩)
  | cons k' ks ih =>
    cases h with
    | cons h hs =>
      rename_i t ts
      rw [List.append_assoc, List.cons_append] at heq
      obtain ⟨hk, hrest⟩ := clean_of_readsKey h heq
      rw [keysTail_cons, List.cons_append, List.append_assoc] at hrest
      obtain ⟨hks, hy⟩ := ih hs (List.cons.inj hrest).2
      exact ⟨List.forall_mem_cons.mpr ⟨hk, hks⟩, hy⟩

/-- A path that is read back from its raw spelling has clean key values. -/
theorem clean_of_denotes_spell {t : Text} {p : List Step} (h : R.Denotes t p) (heq : t = spell p) :
    Free '"' p ∧ Free '\\' p := by
  have hcons : ∀ {s : Step} {p : List Step}, (∀ k ∈ s.keyValues, '"' ∉ k ∧ '\\' ∉ k) →
      Free '"' p ∧ Free '\\' p → Free '"' (s :: p) ∧ Free '\\' (s :: p) := fun hs hp ↦
    ⟨List.forall_mem_cons.mpr ⟨fun k hk ↦ (hs k hk).1, hp.1⟩,
      List.forall_mem_cons.mpr ⟨fun k hk ↦ (hs k hk).2, hp.2⟩⟩
  induction h with
  | root => exact ⟨fun s hs ↦ absurd hs List.not_mem_nil, fun s hs ↦ absurd hs List.not_mem_nil⟩
  | child hq _ ih =>
    refine hcons (fun k hk ↦ absurd hk List.not_mem_nil) (ih ?_)
    exact List.append_cancel_left (List.cons.inj heq).2
  | @keys kt t ks p hk _ ih =>
    obtain ⟨k, ks, rfl⟩ : ∃ k l, ks = k :: l := by
      cases hk with
      | last => exact ⟨_, _, rfl⟩
      | cons => exact ⟨_, _, rfl⟩
    have htext : spell (.keys (k :: ks) :: p) =
        '{' :: (quoteKey k ++ (keysTail ks ++ '}' :: spell p)) := by
      rw [spell, List.flatMap_cons, text_keys_cons]
      simp [spell]
    rw [htext] at heq
    obtain ⟨hclean, hrest⟩ := clean_of_readsKeys hk (List.cons.inj heq).2
    exact hcons hclean (ih (List.cons.inj hrest).2)
  | @pseudo kt t k p hk _ ih =>
    have htext : spell (.pseudo k :: p) = '[' :: (quoteKey k ++ ']' :: spell p) := by
      rw [spell, List.flatMap_cons, text_pseudo]
      simp [spell]
    rw [htext] at heq
    obtain ⟨hclean, hrest⟩ := clean_of_readsKey hk (List.cons.inj heq).2
    exact hcons (by simpa [Step.keyValues] using hclean) (ih (List.cons.inj hrest).2)

/-! ## Bars -/

theorem count_quoteKey (k : Text) : (quoteKey k).count '|' = k.count '|' := by
  rw [quoteKey, List.cons_append, List.count_cons_of_ne (by decide), List.count_append,
    List.count_singleton, if_neg (by decide), Nat.add_zero]

theorem count_le_of_readsKey {t k : Text} (h : R.ReadsKey t k) :
    (quoteKey k).count '|' ≤ t.count '|' := by
  rw [count_quoteKey]
  cases h with
  | quoted h =>
    rw [count_quoteKey]
    exact Quoting.count_le_of_reads R.unescape_bar h
  | unquoted hne h => exact le_rfl

theorem count_le_of_readsKeys {t k : Text} {ks : List Text} (h : R.ReadsKeys t (k :: ks)) :
    (quoteKey k ++ keysTail ks).count '|' ≤ t.count '|' := by
  induction ks generalizing t k with
  | nil =>
    cases h with
    | last h => simpa [keysTail] using count_le_of_readsKey h
    | cons _ hs => exact absurd hs (by rintro ⟨⟩)
  | cons k' ks ih =>
    cases h with
    | cons h hs =>
      rw [keysTail_cons, List.count_append, List.count_append, List.count_cons_of_ne (by decide),
        List.count_cons_of_ne (by decide)]
      exact Nat.add_le_add (count_le_of_readsKey h) (ih hs)

/-- A path cannot be read from a text that has fewer bars than it. -/
theorem count_le_of_denotes {t : Text} {p : List Step} (h : R.Denotes t p) :
    (spell p).count '|' ≤ t.count '|' := by
  have hcons : ∀ s p, spell (s :: p) = s.text ++ spell p := fun s p ↦ List.flatMap_cons
  induction h with
  | root => exact le_rfl
  | child hq _ ih =>
    rw [hcons, Step.text, List.cons_append, List.count_cons_of_ne (by decide),
      List.count_cons_of_ne (by decide), List.count_append, List.count_append]
    exact Nat.add_le_add_left ih _
  | @keys kt t ks p hk _ ih =>
    obtain ⟨k, ks, rfl⟩ : ∃ k l, ks = k :: l := by
      cases hk with
      | last => exact ⟨_, _, rfl⟩
      | cons => exact ⟨_, _, rfl⟩
    have hkeys := count_le_of_readsKeys hk
    rw [List.count_append] at hkeys
    rw [hcons, text_keys_cons]
    simp only [List.cons_append, List.append_assoc, List.count_append, List.nil_append, ne_eq,
      Char.reduceEq, not_false_eq_true, List.count_cons_of_ne]
    omega
  | @pseudo kt t k p hk _ ih =>
    have hkey := count_le_of_readsKey hk
    rw [hcons, text_pseudo]
    simp only [List.cons_append, List.append_assoc, List.count_append, List.nil_append, ne_eq,
      Char.reduceEq, not_false_eq_true, List.count_cons_of_ne]
    omega

end KeypathReader

/-- The bars of a path are those of its key values. -/
theorem bar_notMem_spell_iff {p : List Step} (hp : ∀ s ∈ p, s.WellFormed) :
    '|' ∉ spell p ↔ Free '|' p := by
  have hquote : ∀ k : Text, '|' ∈ quoteKey k ↔ '|' ∈ k := by
    intro k
    simp [quoteKey]
  have htext : ∀ s ∈ p, '|' ∈ s.text ↔ ∃ k ∈ s.keyValues, '|' ∈ k := by
    intro s hs
    cases s with
    | via choice case => exact (hp _ hs).elim
    | child q =>
      have hq : '|' ∉ q := Gnmi.notMem_of_isYangName (hp _ hs) (by decide) (by decide)
      simp [Step.text, Step.keyValues, hq]
    | keys ks =>
      obtain ⟨k, ks, rfl⟩ := List.exists_cons_of_ne_nil (hp _ hs)
      simp [text_keys_cons, Step.keyValues, keysTail, hquote]
    | pseudo k => simp [text_pseudo, Step.keyValues, hquote]
  constructor
  · intro h s hs k hk hbar
    exact h (List.mem_flatMap.mpr ⟨s, hs, (htext s hs).mpr ⟨k, hk, hbar⟩⟩)
  · intro h hbar
    obtain ⟨s, hs, hbar⟩ := List.mem_flatMap.mp hbar
    obtain ⟨k, hk, hbar⟩ := (htext s hs).mp hbar
    exact h s hs k hk hbar

/-! ## Module trees -/

/-- A part of the tree of one module. -/
structure ModuleTree where
  ns : Namespace
  nodes : Set (TreeNode × Address)
  generated : ∀ x ∈ nodes, Generated ns x.1 x.2

namespace ModuleTree

variable (R : KeypathReader) (T : ModuleTree)

/-- Every keypath of a data node denotes it. -/
def KeypathsDenote : Prop :=
  ∀ x ∈ T.nodes, x.1.isData = true → R.Denotes (nodeKeypath x.1) x.2.dataPath

/-- Different data nodes have different tree keys. -/
def KeysDistinct : Prop :=
  ∀ x ∈ T.nodes, ∀ y ∈ T.nodes, x.1.isData = true → y.1.isData = true →
    x.1.key = y.1.key → x.2.dataPath = y.2.dataPath

/-- No key value on the way to a data node contains a quote, a backslash or a bar. -/
def CleanKeys : Prop :=
  ∀ x ∈ T.nodes, x.1.isData = true → ∀ s ∈ x.2.dataPath, ∀ k ∈ s.keyValues,
    '"' ∉ k ∧ '\\' ∉ k ∧ '|' ∉ k

end ModuleTree

variable {R : KeypathReader} {ns : Namespace} {node node' : TreeNode} {a a' : Address}

/-- The keypath of a node denotes it exactly when the key values on the way are clean. -/
theorem Shaped.denotes_iff (h : Shaped ns node a) :
    R.Denotes (nodeKeypath node) a.dataPath ↔
      Free '"' a.dataPath ∧ Free '\\' a.dataPath ∧ Free '|' a.dataPath := by
  constructor
  · intro hden
    by_cases hbar : '|' ∈ spell a.dataPath
    · exact absurd (KeypathReader.count_le_of_denotes hden)
        (h.keyAt.count_keypath_lt h.wellFormed hbar).not_ge
    · obtain ⟨hquote, hescape⟩ := KeypathReader.clean_of_denotes_spell hden
        (h.keyAt.keypath_eq hbar)
      exact ⟨hquote, hescape, (bar_notMem_spell_iff h.wellFormed).mp hbar⟩
  · rintro ⟨hquote, hescape, hbar⟩
    have hkeypath : nodeKeypath node = spell a.dataPath :=
      h.keyAt.keypath_eq ((bar_notMem_spell_iff h.wellFormed).mpr hbar)
    rw [hkeypath]
    exact KeypathReader.denotes_spell h.wellFormed hquote hescape

/-- Without quotes and bars a tree key determines the data path. -/
theorem Shaped.dataPath_eq_of_key (h : Shaped ns node a) (h' : Shaped ns node' a')
    (hquote : Free '"' a.dataPath) (hquote' : Free '"' a'.dataPath) (hbar : Free '|' a.dataPath)
    (hbar' : Free '|' a'.dataPath) (hkey : node.key = node'.key) : a.dataPath = a'.dataPath := by
  have hspell : nodeKeypath node = spell a.dataPath :=
    h.keyAt.keypath_eq ((bar_notMem_spell_iff h.wellFormed).mpr hbar)
  have hspell' : nodeKeypath node' = spell a'.dataPath :=
    h'.keyAt.keypath_eq ((bar_notMem_spell_iff h'.wellFormed).mpr hbar')
  refine spell_injective h.wellFormed h'.wellFormed hquote hquote' ?_
  rw [← hspell, ← hspell', nodeKeypath, nodeKeypath, hkey]

/-- **Tree keys address the right nodes** exactly when no key value contains a quote, a backslash or
a bar. -/
theorem ModuleTree.denote_and_distinct_iff (R : KeypathReader) (T : ModuleTree) :
    (T.KeypathsDenote R ∧ T.KeysDistinct) ↔ T.CleanKeys := by
  constructor
  · rintro ⟨hden, -⟩ x hx hdata s hs k hk
    obtain ⟨hquote, hescape, hbar⟩ := (T.generated x hx).shaped.denotes_iff.mp (hden x hx hdata)
    exact ⟨hquote s hs k hk, hescape s hs k hk, hbar s hs k hk⟩
  · intro hclean
    refine ⟨fun x hx hdata ↦ ?_, fun x hx y hy hdata hdata' ↦ ?_⟩
    · exact (T.generated x hx).shaped.denotes_iff.mpr
        ⟨fun s hs k hk ↦ (hclean x hx hdata s hs k hk).1,
          fun s hs k hk ↦ (hclean x hx hdata s hs k hk).2.1,
          fun s hs k hk ↦ (hclean x hx hdata s hs k hk).2.2⟩
    · exact (T.generated x hx).shaped.dataPath_eq_of_key (T.generated y hy).shaped
        (fun s hs k hk ↦ (hclean x hx hdata s hs k hk).1)
        (fun s hs k hk ↦ (hclean y hy hdata' s hs k hk).1)
        (fun s hs k hk ↦ (hclean x hx hdata s hs k hk).2.2)
        (fun s hs k hk ↦ (hclean y hy hdata' s hs k hk).2.2)

/-! ## Two entries with one key

Two entries of a list with two keys, the first with the values `a" "b` and `c`, the second with `a`
and `b" "c`, are given the same tree key. -/

def escapedChar (c : Char) : Char :=
  if c = 'n' then '\n' else if c = 't' then '\t' else if c = 'r' then '\r' else c

def confdReader : KeypathReader where
  unescape := escapedChar
  quote_ne := by decide
  unescape_quote := by decide
  bare c := !(c == '"' || c == '\\' || c == ' ' || c == '{' || c == '}' || c == '[' || c == ']')
  bare_quote := by decide
  unescape_bar c h := by
    rw [escapedChar] at h
    split_ifs at h
    · exact absurd h (by decide)
    · exact absurd h (by decide)
    · exact absurd h (by decide)
    · exact h

def pairNs : Namespace where
  uri := "urn:m".toList
  bar_notMem := by decide
  quote_notMem := by decide

def pairListSchema : Schema := .mk .list "l".toList "m:l".toList true [] []

def pairData : Schema := .mk .root [] [] false [pairListSchema] []

def pairList : TreeNode := lazyDescendant (pairNs.uri ++ ['|']) pairData pairListSchema

def firstPair : List Text := ["a\" \"b".toList, "c".toList]

def secondPair : List Text := ["a".toList, "b\" \"c".toList]

theorem generated_pairList : Generated pairNs pairList [.child "m:l".toList] := by
  have hnamed : pairData.Named := by
    intro child hchild
    rw [List.mem_singleton.mp hchild]
    decide
  exact .descendant (.top pairData) (Or.inl rfl) (by decide) hnamed List.mem_cons_self

theorem generated_pairEntry {ks : List Text} (hks : ks ≠ []) :
    Generated pairNs (generateListEntry pairList ks) [.child "m:l".toList, .keys ks] :=
  .entry generated_pairList rfl rfl hks

def pairTree : ModuleTree where
  ns := pairNs
  nodes := {x | ∃ ks, (ks = firstPair ∨ ks = secondPair) ∧
    x = (generateListEntry pairList ks, [.child "m:l".toList, .keys ks])}
  generated x hx := by
    obtain ⟨ks, hks, rfl⟩ := hx
    refine generated_pairEntry ?_
    rcases hks with rfl | rfl
    · exact List.cons_ne_nil _ _
    · exact List.cons_ne_nil _ _

theorem pairTree_keys_clash :
    ¬ (pairTree.KeypathsDenote confdReader ∧ pairTree.KeysDistinct) := by
  rintro ⟨-, hdistinct⟩
  have hpath := hdistinct _ ⟨firstPair, Or.inl rfl, rfl⟩ _ ⟨secondPair, Or.inr rfl, rfl⟩ rfl rfl
    (by decide)
  exact absurd hpath (by decide)

end ConfdDemos.Webui
