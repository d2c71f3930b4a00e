import AwaDB.Table.FieldRangeIndex

/-!
# What an index holds

`FieldRangeIndex::Add` and `Delete` go through the keys of a value, and each key has its node.

* `TreeRep`: the nodes of a tree hold given sets of documents;
* `Content stored`: the index holds each document under the keys of its stored value and under no
  others;
* `Content.add` and `Content.delete`: storing a value of a document that has none, and deleting the value
  of one that has it, keep that. Neither holds for a document that is stored twice.
-/

namespace AwaDB

namespace BTree

/-- The node of each key holds the documents of `rep`. -/
structure TreeRep (t : BTree) (rep : Bytes → Finset ℕ) : Prop where
  node : ∀ key n, t.lookup key = some n → n.Rep (rep key)
  empty : ∀ key, t.lookup key = none → rep key = ∅

theorem treeRep_empty : TreeRep ∅ fun _ => ∅ where
  node := fun key n h => by
    rw [AList.lookup_empty] at h
    cases h
  empty := fun _ _ => rfl

theorem TreeRep.holds_iff {t : BTree} {rep : Bytes → Finset ℕ} (h : t.TreeRep rep) (key : Bytes)
    (d : ℕ) : t.Holds key d ↔ d ∈ rep key := by
  constructor
  · rintro ⟨n, hn, hd⟩
    exact ((h.node key n hn).holds_iff d).mp hd
  · intro hd
    cases hn : t.lookup key with
    | none =>
      rw [h.empty key hn] at hd
      exact absurd hd (Finset.notMem_empty d)
    | some n => exact ⟨n, hn, ((h.node key n hn).holds_iff d).mpr hd⟩

/-- One node is replaced. -/
theorem TreeRep.insert {t : BTree} {rep : Bytes → Finset ℕ} (h : t.TreeRep rep) {key : Bytes}
    {n : Node} {s : Finset ℕ} (hn : n.Rep s) :
    TreeRep (AList.insert key n t) (Function.update rep key s) where
  node := by
    intro key' n' hlookup
    rcases lookup_insert_some hlookup with ⟨rfl, rfl⟩ | ⟨hne, hlookup⟩
    · rw [Function.update_self]
      exact hn
    · rw [Function.update_of_ne hne]
      exact h.node key' n' hlookup
  empty := by
    intro key' hlookup
    obtain ⟨hne, hlookup⟩ := lookup_insert_none hlookup
    rw [Function.update_of_ne hne]
    exact h.empty key' hlookup

/-- **`InsertToBt`** of a document that the key does not have. -/
theorem TreeRep.insertToBt {t : BTree} {rep : Bytes → Finset ℕ} (h : t.TreeRep rep) {key : Bytes}
    {d : ℕ} (hd : d < docLimit) (hnew : d ∉ rep key) :
    ∃ t', BTree.insertToBt d key t = some t' ∧
      t'.TreeRep (Function.update rep key (Insert.insert d (rep key))) := by
  rw [BTree.insertToBt]
  cases hn : t.lookup key with
  | none =>
    obtain ⟨n, hadd, hrep⟩ := Node.rep_new hd
    refine ⟨_, Option.map_eq_some_iff.mpr ⟨n, hadd, rfl⟩, ?_⟩
    rw [h.empty key hn]
    exact h.insert hrep
  | some n =>
    obtain ⟨n', hadd, hrep⟩ := (h.node key n hn).add hnew
    exact ⟨_, Option.map_eq_some_iff.mpr ⟨n', hadd, rfl⟩, h.insert hrep⟩

/-- **`DeleteFromBt`** of a document that the key has. -/
theorem TreeRep.deleteFromBt {t : BTree} {rep : Bytes → Finset ℕ} (h : t.TreeRep rep)
    {key : Bytes} {d : ℕ} (hmem : d ∈ rep key) :
    (BTree.deleteFromBt d key t).TreeRep (Function.update rep key ((rep key).erase d)) := by
  rw [BTree.deleteFromBt]
  cases hn : t.lookup key with
  | none =>
    rw [h.empty key hn] at hmem
    exact absurd hmem (Finset.notMem_empty d)
  | some n => exact h.insert ((h.node key n hn).delete hmem)

/-- All the keys of a value, added. -/
theorem TreeRep.insertAll {t : BTree} {rep : Bytes → Finset ℕ} (h : t.TreeRep rep)
    {keys : List Bytes} (hnodup : keys.Nodup) {d : ℕ} (hd : d < docLimit)
    (hnew : ∀ key ∈ keys, d ∉ rep key) :
    ∃ t' rep', Lib.runOps (BTree.insertToBt d) keys t = some t' ∧ t'.TreeRep rep' ∧
      ∀ key d', d' ∈ rep' key ↔ d' ∈ rep key ∨ d' = d ∧ key ∈ keys := by
  induction keys generalizing t rep with
  | nil => exact ⟨t, rep, rfl, h, fun key d' => by simp⟩
  | cons key keys ih =>
    rw [List.nodup_cons] at hnodup
    obtain ⟨t₁, ht₁, h₁⟩ := h.insertToBt hd (hnew key List.mem_cons_self)
    have hrest : ∀ key' ∈ keys, d ∉ Function.update rep key (Insert.insert d (rep key)) key' := by
      intro key' hmem
      have hne : key' ≠ key := fun heq => hnodup.1 (heq ▸ hmem)
      rw [Function.update_of_ne hne]
      exact hnew key' (List.mem_cons_of_mem key hmem)
    obtain ⟨t₂, rep₂, ht₂, h₂, hmem₂⟩ := ih h₁ hnodup.2 hrest
    refine ⟨t₂, rep₂, by rw [Lib.runOps_cons, ht₁, Option.bind_some, ht₂], h₂, fun key' d' => ?_⟩
    rw [hmem₂]
    by_cases heq : key' = key
    · subst heq
      rw [Function.update_self, Finset.mem_insert]
      simp only [List.mem_cons, true_or, and_true]
      constructor
      · rintro ((heq | hold) | hlater)
        · exact .inr heq
        · exact .inl hold
        · exact .inr hlater.1
      · rintro (hold | heq)
        · exact .inl (.inr hold)
        · exact .inl (.inl heq)
    · rw [Function.update_of_ne heq]
      simp [heq]

/-- All the keys of a value, deleted. -/
theorem TreeRep.deleteAll {t : BTree} {rep : Bytes → Finset ℕ} (h : t.TreeRep rep)
    {keys : List Bytes} (hnodup : keys.Nodup) {d : ℕ} (hmem : ∀ key ∈ keys, d ∈ rep key) :
    ∃ rep', (keys.foldl (fun tree key => BTree.deleteFromBt d key tree) t).TreeRep rep' ∧
      ∀ key d', d' ∈ rep' key ↔ d' ∈ rep key ∧ ¬ (d' = d ∧ key ∈ keys) := by
  induction keys generalizing t rep with
  | nil => exact ⟨rep, h, fun key d' => by simp⟩
  | cons key keys ih =>
    rw [List.nodup_cons] at hnodup
    have h₁ := h.deleteFromBt (hmem key List.mem_cons_self)
    have hrest : ∀ key' ∈ keys, d ∈ Function.update rep key ((rep key).erase d) key' := by
      intro key' hkey
      have hne : key' ≠ key := fun heq => hnodup.1 (heq ▸ hkey)
      rw [Function.update_of_ne hne]
      exact hmem key' (List.mem_cons_of_mem key hkey)
    obtain ⟨rep₂, h₂, hmem₂⟩ := ih h₁ hnodup.2 hrest
    refine ⟨rep₂, h₂, fun key' d' => ?_⟩
    rw [hmem₂]
    by_cases heq : key' = key
    · subst heq
      rw [Function.update_self, Finset.mem_erase]
      simp only [List.mem_cons, true_or, and_true]
      constructor
      · intro hd
        exact ⟨hd.1.2, hd.1.1⟩
      · intro hd
        exact ⟨⟨hd.2, hd.1⟩, fun hlater => hd.2 hlater.1⟩
    · rw [Function.update_of_ne heq]
      simp [heq]

end BTree

namespace FieldRangeIndex

/-- The index holds each document under the keys of its stored value, and under no others. -/
structure Content (i : FieldRangeIndex) (stored : ℕ → Option Bytes) : Prop where
  tree : ∃ rep, i.tree.TreeRep rep ∧ ∀ key d, d ∈ rep key ↔
    ∃ v keys, stored d = some v ∧ i.keys? v = some keys ∧ key ∈ keys

/-- A value that the index takes: it has keys, each once. -/
def Valid (i : FieldRangeIndex) (v : Bytes) : Prop := ∃ keys, i.keys? v = some keys ∧ keys.Nodup

theorem content_create (type : DataType) : Content (create type) fun _ => none where
  tree := ⟨fun _ => ∅, BTree.treeRep_empty, fun key d => by simp⟩

theorem Content.holds_iff {i : FieldRangeIndex} {stored : ℕ → Option Bytes} (h : i.Content stored)
    (key : Bytes) (d : ℕ) : i.tree.Holds key d ↔
      ∃ v keys, stored d = some v ∧ i.keys? v = some keys ∧ key ∈ keys := by
  obtain ⟨rep, hrep, hmem⟩ := h.tree
  rw [hrep.holds_iff, hmem]

/-- An empty value has no keys, so that it need not be deleted. -/
theorem Content.forget_empty {i : FieldRangeIndex} {stored : ℕ → Option Bytes} (h : i.Content stored)
    (hv : i.Valid []) {d : ℕ} (hstored : stored d = some []) :
    i.Content (Function.update stored d none) where
  tree := by
    obtain ⟨rep, hrep, hmem⟩ := h.tree
    obtain ⟨keys, hkeys, -⟩ := hv
    have hnone : keys = [] := by
      rw [keys?] at hkeys
      split at hkeys
      · cases hkeys
      · cases hkeys
        rfl
    refine ⟨rep, hrep, fun key d' => ?_⟩
    rw [hmem]
    by_cases heq : d' = d
    · subst heq
      rw [Function.update_self, hstored]
      constructor
      · rintro ⟨v, keys', hv, hkeys', hkey⟩
        cases hv
        rw [hkeys, hnone] at hkeys'
        cases hkeys'
        cases hkey
      · rintro ⟨v, -, hv, -⟩
        cases hv
    · rw [Function.update_of_ne heq]

/-- **`Add`** for a document that is not stored. -/
theorem Content.add {i : FieldRangeIndex} {stored : ℕ → Option Bytes} (h : i.Content stored)
    {v : Bytes} (hv : i.Valid v) {d : ℕ} (hd : d < docLimit) (hnew : stored d = none) :
    ∃ i', i.add v d = some i' ∧ i'.isNumeric = i.isNumeric ∧
      i'.Content (Function.update stored d (some v)) := by
  obtain ⟨rep, hrep, hmem⟩ := h.tree
  obtain ⟨keys, hkeys, hnodup⟩ := hv
  have hfree : ∀ key ∈ keys, d ∉ rep key := by
    intro key _ hd
    obtain ⟨v', -, hv', -⟩ := (hmem key d).mp hd
    rw [hnew] at hv'
    cases hv'
  obtain ⟨t', rep', ht', hrep', hmem'⟩ := hrep.insertAll hnodup hd hfree
  refine ⟨{ i with tree := t' }, by rw [FieldRangeIndex.add, hkeys, Option.bind_some, ht']; rfl, rfl,
    ⟨rep', hrep', fun key d' => ?_⟩⟩
  rw [hmem', hmem]
  show _ ↔ ∃ v' keys', Function.update stored d (some v) d' = some v' ∧ i.keys? v' = some keys' ∧ _
  by_cases heq : d' = d
  · subst heq
    rw [Function.update_self, hnew]
    constructor
    · rintro (⟨v', -, hv', -⟩ | hkey)
      · cases hv'
      · exact ⟨v, keys, rfl, hkeys, hkey.2⟩
    · rintro ⟨v', keys', hv', hkeys', hkey⟩
      cases hv'
      rw [hkeys] at hkeys'
      cases hkeys'
      exact .inr ⟨rfl, hkey⟩
  · rw [Function.update_of_ne heq]
    exact ⟨fun hd => hd.resolve_right fun hcond => heq hcond.1, .inl⟩

/-- **`Delete`** of the value that is stored for a document. -/
theorem Content.delete {i : FieldRangeIndex} {stored : ℕ → Option Bytes} (h : i.Content stored)
    {v : Bytes} (hv : i.Valid v) {d : ℕ} (hstored : stored d = some v) :
    ∃ i', i.delete v d = some i' ∧ i'.isNumeric = i.isNumeric ∧
      i'.Content (Function.update stored d none) := by
  obtain ⟨rep, hrep, hmem⟩ := h.tree
  obtain ⟨keys, hkeys, hnodup⟩ := hv
  obtain ⟨rep', hrep', hmem'⟩ := hrep.deleteAll hnodup fun key hkey =>
    (hmem key d).mpr ⟨v, keys, hstored, hkeys, hkey⟩
  refine ⟨{ i with tree := keys.foldl (fun tree key => BTree.deleteFromBt d key tree) i.tree },
    by rw [FieldRangeIndex.delete, hkeys, Option.map_some], rfl, ⟨rep', hrep', fun key d' => ?_⟩⟩
  rw [hmem', hmem]
  show _ ↔ ∃ v' keys', Function.update stored d none d' = some v' ∧ i.keys? v' = some keys' ∧ _
  by_cases heq : d' = d
  · subst heq
    rw [Function.update_self, hstored]
    constructor
    · rintro ⟨⟨v', keys', hv', hkeys', hkey⟩, hnot⟩
      cases hv'
      rw [hkeys] at hkeys'
      cases hkeys'
      exact absurd ⟨rfl, hkey⟩ hnot
    · rintro ⟨v', keys', hv', -⟩
      cases hv'
  · rw [Function.update_of_ne heq]
    exact ⟨And.left, fun hd => ⟨hd, fun hcond => heq hcond.1⟩⟩

end FieldRangeIndex

end AwaDB
