import AwaDB.Lib.Lists
import AwaDB.Table.IndexContent

/-!
# Tags that occur twice (`FieldRangeIndex::Add`, `Node::Add`)

`Add` goes through the tags of a value as `strtok_r` finds them, and calls `Node::Add` for each. A tag
that occurs twice adds the document to its node twice: the array gets a second entry, the bitmap the bit
it has, and both count one more.

* `Over`: a node that holds given documents, and counts some too many;
* `TagsExact`: what the index says of its tags;
* `tagsExact_iff`: a run is defined and keeps that exactly when no value that is added has a tag twice;
* `counted_twice`: a value that has one.
-/

namespace AwaDB

open Lib

namespace Node

/-- The entries of the array, or the bits of the bitmap, are the documents of `s`. -/
def Covers (n : Node) (s : Finset ℕ) : Prop :=
  match n.data with
  | .sparse docs => docs.toFinset = s
  | .dense bitmap => BitsOf n.minAligned n.maxAligned bitmap s

/-- **The node holds the documents of `s`**, and counts `extra` too many. -/
structure Over (n : Node) (s : Finset ℕ) (extra : ℕ) : Prop extends Ranged n where
  size : n.size = s.card + extra
  bounds : ∀ d ∈ s, n.minAligned ≤ d ∧ (d : ℤ) ≤ n.maxAligned
  data : n.Covers s

variable {n n' : Node} {s : Finset ℕ} {extra val : ℕ}

theorem Rep.over (h : n.Rep s) : n.Over s 0 where
  toRanged := h.toRanged
  size := by
    rw [h.size]
    simp
  bounds := h.bounds
  data := by
    have hdata := h.data
    unfold DataRep at hdata
    unfold Covers
    cases hn : n.data with
    | sparse docs =>
      rw [hn] at hdata
      exact hdata.2
    | dense bitmap =>
      rw [hn] at hdata
      exact hdata

theorem Over.holds_iff (h : n.Over s extra) (d : ℕ) : n.Holds d ↔ d ∈ s := by
  have hdata := h.data
  unfold Covers at hdata
  unfold Holds
  cases hn : n.data with
  | sparse docs =>
    rw [hn] at hdata
    rw [← hdata, List.mem_toFinset]
  | dense bitmap =>
    rw [hn] at hdata
    exact hdata.test d

/-- A document that is there stays in the array or the bitmap. -/
theorem Over.addSparse (h : n.Over s extra) {docs : List ℕ} (hdocs : docs.toFinset = s)
    (hval : val ∈ s) : (n.addSparse docs val).Over s (extra + 1) := by
  obtain ⟨hlow, hhigh⟩ := h.bounds val hval
  have hmin : (n.addSparse docs val).minAligned = n.minAligned := if_neg (by omega)
  have hmax : (n.addSparse docs val).maxAligned = n.maxAligned := if_neg (by omega)
  have hle := h.min_le
  refine ⟨⟨?_, ?_, ?_, ?_, ?_⟩, ?_, ?_, ?_⟩
  · rw [hmin]
    exact le_min h.low hlow
  · exact (min_le_right _ _).trans (le_max_right _ _)
  · rw [hmax]
    exact max_le h.high hhigh
  · rw [hmin]
    exact h.down
  · rw [hmax]
    exact h.up
  · show n.size + 1 = _
    rw [h.size]
    push_cast
    omega
  · rw [hmin, hmax]
    exact h.bounds
  · show (docs ++ [val]).toFinset = s
    rw [List.toFinset_append, hdocs]
    ext d
    simp only [Finset.mem_union, List.mem_toFinset, List.mem_singleton]
    constructor
    · rintro (hd | rfl)
      · exact hd
      · exact hval
    · exact .inl

theorem Over.addDense (h : n.Over s extra) {bitmap : Bits}
    (hbits : BitsOf n.minAligned n.maxAligned bitmap s) (hval : val ∈ s) :
    (n.addDense bitmap val).Over s (extra + 1) := by
  obtain ⟨hlow, hhigh⟩ := h.bounds val hval
  have hpos : 0 < s.card := Finset.card_pos.mpr ⟨val, hval⟩
  have hsize := h.size
  rw [Node.addDense, if_neg (by omega), if_neg (by omega), if_neg (by omega)]
  refine ⟨⟨le_min h.low hlow, (min_le_right _ _).trans (le_max_right _ _), max_le h.high hhigh, h.down,
    h.up⟩, ?_, h.bounds, ?_⟩
  · show n.size + 1 = _
    push_cast
    omega
  · have hset := hbits.set hlow hhigh
    rwa [Finset.insert_eq_of_mem hval] at hset

/-- **A document that is there is added again**: it is counted once more. A bitmap that counts too many
has no array. -/
theorem Over.add (h : n.Over s extra) (hval : val ∈ s) (hadd : n.add val = some n') :
    n'.Over s (extra + 1) := by
  have hdata := h.data
  unfold Covers at hdata
  rw [Node.add] at hadd
  cases hn : n.data with
  | sparse docs =>
    rw [hn] at hdata hadd
    dsimp only at hdata hadd
    split at hadd
    · cases hadd
      refine h.addDense ?_ hval
      have hconv := bitsOf_convertToDense (n := n)
        fun d hd => h.bounds d (hdata ▸ List.mem_toFinset.mpr hd)
      rwa [hdata] at hconv
    · cases hadd
      exact h.addSparse hdata hval
  | dense bitmap =>
    rw [hn] at hdata hadd
    dsimp only at hdata hadd
    split at hadd
    · obtain ⟨docs, hdocs, rfl⟩ := Option.map_eq_some_iff.mp hadd
      refine h.addSparse ?_ hval
      -- the bits are as many as the documents, so that nothing is counted too often here
      have hsized : Sized { n with size := s.card } s :=
        ⟨⟨h.low, h.min_le, h.high, h.down, h.up⟩, rfl, h.bounds⟩
      rw [convertToSparse] at hdocs
      split at hdocs
      · cases hdocs
      · rename_i henough
        cases hdocs
        have hfinset : (n.bitmapDocs bitmap).toFinset = s := by
          ext d
          rw [List.mem_toFinset]
          exact mem_bitmapDocs hsized hdata d
        have hlength : (n.bitmapDocs bitmap).length = s.card := by
          have hnodup : (n.bitmapDocs bitmap).Nodup := nodup_bitmapDocs hsized bitmap
          rw [← hfinset, List.toFinset_card_of_nodup hnodup]
        have hsize := h.size
        rw [List.take_of_length_le (by omega)]
        exact hfinset
    · cases hadd
      exact h.addDense hdata hval

end Node

namespace BTree

/-- The node of each key holds the documents of `rep`, and counts `extra` too many; one that counts none
too many is exact. -/
structure OverTree (t : BTree) (rep : Bytes → Finset ℕ) (extra : Bytes → ℕ) : Prop where
  node : ∀ key n, t.lookup key = some n →
    n.Over (rep key) (extra key) ∧ (extra key = 0 → n.Rep (rep key))
  empty : ∀ key, t.lookup key = none → rep key = ∅ ∧ extra key = 0

variable {t t' : BTree} {rep : Bytes → Finset ℕ} {extra : Bytes → ℕ} {d : ℕ}

theorem TreeRep.over (h : t.TreeRep rep) : t.OverTree rep fun _ => 0 :=
  ⟨fun key n hn => ⟨(h.node key n hn).over, fun _ => h.node key n hn⟩,
    fun key hn => ⟨h.empty key hn, rfl⟩⟩

theorem OverTree.insert (h : t.OverTree rep extra) {key : Bytes} {n : Node} {s : Finset ℕ} {e : ℕ}
    (hn : n.Over s e ∧ (e = 0 → n.Rep s)) : OverTree (AList.insert key n t) (Function.update rep key s)
      (Function.update extra key e) where
  node := by
    intro key' n' hlookup
    rcases lookup_insert_some hlookup with ⟨rfl, rfl⟩ | ⟨hne, hlookup⟩
    · rw [Function.update_self, Function.update_self]
      exact hn
    · rw [Function.update_of_ne hne, Function.update_of_ne hne]
      exact h.node key' n' hlookup
  empty := by
    intro key' hlookup
    obtain ⟨hne, hlookup⟩ := lookup_insert_none hlookup
    rw [Function.update_of_ne hne, Function.update_of_ne hne]
    exact h.empty key' hlookup

/-- **`InsertToBt`**: a document that is new to its key is added, one that is there is counted again. -/
theorem OverTree.insertToBt (h : t.OverTree rep extra) (hd : d < docLimit) {key : Bytes}
    (hzero : d ∉ rep key → extra key = 0) (hrun : BTree.insertToBt d key t = some t') :
    t'.OverTree (Function.update rep key (Insert.insert d (rep key)))
      (Function.update extra key (if d ∈ rep key then extra key + 1 else 0)) := by
  rw [BTree.insertToBt] at hrun
  by_cases hmem : d ∈ rep key
  · rw [if_pos hmem, Finset.insert_eq_of_mem hmem]
    cases hn : t.lookup key with
    | none =>
      rw [(h.empty key hn).1] at hmem
      exact absurd hmem (Finset.notMem_empty d)
    | some n =>
      rw [hn] at hrun
      obtain ⟨n', hadd, rfl⟩ := Option.map_eq_some_iff.mp hrun
      exact h.insert ⟨(h.node key n hn).1.add hmem hadd, fun hnone => absurd hnone (Nat.succ_ne_zero _)⟩
  · rw [if_neg hmem]
    cases hn : t.lookup key with
    | none =>
      rw [hn] at hrun
      obtain ⟨n', hadd, rfl⟩ := Option.map_eq_some_iff.mp hrun
      obtain ⟨n, hadd', hrep⟩ := Node.rep_new hd
      rw [hadd] at hadd'
      cases hadd'
      rw [(h.empty key hn).1]
      exact h.insert ⟨hrep.over, fun _ => hrep⟩
    | some n =>
      rw [hn] at hrun
      obtain ⟨n', hadd, rfl⟩ := Option.map_eq_some_iff.mp hrun
      obtain ⟨n₁, hadd', hrep⟩ := ((h.node key n hn).2 (hzero hmem)).add hmem
      rw [hadd] at hadd'
      cases hadd'
      exact h.insert ⟨hrep.over, fun _ => hrep⟩

/-- **All the tags of a value** of a document that the tree does not have: a tag that occurs `k` times is
counted `k - 1` times too often. -/
theorem OverTree.insertAll (h : t.OverTree rep extra) (hd : d < docLimit)
    (hzero : ∀ key, d ∉ rep key → extra key = 0) {keys : List Bytes}
    (hrun : runOps (BTree.insertToBt d) keys t = some t') :
    ∃ rep' extra', t'.OverTree rep' extra' ∧ ∀ key,
      (d ∈ rep key → extra' key = extra key + keys.count key) ∧
      (d ∉ rep key → key ∈ keys → extra' key + 1 = keys.count key) := by
  induction keys generalizing t rep extra with
  | nil =>
    cases hrun
    exact ⟨rep, extra, h, fun key => ⟨fun _ => rfl, fun _ hmem => absurd hmem List.not_mem_nil⟩⟩
  | cons first keys ih =>
    obtain ⟨t₁, ht₁, hrest⟩ := Option.bind_eq_some_iff.mp hrun
    have hnext := h.insertToBt hd (hzero first) ht₁
    have hzero' : ∀ key, d ∉ Function.update rep first (Insert.insert d (rep first)) key →
        Function.update extra first (if d ∈ rep first then extra first + 1 else 0) key = 0 := by
      intro key hnot
      by_cases heq : key = first
      · subst heq
        rw [Function.update_self] at hnot
        exact absurd (Finset.mem_insert_self d _) hnot
      · rw [Function.update_of_ne heq] at hnot ⊢
        exact hzero key hnot
    obtain ⟨rep', extra', htree, hcounts⟩ := ih hnext hzero' hrest
    refine ⟨rep', extra', htree, fun key => ?_⟩
    obtain ⟨hthere, hnew⟩ := hcounts key
    by_cases heq : key = first
    · subst heq
      rw [Function.update_self, Function.update_self] at hthere
      have hextra := hthere (Finset.mem_insert_self d _)
      rw [List.count_cons_self, hextra]
      constructor
      · intro hmem
        rw [if_pos hmem]
        omega
      · intro hmem _
        rw [if_neg hmem]
        omega
    · rw [Function.update_of_ne heq, Function.update_of_ne heq] at hthere
      rw [Function.update_of_ne heq] at hnew
      rw [List.count_cons_of_ne (Ne.symm heq)]
      refine ⟨hthere, fun hmem hkey => hnew hmem ?_⟩
      cases List.mem_cons.mp hkey with
      | inl hfirst => exact absurd hfirst heq
      | inr hkey => exact hkey

end BTree

/-! ### The index of one string field -/

/-- The index, and the value of each document in it. -/
structure TagIndex where
  index : FieldRangeIndex
  values : ℕ → Option Bytes

/-- The calls: `Delete` is given the value that the document has. -/
inductive TagOp where
  | add (docid : ℕ) (value : Bytes)
  | delete (docid : ℕ)
deriving DecidableEq, Repr

namespace TagIndex

/-- The tags that `strtok_r` finds in a value. -/
def tags (value : Bytes) : List Bytes := split (cString value)

/-- The index of a string field before the first document. -/
def empty : TagIndex := ⟨FieldRangeIndex.create .string, fun _ => none⟩

/-- `FieldRangeIndex::Add` or `FieldRangeIndex::Delete`. -/
def step : TagOp → TagIndex → Option TagIndex
  | .add docid value, s =>
    (s.index.add value docid).map fun i => ⟨i, Function.update s.values docid (some value)⟩
  | .delete docid, s => (s.values docid).bind fun value =>
    (s.index.delete value docid).map fun i => ⟨i, Function.update s.values docid none⟩

/-- A document is added that is not there, below the docids whose bitmaps end above `INT_MAX`, or deleted
that is there. -/
def Legal : TagOp → TagIndex → Prop
  | .add docid _, s => docid + 64 < docLimit ∧ s.values docid = none
  | .delete docid, s => s.values docid ≠ none

/-- No tag occurs twice. -/
def NoRepeat : TagOp → TagIndex → Prop
  | .add _ value, _ => (tags value).Nodup
  | .delete _, _ => True

instance (op : TagOp) (s : TagIndex) : Decidable (Legal op s) :=
  match op with
  | .add docid _ => inferInstanceAs (Decidable (docid + 64 < docLimit ∧ s.values docid = none))
  | .delete docid => inferInstanceAs (Decidable (s.values docid ≠ none))

instance (op : TagOp) (s : TagIndex) : Decidable (NoRepeat op s) :=
  match op with
  | .add _ value => inferInstanceAs (Decidable (tags value).Nodup)
  | .delete _ => inferInstanceAs (Decidable True)

/-- The current value of the document has the tag. -/
def Tagged (s : TagIndex) (tag : Bytes) (d : ℕ) : Prop := ∃ v, s.values d = some v ∧ tag ∈ tags v

/-- **What the index says of its tags**: a node counts the documents that it represents, an array has
only documents with the tag, and no document with the tag is missing. -/
structure TagsExact (s : TagIndex) : Prop where
  size : ∀ tag n, s.index.tree.lookup tag = some n →
    ∃ docs : Finset ℕ, (∀ d, d ∈ docs ↔ n.Holds d) ∧ n.size = docs.card
  entries : ∀ tag n docs, s.index.tree.lookup tag = some n → n.data = .sparse docs →
    ∀ d ∈ docs, s.Tagged tag d
  present : ∀ tag d, s.Tagged tag d → s.index.tree.Holds tag d

/-- The invariant: the index of a string holds the values of the documents, which have no tag twice. -/
structure Inv (s : TagIndex) : Prop where
  isString : s.index.isNumeric = false
  content : s.index.Content s.values
  nodup : ∀ d v, s.values d = some v → (tags v).Nodup

variable {s : TagIndex}

theorem inv_empty : Inv empty :=
  ⟨rfl, FieldRangeIndex.content_create .string, fun _ _ h => by cases h⟩

theorem Inv.keys (h : Inv s) (v : Bytes) : s.index.keys? v = some (tags v) := by
  rw [FieldRangeIndex.keys?, h.isString]
  rfl

theorem Inv.tagged_iff (h : Inv s) (tag : Bytes) (d : ℕ) : s.Tagged tag d ↔
    ∃ v keys, s.values d = some v ∧ s.index.keys? v = some keys ∧ tag ∈ keys := by
  constructor
  · rintro ⟨v, hv, htag⟩
    exact ⟨v, _, hv, h.keys v, htag⟩
  · rintro ⟨v, keys, hv, hkeys, htag⟩
    rw [h.keys] at hkeys
    cases hkeys
    exact ⟨v, hv, htag⟩

theorem Inv.exact (h : Inv s) : s.TagsExact := by
  obtain ⟨rep, hrep, hmem⟩ := h.content.tree
  refine ⟨fun tag n hn => ?_, fun tag n docs hn hdocs d hd => ?_, fun tag d hd => ?_⟩
  · have hnode := hrep.node tag n hn
    exact ⟨rep tag, fun d => (hnode.holds_iff d).symm, hnode.size⟩
  · rw [h.tagged_iff, ← hmem, ← (hrep.node tag n hn).holds_iff, Node.Holds, hdocs]
    exact hd
  · rw [hrep.holds_iff, hmem, ← h.tagged_iff]
    exact hd

theorem Inv.add (h : Inv s) {d : ℕ} (hd : d + 64 < docLimit) (hnew : s.values d = none) {v : Bytes}
    (hnodup : (tags v).Nodup) : ∃ s', step (.add d v) s = some s' ∧ s'.Inv := by
  obtain ⟨i, hadd, htype, hcontent⟩ := h.content.add ⟨_, h.keys v, hnodup⟩ (by omega) hnew
  refine ⟨⟨i, Function.update s.values d (some v)⟩, by rw [step, hadd]; rfl, htype.trans h.isString,
    hcontent, fun d' v' hv' => ?_⟩
  obtain ⟨-, hvalue⟩ | ⟨-, hold⟩ := of_update_eq (f := s.values) hv'
  · cases hvalue
    exact hnodup
  · exact h.nodup d' v' hold

theorem Inv.delete (h : Inv s) {d : ℕ} (hthere : s.values d ≠ none) :
    ∃ s', step (.delete d) s = some s' ∧ s'.Inv := by
  obtain ⟨v, hv⟩ := Option.ne_none_iff_exists'.mp hthere
  obtain ⟨i, hdelete, htype, hcontent⟩ := h.content.delete ⟨_, h.keys v, h.nodup d v hv⟩ hv
  refine ⟨⟨i, Function.update s.values d none⟩, by rw [step, hv, Option.bind_some, hdelete]; rfl,
    htype.trans h.isString, hcontent, fun d' v' hv' => ?_⟩
  exact h.nodup d' v' (of_update_none (m := s.values) hv')

/-- **A tag that occurs twice** is counted too often. -/
theorem Inv.add_repeat (h : Inv s) {d : ℕ} (hd : d + 64 < docLimit) (hnew : s.values d = none) {v : Bytes}
    (hrepeat : ¬ (tags v).Nodup) {s' : TagIndex} (hstep : step (.add d v) s = some s') :
    ¬ s'.TagsExact := by
  intro hexact
  obtain ⟨i, hadd, rfl⟩ := Option.map_eq_some_iff.mp hstep
  rw [FieldRangeIndex.add, h.keys, Option.bind_some] at hadd
  obtain ⟨tree, hrun, rfl⟩ := Option.map_eq_some_iff.mp hadd
  obtain ⟨rep, hrep, hmem⟩ := h.content.tree
  have hfree : ∀ key, d ∉ rep key := by
    intro key hkey
    obtain ⟨v', -, hv', -⟩ := (hmem key d).mp hkey
    rw [hnew] at hv'
    cases hv'
  obtain ⟨rep', extra, htree, hcounts⟩ := hrep.over.insertAll (by omega) (fun _ _ => rfl) hrun
  obtain ⟨tag, htwice⟩ : ∃ tag, 1 < (tags v).count tag := by
    by_contra hnone
    push Not at hnone
    exact hrepeat (List.nodup_iff_count_le_one.mpr hnone)
  have hextra := (hcounts tag).2 (hfree tag) (List.count_pos_iff.mp (by omega))
  cases hn : tree.lookup tag with
  | none =>
    have hzero := (htree.empty tag hn).2
    omega
  | some n =>
    obtain ⟨docs, hdocs, hsize⟩ := hexact.size tag n hn
    have hover := (htree.node tag n hn).1
    have heq : docs = rep' tag := by
      ext d'
      rw [hdocs, hover.holds_iff]
    have hsize' := hover.size
    rw [hsize, heq] at hsize'
    omega

/-- **A run from a state of the invariant.** -/
theorem Inv.run (h : Inv s) {ops : List TagOp} (hlegal : Guarded step Legal ops s) :
    ((∃ s', runOps step ops s = some s') ∧ Always step TagsExact ops s) ↔
      Guarded step NoRepeat ops s := by
  refine defined_always_iff (fun _ => Inv.exact) (fun op s h hop hnorepeat => ?_)
    (fun op s s' h hop hnot hstep => ?_) h hlegal
  · cases op with
    | add d v => exact h.add hop.1 hop.2 hnorepeat
    | delete d => exact h.delete hop
  · cases op with
    | add d v => exact h.add_repeat hop.1 hop.2 hnot hstep
    | delete d => exact absurd trivial hnot

end TagIndex

end AwaDB
