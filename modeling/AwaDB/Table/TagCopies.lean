import AwaDB.Table.SearchBounds
import AwaDB.Table.TagCounts
import Mathlib.Data.Multiset.Filter

/-!
# Tags that occur twice, deleted again (`FieldRangeIndex::Delete`, `Node::Delete`)

`Add` gives a node a copy of the document for each time that a value has its tag, and `Delete` with the
same value takes as many away. In between a bitmap has one bit for all copies, which the first deletion
clears; the others only count.

* `Copies`: a node that has given copies;
* `Copies.add`, `Copies.deleteAll`: what a call leaves, one key;
* `Kept`: what every run of `Add` and `Delete` keeps, repeated tags included.
-/

namespace AwaDB

open Lib

namespace Node

variable {n n' : Node} {s : Finset ℕ} {extra val : ℕ}

/-- A document that is new goes into the array or the bitmap, also when others are counted too often. -/
theorem Over.addSparse_new (h : n.Over s extra) {docs : List ℕ} (hdocs : docs.toFinset = s)
    (hval : val ∉ s) : (n.addSparse docs val).Over (insert val s) extra := by
  have hsized : Sized { n with size := s.card } s :=
    ⟨⟨h.low, h.min_le, h.high, h.down, h.up⟩, rfl, h.bounds⟩
  have hdedup : docs.dedup.toFinset = s := by
    ext d
    rw [List.mem_toFinset, List.mem_dedup, ← hdocs, List.mem_toFinset]
  have hrep := rep_addSparse hsized docs.nodup_dedup hdedup hval
  refine ⟨⟨hrep.low, hrep.min_le, hrep.high, hrep.down, hrep.up⟩, ?_, hrep.bounds, ?_⟩
  · show n.size + 1 = _
    rw [h.size, Finset.card_insert_of_notMem hval]
    push_cast
    omega
  · show (docs ++ [val]).toFinset = _
    rw [List.toFinset_append, hdocs, Finset.union_comm]
    rfl

/-- The count decides only whether there are documents. -/
theorem addDense_size (bitmap : Bits) (val : ℕ) {k : ℤ} (hsize : n.size ≠ 0) (hk : k ≠ 0) :
    n.addDense bitmap val =
      { Node.addDense { n with size := k } bitmap val with size := n.size + 1 } := by
  have hwords : words { n with size := k } = n.words := rfl
  by_cases hlow : (val : ℤ) < n.minAligned
  · simp only [Node.addDense, if_neg hsize, if_neg hk, if_pos hlow, hwords]
  · by_cases hhigh : (val : ℤ) > n.maxAligned
    · simp only [Node.addDense, if_neg hsize, if_neg hk, if_neg hlow, if_pos hhigh, hwords]
    · simp only [Node.addDense, if_neg hsize, if_neg hk, if_neg hlow, if_neg hhigh]

theorem Over.addDense_new (h : n.Over s extra) (hextra : s = ∅ → extra = 0) {bitmap : Bits}
    (hbits : BitsOf n.minAligned n.maxAligned bitmap s) (hval : val ∉ s) :
    (n.addDense bitmap val).Over (insert val s) extra := by
  have hsize := h.size
  by_cases hnone : s = ∅
  · have hsized : n.Sized s := ⟨h.toRanged, by rw [hsize, hextra hnone]; exact Int.add_zero _, h.bounds⟩
    rw [hextra hnone]
    exact (rep_addDense hsized hbits hval).over
  · have hpos : 0 < s.card := Finset.card_pos.mpr (Finset.nonempty_iff_ne_empty.mpr hnone)
    have hsized : Sized { n with size := s.card } s :=
      ⟨⟨h.low, h.min_le, h.high, h.down, h.up⟩, rfl, h.bounds⟩
    have hrep := (rep_addDense (n := { n with size := s.card }) hsized hbits hval).over
    rw [addDense_size bitmap val (show n.size ≠ 0 by omega) (show (s.card : ℤ) ≠ 0 by omega)]
    refine ⟨⟨hrep.low, hrep.min_le, hrep.high, hrep.down, hrep.up⟩, ?_, hrep.bounds, hrep.data⟩
    show n.size + 1 = _
    rw [hsize, Finset.card_insert_of_notMem hval]
    push_cast
    omega

/-- **The node has every copy of the documents in `m`**: it counts the copies, an array has each of them,
and a bitmap the bits. -/
structure Copies (n : Node) (m : Multiset ℕ) : Prop where
  counted : n.Over m.toFinset (m.card - m.toFinset.card)
  array : ∀ docs, n.data = .sparse docs → (docs : Multiset ℕ) = m

variable {m : Multiset ℕ}

theorem Copies.size (h : n.Copies m) : n.size = m.card := by
  have hle := Multiset.toFinset_card_le m
  rw [h.counted.size]
  omega

theorem Copies.mem_iff (h : n.Copies m) {docs : List ℕ} (hn : n.data = .sparse docs) (d : ℕ) :
    d ∈ docs ↔ d ∈ m := by
  rw [← h.array docs hn, Multiset.mem_coe]

/-- The counts of the copies, with one more. -/
theorem card_cons_sub (m : Multiset ℕ) (val : ℕ) :
    (val ::ₘ m).card - (val ::ₘ m).toFinset.card =
      if val ∈ m.toFinset then m.card - m.toFinset.card + 1 else m.card - m.toFinset.card := by
  have hle := Multiset.toFinset_card_le m
  rw [Multiset.toFinset_cons, Multiset.card_cons]
  split
  · rename_i hmem
    rw [Finset.insert_eq_of_mem hmem]
    omega
  · rename_i hmem
    rw [Finset.card_insert_of_notMem hmem]
    omega

theorem Rep.copies (h : n.Rep s) : n.Copies s.val := by
  have hcard : s.val.card - s.val.toFinset.card = 0 := by
    rw [Finset.val_toFinset]
    exact Nat.sub_self _
  constructor
  · rw [hcard, Finset.val_toFinset]
    exact h.over
  · intro docs hn
    have hdata := h.data
    rw [DataRep, hn] at hdata
    rw [← hdata.2, List.toFinset_val, List.Nodup.dedup hdata.1]

theorem toFinset_of_coe {docs : List ℕ} (hdocs : (docs : Multiset ℕ) = m) : docs.toFinset = m.toFinset := by
  ext d
  rw [List.mem_toFinset, Multiset.mem_toFinset, ← hdocs, Multiset.mem_coe]

theorem Copies.extra_eq_zero (hnone : m.toFinset = ∅) : m.card - m.toFinset.card = 0 := by
  rw [Multiset.toFinset_eq_empty.mp hnone]
  rfl

/-- An array of the copies gets one more. -/
theorem Copies.addSparse (h : n.Copies m) {docs : List ℕ} (hdocs : (docs : Multiset ℕ) = m) :
    (n.addSparse docs val).Copies (val ::ₘ m) := by
  have hfinset := toFinset_of_coe hdocs
  constructor
  · rw [card_cons_sub, Multiset.toFinset_cons]
    split
    · rename_i hmem
      rw [Finset.insert_eq_of_mem hmem]
      exact h.counted.addSparse hfinset hmem
    · rename_i hmem
      exact h.counted.addSparse_new hfinset hmem
  · rintro docs' hdocs'
    cases hdocs'
    rw [← hdocs, ← Multiset.coe_add, Multiset.coe_singleton, Multiset.add_comm,
      Multiset.singleton_add]

/-- A bitmap of the documents gets the bit, and counts one copy more. -/
theorem Copies.addDense (h : n.Copies m) {bitmap : Bits}
    (hbits : BitsOf n.minAligned n.maxAligned bitmap m.toFinset) :
    (n.addDense bitmap val).Copies (val ::ₘ m) := by
  constructor
  · rw [card_cons_sub, Multiset.toFinset_cons]
    split
    · rename_i hmem
      rw [Finset.insert_eq_of_mem hmem]
      exact h.counted.addDense hbits hmem
    · rename_i hmem
      exact h.counted.addDense_new Copies.extra_eq_zero hbits hmem
  · intro docs hdocs
    rw [Node.addDense] at hdocs
    split at hdocs
    · cases hdocs
    · split at hdocs
      · cases hdocs
      · split at hdocs <;> cases hdocs

/-- A bitmap that has a bit for each copy becomes an array of the copies. -/
theorem Copies.convertToSparse (h : n.Copies m) {bitmap : Bits}
    (hbits : BitsOf n.minAligned n.maxAligned bitmap m.toFinset) {docs : List ℕ}
    (hdocs : n.convertToSparse bitmap = some docs) : (docs : Multiset ℕ) = m := by
  have hover := h.counted
  have hsized : Sized { n with size := m.toFinset.card } m.toFinset :=
    ⟨⟨hover.low, hover.min_le, hover.high, hover.down, hover.up⟩, rfl, hover.bounds⟩
  have hfinset : (n.bitmapDocs bitmap).toFinset = m.toFinset := by
    ext d
    rw [List.mem_toFinset]
    exact mem_bitmapDocs hsized hbits d
  have hnodup : (n.bitmapDocs bitmap).Nodup := nodup_bitmapDocs hsized bitmap
  have hlength : (n.bitmapDocs bitmap).length = m.toFinset.card := by
    rw [← hfinset, List.toFinset_card_of_nodup hnodup]
  have hle := Multiset.toFinset_card_le m
  have hsize := h.size
  rw [Node.convertToSparse] at hdocs
  split at hdocs
  · cases hdocs
  · rename_i henough
    cases hdocs
    -- the bits are as many as the copies, so that no document is there twice
    have hcard : m.toFinset.card = m.card := by omega
    have hval : m.toFinset.val = m := by
      rw [Multiset.toFinset_val, Multiset.dedup_eq_self]
      exact Multiset.toFinset_card_eq_card_iff_nodup.mp hcard
    rw [List.take_of_length_le (by omega), ← hval, ← hfinset, List.toFinset_val,
      List.Nodup.dedup hnodup]

/-- **`Node::Add`** adds a copy, whether the document is there or not. -/
theorem Copies.add (h : n.Copies m) (hadd : n.add val = some n') : n'.Copies (val ::ₘ m) := by
  have hover := h.counted
  have hdata := hover.data
  unfold Covers at hdata
  rw [Node.add] at hadd
  cases hn : n.data with
  | sparse docs =>
    rw [hn] at hdata hadd
    dsimp only at hdata hadd
    split at hadd
    · cases hadd
      apply h.addDense
      have hconv := bitsOf_convertToDense (n := n)
        fun d hd => hover.bounds d (hdata ▸ List.mem_toFinset.mpr hd)
      rwa [hdata] at hconv
    · cases hadd
      exact h.addSparse (h.array docs hn)
  | dense bitmap =>
    rw [hn] at hdata hadd
    dsimp only at hdata hadd
    split at hadd
    · obtain ⟨docs, hdocs, rfl⟩ := Option.map_eq_some_iff.mp hadd
      exact h.addSparse (h.convertToSparse hdata hdocs)
    · cases hadd
      exact h.addDense hdata

/-- What an array has to have. -/
theorem copies_sparse (hranged : n.Ranged) (hsize : n.size = m.card)
    (hbounds : ∀ d ∈ m, n.minAligned ≤ d ∧ (d : ℤ) ≤ n.maxAligned) {docs : List ℕ}
    (hn : n.data = .sparse docs) (hdocs : (docs : Multiset ℕ) = m) : n.Copies m := by
  have hle := Multiset.toFinset_card_le m
  refine ⟨⟨hranged, by omega, fun d hd => hbounds d (Multiset.mem_toFinset.mp hd), ?_⟩, ?_⟩
  · rw [Covers, hn]
    exact toFinset_of_coe hdocs
  · intro docs' hdocs'
    rw [hn] at hdocs'
    cases hdocs'
    exact hdocs

/-- What a bitmap has to have. -/
theorem copies_dense (hranged : n.Ranged) (hsize : n.size = m.card)
    (hbounds : ∀ d ∈ m, n.minAligned ≤ d ∧ (d : ℤ) ≤ n.maxAligned) {bitmap : Bits}
    (hn : n.data = .dense bitmap) (hbits : BitsOf n.minAligned n.maxAligned bitmap m.toFinset) :
    n.Copies m := by
  have hle := Multiset.toFinset_card_le m
  refine ⟨⟨hranged, by omega, fun d hd => hbounds d (Multiset.mem_toFinset.mp hd), ?_⟩, ?_⟩
  · rw [Covers, hn]
    exact hbits
  · intro docs hdocs
    rw [hn] at hdocs
    cases hdocs

theorem Copies.bounds (h : n.Copies m) : ∀ d ∈ m, n.minAligned ≤ d ∧ (d : ℤ) ≤ n.maxAligned :=
  fun d hd => h.counted.bounds d (Multiset.mem_toFinset.mpr hd)

/-- An array loses one copy at a time. -/
theorem Copies.delete_sparse (h : n.Copies m) {docs : List ℕ} (hn : n.data = .sparse docs)
    (hval : val ∈ m) : (n.delete val).Copies (m.erase val) ∧
      (n.delete val).data = .sparse (docs.erase val) := by
  have hdelete : n.delete val = { n with size := n.size - 1, data := .sparse (docs.erase val) } := by
    rw [Node.delete, hn]
    exact if_pos ((h.mem_iff hn val).mpr hval)
  have hover := h.counted
  have hcard := Multiset.card_erase_add_one hval
  have hsize := h.size
  rw [hdelete]
  refine ⟨copies_sparse ⟨hover.low, hover.min_le, hover.high, hover.down, hover.up⟩ ?_ ?_ rfl ?_, rfl⟩
  · show n.size - 1 = _
    omega
  · exact fun d hd => h.bounds d (Multiset.mem_of_mem_erase hd)
  · rw [← h.array docs hn, Multiset.coe_erase]

/-- The copies of the other documents. -/
def others (m : Multiset ℕ) (val : ℕ) : Multiset ℕ := m.filter (· ≠ val)

theorem others_erase (m : Multiset ℕ) (val : ℕ) : others (m.erase val) val = others m val := by
  ext d
  rw [others, others, Multiset.count_filter, Multiset.count_filter]
  split
  · rename_i hne
    rw [Multiset.count_erase_of_ne hne]
  · rfl

theorem others_of_notMem (h : val ∉ m) : others m val = m :=
  Multiset.filter_eq_self.mpr fun _ hd heq => h (heq ▸ hd)

theorem count_others (m : Multiset ℕ) (val d : ℕ) :
    (others m val).count d = if d = val then 0 else m.count d := by
  rw [others, Multiset.count_filter]
  by_cases heq : d = val
  · rw [if_pos heq, if_neg (not_not.mpr heq)]
  · rw [if_neg heq, if_pos heq]

theorem card_others (m : Multiset ℕ) (val : ℕ) : (others m val).card + m.count val = m.card := by
  have hsplit := congrArg Multiset.card (Multiset.filter_add_not (· = val) m)
  rw [Multiset.card_add, Multiset.filter_eq', Multiset.card_replicate, Nat.add_comm] at hsplit
  exact hsplit

theorem Copies.deleteAll_sparse (h : n.Copies m) {docs : List ℕ} (hn : n.data = .sparse docs) {k : ℕ}
    (hk : m.count val = k) : ((fun n => n.delete val)^[k] n).Copies (others m val) := by
  induction k generalizing n m docs with
  | zero =>
    rw [others_of_notMem (Multiset.count_eq_zero.mp hk)]
    exact h
  | succ k ih =>
    have hval : val ∈ m := Multiset.count_pos.mp (by omega)
    obtain ⟨hnext, hdata⟩ := h.delete_sparse hn hval
    rw [Function.iterate_succ_apply, ← others_erase]
    apply ih hnext hdata
    rw [Multiset.count_erase_self, hk]
    rfl

/-- A bit is cleared again and again, and each time the node counts one less. -/
theorem iterate_delete_dense {bitmap : Bits} (hbits : BitsOf n.minAligned n.maxAligned bitmap s)
    (hval : val ∉ s) (hlow : n.minAligned ≤ val) (hhigh : (val : ℤ) ≤ n.maxAligned) (size : ℤ) (k : ℕ) :
    ∃ bitmap', (fun n => n.delete val)^[k] { n with size := size, data := .dense bitmap } =
        { n with size := size - k, data := .dense bitmap' } ∧
      BitsOf n.minAligned n.maxAligned bitmap' s := by
  induction k generalizing bitmap size with
  | zero =>
    refine ⟨bitmap, ?_, hbits⟩
    rw [Function.iterate_zero, id, Int.ofNat_zero, Int.sub_zero]
  | succ k ih =>
    have hnext := hbits.unset hlow hhigh
    rw [Finset.erase_eq_of_notMem hval] at hnext
    obtain ⟨bitmap', hrun, hbits'⟩ := ih hnext (size - 1)
    refine ⟨bitmap', ?_, hbits'⟩
    have hdelete : delete { n with size := size, data := .dense bitmap } val =
        { n with size := size - 1, data := .dense (bitmap.set (pos n.minAligned val) false) } :=
      if_neg (by dsimp only; omega)
    rw [Function.iterate_succ_apply, hdelete, hrun]
    congr 1
    push_cast
    omega

theorem Copies.deleteAll_dense (h : n.Copies m) {bitmap : Bits} (hn : n.data = .dense bitmap) :
    ((fun n => n.delete val)^[m.count val] n).Copies (others m val) := by
  by_cases hval : val ∈ m
  · have hover := h.counted
    have hsize := h.size
    have hcard := card_others m val
    have hdata := hover.data
    rw [Covers, hn] at hdata
    obtain ⟨hlow, hhigh⟩ := h.bounds val hval
    obtain ⟨k, hk⟩ : ∃ k, m.count val = k + 1 :=
      ⟨m.count val - 1, by have hpos := Multiset.count_pos.mpr hval; omega⟩
    have hothers : (others m val).toFinset = m.toFinset.erase val := by
      ext d
      rw [Multiset.mem_toFinset, Finset.mem_erase, Multiset.mem_toFinset, others, Multiset.mem_filter,
        and_comm]
    obtain ⟨bitmap', hrun, hbits⟩ := iterate_delete_dense (hdata.unset hlow hhigh)
      (Finset.notMem_erase val m.toFinset) hlow hhigh (n.size - 1) k
    have hdelete : n.delete val =
        { n with size := n.size - 1, data := .dense (bitmap.set (pos n.minAligned val) false) } := by
      rw [Node.delete, hn]
      exact if_neg (by omega)
    rw [hk, Function.iterate_succ_apply, hdelete, hrun]
    refine copies_dense ⟨hover.low, hover.min_le, hover.high, hover.down, hover.up⟩ ?_ ?_ rfl ?_
    · show n.size - 1 - k = _
      omega
    · exact fun d hd => h.bounds d (Multiset.mem_of_mem_filter hd)
    · rw [hothers]
      exact hbits
  · rw [others_of_notMem hval, Multiset.count_eq_zero.mpr hval]
    exact h

/-- **All copies of a document are deleted**, one after the other. -/
theorem Copies.deleteAll (h : n.Copies m) (val : ℕ) :
    ((fun n => n.delete val)^[m.count val] n).Copies (others m val) := by
  cases hn : n.data with
  | sparse docs => exact h.deleteAll_sparse hn rfl
  | dense bitmap => exact h.deleteAll_dense hn

end Node

namespace BTree

/-- The node of each key has the copies of `rep`. -/
structure TreeCopies (t : BTree) (rep : Bytes → Multiset ℕ) : Prop where
  node : ∀ key n, t.lookup key = some n → n.Copies (rep key)
  empty : ∀ key, t.lookup key = none → rep key = 0

variable {t t' : BTree} {rep : Bytes → Multiset ℕ} {d : ℕ} {keys : List Bytes}

theorem treeCopies_empty : TreeCopies ∅ fun _ => 0 where
  node := fun key n h => by
    rw [AList.lookup_empty] at h
    cases h
  empty := fun _ _ => rfl

/-- **`InsertToBt`** adds a copy to its key. -/
theorem TreeCopies.insertToBt (h : t.TreeCopies rep) (hd : d < docLimit) {key : Bytes}
    (hrun : BTree.insertToBt d key t = some t') :
    t'.TreeCopies (Function.update rep key (d ::ₘ rep key)) := by
  obtain ⟨n', rfl, hn'⟩ : ∃ n', t' = AList.insert key n' t ∧ n'.Copies (d ::ₘ rep key) := by
    rw [BTree.insertToBt] at hrun
    cases hn : t.lookup key with
    | none =>
      rw [hn] at hrun
      obtain ⟨n', hadd, rfl⟩ := Option.map_eq_some_iff.mp hrun
      obtain ⟨n, hadd', hrep⟩ := Node.rep_new hd
      rw [hadd] at hadd'
      cases hadd'
      rw [h.empty key hn]
      exact ⟨n', rfl, hrep.copies⟩
    | some n =>
      rw [hn] at hrun
      obtain ⟨n', hadd, rfl⟩ := Option.map_eq_some_iff.mp hrun
      exact ⟨n', rfl, (h.node key n hn).add hadd⟩
  constructor
  · intro key' n hlookup
    rcases lookup_insert_some hlookup with ⟨rfl, rfl⟩ | ⟨hne, hlookup⟩
    · rw [Function.update_self]
      exact hn'
    · rw [Function.update_of_ne hne]
      exact h.node key' n hlookup
  · intro key' hlookup
    obtain ⟨hne, hlookup⟩ := lookup_insert_none hlookup
    rw [Function.update_of_ne hne]
    exact h.empty key' hlookup

/-- **All the keys of a value**: each gets a copy for each time that it is there. -/
theorem TreeCopies.insertAll (h : t.TreeCopies rep) (hd : d < docLimit)
    (hrun : runOps (BTree.insertToBt d) keys t = some t') :
    ∃ rep', t'.TreeCopies rep' ∧ ∀ key d', (rep' key).count d' =
      (rep key).count d' + if d' = d then keys.count key else 0 := by
  induction keys generalizing t rep with
  | nil =>
    cases hrun
    exact ⟨rep, h, fun key d' => by simp⟩
  | cons first keys ih =>
    obtain ⟨t₁, ht₁, hrest⟩ := Option.bind_eq_some_iff.mp hrun
    obtain ⟨rep', hrep', hcount⟩ := ih (h.insertToBt hd ht₁) hrest
    refine ⟨rep', hrep', fun key d' => ?_⟩
    rw [hcount]
    by_cases heq : key = first
    · subst heq
      rw [Function.update_self, Multiset.count_cons, List.count_cons_self]
      split
      · omega
      · rfl
    · rw [Function.update_of_ne heq, List.count_cons_of_ne (Ne.symm heq)]

/-- `DeleteFromBt` for all keys of a value, seen from one key. -/
theorem lookup_deleteAll (d : ℕ) (keys : List Bytes) (t : BTree) (key : Bytes) :
    (keys.foldl (fun tree key => BTree.deleteFromBt d key tree) t).lookup key =
      (t.lookup key).map (fun n => n.delete d)^[keys.count key] := by
  induction keys generalizing t with
  | nil =>
    rw [List.foldl_nil, List.count_nil, Function.iterate_zero, Option.map_id]
    rfl
  | cons first keys ih =>
    rw [List.foldl_cons, ih, BTree.deleteFromBt]
    by_cases heq : key = first
    · subst heq
      rw [List.count_cons_self]
      cases hn : t.lookup key with
      | none =>
        dsimp only
        rw [hn]
        rfl
      | some n =>
        dsimp only
        rw [AList.lookup_insert, Option.map_some, Option.map_some, Function.iterate_succ_apply]
    · rw [List.count_cons_of_ne (Ne.symm heq)]
      cases hn : t.lookup first with
      | none => rfl
      | some n =>
        dsimp only
        rw [AList.lookup_insert_ne heq]

/-- **The value of a document is deleted**: nothing is left of the document. -/
theorem TreeCopies.deleteAll (h : t.TreeCopies rep)
    (hcount : ∀ key, (rep key).count d = keys.count key) :
    (keys.foldl (fun tree key => BTree.deleteFromBt d key tree) t).TreeCopies
      fun key => Node.others (rep key) d := by
  constructor
  · intro key n hn
    rw [lookup_deleteAll] at hn
    obtain ⟨n₀, hn₀, rfl⟩ := Option.map_eq_some_iff.mp hn
    rw [← hcount]
    exact (h.node key n₀ hn₀).deleteAll d
  · intro key hn
    rw [lookup_deleteAll, Option.map_eq_none_iff] at hn
    rw [h.empty key hn]
    rfl

end BTree

namespace TagIndex

/-- How often a tag is in the value of a document. -/
def copies (s : TagIndex) (tag : Bytes) (d : ℕ) : ℕ :=
  ((s.values d).map fun v => (tags v).count tag).getD 0

/-- **The invariant of every run**: each node has its documents as often as their values have the tag. -/
structure Kept (s : TagIndex) : Prop where
  isString : s.index.isNumeric = false
  placed : s.index.tree.AllPlaced
  tree : ∃ rep, s.index.tree.TreeCopies rep ∧ ∀ tag d, (rep tag).count d = s.copies tag d

variable {s s' : TagIndex}

theorem kept_empty : Kept empty where
  isString := rfl
  placed := BTree.allPlaced_empty
  tree := ⟨_, BTree.treeCopies_empty, fun _ _ => rfl⟩

theorem copies_update (i : FieldRangeIndex) (values : ℕ → Option Bytes) (d : ℕ) (value : Option Bytes)
    (tag : Bytes) (d' : ℕ) : copies ⟨i, Function.update values d value⟩ tag d' =
      if d' = d then (value.map fun v => (tags v).count tag).getD 0 else copies ⟨i, values⟩ tag d' := by
  rw [copies, copies]
  dsimp only
  by_cases heq : d' = d
  · subst heq
    rw [Function.update_self, if_pos rfl]
  · rw [Function.update_of_ne heq, if_neg heq]

theorem Kept.keys (h : Kept s) (v : Bytes) : s.index.keys? v = some (tags v) := by
  rw [FieldRangeIndex.keys?, h.isString]
  rfl

/-- **One call.** -/
theorem Kept.step {op : TagOp} (h : Kept s) (hop : Legal op s) (hstep : step op s = some s') :
    Kept s' := by
  obtain ⟨rep, hrep, hcount⟩ := h.tree
  cases op with
  | add d v =>
    obtain ⟨hd, hnew⟩ := hop
    obtain ⟨i, hadd, rfl⟩ := Option.map_eq_some_iff.mp hstep
    rw [FieldRangeIndex.add, h.keys, Option.bind_some] at hadd
    obtain ⟨tree, hrun, rfl⟩ := Option.map_eq_some_iff.mp hadd
    obtain ⟨rep', hrep', hcount'⟩ := hrep.insertAll (by omega) hrun
    refine ⟨h.isString, FieldRangeIndex.runOps_allPlaced hd h.placed hrun, rep', hrep', fun tag d' => ?_⟩
    rw [hcount', hcount, copies_update]
    by_cases heq : d' = d
    · subst heq
      rw [if_pos rfl, if_pos rfl, copies, hnew]
      exact Nat.zero_add _
    · rw [if_neg heq, if_neg heq]
      rfl
  | delete d =>
    obtain ⟨v, hv, hdelete⟩ := Option.bind_eq_some_iff.mp hstep
    obtain ⟨i, hi, rfl⟩ := Option.map_eq_some_iff.mp hdelete
    rw [FieldRangeIndex.delete, h.keys, Option.map_some] at hi
    cases hi
    have hall : ∀ tag, (rep tag).count d = (tags v).count tag := by
      intro tag
      rw [hcount, copies, hv]
      rfl
    refine ⟨h.isString, FieldRangeIndex.foldl_allPlaced d h.placed, _, hrep.deleteAll hall,
      fun tag d' => ?_⟩
    rw [Node.count_others, hcount, copies_update]
    split <;> rfl

/-- **Every run.** -/
theorem Kept.run (h : Kept s) {ops : List TagOp} (hlegal : Guarded TagIndex.step Legal ops s)
    (hrun : runOps TagIndex.step ops s = some s') : Kept s' := by
  induction ops generalizing s with
  | nil =>
    cases hrun
    exact h
  | cons op ops ih =>
    obtain ⟨s₁, hstep, hrest⟩ := Option.bind_eq_some_iff.mp hrun
    exact ih (h.step hlegal.1 hstep) (hlegal.2 s₁ hstep) hrest

theorem copies_pos {tag : Bytes} {d : ℕ} : 0 < s.copies tag d ↔ s.Tagged tag d := by
  rw [copies, Tagged]
  cases hv : s.values d with
  | none => simp
  | some v => simp [List.count_pos_iff]

end TagIndex

end AwaDB
