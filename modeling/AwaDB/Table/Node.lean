import AwaDB.Util.Words
import Mathlib.Data.Finset.Card
import Mathlib.Data.Finset.Insert
import Mathlib.Data.List.Nodup

/-!
# The documents of one key (`Node` in `table/field_range_index.cc`)

A `Node` holds the documents that have a value. It is an array of document ids (`sparse`) or a
bitmap over the words from `min_aligned_` to `max_aligned_` (`dense`), and changes from one to the
other with the density of the ids between `min_` and `max_`. `Rep` says which documents it holds:

* `rep_new`, `Rep.add`, `Rep.delete`: adding a document that is not there, and deleting one that
  is, keep the node exact;
* a node that was emptied keeps its range.

Document ids are below 2^30, where the doubling in `AddDense` leaves the range of an `int`.
-/

namespace AwaDB

/-- `numeric_limits<int>::max()`. -/
def intMax : ℤ := 2147483647

/-- The document ids that a node takes. -/
def docLimit : ℕ := 1073741824

/-- The array or the bitmap of a node. -/
inductive NodeData where
  | sparse (docs : List ℕ)
  | dense (bitmap : Bits)
deriving DecidableEq, Repr

/-- `Node`. -/
structure Node where
  min : ℤ
  max : ℤ
  minAligned : ℤ
  maxAligned : ℤ
  size : ℤ
  data : NodeData
deriving DecidableEq, Repr

namespace Node

/-- `Node::Node`. -/
def new : Node where
  min := intMax
  max := -1
  minAligned := intMax
  maxAligned := -1
  size := 0
  data := .sparse []

/-- `val / op_len * op_len`. -/
def alignDown (val : ℕ) : ℤ := (val / 64 * 64 : ℕ)

/-- `(val / op_len + 1) * op_len - 1`. -/
def alignUp (val : ℕ) : ℤ := ((val / 64 + 1) * 64 : ℕ) - 1

/-- The position of a document in a bitmap. -/
def pos (minAligned : ℤ) (val : ℕ) : ℕ := (val - minAligned).toNat

/-- The number of words of the bitmap. -/
def words (n : Node) : ℕ := ((n.maxAligned - n.minAligned + 1) / 64).toNat

/-- An empty bitmap for the documents from `minAligned` to `maxAligned`. -/
def createBitmap (minAligned maxAligned : ℤ) : Bits :=
  Bits.create (maxAligned - minAligned + 1).toNat

/-- `Node::AddSparse`. -/
def addSparse (n : Node) (docs : List ℕ) (val : ℕ) : Node where
  min := Min.min n.min val
  max := Max.max n.max val
  minAligned := if (val : ℤ) < n.minAligned then alignDown val else n.minAligned
  maxAligned := if (val : ℤ) > n.maxAligned then alignUp val else n.maxAligned
  size := n.size + 1
  data := .sparse (docs ++ [val])

/-- `Node::AddDense`: above the range, the new range is twice as long as needed. -/
def addDense (n : Node) (bitmap : Bits) (val : ℕ) : Node :=
  if n.size = 0 then
    { min := val
      max := val
      minAligned := alignDown val
      maxAligned := alignUp val
      size := 1
      data := .dense ((createBitmap (alignDown val) (alignUp val)).set
        (pos (alignDown val) val) true) }
  else if (val : ℤ) < n.minAligned then
    let data := Bits.copyWords (createBitmap (alignDown val) n.maxAligned) bitmap
      ((n.minAligned - alignDown val) / 64).toNat 0 n.words
    { n with
      min := val
      minAligned := alignDown val
      size := n.size + 1
      data := .dense (data.set (pos (alignDown val) val) true) }
  else if (val : ℤ) > n.maxAligned then
    let maxAligned : ℤ := (alignUp val + 1) * 2 - 1
    let data := Bits.copyWords (createBitmap n.minAligned maxAligned) bitmap 0 0 n.words
    { n with
      max := val
      maxAligned := maxAligned
      size := n.size + 1
      data := .dense (data.set (pos n.minAligned val) true) }
  else
    { n with
      min := Min.min n.min val
      max := Max.max n.max val
      size := n.size + 1
      data := .dense (bitmap.set (pos n.minAligned val) true) }

/-- The array that `ConvertToSparse` fills. -/
def bitmapDocs (n : Node) (bitmap : Bits) : List ℕ :=
  ((List.range (n.maxAligned - n.minAligned + 1).toNat).filter bitmap.test).map
    fun i : ℕ => (i + n.minAligned).toNat

/-- `Node::ConvertToSparse`, without the new array: `none` when the bitmap has less than `size_`
bits, and the end of the array is never written. -/
def convertToSparse (n : Node) (bitmap : Bits) : Option (List ℕ) :=
  if ((n.bitmapDocs bitmap).length : ℤ) < n.size then none
  else some ((n.bitmapDocs bitmap).take n.size.toNat)

/-- `Node::ConvertToDense`. -/
def convertToDense (n : Node) (docs : List ℕ) : Bits :=
  docs.foldl
    (fun bitmap (val : ℕ) =>
      if (val : ℤ) < n.minAligned ∨ (val : ℤ) > n.maxAligned then bitmap
      else bitmap.set (pos n.minAligned val) true)
    (createBitmap n.minAligned n.maxAligned)

/-- `Node::Add`. The densities 0.08 and 0.1 are compared with `size_ / offset`. -/
def add (n : Node) (val : ℕ) : Option Node :=
  let offset := n.max - n.min
  match n.data with
  | .dense bitmap =>
    if offset > 100000 ∧ n.size * 100 < offset * 8 then
      (n.convertToSparse bitmap).map fun docs => n.addSparse docs val
    else some (n.addDense bitmap val)
  | .sparse docs =>
    if offset > 100000 ∧ n.size * 10 > offset then
      some (n.addDense (n.convertToDense docs) val)
    else some (n.addSparse docs val)

/-- `Node::Delete`; its code is not read. -/
def delete (n : Node) (val : ℕ) : Node :=
  match n.data with
  | .dense bitmap =>
    if (val : ℤ) - n.minAligned < 0 ∨ (val : ℤ) > n.maxAligned then n
    else { n with size := n.size - 1, data := .dense (bitmap.set (pos n.minAligned val) false) }
  | .sparse docs =>
    if val ∈ docs then { n with size := n.size - 1, data := .sparse (docs.erase val) } else n

/-- The document is in the array, or its bit is set. -/
def Holds (n : Node) (d : ℕ) : Prop :=
  match n.data with
  | .sparse docs => d ∈ docs
  | .dense bitmap => n.minAligned ≤ d ∧ bitmap.test (pos n.minAligned d) = true

instance (n : Node) (d : ℕ) : Decidable (n.Holds d) := by
  unfold Holds
  split <;> infer_instance

/-! ### Which documents a node holds -/

/-- The range of a node that some document was added to. -/
structure Ranged (n : Node) : Prop where
  low : n.minAligned ≤ n.min
  min_le : n.min ≤ n.max
  high : n.max ≤ n.maxAligned
  down : ∃ a : ℕ, n.minAligned = 64 * a
  up : ∃ b : ℕ, n.maxAligned + 1 = 64 * b

theorem Ranged.aligned_le {n : Node} (h : n.Ranged) : n.minAligned ≤ n.maxAligned :=
  h.low.trans (h.min_le.trans h.high)

/-- The bitmap covers the documents from `lo` to `hi`, and has the bits of `s`. -/
structure BitsOf (lo hi : ℤ) (bitmap : Bits) (s : Finset ℕ) : Prop where
  length : bitmap.length = (createBitmap lo hi).length
  test : ∀ d : ℕ, lo ≤ d ∧ bitmap.test (pos lo d) = true ↔ d ∈ s

/-- The array has the documents once each, or the bitmap has their bits. -/
def DataRep (n : Node) (s : Finset ℕ) : Prop :=
  match n.data with
  | .sparse docs => docs.Nodup ∧ docs.toFinset = s
  | .dense bitmap => BitsOf n.minAligned n.maxAligned bitmap s

/-- The range and the size of a node with the documents of `s`. -/
structure Sized (n : Node) (s : Finset ℕ) : Prop extends Ranged n where
  size : n.size = s.card
  bounds : ∀ d ∈ s, n.minAligned ≤ d ∧ (d : ℤ) ≤ n.maxAligned

/-- **The node holds the documents of `s`.** -/
structure Rep (n : Node) (s : Finset ℕ) : Prop extends Sized n s where
  data : n.DataRep s

theorem Rep.holds_iff {n : Node} {s : Finset ℕ} (h : n.Rep s) (d : ℕ) : n.Holds d ↔ d ∈ s := by
  have hdata := h.data
  unfold DataRep at hdata
  unfold Holds
  split at hdata
  · rw [← hdata.2, List.mem_toFinset]
  · exact hdata.test d

theorem length_createBitmap (a b : ℤ) :
    (createBitmap a b).length = 8 * ((b - a + 1).toNat / 8 + 1) :=
  Bits.length_create _

theorem test_createBitmap (a b : ℤ) (i : ℕ) : (createBitmap a b).test i = false :=
  Bits.test_create _ i

/-! ### Arrays -/

section Sparse

variable {n : Node} {s : Finset ℕ} {docs : List ℕ} {val : ℕ}

theorem rep_addSparse (h : n.Sized s) (hnodup : docs.Nodup) (hdocs : docs.toFinset = s)
    (hval : val ∉ s) : (n.addSparse docs val).Rep (insert val s) := by
  obtain ⟨a, ha⟩ := h.down
  obtain ⟨b, hb⟩ := h.up
  have hlow := h.low
  have hhigh := h.high
  have hmem : val ∉ docs := fun hmem => hval (hdocs ▸ List.mem_toFinset.mpr hmem)
  refine ⟨⟨⟨?_, ?_, ?_, ?_, ?_⟩, ?_, fun d hd => ?_⟩, ?_, ?_⟩
  · simp only [addSparse, alignDown]
    split <;> omega
  · exact (min_le_right _ _).trans (le_max_right _ _)
  · simp only [addSparse, alignUp]
    split <;> omega
  · by_cases hlt : (val : ℤ) < n.minAligned
    · exact ⟨val / 64, by simp only [addSparse, if_pos hlt, alignDown]; omega⟩
    · exact ⟨a, by simp only [addSparse, if_neg hlt]; exact ha⟩
  · by_cases hgt : (val : ℤ) > n.maxAligned
    · exact ⟨val / 64 + 1, by simp only [addSparse, if_pos hgt, alignUp]; omega⟩
    · exact ⟨b, by simp only [addSparse, if_neg hgt]; exact hb⟩
  · show n.size + 1 = ((insert val s).card : ℤ)
    rw [Finset.card_insert_of_notMem hval, h.size]
    rfl
  · simp only [addSparse, alignDown, alignUp]
    cases Finset.mem_insert.mp hd with
    | inl heq =>
      subst heq
      constructor
      · split <;> omega
      · split <;> omega
    | inr hd =>
      have hbounds := h.bounds d hd
      constructor
      · split <;> omega
      · split <;> omega
  · exact List.nodup_append.mpr ⟨hnodup, List.nodup_singleton val, fun x hx y hy heq =>
      hmem (List.mem_singleton.mp hy ▸ heq ▸ hx)⟩
  · rw [List.toFinset_append, hdocs, List.toFinset_cons, List.toFinset_nil, Finset.union_comm]
    rfl

/-- The first document of a new node. -/
theorem rep_new (hval : val < docLimit) :
    ∃ n, new.add val = some n ∧ n.Rep {val} := by
  have hlt : (val : ℤ) < intMax := by
    unfold docLimit at hval
    unfold intMax
    omega
  have hgt : (val : ℤ) > -1 := by omega
  have hfar : ¬ ((-1 - intMax > 100000) ∧ (0 : ℤ) * 10 > -1 - intMax) := by decide
  refine ⟨new.addSparse [] val, ?_, ?_⟩
  · rw [add]
    exact if_neg hfar
  refine ⟨⟨⟨?_, ?_, ?_, ⟨val / 64, ?_⟩, ⟨val / 64 + 1, ?_⟩⟩, rfl, fun d hd => ?_⟩,
    List.nodup_singleton val, rfl⟩
  · simp only [addSparse, new, alignDown]
    omega
  · exact (min_le_right _ _).trans (le_max_right _ _)
  · simp only [addSparse, new, alignUp]
    omega
  · simp only [addSparse, new, alignDown]
    omega
  · simp only [addSparse, new, alignUp]
    omega
  · rw [Finset.mem_singleton.mp hd]
    simp only [addSparse, new, alignDown, alignUp]
    omega

end Sparse

/-! ### Bitmaps -/

section Dense

variable {lo hi : ℤ} {s : Finset ℕ} {bitmap : Bits} {val : ℕ}

theorem BitsOf.lt_length (h : BitsOf lo hi bitmap s) (hlow : lo ≤ val) (hhigh : (val : ℤ) ≤ hi) :
    pos lo val < bitmap.length := by
  rw [h.length, length_createBitmap, pos]
  omega

/-- Another bit is set. -/
theorem BitsOf.set (h : BitsOf lo hi bitmap s) (hlow : lo ≤ val) (hhigh : (val : ℤ) ≤ hi) :
    BitsOf lo hi (bitmap.set (pos lo val) true) (insert val s) where
  length := (List.length_set).trans h.length
  test := by
    intro d
    rw [Bits.test_set bitmap (h.lt_length hlow hhigh), Finset.mem_insert, ← h.test d]
    by_cases hd : lo ≤ d
    · have hpos : pos lo val = pos lo d ↔ d = val := by
        unfold pos
        omega
      by_cases heq : d = val
      · simp [heq, hlow]
      · simp [hpos, heq]
    · have hne : d ≠ val := by
        intro heq
        rw [heq] at hd
        exact hd hlow
      simp [hd, hne]

/-- A bit is cleared. -/
theorem BitsOf.unset (h : BitsOf lo hi bitmap s) (hlow : lo ≤ val) (hhigh : (val : ℤ) ≤ hi) :
    BitsOf lo hi (bitmap.set (pos lo val) false) (s.erase val) where
  length := (List.length_set).trans h.length
  test := by
    intro d
    rw [Bits.test_set bitmap (h.lt_length hlow hhigh), Finset.mem_erase, ← h.test d]
    by_cases hd : lo ≤ d
    · have hpos : pos lo val = pos lo d ↔ d = val := by
        unfold pos
        omega
      by_cases heq : d = val
      · simp [heq]
      · simp [hpos, heq]
    · simp [hd]

theorem bitsOf_create (lo hi : ℤ) : BitsOf lo hi (createBitmap lo hi) ∅ where
  length := rfl
  test := by
    intro d
    rw [test_createBitmap]
    simp

/-- A bitmap for a larger range, into which the words of a smaller one are copied. -/
theorem BitsOf.copy {n : Node} (hn : n.Sized s) (h : BitsOf n.minAligned n.maxAligned bitmap s)
    (hlo : ∃ a : ℕ, lo = 64 * a) (hlow : lo ≤ n.minAligned) (hhigh : n.maxAligned ≤ hi) :
    BitsOf lo hi (Bits.copyWords (createBitmap lo hi) bitmap
      ((n.minAligned - lo) / 64).toNat 0 n.words) s where
  length := Bits.length_onWords _ _ _ _ _ _
  test := by
    intro d
    obtain ⟨a, ha⟩ := hn.down
    obtain ⟨b, hb⟩ := hn.up
    obtain ⟨c, hc⟩ := hlo
    have hle := hn.aligned_le
    by_cases hd : lo ≤ d ∧ pos lo d < (createBitmap lo hi).length
    · rw [Bits.copyWords, Bits.test_onWords _ _ _ _ _ _ hd.2]
      by_cases hin : n.minAligned ≤ d ∧ (d : ℤ) ≤ n.maxAligned
      · -- the words of the old range
        have hwords : 64 * ((n.minAligned - lo) / 64).toNat ≤ pos lo d ∧
            pos lo d < 64 * (((n.minAligned - lo) / 64).toNat + n.words) := by
          unfold pos words
          omega
        have hpos : pos lo d - 64 * ((n.minAligned - lo) / 64).toNat + 64 * 0 =
            pos n.minAligned d := by
          unfold pos
          omega
        rw [if_pos hwords, hpos, ← h.test d]
        simp [hd.1, hin.1]
      · have hwords : ¬ (64 * ((n.minAligned - lo) / 64).toNat ≤ pos lo d ∧
            pos lo d < 64 * (((n.minAligned - lo) / 64).toNat + n.words)) := by
          unfold pos words
          omega
        have hnot : d ∉ s := fun hmem => hin (hn.bounds d hmem)
        rw [if_neg hwords, test_createBitmap]
        simp [hnot]
    · have hnot : d ∉ s := by
        intro hmem
        have hbounds := hn.bounds d hmem
        refine hd ⟨by omega, ?_⟩
        rw [length_createBitmap, pos]
        omega
      refine iff_of_false (fun hbit => hd ⟨hbit.1, ?_⟩) hnot
      have hlen := Bits.lt_length_of_test hbit.2
      rwa [Bits.copyWords, Bits.length_onWords] at hlen

variable {n : Node}

theorem rep_addDense (h : n.Sized s) (hbits : BitsOf n.minAligned n.maxAligned bitmap s)
    (hval : val ∉ s) : (n.addDense bitmap val).Rep (insert val s) := by
  obtain ⟨a, ha⟩ := h.down
  obtain ⟨b, hb⟩ := h.up
  have hlow := h.low
  have hle := h.min_le
  have hhigh := h.high
  have hcard : n.size + 1 = ((insert val s).card : ℤ) := by
    rw [Finset.card_insert_of_notMem hval, h.size]
    rfl
  have hdown : alignDown val = 64 * (val / 64 : ℕ) := by
    unfold alignDown
    omega
  have hup : alignUp val + 1 = 64 * (val / 64 + 1 : ℕ) := by
    unfold alignUp
    omega
  have hdown_le : alignDown val ≤ val := by omega
  have hle_up : (val : ℤ) ≤ alignUp val := by omega
  have hmem : ∀ {lo hi : ℤ}, lo ≤ n.minAligned → n.maxAligned ≤ hi → lo ≤ val → (val : ℤ) ≤ hi →
      ∀ d ∈ insert val s, lo ≤ (d : ℤ) ∧ (d : ℤ) ≤ hi := by
    intro lo hi hlo hhi hlv hvh d hd
    cases Finset.mem_insert.mp hd with
    | inl heq => exact heq ▸ ⟨hlv, hvh⟩
    | inr hd => exact ⟨hlo.trans (h.bounds d hd).1, (h.bounds d hd).2.trans hhi⟩
  unfold addDense
  split
  · -- an empty node starts again
    rename_i hzero
    have hempty : s = ∅ := by
      have hsize := h.size
      rw [hzero] at hsize
      exact Finset.card_eq_zero.mp (by omega)
    subst hempty
    refine ⟨⟨⟨hdown_le, le_refl _, hle_up, ⟨_, hdown⟩, ⟨_, hup⟩⟩, rfl, fun d hd => ?_⟩, ?_⟩
    · rw [Finset.mem_singleton.mp hd]
      exact ⟨hdown_le, hle_up⟩
    · exact (bitsOf_create _ _).set hdown_le hle_up
  · split
    · -- below the range
      rename_i hlt
      have hle_low : alignDown val ≤ n.minAligned := by omega
      have hle_high : (val : ℤ) ≤ n.maxAligned := by omega
      refine ⟨⟨⟨hdown_le, ?_, hhigh, ⟨_, hdown⟩, ⟨b, hb⟩⟩, hcard,
        hmem hle_low (le_refl _) hdown_le hle_high⟩, ?_⟩
      · show (val : ℤ) ≤ n.max
        omega
      · exact (hbits.copy h ⟨_, hdown⟩ hle_low (le_refl _)).set hdown_le hle_high
    · split
      · -- above the range
        rename_i hlt hgt
        have hle_low : n.minAligned ≤ val := by omega
        have hle_high : (val : ℤ) ≤ (alignUp val + 1) * 2 - 1 := by omega
        have hwider : n.maxAligned ≤ (alignUp val + 1) * 2 - 1 := by omega
        refine ⟨⟨⟨hlow, ?_, hle_high, ⟨a, ha⟩, ⟨(val / 64 + 1) * 2, ?_⟩⟩, hcard,
          hmem (le_refl _) hwider hle_low hle_high⟩, ?_⟩
        · show n.min ≤ val
          omega
        · show (alignUp val + 1) * 2 - 1 + 1 = _
          omega
        · have hcopy := hbits.copy h ⟨a, ha⟩ (le_refl _) hwider
          have hzero : ((n.minAligned - n.minAligned) / 64).toNat = 0 := by omega
          rw [hzero] at hcopy
          exact hcopy.set hle_low hle_high
      · rename_i hlt hgt
        have hle_low : n.minAligned ≤ val := by omega
        have hle_high : (val : ℤ) ≤ n.maxAligned := by omega
        exact ⟨⟨⟨le_min hlow hle_low, (min_le_right _ _).trans (le_max_right _ _),
          max_le hhigh hle_high, ⟨a, ha⟩, ⟨b, hb⟩⟩, hcard,
          hmem (le_refl _) (le_refl _) hle_low hle_high⟩, hbits.set hle_low hle_high⟩

/-! ### Conversions -/

theorem mem_bitmapDocs (h : n.Sized s) (hbits : BitsOf n.minAligned n.maxAligned bitmap s) (d : ℕ) :
    d ∈ n.bitmapDocs bitmap ↔ d ∈ s := by
  obtain ⟨a, ha⟩ := h.down
  rw [← hbits.test d, bitmapDocs, List.mem_map]
  constructor
  · intro hd
    obtain ⟨i, hi, rfl⟩ := hd
    have hbit := (List.mem_filter.mp hi).2
    have hpos : pos n.minAligned (i + n.minAligned).toNat = i := by
      unfold pos
      omega
    refine ⟨by omega, ?_⟩
    rw [hpos]
    exact hbit
  · intro hd
    have hbounds := h.bounds d ((hbits.test d).mp hd)
    refine ⟨pos n.minAligned d, List.mem_filter.mpr ⟨List.mem_range.mpr ?_, hd.2⟩, ?_⟩
    · unfold pos
      omega
    · unfold pos
      omega

theorem nodup_bitmapDocs (h : n.Sized s) (bitmap : Bits) : (n.bitmapDocs bitmap).Nodup := by
  obtain ⟨a, ha⟩ := h.down
  refine List.Nodup.map_on ?_ (List.nodup_range.filter _)
  intro i _ j _ heq
  omega

/-- The bits are as many as the size says, so that the whole array is written. -/
theorem convertToSparse_eq (h : n.Sized s)
    (hbits : BitsOf n.minAligned n.maxAligned bitmap s) :
    ∃ docs, n.convertToSparse bitmap = some docs ∧ docs.Nodup ∧ docs.toFinset = s := by
  have hdocs : (n.bitmapDocs bitmap).toFinset = s := by
    ext d
    rw [List.mem_toFinset, mem_bitmapDocs h hbits]
  have hlen : ((n.bitmapDocs bitmap).length : ℤ) = n.size := by
    rw [h.size, ← hdocs, List.toFinset_card_of_nodup (nodup_bitmapDocs h bitmap)]
  have hall : (n.bitmapDocs bitmap).take n.size.toNat = n.bitmapDocs bitmap :=
    List.take_of_length_le (by omega)
  refine ⟨n.bitmapDocs bitmap, ?_, nodup_bitmapDocs h bitmap, hdocs⟩
  rw [convertToSparse, if_neg (by omega), hall]

theorem bitsOf_convertToDense {docs : List ℕ}
    (hdocs : ∀ d ∈ docs, n.minAligned ≤ d ∧ (d : ℤ) ≤ n.maxAligned) :
    BitsOf n.minAligned n.maxAligned (n.convertToDense docs) docs.toFinset := by
  -- the documents that were entered before, and the rest of the array
  have hfold : ∀ (rest : List ℕ) (bitmap : Bits) (t : Finset ℕ),
      (∀ d ∈ rest, n.minAligned ≤ d ∧ (d : ℤ) ≤ n.maxAligned) →
      BitsOf n.minAligned n.maxAligned bitmap t →
      BitsOf n.minAligned n.maxAligned
        (rest.foldl (fun bitmap (val : ℕ) =>
          if (val : ℤ) < n.minAligned ∨ (val : ℤ) > n.maxAligned then bitmap
          else bitmap.set (pos n.minAligned val) true) bitmap) (rest.toFinset ∪ t) := by
    intro rest
    induction rest with
    | nil =>
      intro bitmap t _ hb
      rw [List.toFinset_nil, Finset.empty_union]
      exact hb
    | cons val rest ih =>
      intro bitmap t hrest hb
      have hval := hrest val List.mem_cons_self
      have hin : ¬ ((val : ℤ) < n.minAligned ∨ (val : ℤ) > n.maxAligned) := by omega
      rw [List.foldl_cons, if_neg hin, List.toFinset_cons, Finset.insert_union,
        ← Finset.union_insert]
      exact ih _ _ (fun d hd => hrest d (List.mem_cons_of_mem val hd)) (hb.set hval.1 hval.2)
  have hall := hfold docs _ ∅ hdocs (bitsOf_create n.minAligned n.maxAligned)
  rwa [Finset.union_empty] at hall

end Dense

/-! ### Adding and deleting -/

/-- **A document that is not there is added.** -/
theorem Rep.add {n : Node} {s : Finset ℕ} (h : n.Rep s) {val : ℕ} (hval : val ∉ s) :
    ∃ n', n.add val = some n' ∧ n'.Rep (insert val s) := by
  have hdata := h.data
  unfold DataRep at hdata
  unfold Node.add
  cases hn : n.data with
  | sparse docs =>
    rw [hn] at hdata
    obtain ⟨hnodup, hdocs⟩ := hdata
    dsimp only
    split
    · have hbits : BitsOf n.minAligned n.maxAligned (n.convertToDense docs) s := by
        have hconv := bitsOf_convertToDense (n := n)
          fun d hd => h.bounds d (hdocs ▸ List.mem_toFinset.mpr hd)
        rwa [hdocs] at hconv
      exact ⟨_, rfl, rep_addDense h.toSized hbits hval⟩
    · exact ⟨_, rfl, rep_addSparse h.toSized hnodup hdocs hval⟩
  | dense bitmap =>
    rw [hn] at hdata
    dsimp only
    split
    · obtain ⟨docs, hconv, hnodup, hdocs⟩ := convertToSparse_eq h.toSized hdata
      exact ⟨n.addSparse docs val, by rw [hconv, Option.map_some],
        rep_addSparse h.toSized hnodup hdocs hval⟩
    · exact ⟨_, rfl, rep_addDense h.toSized hdata hval⟩

/-- **A document that is there is deleted.** -/
theorem Rep.delete {n : Node} {s : Finset ℕ} (h : n.Rep s) {val : ℕ} (hval : val ∈ s) :
    (n.delete val).Rep (s.erase val) := by
  have hdata := h.data
  have hbounds := h.bounds val hval
  have hcard : n.size - 1 = ((s.erase val).card : ℤ) := by
    have hpos : 0 < s.card := Finset.card_pos.mpr ⟨val, hval⟩
    rw [Finset.card_erase_of_mem hval, h.size]
    omega
  have hrest : ∀ d ∈ s.erase val, n.minAligned ≤ d ∧ (d : ℤ) ≤ n.maxAligned :=
    fun d hd => h.bounds d (Finset.mem_of_mem_erase hd)
  unfold DataRep at hdata
  unfold Node.delete
  cases hn : n.data with
  | sparse docs =>
    rw [hn] at hdata
    obtain ⟨hnodup, hdocs⟩ := hdata
    have hmem : val ∈ docs := List.mem_toFinset.mp (hdocs ▸ hval)
    dsimp only
    rw [if_pos hmem]
    refine ⟨⟨⟨h.low, h.min_le, h.high, h.down, h.up⟩, hcard, hrest⟩, hnodup.erase val, ?_⟩
    ext d
    rw [List.mem_toFinset, hnodup.mem_erase_iff, Finset.mem_erase, ← hdocs, List.mem_toFinset]
  | dense bitmap =>
    rw [hn] at hdata
    have hin : ¬ ((val : ℤ) - n.minAligned < 0 ∨ (val : ℤ) > n.maxAligned) := by omega
    dsimp only
    rw [if_neg hin]
    exact ⟨⟨⟨h.low, h.min_le, h.high, h.down, h.up⟩, hcard, hrest⟩,
      BitsOf.unset hdata hbounds.1 hbounds.2⟩

end Node

end AwaDB
