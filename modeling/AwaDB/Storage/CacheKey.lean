import AwaDB.Storage.Block
import AwaDB.Storage.StringStore
import Mathlib.Algebra.Order.Group.Nat
import Mathlib.Algebra.Order.BigOperators.Group.List
import Mathlib.Algebra.Order.Ring.Int

/-!
# Keys and offsets of cached blocks (`storage/block.cc`, `storage/segment.cc`)

A block is cached under the number of its segment times `seg_block_capacity` plus its own number, in 32
bits, and offsets in a segment have 32 bits too. What segments and blocks there are follows from the set-up
of `MmapRawVector::InitStore` and of the table, and from the strings.

* `unique_iff`: when no two blocks that are read get one key;
* `rowsExact_iff`, `stringsExact_iff`: when no offset or size on the way of a read wraps;
* `sound_iff`: both, for every set-up and all segments;
* `unsound`: rows of 8592 bytes, and vectors of 32772 bytes.
-/

namespace AwaDB.CacheKey

/-! ### Set-ups -/

/-- Where the options of a storage manager come from: `MmapRawVector::InitStore` with the size of a vector
and the segment size of the parameters, or `Table::InitStorageMgr` and the columns, with the size of a row. -/
inductive SetUp
  | mmap (vectorByteSize segmentSize : ℕ)
  | table (itemLength : ℕ)

/-- `max_seg_size` -/
def maxSegSize (vectorByteSize : ℕ) : ℕ := (2 ^ 31 - 1) / vectorByteSize

/-- `segment_size` -/
def SetUp.segmentSize : SetUp → ℕ
  | .mmap vectorByteSize segmentSize =>
    if maxSegSize vectorByteSize < segmentSize then maxSegSize vectorByteSize else segmentSize
  | .table _ => 500000

/-- `fixed_value_bytes` -/
def SetUp.itemLength : SetUp → ℕ
  | .mmap vectorByteSize _ => vectorByteSize
  | .table itemLength => itemLength

/-- `seg_block_capacity` -/
def SetUp.segBlockCapacity : SetUp → ℕ
  | .mmap vectorByteSize segmentSize =>
    if maxSegSize vectorByteSize < segmentSize then
      (4000000000 / (1000000000 / maxSegSize vectorByteSize + 1) - 1) % 2 ^ 32
    else 2000000
  | .table _ => 400000

/-- `per_block_size_` -/
def perBlockSize (itemLength : ℕ) : ℕ :=
  let itemLen := if itemLength = 0 then 1 else itemLength
  64 * 1024 / itemLen * itemLen

/-- `GetCacheBlockId` -/
def cacheBlockId (segBlockCapacity seg block : ℕ) : ℕ := (seg * segBlockCapacity + block) % 2 ^ 32

/-! ### Keys -/

/-- No two of the blocks get one key, where segment `s` has `counts s` of them. -/
def Unique (segBlockCapacity : ℕ) (counts : ℕ → ℕ) : Prop :=
  ∀ s s' b b', b < counts s → b' < counts s' →
    cacheBlockId segBlockCapacity s b = cacheBlockId segBlockCapacity s' b' → s = s' ∧ b = b'

/-- The keys of two segments with blocks are apart: the first ends before the second begins, and the second
does not come around to the first. -/
def Apart (segBlockCapacity : ℕ) (counts : ℕ → ℕ) (s s' : ℕ) : Prop :=
  counts s = 0 ∨ counts s' = 0 ∨
    counts s ≤ (s' - s) * segBlockCapacity % 2 ^ 32 ∧
      (s' - s) * segBlockCapacity % 2 ^ 32 + counts s' ≤ 2 ^ 32

/-- The key of a later segment, seen from an earlier one. -/
theorem cacheBlockId_eq_iff {cap s s' b b' : ℕ} (hss : s ≤ s') (hb : b < 2 ^ 32) :
    cacheBlockId cap s b = cacheBlockId cap s' b' ↔ b = ((s' - s) * cap % 2 ^ 32 + b') % 2 ^ 32 := by
  obtain ⟨d, rfl⟩ := Nat.exists_eq_add_of_le hss
  unfold cacheBlockId
  rw [Nat.add_sub_cancel_left, Nat.add_mul, Nat.add_assoc, Nat.mod_add_mod]
  generalize s * cap = x
  generalize d * cap + b' = y
  omega

/-- **When keys are unique**: no segment has more than 2^32 blocks, and any two are apart. -/
theorem unique_iff (cap : ℕ) (counts : ℕ → ℕ) :
    Unique cap counts ↔ (∀ s, counts s ≤ 2 ^ 32) ∧ ∀ s s', s < s' → Apart cap counts s s' := by
  constructor
  · intro h
    have hle : ∀ s, counts s ≤ 2 ^ 32 := by
      intro s
      by_contra hlt
      -- the block behind the last has the key of the first
      have hkey : cacheBlockId cap s 0 = cacheBlockId cap s (2 ^ 32) := by
        unfold cacheBlockId
        rw [Nat.add_mod_right, Nat.add_zero]
      have hsame := (h s s 0 (2 ^ 32) (by omega) (by omega) hkey).2
      omega
    refine ⟨hle, fun s s' hss => ?_⟩
    by_contra hapart
    unfold Apart at hapart
    have hs := hle s
    have hs' := hle s'
    have hr : (s' - s) * cap % 2 ^ 32 < 2 ^ 32 := Nat.mod_lt _ (by decide)
    by_cases hfirst : counts s ≤ (s' - s) * cap % 2 ^ 32
    · -- the second segment comes around to the first block of the first
      have hkey : cacheBlockId cap s 0 = cacheBlockId cap s' (2 ^ 32 - (s' - s) * cap % 2 ^ 32) := by
        rw [cacheBlockId_eq_iff (Nat.le_of_lt hss) (by decide)]
        omega
      have hsame := (h s s' 0 _ (by omega) (by omega) hkey).1
      omega
    · -- the first segment reaches the first block of the second
      have hkey : cacheBlockId cap s ((s' - s) * cap % 2 ^ 32) = cacheBlockId cap s' 0 := by
        rw [cacheBlockId_eq_iff (Nat.le_of_lt hss) hr]
        omega
      have hsame := (h s s' _ 0 (by omega) (by omega) hkey).1
      omega
  · rintro ⟨hle, hapart⟩ s s' b b' hb hb' hkey
    have hs := hle s
    have hs' := hle s'
    have hwithin : ∀ t t' c c', t < t' → c < counts t → c' < counts t' →
        cacheBlockId cap t c ≠ cacheBlockId cap t' c' := by
      intro t t' c c' htt hc hc' heq
      have ht := hle t
      rw [cacheBlockId_eq_iff (Nat.le_of_lt htt) (by omega)] at heq
      rcases hapart t t' htt with hzero | hzero | ⟨hfirst, hsecond⟩
      · omega
      · omega
      · omega
    rcases Nat.lt_trichotomy s s' with hlt | rfl | hgt
    · exact absurd hkey (hwithin s s' b b' hlt hb hb')
    · rw [cacheBlockId_eq_iff (Nat.le_refl s) (by omega), Nat.sub_self, Nat.zero_mul] at hkey
      exact ⟨rfl, by omega⟩
    · exact absurd hkey.symm (hwithin s' s b' b hgt hb' hb)

/-! ### Offsets of rows and vectors -/

/-- Where the rounds of the loop of `Block::Read` begin. A round takes at least one byte, so that `fuel`
rounds are enough for as many bytes. -/
def rounds (b : BlockSize) : (fuel start nBytes : ℕ) → List ℕ
  | 0, _, _ => []
  | fuel + 1, start, nBytes =>
    if nBytes = 0 then []
    else start :: rounds b fuel (start + pieceLen b start nBytes) (nBytes - pieceLen b start nBytes)

/-- The numbers that `GetValues` and `Read` compute in 32 bits for `n` items from `id` on: start and size,
the bytes in the file, and for each round where it is and where its block is, without and with the header. -/
def readNumbers (b : BlockSize) (itemLength curSize id n : ℕ) : List ℕ :=
  [id * itemLength, n * itemLength, curSize * itemLength] ++
    (rounds b (n * itemLength) (id * itemLength) (n * itemLength)).flatMap fun p =>
      [p, segHeaderSize + p, p / b.size * b.size, segHeaderSize + p / b.size * b.size]

/-- Reads of items that are there divide by a size, and none of the numbers they compute wraps. -/
def RowsExact (itemLength curSize : ℕ) : Prop :=
  ∀ id n, 0 < n → id + n ≤ curSize → ∃ b : BlockSize, b.size = perBlockSize itemLength ∧
    ∀ x ∈ readNumbers b itemLength curSize id n, x < 2 ^ 32

/-- The blocks of a segment that are read from the cache. -/
def cachedRows (itemLength curSize : ℕ) : ℕ := curSize * itemLength % 2 ^ 32 / perBlockSize itemLength

theorem dvd_perBlockSize (itemLength : ℕ) : itemLength ∣ perBlockSize itemLength ∨ itemLength = 0 := by
  unfold perBlockSize
  by_cases h : itemLength = 0
  · exact .inr h
  · rw [if_neg h]
    exact .inl (Nat.dvd_mul_left _ _)

theorem perBlockSize_pos_iff (itemLength : ℕ) : 0 < perBlockSize itemLength ↔ itemLength ≤ 64 * 1024 := by
  unfold perBlockSize
  by_cases h : itemLength = 0
  · subst h
    decide
  · rw [if_neg h]
    constructor
    · intro hpos
      by_contra hlt
      dsimp only at hpos
      rw [Nat.div_eq_of_lt (by omega), Nat.zero_mul] at hpos
      exact Nat.lt_irrefl 0 hpos
    · intro hle
      exact Nat.mul_pos (Nat.div_pos hle (Nat.pos_of_ne_zero h)) (Nat.pos_of_ne_zero h)

/-- Rounds begin at items, within the bytes that are read. -/
theorem mem_rounds {b : BlockSize} {item : ℕ} (hb : item ∣ b.size) {fuel start nBytes : ℕ}
    (hstart : item ∣ start) (hn : item ∣ nBytes) :
    ∀ p ∈ rounds b fuel start nBytes, item ∣ p ∧ p < start + nBytes := by
  induction fuel generalizing start nBytes with
  | zero => exact fun p hp => absurd hp List.not_mem_nil
  | succ fuel ih =>
    intro p hp
    unfold rounds at hp
    split at hp
    · exact absurd hp List.not_mem_nil
    · next hpos =>
      have hlen : item ∣ pieceLen b start nBytes := by
        unfold pieceLen
        have hmod : item ∣ b.size - start % b.size :=
          Nat.dvd_sub hb ((Nat.dvd_mod_iff hb).mpr hstart)
        have hmin : item ∣ if nBytes > b.size then b.size else nBytes := by
          split
          · exact hb
          · exact hn
        dsimp only
        generalize (if nBytes > b.size then b.size else nBytes) = len at hmin ⊢
        split
        · exact hmod
        · exact hmin
      have hle := (pieceLen_le (b := b) start nBytes).1
      rcases List.mem_cons.mp hp with rfl | hp
      · exact ⟨hstart, by omega⟩
      · obtain ⟨hdvd, hlt⟩ := ih (Nat.dvd_add hstart hlen) (Nat.dvd_sub hn hlen) p hp
        exact ⟨hdvd, by omega⟩

/-- **When reads of rows do not wrap**: items are not longer than a block, the bytes of a segment are
counted in 32 bits, and the last item begins below 2^32 in the file. -/
theorem rowsExact_iff (itemLength curSize : ℕ) :
    RowsExact itemLength curSize ↔ curSize = 0 ∨ itemLength ≤ 64 * 1024 ∧
      curSize * itemLength < 2 ^ 32 ∧ segHeaderSize + (curSize - 1) * itemLength < 2 ^ 32 := by
  constructor
  · intro h
    by_cases hzero : curSize = 0
    · exact .inl hzero
    · right
      obtain ⟨b, hb, hnumbers⟩ := h (curSize - 1) 1 (by decide) (by omega)
      have hitem : itemLength ≤ 64 * 1024 := (perBlockSize_pos_iff itemLength).mp (hb ▸ b.pos)
      refine ⟨hitem, hnumbers _ (by simp [readNumbers]), ?_⟩
      by_cases hempty : itemLength = 0
      · rw [hempty, Nat.mul_zero]
        decide
      · refine hnumbers _ (List.mem_append_right _ (List.mem_flatMap.mpr ⟨(curSize - 1) * itemLength, ?_, ?_⟩))
        · rw [Nat.one_mul]
          obtain ⟨k, hk⟩ := Nat.exists_eq_succ_of_ne_zero hempty
          rw [hk, rounds, if_neg (Nat.succ_ne_zero k)]
          exact List.mem_cons_self
        · exact List.mem_cons_of_mem _ List.mem_cons_self
  · intro h id n hn hle
    have hcur : curSize ≠ 0 := by omega
    obtain ⟨hitem, hbytes, hlast⟩ := h.resolve_left hcur
    refine ⟨⟨perBlockSize itemLength, (perBlockSize_pos_iff itemLength).mpr hitem⟩, rfl, fun x hx => ?_⟩
    have hid : id * itemLength ≤ curSize * itemLength := Nat.mul_le_mul_right _ (by omega)
    have hnn : n * itemLength ≤ curSize * itemLength := Nat.mul_le_mul_right _ (by omega)
    rcases List.mem_append.mp hx with hx | hx
    · simp only [List.mem_cons, List.not_mem_nil, or_false] at hx
      rcases hx with rfl | rfl | rfl
      · omega
      · omega
      · exact hbytes
    · obtain ⟨p, hp, hx⟩ := List.mem_flatMap.mp hx
      rcases Nat.eq_zero_or_pos itemLength with rfl | hpos
      · rw [Nat.mul_zero] at hp
        exact absurd hp List.not_mem_nil
      · have hdvd := (dvd_perBlockSize itemLength).resolve_right (Nat.pos_iff_ne_zero.mp hpos)
        obtain ⟨⟨j, rfl⟩, hlt⟩ := mem_rounds (b := ⟨perBlockSize itemLength, _⟩) hdvd
          (Nat.dvd_mul_left itemLength id) (Nat.dvd_mul_left itemLength n) p hp
        -- a round begins at item `j`, and that is one of the segment
        rw [← Nat.add_mul, Nat.mul_comm itemLength j] at hlt
        have hj : j < id + n := Nat.lt_of_mul_lt_mul_right hlt
        have hround : j * itemLength ≤ (curSize - 1) * itemLength := Nat.mul_le_mul_right _ (by omega)
        have hblock : itemLength * j / perBlockSize itemLength * perBlockSize itemLength ≤ itemLength * j :=
          Nat.div_mul_le_self _ _
        rw [Nat.mul_comm itemLength j] at hblock
        simp only [List.mem_cons, List.not_mem_nil, or_false, Nat.mul_comm itemLength j] at hx
        rcases hx with rfl | rfl | rfl | rfl <;> omega

/-- Segments of vectors are small enough. -/
theorem rowsExact_mmap {vectorByteSize segmentSize curSize : ℕ}
    (hcur : curSize ≤ (SetUp.mmap vectorByteSize segmentSize).segmentSize) :
    RowsExact vectorByteSize curSize ↔ curSize = 0 ∨ vectorByteSize ≤ 64 * 1024 := by
  rw [rowsExact_iff]
  have hmax : curSize ≤ maxSegSize vectorByteSize := by
    unfold SetUp.segmentSize at hcur
    dsimp only at hcur
    split at hcur <;> omega
  have hbytes : curSize * vectorByteSize ≤ 2 ^ 31 - 1 :=
    Nat.le_trans (Nat.mul_le_mul_right _ hmax) (Nat.div_mul_le_self _ _)
  have hlast : (curSize - 1) * vectorByteSize ≤ curSize * vectorByteSize :=
    Nat.mul_le_mul_right _ (Nat.sub_le _ _)
  have hheader : segHeaderSize = 30 := rfl
  refine or_congr_right ⟨fun h => h.1, fun h => ⟨h, by omega, by omega⟩⟩

/-! ### Offsets of strings -/

/-- The blocks of the strings of a table with rows of `itemLength` bytes. -/
def stringOptions (itemLength : ℕ) : StringOptions where
  perBlockSize := perBlockSize itemLength
  segBlockCapacity := 400000
  segmentSize := 500000
  cached := true
  perBlock_le := Nat.div_mul_le_self _ _
  segment_pos := by decide

variable (o : StringOptions)

/-- Strings are added to a segment one after the other; what the callers record of them. -/
def addStrings : List Bytes → StringSegment → StringSegment × List StringRecord
  | [], seg => (seg, [])
  | value :: values, seg =>
    let rest := addStrings values (addString o value seg)
    (rest.1, addedRecord o 0 value seg :: rest.2)

/-- Each string is read from where it was written, and blocks do not end before they begin. -/
def StringsExact (values : List Bytes) : Prop :=
  let added := addStrings o values StringStore.emptySegment
  (∀ k r, added.2[k]? = some r →
    ((added.1.blockPos[r.blockId]?).getD 0 + r.inBlockPos) % 2 ^ 32 =
      ((values.take k).map List.length).sum) ∧
  ∀ b front back, blockBounds added.1 b = some (front, back) → front ≤ back

/-- The blocks of strings that are read from the cache: all but the last. -/
def cachedStrings (values : List Bytes) : ℕ :=
  (addStrings o values StringStore.emptySegment).1.blockPos.length - 1

variable {o} {seg : StringSegment} {values : List Bytes}

theorem getElem?_addStrings {k p : ℕ} (h : seg.blockPos[k]? = some p) :
    (addStrings o values seg).1.blockPos[k]? = some p := by
  induction values generalizing seg with
  | nil => exact h
  | cons value values ih => exact ih (getElem?_addString h)

theorem length_addStrings : (addStrings o values seg).2.length = values.length := by
  induction values generalizing seg with
  | nil => rfl
  | cons value values ih =>
    show (addStrings o values (addString o value seg)).2.length + 1 = values.length + 1
    rw [ih]

/-- **Strings that all begin below 2^32** are recorded where they are. -/
theorem addStrings_exact (hblocks : Blocks seg) (hshort : ∀ v ∈ values, v.length ≤ maxStringLen)
    (hfits : seg.strOffset + (values.dropLast.map List.length).sum < 2 ^ 32) :
    (∀ k r, (addStrings o values seg).2[k]? = some r → ∃ front,
      (addStrings o values seg).1.blockPos[r.blockId]? = some front ∧
      front + r.inBlockPos = seg.strOffset + ((values.take k).map List.length).sum) ∧
    (addStrings o values seg).1.blockPos.Pairwise (· ≤ ·) := by
  induction values generalizing seg with
  | nil =>
    refine ⟨fun k r hr => ?_, hblocks.sorted⟩
    cases hr
  | cons value values ih =>
    obtain ⟨front, hblock, hpos⟩ := @added_block o seg value hblocks 0
    have hfirst : (addStrings o (value :: values) seg).1.blockPos[(addedRecord o 0 value seg).blockId]? =
        some front := @getElem?_addStrings o (addString o value seg) values _ _ hblock
    cases values with
    | nil =>
      refine ⟨fun k r hr => ?_, hblocks.sorted_addString⟩
      cases k with
      | zero =>
        cases hr
        exact ⟨front, hfirst, hpos⟩
      | succ k => cases hr
    | cons next values =>
      rw [List.dropLast_cons_cons, List.map_cons, List.sum_cons] at hfits
      have hroom : seg.strOffset + value.length < 2 ^ 32 := by omega
      have hoffset : (addString o value seg).strOffset = seg.strOffset + value.length :=
        Nat.mod_eq_of_lt hroom
      obtain ⟨hrest, hsorted⟩ := ih (hblocks.addString (hshort value List.mem_cons_self) hroom)
        (fun v hv => hshort v (List.mem_cons_of_mem value hv)) (by rw [hoffset]; omega)
      refine ⟨fun k r hr => ?_, hsorted⟩
      cases k with
      | zero =>
        cases hr
        exact ⟨front, hfirst, hpos⟩
      | succ k =>
        obtain ⟨front', hblock', hpos'⟩ := hrest k r hr
        refine ⟨front', hblock', ?_⟩
        rw [hpos', hoffset, List.take_succ_cons, List.map_cons, List.sum_cons, Nat.add_assoc]

/-- **When reads of strings do not wrap**: all strings begin below 2^32. -/
theorem stringsExact_iff (hshort : ∀ v ∈ values, v.length ≤ maxStringLen) :
    StringsExact o values ↔ (values.dropLast.map List.length).sum < 2 ^ 32 := by
  constructor
  · intro h
    cases hlast : (addStrings o values StringStore.emptySegment).2[values.length - 1]? with
    | none =>
      have hle := List.getElem?_eq_none_iff.mp hlast
      rw [length_addStrings] at hle
      have hnil : values = [] := List.length_eq_zero_iff.mp (by omega)
      rw [hnil]
      decide
    | some r =>
      rw [List.dropLast_eq_take, ← h.1 _ r hlast]
      exact Nat.mod_lt _ (by decide)
  · intro hsum
    have hblocks : Blocks StringStore.emptySegment := StringStore.blocks_unused rfl rfl
    obtain ⟨hrecords, hsorted⟩ := addStrings_exact (o := o) hblocks hshort
      (by rw [show StringStore.emptySegment.strOffset = 0 from rfl, Nat.zero_add]; exact hsum)
    refine ⟨fun k r hr => ?_, fun b front back hbounds => ?_⟩
    · obtain ⟨front, hblock, hpos⟩ := hrecords k r hr
      have hk := (List.getElem?_eq_some_iff.mp hr).1
      rw [length_addStrings] at hk
      have hle : ((values.take k).map List.length).sum ≤ (values.dropLast.map List.length).sum := by
        rw [List.dropLast_eq_take, show values.take k = (values.take (values.length - 1)).take k by
          rw [List.take_take, Nat.min_eq_left (by omega)]]
        exact ((List.take_sublist k _).map List.length).sum_le_sum fun _ _ => Nat.zero_le _
      rw [hblock, Option.getD_some, hpos, show StringStore.emptySegment.strOffset = 0 from rfl, Nat.zero_add]
      exact Nat.mod_eq_of_lt (by omega)
    · unfold blockBounds at hbounds
      split at hbounds
      · next hfront hback =>
        cases hbounds
        obtain ⟨hlt, rfl⟩ := List.getElem?_eq_some_iff.mp hfront
        obtain ⟨hlt', rfl⟩ := List.getElem?_eq_some_iff.mp hback
        exact List.pairwise_iff_getElem.mp hsorted b (b + 1) hlt hlt' (Nat.lt_succ_self b)
      · cases hbounds

/-! ### All segments -/

/-- The items that are in a segment, and its strings in the order in which they were added. -/
structure Segment where
  curSize : ℕ
  strings : List Bytes
  short : ∀ v ∈ strings, v.length ≤ maxStringLen

variable (u : SetUp) (segs : List Segment)

/-- The blocks of items of each segment that are read from the cache. -/
def rowCounts (s : ℕ) : ℕ := (segs[s]?).elim 0 fun seg => cachedRows u.itemLength seg.curSize

/-- The blocks of strings of each segment that are read from the cache. -/
def stringCounts (s : ℕ) : ℕ :=
  (segs[s]?).elim 0 fun seg => cachedStrings (stringOptions u.itemLength) seg.strings

/-- No offset or size wraps, and no two cached blocks have one key. -/
structure Sound : Prop where
  exact_rows : ∀ seg ∈ segs, RowsExact u.itemLength seg.curSize
  exact_strings : ∀ seg ∈ segs, StringsExact (stringOptions u.itemLength) seg.strings
  unique_rows : Unique u.segBlockCapacity (rowCounts u segs)
  unique_strings : Unique u.segBlockCapacity (stringCounts u segs)

/-- Items are not longer than a block, those of a segment end and the last string of each segment begins
below 2^32, and the blocks of any two segments are apart. -/
structure Fits : Prop where
  rows : ∀ seg ∈ segs, seg.curSize = 0 ∨ u.itemLength ≤ 64 * 1024 ∧
    seg.curSize * u.itemLength < 2 ^ 32 ∧ segHeaderSize + (seg.curSize - 1) * u.itemLength < 2 ^ 32
  strings : ∀ seg ∈ segs, (seg.strings.dropLast.map List.length).sum < 2 ^ 32
  blocks : ∀ s, stringCounts u segs s ≤ 2 ^ 32
  apart : ∀ s s', s < s' → Apart u.segBlockCapacity (rowCounts u segs) s s' ∧
    Apart u.segBlockCapacity (stringCounts u segs) s s'

theorem rowCounts_le (s : ℕ) : rowCounts u segs s ≤ 2 ^ 32 := by
  unfold rowCounts
  cases segs[s]? with
  | none => exact Nat.zero_le _
  | some seg =>
    exact Nat.le_trans (Nat.div_le_self _ _) (Nat.le_of_lt (Nat.mod_lt _ (by decide)))

/-- **When blocks are read by unique keys and exact offsets.** -/
theorem sound_iff : Sound u segs ↔ Fits u segs := by
  constructor
  · intro h
    obtain ⟨-, hrows⟩ := (unique_iff _ _).mp h.unique_rows
    obtain ⟨hblocks, hstrings⟩ := (unique_iff _ _).mp h.unique_strings
    constructor
    · intro seg hseg
      exact (rowsExact_iff _ _).mp (h.exact_rows seg hseg)
    · intro seg hseg
      exact (stringsExact_iff seg.short).mp (h.exact_strings seg hseg)
    · exact hblocks
    · intro s s' hss
      exact ⟨hrows s s' hss, hstrings s s' hss⟩
  · intro h
    constructor
    · intro seg hseg
      exact (rowsExact_iff _ _).mpr (h.rows seg hseg)
    · intro seg hseg
      exact (stringsExact_iff seg.short).mpr (h.strings seg hseg)
    · exact (unique_iff _ _).mpr ⟨rowCounts_le u segs, fun s s' hss => (h.apart s s' hss).1⟩
    · exact (unique_iff _ _).mpr ⟨h.blocks, fun s s' hss => (h.apart s s' hss).2⟩

/-- A full segment of a table with rows of 8592 bytes has more than 2^32 bytes; and of vectors of 32772
bytes, in segments of 65528, block 65408 of the first segment has the key of block 0 of segment 4295. -/
theorem unsound :
    ¬Sound (.table 8592) [⟨500000, [], fun _ h => absurd h List.not_mem_nil⟩] ∧
    ¬Unique (SetUp.mmap 32772 65528).segBlockCapacity (rowCounts (.mmap 32772 65528)
      (List.replicate 4296 ⟨65528, [], fun _ h => absurd h List.not_mem_nil⟩)) := by
  constructor
  · intro h
    have hrows := (rowsExact_iff _ _).mp (h.exact_rows _ List.mem_cons_self)
    rcases hrows with hzero | ⟨-, hbytes, -⟩
    · cases hzero
    · exact absurd hbytes (by decide)
  · intro h
    have hcount : ∀ s, s < 4296 → rowCounts (.mmap 32772 65528)
        (List.replicate 4296 ⟨65528, [], fun _ h => absurd h List.not_mem_nil⟩) s = 65528 := by
      intro s hs
      unfold rowCounts
      rw [List.getElem?_replicate_of_lt hs]
      decide
    have hsame := h 0 4295 65408 0 (by rw [hcount 0 (by decide)]; decide)
      (by rw [hcount 4295 (by decide)]; decide) (by decide)
    cases hsame.1

end AwaDB.CacheKey
