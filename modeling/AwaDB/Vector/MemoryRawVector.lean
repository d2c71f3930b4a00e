import AwaDB.Lib.Groups
import AwaDB.Lib.Run
import AwaDB.Table.Row
import Mathlib.Algebra.Order.Ring.Int

/-!
# The vectors in memory (`vector/memory_raw_vector.cc`)

`MemoryRawVector` keeps the vectors in segments that it allocates one by one. The size of a segment and
the offset of the next vector are products of `int`s; the offsets of the readers are `size_t`.

* `int32`: what is left of a number in an `int`;
* the functions as the code has them, with `none` for an access outside of a segment;
* `Addressed`: sizes, offsets and vectors are the right ones;
* `addressed_iff`: exactly which runs are addressed without overflow;
* `segment_too_short`: vectors of 2148 floats, with the default segment size.
-/

namespace AwaDB

open Lib

/-- A number that is put into an `int`. -/
def int32 (x : ℤ) : ℤ := x.bmod (2 ^ 32)

theorem int32_eq_iff {x : ℤ} : int32 x = x ↔ -2 ^ 31 ≤ x ∧ x < 2 ^ 31 := by
  unfold int32 Int.bmod
  dsimp only
  split <;> omega

/-- `kMaxSegments`. -/
def kMaxSegments : ℕ := 10000

/-- The data type and the dimension of the vectors, and `segment_size` of the store parameters, which is
positive when it was parsed. -/
structure VectorStore where
  dataSize : ℤ
  dimension : ℤ
  segmentSize : ℤ
  dataSize_pos : 0 < dataSize
  segmentSize_pos : 0 < segmentSize
  segmentSize_lt : segmentSize < 2 ^ 31

/-- The bytes of a vector, as a mathematical product. -/
def VectorStore.vectorBytes (c : VectorStore) : ℤ := c.dataSize * c.dimension

/-- `MemoryRawVector`, with `size_` of the meta info. -/
structure MemoryRawVector where
  segments : List Bytes
  segmentSize : ℤ
  vectorByteSize : ℤ
  currIdxInSeg : ℤ
  size : ℕ
deriving DecidableEq, Repr

/-- Some vectors in one segment. -/
structure VectorPiece where
  segment : ℕ
  offset : ℤ
  len : ℕ
deriving DecidableEq, Repr

namespace MemoryRawVector

/-- `ExtendSegments`: `new (std::nothrow)` returns no memory for a negative size, or when none is
available. -/
def extendSegments (available : Bool) (v : MemoryRawVector) : Option MemoryRawVector :=
  if v.segments.length ≥ kMaxSegments then none
  else
    let bytes := int32 (v.segmentSize * v.vectorByteSize)
    if bytes < 0 ∨ ¬ available then none
    else some { v with segments := v.segments ++ [List.replicate bytes.toNat 0], currIdxInSeg := 0 }

/-- `InitStore`. The size of a segment on disk is a quotient by the size of a vector; `storage` says
whether the `StorageManager` is set up. -/
def initStore (c : VectorStore) (available storage : Bool) : Option MemoryRawVector :=
  (extendSegments available ⟨[], c.segmentSize, int32 (c.dataSize * c.dimension), 0, 0⟩).bind fun v =>
    if v.vectorByteSize = 0 ∨ ¬ storage then none else some v

/-- A `memcpy` of `bytes` into a segment. -/
def writeAt (v : MemoryRawVector) (segment : ℕ) (offset : ℤ) (bytes : Bytes) : Option MemoryRawVector :=
  (v.segments[segment]?).bind fun seg =>
    if 0 ≤ offset ∧ offset + bytes.length ≤ seg.length then
      some { v with segments := v.segments.set segment (patch seg offset.toNat bytes) }
    else none

/-- Some bytes of a segment. -/
def readAt (v : MemoryRawVector) (segment : ℕ) (offset len : ℤ) : Option Bytes :=
  (v.segments[segment]?).bind fun seg =>
    if 0 ≤ offset ∧ 0 ≤ len ∧ offset + len ≤ seg.length then
      some ((seg.drop offset.toNat).take len.toNat)
    else none

/-- The offset at which `AddToMem` puts the next vector. -/
def nextOffset (v : MemoryRawVector) : ℤ := int32 (v.currIdxInSeg * v.vectorByteSize)

/-- `AddToMem`, and whether it has succeeded; then `RawVector::Add` counts the vector. -/
def addToMem (available : Bool) (bytes : Bytes) (v : MemoryRawVector) : Option (Bool × MemoryRawVector) :=
  match if v.currIdxInSeg = v.segmentSize then extendSegments available v else some v with
  | none => some (false, v)
  | some v =>
    (writeAt v (v.segments.length - 1) (nextOffset v) bytes).map fun v =>
      (true, { v with currIdxInSeg := int32 (v.currIdxInSeg + 1), size := v.size + 1 })

/-- The segment of a vector. -/
def segmentOf (v : MemoryRawVector) (vid : ℕ) : ℕ := vid / v.segmentSize.toNat

/-- Its offset there, as a `size_t`. -/
def offsetOf (v : MemoryRawVector) (vid : ℕ) : ℤ :=
  (vid % v.segmentSize.toNat : ℕ) * v.vectorByteSize % 2 ^ 64

/-- The vector at the address that `GetVector` returns. -/
def getVector (v : MemoryRawVector) (vid : ℕ) : Option Bytes :=
  readAt v (segmentOf v vid) (offsetOf v vid) v.vectorByteSize

/-- `UpdateToStore`. -/
def updateToStore (vid : ℕ) (bytes : Bytes) (v : MemoryRawVector) : Option MemoryRawVector :=
  writeAt v (segmentOf v vid) (offsetOf v vid) bytes

/-- The loop of `GetVectorHeader`: a piece of each segment. -/
def headerLoop (v : MemoryRawVector) : (fuel : ℕ) → (start n : ℕ) → List VectorPiece
  | 0, _, _ => []
  | fuel + 1, start, n =>
    if n = 0 then []
    else
      let len := min (v.segmentSize.toNat - start % v.segmentSize.toNat) n
      ⟨segmentOf v start, offsetOf v start, len⟩ :: headerLoop v fuel (start + len) (n - len)

/-- `GetVectorHeader`; each round takes a vector at least. -/
def getVectorHeader (v : MemoryRawVector) (start n : ℕ) : Option (List VectorPiece) :=
  if int32 (start + n) > int32 v.size then none else some (headerLoop v n start n)

/-- The bytes of a piece. -/
def pieceBytes (v : MemoryRawVector) (p : VectorPiece) : Option Bytes :=
  readAt v p.segment p.offset (p.len * v.vectorByteSize)

/-! ### What is to hold -/

variable {c : VectorStore} {v : MemoryRawVector} {vs : List Bytes} {bytes : Bytes} {vid start n : ℕ}

/-- **Sizes, offsets and vectors are the right ones.** -/
structure Addressed (c : VectorStore) (v : MemoryRawVector) (vs : List Bytes) : Prop where
  vectorByteSize : v.vectorByteSize = c.vectorBytes
  allocation : ∀ seg ∈ v.segments, (seg.length : ℤ) = c.segmentSize * c.vectorBytes
  next : nextOffset v = v.currIdxInSeg * c.vectorBytes
  offset : ∀ vid, offsetOf v vid = (vid : ℤ) % c.segmentSize * c.vectorBytes
  getVector : ∀ vid bytes, vs[vid]? = some bytes → getVector v vid = some bytes
  header : ∀ start n, start + n ≤ vs.length → ∃ pieces, getVectorHeader v start n = some pieces ∧
    (pieces.mapM (pieceBytes v)).map List.flatten = some ((vs.drop start).take n).flatten
  refused : ∀ start n, vs.length < start + n → start + n < 2 ^ 31 → getVectorHeader v start n = none

/-- A segment has a size that an `int` has. -/
def Small (c : VectorStore) : Prop := 0 < c.dimension ∧ c.segmentSize * c.vectorBytes < 2 ^ 31

instance (c : VectorStore) : Decidable (Small c) :=
  inferInstanceAs (Decidable (0 < c.dimension ∧ c.segmentSize * c.vectorBytes < 2 ^ 31))

/-- **Between two calls**: the vectors stand one behind the other in the segments. -/
structure Inv (c : VectorStore) (v : MemoryRawVector) (vs : List Bytes) : Prop where
  segmentSize : v.segmentSize = c.segmentSize
  vectorByteSize : v.vectorByteSize = c.vectorBytes
  uniform : Uniform (c.segmentSize.toNat * c.vectorBytes.toNat) v.segments
  vectors : Uniform c.vectorBytes.toNat vs
  content : v.segments.flatten.take (vs.length * c.vectorBytes.toNat) = vs.flatten
  size : v.size = vs.length
  size_lt : vs.length < 2 ^ 31
  some_segment : 1 ≤ v.segments.length
  curr : 0 ≤ v.currIdxInSeg ∧ v.currIdxInSeg ≤ c.segmentSize
  length : vs.length = (v.segments.length - 1) * c.segmentSize.toNat + v.currIdxInSeg.toNat

/-- The numbers as they are without a sign. -/
theorem Small.facts (h : Small c) :
    (c.vectorBytes.toNat : ℤ) = c.vectorBytes ∧ (c.segmentSize.toNat : ℤ) = c.segmentSize ∧
      0 < c.vectorBytes.toNat ∧ 0 < c.segmentSize.toNat ∧
      c.segmentSize.toNat * c.vectorBytes.toNat < 2 ^ 31 := by
  have hbytes : 0 < c.vectorBytes := Int.mul_pos c.dataSize_pos h.1
  have hsegment := c.segmentSize_pos
  have hB : (c.vectorBytes.toNat : ℤ) = c.vectorBytes := Int.toNat_of_nonneg (Int.le_of_lt hbytes)
  have hS : (c.segmentSize.toNat : ℤ) = c.segmentSize := Int.toNat_of_nonneg (Int.le_of_lt hsegment)
  have hmul : ((c.segmentSize.toNat * c.vectorBytes.toNat : ℕ) : ℤ) < 2 ^ 31 := by
    rw [Int.natCast_mul, hS, hB]
    exact h.2
  refine ⟨hB, hS, by omega, by omega, ?_⟩
  exact_mod_cast hmul

/-! ### Reading -/

theorem Inv.segmentOf_eq (h : Inv c v vs) (vid : ℕ) : segmentOf v vid = vid / c.segmentSize.toNat := by
  unfold segmentOf
  rw [h.segmentSize]

/-- An offset is inside of a segment, and far from the end of a `size_t`. -/
theorem Inv.offsetOf_eq (h : Inv c v vs) (hsmall : Small c) (vid : ℕ) :
    offsetOf v vid = ((vid % c.segmentSize.toNat * c.vectorBytes.toNat : ℕ) : ℤ) := by
  obtain ⟨hB, -, -, hS, hmul⟩ := hsmall.facts
  have hle : vid % c.segmentSize.toNat * c.vectorBytes.toNat ≤
      c.segmentSize.toNat * c.vectorBytes.toNat :=
    Nat.mul_le_mul_right _ (Nat.le_of_lt (Nat.mod_lt vid hS))
  have hcast : ((vid % c.segmentSize.toNat : ℕ) : ℤ) * c.vectorBytes =
      ((vid % c.segmentSize.toNat * c.vectorBytes.toNat : ℕ) : ℤ) := by
    rw [Int.natCast_mul, hB]
  unfold offsetOf
  rw [h.segmentSize, h.vectorByteSize, hcast]
  omega

/-- The address of a vector in the segments, one behind the other. -/
theorem address_eq (S B vid : ℕ) : vid / S * (S * B) + vid % S * B = vid * B := by
  rw [← Nat.mul_assoc, ← Nat.add_mul, Nat.mul_comm (vid / S), Nat.div_add_mod]

theorem Inv.length_le (h : Inv c v vs) :
    vs.length ≤ v.segments.length * c.segmentSize.toNat := by
  have hone := h.some_segment
  have hcurr := h.curr
  have hsplit : v.segments.length * c.segmentSize.toNat =
      (v.segments.length - 1) * c.segmentSize.toNat + c.segmentSize.toNat := by
    rw [← Nat.succ_mul, Nat.succ_eq_add_one, Nat.sub_add_cancel hone]
  rw [hsplit, h.length]
  omega

/-- Vectors that stand in one segment. -/
theorem Inv.readAt_eq (h : Inv c v vs) (hsmall : Small c) {len : ℕ} (hlen : start + len ≤ vs.length)
    (hpos : 0 < len) (hseg : start % c.segmentSize.toNat + len ≤ c.segmentSize.toNat) :
    readAt v (segmentOf v start) (offsetOf v start) (len * v.vectorByteSize) =
      some ((vs.drop start).take len).flatten := by
  obtain ⟨hB, -, -, hS, -⟩ := hsmall.facts
  have hlt : start / c.segmentSize.toNat < v.segments.length := by
    rw [Nat.div_lt_iff_lt_mul hS]
    have hle := h.length_le
    omega
  obtain ⟨seg, hget⟩ : ∃ seg, v.segments[start / c.segmentSize.toNat]? = some seg :=
    ⟨_, List.getElem?_eq_getElem hlt⟩
  have hsegLength : seg.length = c.segmentSize.toNat * c.vectorBytes.toNat :=
    h.uniform seg (List.mem_of_getElem? hget)
  have hfit : start % c.segmentSize.toNat * c.vectorBytes.toNat + len * c.vectorBytes.toNat ≤
      c.segmentSize.toNat * c.vectorBytes.toNat := by
    rw [← Nat.add_mul]
    exact Nat.mul_le_mul_right _ hseg
  have hend : start * c.vectorBytes.toNat + len * c.vectorBytes.toNat ≤
      vs.length * c.vectorBytes.toNat := by
    rw [← Nat.add_mul]
    exact Nat.mul_le_mul_right _ hlen
  have hbytes : (len : ℤ) * v.vectorByteSize = ((len * c.vectorBytes.toNat : ℕ) : ℤ) := by
    rw [h.vectorByteSize, Int.natCast_mul, hB]
  unfold readAt
  rw [h.segmentOf_eq, h.offsetOf_eq hsmall, hget, Option.bind_some, hbytes, hsegLength,
    if_pos (by omega), Int.toNat_natCast, Int.toNat_natCast, h.uniform.take_drop hget hfit, address_eq]
  have htake : (v.segments.flatten.drop (start * c.vectorBytes.toNat)).take (len * c.vectorBytes.toNat) =
      (vs.flatten.drop (start * c.vectorBytes.toNat)).take (len * c.vectorBytes.toNat) := by
    rw [← h.content, List.drop_take, List.take_take, Nat.min_eq_left (by omega)]
  have hvectors : Uniform c.vectorBytes.toNat (vs.drop start) :=
    fun group hmem => h.vectors group (List.mem_of_mem_drop hmem)
  rw [htake, ← h.vectors.flatten_drop, ← hvectors.flatten_take]

theorem Inv.getVector_eq (h : Inv c v vs) (hsmall : Small c) (hvid : vs[vid]? = some bytes) :
    getVector v vid = some bytes := by
  obtain ⟨-, -, -, hS, -⟩ := hsmall.facts
  obtain ⟨hlt, hget⟩ := List.getElem?_eq_some_iff.mp hvid
  have hmod := Nat.mod_lt vid hS
  have hread := h.readAt_eq hsmall (show vid + 1 ≤ vs.length by omega) Nat.one_pos (by omega)
  rw [List.drop_eq_getElem_cons hlt, hget] at hread
  unfold getVector
  simpa using hread

/-- The pieces of a range are its vectors. -/
theorem Inv.headerLoop_eq (h : Inv c v vs) (hsmall : Small c) (fuel : ℕ) (hfuel : n ≤ fuel)
    (hn : start + n ≤ vs.length) :
    ((headerLoop v fuel start n).mapM (pieceBytes v)).map List.flatten =
      some ((vs.drop start).take n).flatten := by
  obtain ⟨-, -, -, hS, -⟩ := hsmall.facts
  induction fuel generalizing start n with
  | zero =>
    have hzero : n = 0 := by omega
    rw [hzero]
    simp [headerLoop]
  | succ fuel ih =>
    unfold headerLoop
    by_cases hzero : n = 0
    · rw [if_pos hzero, hzero]
      simp
    rw [if_neg hzero, h.segmentSize]
    dsimp only
    have hmod := Nat.mod_lt start hS
    obtain ⟨len, hlen⟩ : ∃ len, len = min (c.segmentSize.toNat - start % c.segmentSize.toNat) n := ⟨_, rfl⟩
    have hroom : start % c.segmentSize.toNat + len ≤ c.segmentSize.toNat := by omega
    have hin : start + len ≤ vs.length := by omega
    have hpos : 0 < len := by omega
    rw [← hlen]
    have hpiece : pieceBytes v ⟨segmentOf v start, offsetOf v start, len⟩ =
        some ((vs.drop start).take len).flatten :=
      h.readAt_eq hsmall hin hpos hroom
    have hrest := ih (show n - len ≤ fuel by omega) (show start + len + (n - len) ≤ vs.length by omega)
    obtain ⟨rest, hmapM, hflatten⟩ := Option.map_eq_some_iff.mp hrest
    have hsplit : (vs.drop start).take n =
        (vs.drop start).take len ++ (vs.drop (start + len)).take (n - len) := by
      rw [← List.drop_drop, ← List.take_add, Nat.add_sub_cancel' (by omega)]
    rw [List.mapM_cons, hpiece, hmapM, hsplit, List.flatten_append, ← hflatten]
    rfl

/-- A range that `int` has is refused exactly if it ends behind the vectors. -/
theorem Inv.getVectorHeader_eq (h : Inv c v vs) (hrange : start + n < 2 ^ 31) :
    getVectorHeader v start n =
      if vs.length < start + n then none else some (headerLoop v n start n) := by
  have hsize := h.size
  have hlt := h.size_lt
  have hstart : int32 ((start : ℤ) + n) = start + n := int32_eq_iff.mpr (by omega)
  have hend : int32 (v.size : ℤ) = v.size := int32_eq_iff.mpr (by omega)
  unfold getVectorHeader
  rw [hstart, hend]
  exact if_congr (by omega) rfl rfl

theorem Inv.addressed (h : Inv c v vs) (hsmall : Small c) : Addressed c v vs where
  vectorByteSize := h.vectorByteSize
  allocation seg hmem := by
    obtain ⟨hB, hS, -⟩ := hsmall.facts
    rw [h.uniform seg hmem, Int.natCast_mul, hS, hB]
  next := by
    obtain ⟨hB, -, hpos, -⟩ := hsmall.facts
    have hcurr := h.curr
    have hle : v.currIdxInSeg * c.vectorBytes ≤ c.segmentSize * c.vectorBytes :=
      Int.mul_le_mul_of_nonneg_right hcurr.2 (by omega)
    have hnonneg : 0 ≤ v.currIdxInSeg * c.vectorBytes := Int.mul_nonneg hcurr.1 (by omega)
    have hlt := hsmall.2
    unfold nextOffset
    rw [h.vectorByteSize, int32_eq_iff]
    omega
  offset vid := by
    obtain ⟨hB, hS, -⟩ := hsmall.facts
    rw [h.offsetOf_eq hsmall, Int.natCast_mul, Int.natCast_mod, hS, hB]
  getVector _ _ hvid := h.getVector_eq hsmall hvid
  header start n hn := by
    have hsize := h.size
    have hlt := h.size_lt
    rw [h.getVectorHeader_eq (by omega), if_neg (by omega)]
    exact ⟨_, rfl, h.headerLoop_eq hsmall n (Nat.le_refl n) hn⟩
  refused start n hgt hn := by
    rw [h.getVectorHeader_eq hn, if_pos hgt]

/-! ### Set-up -/

/-- A segment that is accepted has the size that is computed. -/
theorem initStore_eq_some {available storage : Bool} (h : initStore c available storage = some v) :
    0 ≤ int32 (c.segmentSize * int32 (c.dataSize * c.dimension)) ∧
      int32 (c.dataSize * c.dimension) ≠ 0 ∧
      v = ⟨[List.replicate (int32 (c.segmentSize * int32 (c.dataSize * c.dimension))).toNat 0],
        c.segmentSize, int32 (c.dataSize * c.dimension), 0, 0⟩ := by
  obtain ⟨v', hextend, hstore⟩ := Option.bind_eq_some_iff.mp h
  unfold extendSegments at hextend
  dsimp only at hextend
  rw [if_neg (by decide)] at hextend
  rw [Option.ite_none_left_eq_some] at hextend hstore
  obtain ⟨hbytes, hv'⟩ := hextend
  obtain ⟨hsize, hv⟩ := hstore
  rw [← Option.some.inj hv] at *
  rw [← Option.some.inj hv'] at *
  rw [not_or] at hbytes hsize
  exact ⟨Int.not_lt.mp hbytes.1, hsize.1, rfl⟩

/-- A small segment. -/
theorem inv_initStore {available storage : Bool} (hsmall : Small c)
    (h : initStore c available storage = some v) : Inv c v [] := by
  obtain ⟨-, -, rfl⟩ := initStore_eq_some h
  obtain ⟨hB, hS, hBpos, hSpos, hmul⟩ := hsmall.facts
  have hle : c.vectorBytes ≤ c.segmentSize * c.vectorBytes := by
    have hone : 1 * c.vectorBytes ≤ c.segmentSize * c.vectorBytes :=
      Int.mul_le_mul_of_nonneg_right c.segmentSize_pos (by omega)
    rwa [Int.one_mul] at hone
  have hbytes : int32 (c.dataSize * c.dimension) = c.vectorBytes :=
    int32_eq_iff.mpr ⟨by show -2 ^ 31 ≤ c.vectorBytes; omega, Int.lt_of_le_of_lt hle hsmall.2⟩
  have hsegment : int32 (c.segmentSize * c.vectorBytes) = c.segmentSize * c.vectorBytes :=
    int32_eq_iff.mpr ⟨by omega, hsmall.2⟩
  have hlength : (c.segmentSize * c.vectorBytes).toNat = c.segmentSize.toNat * c.vectorBytes.toNat := by
    rw [← hS, ← hB, ← Int.natCast_mul, Int.toNat_natCast, Int.toNat_natCast, Int.toNat_natCast]
  rw [hbytes, hsegment, hlength]
  constructor
  · rfl
  · rfl
  · exact uniform_replicate List.length_replicate 1
  · exact uniform_nil
  · simp
  · rfl
  · decide
  · exact Nat.le_refl 1
  · exact ⟨Int.le_refl 0, Int.le_of_lt c.segmentSize_pos⟩
  · simp

/-- A segment that has the right size is small. -/
theorem small_of_addressed {available storage : Bool} (h : initStore c available storage = some v)
    (haddressed : Addressed c v []) : Small c := by
  obtain ⟨hnonneg, hne, rfl⟩ := initStore_eq_some h
  have hbytes : int32 (c.dataSize * c.dimension) = c.vectorBytes := haddressed.vectorByteSize
  have hlength := haddressed.allocation _ List.mem_cons_self
  rw [List.length_replicate, Int.toNat_of_nonneg hnonneg, hbytes] at hlength
  have hrange := (int32_eq_iff.mp hlength).2
  rw [hbytes] at hnonneg hne
  rw [hlength] at hnonneg
  have hpos : 0 < c.vectorBytes := by
    have hnot : ¬ c.vectorBytes < 0 := fun hneg =>
      absurd (Int.mul_neg_of_pos_of_neg c.segmentSize_pos hneg) (Int.not_lt.mpr hnonneg)
    omega
  exact ⟨pos_of_mul_pos_right hpos (Int.le_of_lt c.dataSize_pos), hrange⟩

/-! ### Writing -/

/-- A vector is copied to its address. -/
theorem Inv.writeAt_eq (h : Inv c v vs) (hsmall : Small c) (hbytes : bytes.length = c.vectorBytes.toNat)
    (hvid : vid < v.segments.length * c.segmentSize.toNat) :
    ∃ segments, writeAt v (vid / c.segmentSize.toNat)
        ((vid % c.segmentSize.toNat * c.vectorBytes.toNat : ℕ) : ℤ) bytes = some { v with segments } ∧
      segments.length = v.segments.length ∧
      Uniform (c.segmentSize.toNat * c.vectorBytes.toNat) segments ∧
      segments.flatten = patch v.segments.flatten (vid * c.vectorBytes.toNat) bytes := by
  obtain ⟨-, -, -, hS, -⟩ := hsmall.facts
  have hlt : vid / c.segmentSize.toNat < v.segments.length := by
    rw [Nat.div_lt_iff_lt_mul hS]
    exact hvid
  obtain ⟨seg, hget⟩ : ∃ seg, v.segments[vid / c.segmentSize.toNat]? = some seg :=
    ⟨_, List.getElem?_eq_getElem hlt⟩
  have hsegLength : seg.length = c.segmentSize.toNat * c.vectorBytes.toNat :=
    h.uniform seg (List.mem_of_getElem? hget)
  have hfit : vid % c.segmentSize.toNat * c.vectorBytes.toNat + bytes.length ≤
      c.segmentSize.toNat * c.vectorBytes.toNat := by
    rw [hbytes, ← Nat.succ_mul]
    exact Nat.mul_le_mul_right _ (Nat.mod_lt vid hS)
  refine ⟨_, ?_, List.length_set, h.uniform.set_patch hget hfit, ?_⟩
  · unfold writeAt
    rw [hget, Option.bind_some, hsegLength, if_pos (by omega), Int.toNat_natCast]
  · rw [h.uniform.flatten_patch hget hfit, address_eq]

/-- The bytes of the segments. -/
theorem Inv.flatten_length (h : Inv c v vs) :
    v.segments.flatten.length = v.segments.length * c.segmentSize.toNat * c.vectorBytes.toNat := by
  rw [h.uniform.length_flatten, Nat.mul_assoc]

/-- `UpdateToStore`. -/
theorem Inv.update (h : Inv c v vs) (hsmall : Small c) (hbytes : bytes.length = c.vectorBytes.toNat)
    (hvid : vid < vs.length) :
    ∃ v', updateToStore vid bytes v = some v' ∧ Inv c v' (vs.set vid bytes) := by
  have hle := h.length_le
  obtain ⟨segments, hwrite, hlength, huniform, hflatten⟩ :=
    h.writeAt_eq hsmall hbytes (Nat.lt_of_lt_of_le hvid hle)
  obtain ⟨old, hget⟩ : ∃ old, vs[vid]? = some old := ⟨_, List.getElem?_eq_getElem hvid⟩
  have hold : old.length = c.vectorBytes.toNat := h.vectors old (List.mem_of_getElem? hget)
  have hwhole : patch old 0 bytes = bytes := by
    unfold patch
    rw [List.take_zero, List.nil_append, Nat.zero_add, List.drop_of_length_le (by omega), List.append_nil]
  have hvectors := h.vectors.flatten_patch hget (show 0 + bytes.length ≤ c.vectorBytes.toNat by omega)
  rw [hwhole, Nat.add_zero] at hvectors
  have hend : vid * c.vectorBytes.toNat + bytes.length ≤ vs.length * c.vectorBytes.toNat := by
    rw [hbytes, ← Nat.succ_mul]
    exact Nat.mul_le_mul_right _ hvid
  have hmem : vs.length * c.vectorBytes.toNat ≤ v.segments.flatten.length := by
    rw [h.flatten_length]
    exact Nat.mul_le_mul_right _ hle
  refine ⟨{ v with segments }, ?_, ?_⟩
  · unfold updateToStore
    rw [h.segmentOf_eq, h.offsetOf_eq hsmall]
    exact hwrite
  constructor
  · exact h.segmentSize
  · exact h.vectorByteSize
  · exact huniform
  · intro group hmem
    cases List.mem_or_eq_of_mem_set hmem with
    | inl hin => exact h.vectors group hin
    | inr heq => rw [heq]; exact hbytes
  · show segments.flatten.take ((vs.set vid bytes).length * c.vectorBytes.toNat) = _
    rw [List.length_set, hflatten, patch_take _ _ hend hmem, h.content, hvectors]
  · rw [List.length_set]
    exact h.size
  · rw [List.length_set]
    exact h.size_lt
  · show 1 ≤ segments.length
    rw [hlength]
    exact h.some_segment
  · exact h.curr
  · show (vs.set vid bytes).length = (segments.length - 1) * c.segmentSize.toNat + v.currIdxInSeg.toNat
    rw [List.length_set, hlength]
    exact h.length

/-- A segment more. -/
theorem Inv.extend (h : Inv c v vs) (hsmall : Small c) (hfull : v.currIdxInSeg = v.segmentSize)
    {available : Bool} {v' : MemoryRawVector} (hextend : extendSegments available v = some v') :
    Inv c v' vs ∧ v'.currIdxInSeg = 0 := by
  obtain ⟨hB, hS, -, -, -⟩ := hsmall.facts
  have hsegment : int32 (v.segmentSize * v.vectorByteSize) = c.segmentSize * c.vectorBytes := by
    rw [h.segmentSize, h.vectorByteSize]
    refine int32_eq_iff.mpr ⟨?_, hsmall.2⟩
    rw [← hS, ← hB, ← Int.natCast_mul]
    omega
  have hlength : (c.segmentSize * c.vectorBytes).toNat = c.segmentSize.toNat * c.vectorBytes.toNat := by
    rw [← hS, ← hB, ← Int.natCast_mul, Int.toNat_natCast, Int.toNat_natCast, Int.toNat_natCast]
  unfold extendSegments at hextend
  dsimp only at hextend
  rw [Option.ite_none_left_eq_some, Option.ite_none_left_eq_some] at hextend
  obtain ⟨-, -, hv'⟩ := hextend
  rw [hsegment, hlength] at hv'
  rw [← Option.some.inj hv']
  refine ⟨?_, rfl⟩
  constructor
  · exact h.segmentSize
  · exact h.vectorByteSize
  · exact h.uniform.append (uniform_replicate List.length_replicate 1)
  · exact h.vectors
  · show (v.segments ++ _).flatten.take _ = _
    have hmem : vs.length * c.vectorBytes.toNat ≤ v.segments.flatten.length := by
      rw [h.flatten_length]
      exact Nat.mul_le_mul_right _ h.length_le
    rw [List.flatten_append, List.take_append_of_le_length hmem]
    exact h.content
  · exact h.size
  · exact h.size_lt
  · show 1 ≤ (v.segments ++ _).length
    rw [List.length_append, List.length_singleton]
    omega
  · exact ⟨Int.le_refl 0, Int.le_of_lt c.segmentSize_pos⟩
  · show vs.length = ((v.segments ++ _).length - 1) * c.segmentSize.toNat + (0 : ℤ).toNat
    have hone := h.some_segment
    have hcurr : v.currIdxInSeg.toNat = c.segmentSize.toNat := by rw [hfull, h.segmentSize]
    rw [List.length_append, List.length_singleton, Nat.add_sub_cancel, h.length, hcurr, ← Nat.succ_mul,
      Nat.succ_eq_add_one, Nat.sub_add_cancel hone]
    rfl

/-- A vector is copied behind the last one. -/
theorem Inv.append (h : Inv c v vs) (hsmall : Small c) (hbytes : bytes.length = c.vectorBytes.toNat)
    (hcurr : v.currIdxInSeg < c.segmentSize) (hsize : v.size + 1 < 2 ^ 31) :
    ∃ v', writeAt v (v.segments.length - 1) (nextOffset v) bytes = some v' ∧
      Inv c { v' with currIdxInSeg := int32 (v'.currIdxInSeg + 1), size := v'.size + 1 }
        (vs ++ [bytes]) := by
  obtain ⟨hB, hS, -, hSpos, -⟩ := hsmall.facts
  have hnonneg := h.curr.1
  have hlt : v.currIdxInSeg.toNat < c.segmentSize.toNat := by omega
  have hone := h.some_segment
  have hdiv : vs.length / c.segmentSize.toNat = v.segments.length - 1 := by
    rw [h.length, Nat.mul_comm, Nat.mul_add_div hSpos, Nat.div_eq_of_lt hlt, Nat.add_zero]
  have hmod : vs.length % c.segmentSize.toNat = v.currIdxInSeg.toNat := by
    rw [h.length, Nat.mul_comm, Nat.mul_add_mod, Nat.mod_eq_of_lt hlt]
  have hroom : vs.length < v.segments.length * c.segmentSize.toNat := by
    rw [← Nat.div_lt_iff_lt_mul hSpos, hdiv]
    omega
  have hoffset : nextOffset v = ((v.currIdxInSeg.toNat * c.vectorBytes.toNat : ℕ) : ℤ) := by
    rw [(h.addressed hsmall).next, Int.natCast_mul, Int.toNat_of_nonneg hnonneg, hB]
  obtain ⟨segments, hwrite, hlength, huniform, hflatten⟩ := h.writeAt_eq hsmall hbytes hroom
  rw [hdiv, hmod, ← hoffset] at hwrite
  have hsegmentSize := c.segmentSize_lt
  have hnext : int32 (v.currIdxInSeg + 1) = v.currIdxInSeg + 1 := int32_eq_iff.mpr (by omega)
  refine ⟨_, hwrite, ?_⟩
  constructor
  · exact h.segmentSize
  · exact h.vectorByteSize
  · exact huniform
  · intro group hmem
    cases List.mem_append.mp hmem with
    | inl hin => exact h.vectors group hin
    | inr heq => rw [List.mem_singleton.mp heq]; exact hbytes
  · show segments.flatten.take ((vs ++ [bytes]).length * c.vectorBytes.toNat) = _
    have hmem : vs.length * c.vectorBytes.toNat ≤ v.segments.flatten.length := by
      rw [h.flatten_length]
      exact Nat.mul_le_mul_right _ h.length_le
    rw [List.length_append, List.length_singleton, Nat.succ_mul, ← hbytes, hflatten, hbytes,
      ← hbytes, patch_take_end _ _ (by rw [hbytes]; exact hmem), hbytes, h.content, List.flatten_append]
    simp
  · show v.size + 1 = _
    rw [List.length_append, List.length_singleton, h.size]
  · rw [List.length_append, List.length_singleton, ← h.size]
    exact hsize
  · show 1 ≤ segments.length
    rw [hlength]
    exact hone
  · show 0 ≤ int32 (v.currIdxInSeg + 1) ∧ int32 (v.currIdxInSeg + 1) ≤ c.segmentSize
    rw [hnext]
    omega
  · show (vs ++ [bytes]).length =
      (segments.length - 1) * c.segmentSize.toNat + (int32 (v.currIdxInSeg + 1)).toNat
    rw [hnext, hlength, List.length_append, List.length_singleton, h.length]
    omega

/-! ### Runs -/

/-- A vector is added, when memory for a segment is available or not, or updated; `bytes` are those that
`memcpy` reads. -/
inductive StoreOp where
  | add (available : Bool) (bytes : Bytes)
  | update (vid : ℕ) (bytes : Bytes)
deriving DecidableEq, Repr

/-- One operation, with the vectors that were accepted. `RawVector::Update` refuses a vector that there is
not. -/
def step : StoreOp → MemoryRawVector × List Bytes → Option (MemoryRawVector × List Bytes)
  | .add available bytes, (v, vs) =>
    (addToMem available bytes v).map fun r => (r.2, if r.1 then vs ++ [bytes] else vs)
  | .update vid bytes, (v, vs) =>
    if vid ≥ v.size then some (v, vs)
    else (updateToStore vid bytes v).map fun v => (v, vs.set vid bytes)

/-- A vector has the bytes of a vector. -/
def Legal (c : VectorStore) : StoreOp → MemoryRawVector × List Bytes → Prop
  | .add _ bytes, _ => (bytes.length : ℤ) = c.vectorBytes
  | .update _ bytes, _ => (bytes.length : ℤ) = c.vectorBytes

/-- There is no segment for another vector. -/
def Refuses (available : Bool) (v : MemoryRawVector) : Prop :=
  v.currIdxInSeg = v.segmentSize ∧ extendSegments available v = none

/-- The number of vectors is an `int`. -/
def Fits : StoreOp → MemoryRawVector × List Bytes → Prop
  | .add available _, p => Refuses available p.1 ∨ p.1.size + 1 < 2 ^ 31
  | .update _ _, _ => True

/-- What `AddToMem` does: it refuses, or the state that it copies the vector in has room for it. -/
theorem Inv.addToMem_cases (h : Inv c v vs) (hsmall : Small c) (available : Bool) (bytes : Bytes) :
    (Refuses available v ∧ addToMem available bytes v = some (false, v)) ∨
      ∃ v₁, Inv c v₁ vs ∧ v₁.currIdxInSeg < c.segmentSize ∧ v₁.size = v.size ∧ ¬ Refuses available v ∧
        addToMem available bytes v = (writeAt v₁ (v₁.segments.length - 1) (nextOffset v₁) bytes).map
          fun v => (true, { v with currIdxInSeg := int32 (v.currIdxInSeg + 1), size := v.size + 1 }) := by
  have hpos := c.segmentSize_pos
  unfold addToMem Refuses
  by_cases hfull : v.currIdxInSeg = v.segmentSize
  · rw [if_pos hfull]
    cases hextend : extendSegments available v with
    | none => exact .inl ⟨⟨hfull, rfl⟩, rfl⟩
    | some v₁ =>
      obtain ⟨hinv, hzero⟩ := h.extend hsmall hfull hextend
      refine .inr ⟨v₁, hinv, by omega, ?_, by simp, rfl⟩
      rw [hinv.size, h.size]
  · rw [if_neg hfull]
    have hcurr := h.curr
    rw [h.segmentSize] at hfull
    refine .inr ⟨v, h, by omega, rfl, fun hrefuses => ?_, rfl⟩
    rw [h.segmentSize] at hrefuses
    exact hfull hrefuses.1

theorem Inv.step {op : StoreOp} {p : MemoryRawVector × List Bytes} (h : Inv c p.1 p.2) (hsmall : Small c)
    (hlegal : Legal c op p) (hfits : Fits op p) : ∃ p', step op p = some p' ∧ Inv c p'.1 p'.2 := by
  obtain ⟨v, vs⟩ := p
  obtain ⟨hB, -⟩ := hsmall.facts
  cases op with
  | add available bytes =>
    have hbytes : bytes.length = c.vectorBytes.toNat := by
      have hlength : (bytes.length : ℤ) = c.vectorBytes := hlegal
      omega
    show ∃ p', (addToMem available bytes v).map _ = some p' ∧ _
    cases h.addToMem_cases hsmall available bytes with
    | inl hrefuses =>
      rw [hrefuses.2]
      exact ⟨(v, vs), rfl, h⟩
    | inr hadds =>
      obtain ⟨v₁, hinv, hcurr, hsize, hnot, hadd⟩ := hadds
      have hlt : v.size + 1 < 2 ^ 31 := hfits.resolve_left hnot
      obtain ⟨v', hwrite, hinv'⟩ := hinv.append hsmall hbytes hcurr (by rw [hsize]; exact hlt)
      rw [hadd, hwrite]
      exact ⟨_, rfl, hinv'⟩
  | update vid bytes =>
    have hbytes : bytes.length = c.vectorBytes.toNat := by
      have hlength : (bytes.length : ℤ) = c.vectorBytes := hlegal
      omega
    show ∃ p', (if vid ≥ v.size then some (v, vs) else _) = some p' ∧ _
    by_cases hvid : vid ≥ v.size
    · rw [if_pos hvid]
      exact ⟨(v, vs), rfl, h⟩
    · have hsize : v.size = vs.length := h.size
      obtain ⟨v', hupdate, hinv⟩ := h.update hsmall hbytes (by omega : vid < vs.length)
      rw [if_neg hvid, hupdate]
      exact ⟨(v', vs.set vid bytes), rfl, hinv⟩

theorem writeAt_size {segment : ℕ} {offset : ℤ} {v' : MemoryRawVector}
    (h : writeAt v segment offset bytes = some v') : v'.size = v.size := by
  obtain ⟨seg, -, hwrite⟩ := Option.bind_eq_some_iff.mp h
  rw [Option.ite_none_right_eq_some] at hwrite
  rw [← Option.some.inj hwrite.2]

theorem getVectorHeader_too_many (hsize : v.size = 2 ^ 31) : getVectorHeader v 0 1 = none := by
  have hgt : int32 ((0 : ℕ) + (1 : ℕ)) > int32 (v.size : ℤ) := by
    rw [hsize]
    decide
  unfold getVectorHeader
  rw [if_pos hgt]

/-- When the number of vectors is no `int` any more, `GetVectorHeader` refuses every range. -/
theorem step_not_fits {op : StoreOp} {p p' : MemoryRawVector × List Bytes} (h : Inv c p.1 p.2)
    (hsmall : Small c) (hlegal : Legal c op p) (hfits : ¬ Fits op p) (hstep : step op p = some p') :
    ¬ Addressed c p'.1 p'.2 := by
  obtain ⟨v, vs⟩ := p
  intro haddressed
  cases op with
  | add available bytes =>
    have hnot : ¬ Refuses available v ∧ ¬ v.size + 1 < 2 ^ 31 := not_or.mp hfits
    cases h.addToMem_cases hsmall available bytes with
    | inl hrefuses => exact hnot.1 hrefuses.1
    | inr hadds =>
      obtain ⟨v₁, hinv, hcurr, hsize, -, hadd⟩ := hadds
      have hrun : (addToMem available bytes v).map
        (fun r => (r.2, if r.1 then vs ++ [bytes] else vs)) = some p' := hstep
      rw [hadd, Option.map_map, Option.map_eq_some_iff] at hrun
      obtain ⟨v', hwrite, rfl⟩ := hrun
      obtain ⟨pieces, hheader, -⟩ := haddressed.header 0 1 (by simp)
      have hnone := getVectorHeader_too_many (v := { v' with
        currIdxInSeg := int32 (v'.currIdxInSeg + 1), size := v'.size + 1 }) (by
          show v'.size + 1 = 2 ^ 31
          have hlength : v.size = vs.length := h.size
          have hlt : vs.length < 2 ^ 31 := h.size_lt
          have hmany : ¬ v.size + 1 < 2 ^ 31 := hnot.2
          rw [writeAt_size hwrite, hsize]
          show v.size + 1 = 2 ^ 31
          omega)
      exact absurd (hheader.symm.trans hnone) (Option.some_ne_none pieces)
  | update vid bytes => exact hfits trivial

/-- **No overflow**: from a store that was set up, the operations stay inside the segments, and sizes,
offsets and vectors are in every state the right ones, exactly when a segment has a size that an `int` has
and every vector that is added is counted by one. -/
theorem addressed_iff (available storage : Bool) {ops : List StoreOp}
    (hinit : initStore c available storage = some v) (hlegal : Guarded step (Legal c) ops (v, [])) :
    ((∃ p, runOps step ops (v, []) = some p) ∧
      Always step (fun p => Addressed c p.1 p.2) ops (v, [])) ↔
      Small c ∧ Guarded step Fits ops (v, []) := by
  by_cases hsmall : Small c
  · have hiff := defined_always_iff (P := fun p => Addressed c p.1 p.2)
      (A := fun p => Inv c p.1 p.2) (L := Legal c) (G := Fits) (fun p h => h.addressed hsmall)
      (fun op p h hlegal hfits => h.step hsmall hlegal hfits)
      (fun op p p' h hlegal hfits hstep => step_not_fits h hsmall hlegal hfits hstep)
      (inv_initStore hsmall hinit) hlegal
    rw [hiff]
    exact ⟨fun h => ⟨hsmall, h⟩, fun h => h.2⟩
  · refine iff_of_false (fun h => hsmall ?_) fun h => hsmall h.1
    exact small_of_addressed hinit h.2.here

/-- Vectors of two bytes in segments of two vectors. -/
def twoBytes : VectorStore := ⟨1, 2, 2, by decide, by decide, by decide⟩

theorem addressed_twoBytes :
    Always step (fun p => Addressed twoBytes p.1 p.2)
      [.add true [1, 2], .add true [3, 4], .add true [5, 6], .update 1 [7, 8]]
      (⟨[[0, 0, 0, 0]], 2, 2, 0, 0⟩, []) := by
  have hinit : initStore twoBytes true true = some ⟨[[0, 0, 0, 0]], 2, 2, 0, 0⟩ := by decide
  apply ((addressed_iff true true hinit ?_).mpr ⟨by decide, ?_⟩).2
  · apply Guarded.cons (by rfl) (by rfl)
    apply Guarded.cons (by rfl) (by rfl)
    apply Guarded.cons (by rfl) (by rfl)
    apply Guarded.cons (by rfl) (by rfl)
    exact trivial
  · apply Guarded.cons (by rfl) (.inr (by decide))
    apply Guarded.cons (by rfl) (.inr (by decide))
    apply Guarded.cons (by rfl) (.inr (by decide))
    apply Guarded.cons (by rfl) trivial
    exact trivial

/-- Vectors of 2148 floats, with the default segment size. -/
def longFloats : VectorStore := ⟨4, 2148, 500000, by decide, by decide, by decide⟩

/-- The segment that is accepted has room for 120 vectors out of 500000. -/
theorem segment_too_short :
    (∃ v, initStore longFloats true true = some v ∧ ¬ Addressed longFloats v []) ∧
      int32 (500000 * int32 (4 * 2148)) = 1032704 ∧ (1032704 : ℤ) / (4 * 2148) = 120 := by
  have hbytes : int32 (longFloats.dataSize * longFloats.dimension) = 8592 := by decide
  have hsegment : int32 (longFloats.segmentSize * 8592) = 1032704 := by decide
  refine ⟨⟨⟨[List.replicate 1032704 0], 500000, 8592, 0, 0⟩, ?_, fun h => ?_⟩, by decide, by decide⟩
  · unfold initStore extendSegments
    rw [hbytes]
    dsimp only
    rw [hsegment, if_neg (by decide), if_neg (by decide), Option.bind_some, if_neg (by decide)]
    rfl
  · have hlength := h.allocation _ List.mem_cons_self
    rw [List.length_replicate] at hlength
    revert hlength
    decide

end MemoryRawVector

end AwaDB
