import AwaDB.Lib.Memory
import Mathlib.Data.BitVec
import Mathlib.Data.Nat.Bitwise
import Mathlib.Tactic.Common

/-!
# One inverted list (`RTInvertBucketData` in `realtime/realtime_mem_data.cc`)

`RTInvertBucketData` keeps an array for each quantity, indexed by the bucket number. Here the
arrays of one bucket are gathered in a `Bucket`:

* a slot of `idx_array_` is a 64-bit `long` whose top bit `kDelIdxMask` marks a moved vector, and
  the same slot of `codes_array_` is its code (`Code` is the type of one code of
  `code_bytes_per_vec_` bytes);
* only the slots below `retrieve_idx_pos_` are in use; `Bucket.entries` lists them, and every
  operation on a bucket has one lemma that says what it does to `entries`.

`vid_bucket_no_pos_` is the reverse map: `bucket_no << 32 | pos`, or `-1`.
-/

namespace AwaDB.Realtime

/-! ### Ids with the mask bit -/

/-- A `long`. -/
abbrev Long := BitVec 64

def kDelIdxMask : Long := 1#64 <<< 63

def kRecoverIdxMask : Long := ~~~kDelIdxMask

/-- `id & kDelIdxMask`. -/
def isDel (id : Long) : Bool := id &&& kDelIdxMask != 0#64

/-- `id & kRecoverIdxMask`, the vector id in a slot whether or not it is masked. -/
def recoverVid (id : Long) : ℕ := (id &&& kRecoverIdxMask).toNat

/-- A vector id as it is stored. -/
def ofVid (vid : ℕ) : Long := BitVec.ofNat 64 vid

theorem kDelIdxMask_eq : kDelIdxMask = BitVec.twoPow 64 63 := by decide

theorem isDel_eq_msb (id : Long) : isDel id = id.msb := by
  rw [isDel, kDelIdxMask_eq, BitVec.and_twoPow, BitVec.msb_eq_getLsbD_last]
  cases id.getLsbD (64 - 1) <;> decide

theorem recoverVid_eq (id : Long) : recoverVid id = id.toNat % 2 ^ 63 := by
  have hmask : kRecoverIdxMask.toNat = 2 ^ 63 - 1 := by decide
  rw [recoverVid, BitVec.toNat_and, hmask, Nat.and_two_pow_sub_one_eq_mod]

theorem isDel_ofVid {vid : ℕ} (h : vid < 2 ^ 63) : isDel (ofVid vid) = false := by
  rw [isDel_eq_msb]
  simp only [ofVid, BitVec.msb_eq_decide, BitVec.toNat_ofNat, decide_eq_false_iff_not]
  omega

theorem recoverVid_ofVid {vid : ℕ} (h : vid < 2 ^ 63) : recoverVid (ofVid vid) = vid := by
  rw [recoverVid_eq, ofVid, BitVec.toNat_ofNat]
  omega

/-- Masking a slot keeps its vector id readable. -/
@[simp] theorem recoverVid_mask (id : Long) : recoverVid (id ||| kDelIdxMask) = recoverVid id := by
  unfold recoverVid kRecoverIdxMask
  congr 1
  apply BitVec.eq_of_getLsbD_eq
  intro i hi
  simp only [BitVec.getLsbD_and, BitVec.getLsbD_or, BitVec.getLsbD_not]
  cases kDelIdxMask.getLsbD i <;> simp

@[simp] theorem isDel_mask (id : Long) : isDel (id ||| kDelIdxMask) = true := by
  have hmask : kDelIdxMask.msb = true := by decide
  rw [isDel_eq_msb, BitVec.msb_or, hmask, Bool.or_true]

/-- Without the mask bit the number in the slot is the vector id. -/
theorem recoverVid_of_unmasked {id : Long} (h : isDel id = false) : recoverVid id = id.toNat := by
  rw [isDel_eq_msb, BitVec.msb_eq_decide, decide_eq_false_iff_not] at h
  rw [recoverVid_eq]
  have hlt := id.isLt
  omega

/-! ### Entries of the reverse map -/

/-- `bucket_no << 32 | pos`. -/
def encodePos (bucketNo pos : ℕ) : ℤ := ((bucketNo <<< 32 ||| pos : ℕ) : ℤ)

/-- `bucket_no_pos >> 32`. -/
def bucketOf (bucketNoPos : ℤ) : ℕ := bucketNoPos.toNat >>> 32

/-- `bucket_no_pos & 0xffffffff`. -/
def posOf (bucketNoPos : ℤ) : ℕ := bucketNoPos.toNat &&& 0xffffffff

theorem encodePos_eq {b p : ℕ} (hp : p < 2 ^ 32) :
    encodePos b p = ((b * 2 ^ 32 + p : ℕ) : ℤ) := by
  rw [encodePos, ← Nat.shiftLeft_add_eq_or_of_lt hp, Nat.shiftLeft_eq]

theorem encodePos_ne_neg_one (b p : ℕ) : encodePos b p ≠ -1 := by
  unfold encodePos
  omega

theorem bucketOf_encodePos {b p : ℕ} (hp : p < 2 ^ 32) : bucketOf (encodePos b p) = b := by
  rw [encodePos_eq hp, bucketOf, Int.toNat_natCast, Nat.shiftRight_eq_div_pow]
  omega

theorem posOf_encodePos {b p : ℕ} (hp : p < 2 ^ 32) : posOf (encodePos b p) = p := by
  have hmask : (0xffffffff : ℕ) = 2 ^ 32 - 1 := rfl
  rw [encodePos_eq hp, posOf, Int.toNat_natCast, hmask, Nat.and_two_pow_sub_one_eq_mod]
  omega

theorem encodePos_inj {b p b' p' : ℕ} (hp : p < 2 ^ 32) (hp' : p' < 2 ^ 32)
    (h : encodePos b p = encodePos b' p') : b = b' ∧ p = p' := by
  have hb := congrArg bucketOf h
  have hq := congrArg posOf h
  rw [bucketOf_encodePos hp, bucketOf_encodePos hp'] at hb
  rw [posOf_encodePos hp, posOf_encodePos hp'] at hq
  exact ⟨hb, hq⟩

/-! ### Buckets -/

/-- The arrays of one bucket: `idx_array_[b]`, `codes_array_[b]`, `retrieve_idx_pos_[b]`,
`cur_bucket_keys_[b]`, `bucket_extend_time_[b]` and `deleted_nums_[b]`. The retrieve position never
passes the number of allocated slots, which is an `int`. -/
structure Bucket (Code : Type) where
  idxArray : List Long
  codesArray : List Code
  retrieveIdxPos : ℕ
  curBucketKeys : ℕ
  bucketExtendTime : ℕ
  deletedNum : ℕ
  pos_le : retrieveIdxPos ≤ curBucketKeys
  idx_len : idxArray.length = curBucketKeys
  codes_len : curBucketKeys ≤ codesArray.length
  keys_lt : curBucketKeys < 2 ^ 31
deriving DecidableEq, Repr

namespace Bucket

variable {Code : Type}

/-- The slots in use, id and code. -/
def entries (b : Bucket Code) : List (Long × Code) :=
  (b.idxArray.take b.retrieveIdxPos).zip (b.codesArray.take b.retrieveIdxPos)

theorem idx_take_length (b : Bucket Code) :
    (b.idxArray.take b.retrieveIdxPos).length = b.retrieveIdxPos := by
  rw [List.length_take, b.idx_len, Nat.min_eq_left b.pos_le]

theorem codes_take_length (b : Bucket Code) :
    (b.codesArray.take b.retrieveIdxPos).length = b.retrieveIdxPos := by
  rw [List.length_take, Nat.min_eq_left (Nat.le_trans b.pos_le b.codes_len)]

@[simp] theorem entries_length (b : Bucket Code) : b.entries.length = b.retrieveIdxPos := by
  rw [entries, List.length_zip, idx_take_length, codes_take_length, Nat.min_self]

theorem getElem?_entries (b : Bucket Code) (p : ℕ) (e : Long × Code) :
    b.entries[p]? = some e ↔
      p < b.retrieveIdxPos ∧ b.idxArray[p]? = some e.1 ∧ b.codesArray[p]? = some e.2 := by
  rw [entries, List.getElem?_zip_eq_some, List.getElem?_take, List.getElem?_take]
  by_cases hp : p < b.retrieveIdxPos <;> simp [hp]

/-- A position in use fits the low 32 bits of a reverse-map entry. -/
theorem lt_of_getElem? {b : Bucket Code} {p : ℕ} {e : Long × Code}
    (h : b.entries[p]? = some e) : p < 2 ^ 32 := by
  have hp := ((b.getElem?_entries p e).mp h).1
  have hle := b.pos_le
  have hlt := b.keys_lt
  omega

/-- A bucket as `RTInvertBucketData::Init` allocates it. -/
def init [Inhabited Code] (bucketKeys : ℕ) (h : bucketKeys < 2 ^ 31) : Bucket Code where
  idxArray := List.replicate bucketKeys 0#64
  codesArray := List.replicate bucketKeys default
  retrieveIdxPos := 0
  curBucketKeys := bucketKeys
  bucketExtendTime := 0
  deletedNum := 0
  pos_le := Nat.zero_le _
  idx_len := List.length_replicate
  codes_len := by rw [List.length_replicate]
  keys_lt := h

@[simp] theorem entries_init [Inhabited Code] (bucketKeys : ℕ) (h : bucketKeys < 2 ^ 31) :
    (init bucketKeys h : Bucket Code).entries = [] := by
  simp [entries, init]

/-- The two `memcpy` of `RealTimeMemData::AddKeys` and the new retrieve position. -/
def append (b : Bucket Code) (keys : List ℕ) (codes : List Code)
    (hc : codes.length = keys.length)
    (hk : b.retrieveIdxPos + keys.length ≤ b.curBucketKeys) : Bucket Code :=
  { b with
    idxArray := Lib.patch b.idxArray b.retrieveIdxPos (keys.map ofVid)
    codesArray := Lib.patch b.codesArray b.retrieveIdxPos codes
    retrieveIdxPos := b.retrieveIdxPos + keys.length
    pos_le := hk
    idx_len := by
      rw [Lib.patch_length, b.idx_len]
      rw [List.length_map, b.idx_len]; exact hk
    codes_len := by
      have := b.codes_len
      rw [Lib.patch_length] <;> omega }

theorem entries_append (b : Bucket Code) (keys : List ℕ) (codes : List Code)
    (hc : codes.length = keys.length)
    (hk : b.retrieveIdxPos + keys.length ≤ b.curBucketKeys) :
    (b.append keys codes hc hk).entries = b.entries ++ (keys.map ofVid).zip codes := by
  have hpos : b.retrieveIdxPos ≤ b.idxArray.length := by rw [b.idx_len]; exact b.pos_le
  have hidx : (Lib.patch b.idxArray b.retrieveIdxPos (keys.map ofVid)).take
      (b.retrieveIdxPos + keys.length) = b.idxArray.take b.retrieveIdxPos ++ keys.map ofVid := by
    have h := Lib.patch_take_end b.idxArray (keys.map ofVid) hpos
    rwa [List.length_map] at h
  have hcodes : (Lib.patch b.codesArray b.retrieveIdxPos codes).take
      (b.retrieveIdxPos + keys.length) = b.codesArray.take b.retrieveIdxPos ++ codes := by
    rw [← hc]
    exact Lib.patch_take_end b.codesArray codes (Nat.le_trans b.pos_le b.codes_len)
  simp only [entries, append]
  rw [hidx, hcodes, List.zip_append (by rw [idx_take_length, codes_take_length])]

/-- `memcpy(codes_array + pos * code_bytes_per_vec_, codes)`. -/
def setCode (b : Bucket Code) (pos : ℕ) (code : Code) : Bucket Code :=
  { b with
    codesArray := b.codesArray.set pos code
    codes_len := by rw [List.length_set]; exact b.codes_len }

theorem getElem?_entries_setCode (b : Bucket Code) (pos p : ℕ) (code : Code) :
    (b.setCode pos code).entries[p]? =
      if p = pos then b.entries[p]?.map (fun e => (e.1, code)) else b.entries[p]? := by
  apply Option.ext
  intro e
  rw [getElem?_entries]
  simp only [setCode, List.getElem?_set]
  by_cases hp : p = pos
  · subst hp
    have hlen := b.codes_len
    have hle := b.pos_le
    simp only [if_true, Option.map_eq_some_iff, getElem?_entries]
    constructor
    · rintro ⟨hlt, hid, hcode⟩
      have hp : p < b.codesArray.length := by omega
      rw [if_pos hp] at hcode
      refine ⟨(e.1, b.codesArray[p]), ⟨hlt, hid, List.getElem?_eq_getElem hp⟩, ?_⟩
      cases hcode
      rfl
    · rintro ⟨e', ⟨hlt, hid, -⟩, rfl⟩
      exact ⟨hlt, hid, by rw [if_pos (by omega)]⟩
  · rw [if_neg hp, if_neg (fun h => hp h.symm), getElem?_entries]

/-- `idx_array_[b][pos] |= kDelIdxMask` and `deleted_nums_[b]++`. -/
def maskSlot (b : Bucket Code) (pos : ℕ) : Bucket Code :=
  { b with
    idxArray := b.idxArray.modify pos (· ||| kDelIdxMask)
    deletedNum := b.deletedNum + 1
    idx_len := by rw [List.length_modify]; exact b.idx_len }

theorem getElem?_entries_maskSlot (b : Bucket Code) (pos p : ℕ) :
    (b.maskSlot pos).entries[p]? =
      if p = pos then b.entries[p]?.map (fun e => (e.1 ||| kDelIdxMask, e.2))
      else b.entries[p]? := by
  apply Option.ext
  intro e
  rw [getElem?_entries]
  simp only [maskSlot, List.getElem?_modify, Option.map_eq_map, Option.map_eq_some_iff]
  by_cases hp : p = pos
  · subst hp
    simp only [if_true, Option.map_eq_some_iff, getElem?_entries]
    constructor
    · rintro ⟨hlt, ⟨id, hid, hmask⟩, hcode⟩
      exact ⟨(id, e.2), ⟨hlt, hid, hcode⟩, by rw [hmask]⟩
    · rintro ⟨e', ⟨hlt, hid, hcode⟩, rfl⟩
      exact ⟨hlt, ⟨e'.1, hid, rfl⟩, hcode⟩
  · have hne : pos ≠ p := fun h => hp h.symm
    simp only [if_neg hp, if_neg hne, getElem?_entries, exists_eq_right]

/-- `deleted_nums_[b]++`. -/
def countDeleted (b : Bucket Code) : Bucket Code := { b with deletedNum := b.deletedNum + 1 }

@[simp] theorem entries_countDeleted (b : Bucket Code) : b.countDeleted.entries = b.entries := rfl

/-- The end of `RTInvertBucketData::CompactBucket`: two new blocks of the old capacity that hold
the kept slots. -/
def compacted [Inhabited Code] (b : Bucket Code) (kept : List (Long × Code))
    (h : kept.length ≤ b.retrieveIdxPos) : Bucket Code :=
  { b with
    idxArray := Lib.freshBlock 0#64 (kept.map Prod.fst) kept.length b.curBucketKeys
    codesArray := Lib.freshBlock default (kept.map Prod.snd) kept.length b.curBucketKeys
    retrieveIdxPos := kept.length
    deletedNum := 0
    pos_le := Nat.le_trans h b.pos_le
    idx_len := Lib.freshBlock_length _ _ (by rw [List.length_map]) (Nat.le_trans h b.pos_le)
    codes_len := by
      rw [Lib.freshBlock_length _ _ (by rw [List.length_map]) (Nat.le_trans h b.pos_le)] }

@[simp] theorem entries_compacted [Inhabited Code] (b : Bucket Code) (kept : List (Long × Code))
    (h : kept.length ≤ b.retrieveIdxPos) : (b.compacted kept h).entries = kept := by
  simp only [entries, compacted]
  rw [Lib.freshBlock_take _ _ (by rw [List.length_map]),
    Lib.freshBlock_take _ _ (by rw [List.length_map]),
    List.take_of_length_le (by rw [List.length_map]),
    List.take_of_length_le (by rw [List.length_map])]
  exact (List.zip_of_prod rfl rfl).symm

end Bucket

end AwaDB.Realtime
