import AwaDB.Realtime.BucketData
import AwaDB.Util.BitmapManager
import AwaDB.Vector.VIDMgr
import Mathlib.Logic.Function.Basic

/-!
# The realtime inverted index (`RealTimeMemData` in `realtime/realtime_mem_data.cc`)

The operations of `RealTimeMemData` on the buckets, the reverse map `vid_bucket_no_pos_` and the
bitmap of deleted documents. `AdjustBucketMem` works on a second header that shares every array
with the first and then replaces it, so its effect is the effect on one record.

An operation returns `none` where the C++ has no defined result (an index past an array, a size
past `int`, a loop that does not end), and otherwise the state and the source's return value. The
outcome of the `new (std::nothrow)` allocations is an argument, so that every failure is covered;
the two floating-point computations are a parameter, `FloatOps`.
-/

namespace AwaDB.Realtime

/-- The two floating-point computations of the index. `ExtendCoefficient(t)` is
`1.1 + PI / 2 - atan(t)`, which is above `1` for every `t` and above `2` for `t = 0`. -/
structure FloatOps where
  /-- `(int)(n * ExtendCoefficient(extend_time))`. -/
  extendSize : (extendTime n : ℕ) → ℕ
  /-- `(float)deleted / pos >= 0.3f`. -/
  ratioReached : (deleted pos : ℕ) → Bool
  extendSize_ge : ∀ t n, n ≤ extendSize t n
  extendSize_zero : ∀ n, 2 * n ≤ extendSize 0 n

/-- Rational approximations of the two computations, exact for the first extensions of a small
bucket: `ExtendCoefficient` is `2.670…`, `1.885…`, `1.563…` for `0`, `1`, `2`. -/
def FloatOps.rational : FloatOps where
  extendSize t n :=
    match t with
    | 0 => n * 2670 / 1000
    | 1 => n * 1885 / 1000
    | 2 => n * 1563 / 1000
    | _ => n * 1100 / 1000
  ratioReached deleted pos := decide (0 < deleted ∧ 3 * pos ≤ 10 * deleted)
  extendSize_ge t n := by split <;> omega
  extendSize_zero n := by change 2 * n ≤ n * 2670 / 1000; omega

/-- How the three allocations of one `AdjustBucketMem` call end: the header, the codes, the ids. -/
inductive Alloc where
  | ok | noHeader | noCodes | noIdx
deriving DecidableEq, Repr

/-! ### Growing one bucket -/

/-- The `while` loop of `ExtendBucketMem` on `bucket_extend_time_` (a `uint8_t`) and the size. -/
def extendLoop (F : FloatOps) : (fuel extendTime size least : ℕ) → Option (ℕ × ℕ)
  | 0, t, size, least => if size < least then none else some (t, size)
  | fuel + 1, t, size, least =>
    if size < least then
      extendLoop F fuel ((t + 1) % 256) (F.extendSize ((t + 1) % 256) size) least
    else some (t, size)

/-- Rounds the loop is given; `extendLoop_isSome` shows that they are enough. -/
def extendFuel (least : ℕ) : ℕ := 256 * (least + 1)

theorem extendLoop_ge (F : FloatOps) {fuel t size least t' size' : ℕ}
    (h : extendLoop F fuel t size least = some (t', size')) : least ≤ size' ∧ size ≤ size' := by
  induction fuel generalizing t size with
  | zero =>
    unfold extendLoop at h
    split at h
    · cases h
    · cases h; omega
  | succ fuel ih =>
    unfold extendLoop at h
    split at h
    · have hge := F.extendSize_ge ((t + 1) % 256) size
      have hrec := ih h
      omega
    · cases h; omega

/-- **The growth loop ends.** Within 256 rounds `bucket_extend_time_` wraps to `0`, where the size
at least doubles. -/
theorem extendLoop_isSome (F : FloatOps) {t size least : ℕ} (fuel : ℕ) (ht : t < 256)
    (hsize : 0 < size) (hfuel : 256 * (least - size) + (256 - t) ≤ fuel) :
    ∃ r, extendLoop F fuel t size least = some r := by
  induction fuel generalizing t size with
  | zero => omega
  | succ fuel ih =>
    unfold extendLoop
    by_cases hlt : size < least
    · rw [if_pos hlt]
      have hge := F.extendSize_ge ((t + 1) % 256) size
      apply ih (Nat.mod_lt _ (by decide)) (by omega)
      by_cases hwrap : t = 255
      · subst hwrap
        have hdouble := F.extendSize_zero size
        simp only [Nat.reduceAdd, Nat.mod_self] at hge ⊢
        omega
      · rw [Nat.mod_eq_of_lt (by omega)] at hge ⊢
        omega
    · rw [if_neg hlt]
      exact ⟨_, rfl⟩

section Bucket

variable {Code : Type} [Inhabited Code] (F : FloatOps)

/-- The codes of a bucket move to a new block of `size` slots. -/
def Bucket.moveCodes (b : Bucket Code) (size time : ℕ)
    (h : b.curBucketKeys ≤ size ∧ size < 2 ^ 31) : Bucket Code :=
  { b with
    codesArray := Lib.freshBlock default b.codesArray b.retrieveIdxPos size
    bucketExtendTime := time
    codes_len := by
      have h1 := b.pos_le
      have h2 := b.codes_len
      rw [Lib.freshBlock_length _ _ (by omega) (by omega)]
      exact h.1 }

/-- The codes and the ids of a bucket move to new blocks. -/
def Bucket.moveSlots (b : Bucket Code) (size time : ℕ)
    (h : b.curBucketKeys ≤ size ∧ size < 2 ^ 31) : Bucket Code :=
  { b with
    idxArray := Lib.freshBlock 0#64 b.idxArray b.retrieveIdxPos size
    codesArray := Lib.freshBlock default b.codesArray b.retrieveIdxPos size
    curBucketKeys := size
    bucketExtendTime := time
    pos_le := Nat.le_trans b.pos_le h.1
    idx_len := by
      have h1 := b.pos_le
      have h2 := b.idx_len
      exact Lib.freshBlock_length _ _ (by omega) (by omega)
    codes_len := by
      have h1 := b.pos_le
      have h2 := b.codes_len
      rw [Lib.freshBlock_length _ _ (by omega) (by omega)]
    keys_lt := h.2 }

/-- `RTInvertBucketData::ExtendBucketMem` on the arrays of one bucket. When the second allocation
fails the codes have already moved to their new block. -/
def Bucket.extendMem (b : Bucket Code) (increment : ℕ) (a : Alloc) : Option (Bucket Code × Bool) :=
  let least := b.retrieveIdxPos + increment
  let time := (b.bucketExtendTime + 1) % 256
  match extendLoop F (extendFuel least) time (F.extendSize time b.curBucketKeys) least with
  | none => none
  | some (time, size) =>
    -- the first half always holds (`extendLoop_ge`); past the second the cast to `int` is undefined
    if h : b.curBucketKeys ≤ size ∧ size < 2 ^ 31 then
      match a with
      | .noHeader | .noCodes => some ({ b with bucketExtendTime := time }, false)
      | .noIdx => some (b.moveCodes size time h, false)
      | .ok => some (b.moveSlots size time h, true)
    else none

/-- Everything `ExtendBucketMem` can do to a bucket: its entries and its counter of deleted vectors
stay, and on success it has room for `increment` more slots. -/
theorem Bucket.extendMem_spec {b b' : Bucket Code} {increment : ℕ} {a : Alloc} {ok : Bool}
    (h : b.extendMem F increment a = some (b', ok)) :
    b'.entries = b.entries ∧ b'.retrieveIdxPos = b.retrieveIdxPos ∧
      b'.deletedNum = b.deletedNum ∧
      (ok = true → b.retrieveIdxPos + increment ≤ b'.curBucketKeys) := by
  unfold extendMem at h
  dsimp only at h
  split at h
  · cases h
  next time size hloop =>
    have hleast := (extendLoop_ge F hloop).1
    have hidx : b.retrieveIdxPos ≤ b.idxArray.length := by rw [b.idx_len]; exact b.pos_le
    have hcodes := Nat.le_trans b.pos_le b.codes_len
    split at h
    · split at h
      · cases h; exact ⟨rfl, rfl, rfl, by simp⟩
      · cases h; exact ⟨rfl, rfl, rfl, by simp⟩
      · cases h
        refine ⟨?_, rfl, rfl, by simp⟩
        simp only [moveCodes, entries, Lib.freshBlock_take _ _ hcodes]
      · cases h
        refine ⟨?_, rfl, rfl, fun _ => hleast⟩
        simp only [moveSlots, entries, Lib.freshBlock_take _ _ hcodes, Lib.freshBlock_take _ _ hidx]
    · cases h

end Bucket

/-! ### The index -/

/-- `RealTimeMemData` with the `RTInvertBucketData` it points to; `n` is `buckets_num_`, and
`nids_` is the length of `vidBucketNoPos`. -/
structure RealTimeMemData (n : ℕ) (Code : Type) where
  buckets : Fin n → Bucket Code
  vidBucketNoPos : List ℤ
  bucketKeysLimit : ℕ
  docidsBitmap : BitmapManager
  vidMgr : VIDMgr

namespace RealTimeMemData

variable {n : ℕ} {Code : Type}

/-- `RealTimeMemData::Init`. -/
def init [Inhabited Code] (bucketKeys limit : ℕ) (h : bucketKeys < 2 ^ 31) (docids : BitmapManager)
    (vidMgr : VIDMgr) : RealTimeMemData n Code where
  buckets := fun _ => Bucket.init bucketKeys h
  vidBucketNoPos := List.replicate (n * bucketKeys) (-1)
  bucketKeysLimit := limit
  docidsBitmap := docids
  vidMgr := vidMgr

-- the sizes and the number of lists that the example states below have
theorem one_lt_maxSlots : 1 < 2 ^ 31 := by decide

theorem four_lt_maxSlots : 4 < 2 ^ 31 := by decide

instance neZero_two : NeZero (2 : ℕ) := ⟨by decide⟩

/-- `vid_bucket_no_pos_[vid]`. -/
def bucketNoPos (s : RealTimeMemData n Code) (vid : ℕ) : ℤ := s.vidBucketNoPos.getD vid (-1)

/-- The slots in use of bucket `b`. -/
def entries (s : RealTimeMemData n Code) (b : Fin n) : List (Long × Code) := (s.buckets b).entries

/-- `docids_bitmap_->Test(vid_mgr_->VID2DocID(vid))`; the document id is passed as a `uint32_t`. -/
def isDeleted (s : RealTimeMemData n Code) (vid : ℕ) : Bool :=
  s.docidsBitmap.test (s.vidMgr.vid2DocID vid % 2 ^ 32).toNat

/-- Replace the arrays of bucket `b`. -/
def setBucket (s : RealTimeMemData n Code) (b : Fin n) (bucket : Bucket Code) :
    RealTimeMemData n Code :=
  { s with buckets := Function.update s.buckets b bucket }

@[simp] theorem buckets_setBucket (s : RealTimeMemData n Code) (b b' : Fin n) (x : Bucket Code) :
    (s.setBucket b x).buckets b' = if b' = b then x else s.buckets b' :=
  Function.update_apply ..

@[simp] theorem entries_setBucket (s : RealTimeMemData n Code) (b b' : Fin n) (x : Bucket Code) :
    (s.setBucket b x).entries b' = if b' = b then x.entries else s.entries b' := by
  unfold entries
  rw [buckets_setBucket]
  split <;> rfl

@[simp] theorem bucketNoPos_setBucket (s : RealTimeMemData n Code) (b : Fin n) (x : Bucket Code)
    (v : ℕ) : (s.setBucket b x).bucketNoPos v = s.bucketNoPos v := rfl

@[simp] theorem isDeleted_setBucket (s : RealTimeMemData n Code) (b : Fin n) (x : Bucket Code)
    (v : ℕ) : (s.setBucket b x).isDeleted v = s.isDeleted v := rfl

/-- Every vector id in use has an entry in the reverse map. -/
def IdsInRange (s : RealTimeMemData n Code) : Prop :=
  ∀ b, ∀ e ∈ s.entries b, recoverVid e.1 < s.vidBucketNoPos.length

/-! ### Deletion counters -/

/-- `RTInvertBucketData::Delete`: only the deleted counter of the vector's bucket moves. -/
def deleteVid (vid : ℕ) (s : RealTimeMemData n Code) : RealTimeMemData n Code :=
  if s.bucketNoPos vid = -1 then s
  else if h : bucketOf (s.bucketNoPos vid) < n then
    s.setBucket ⟨_, h⟩ (s.buckets ⟨_, h⟩).countDeleted
  else s

/-- `RealTimeMemData::Delete`. -/
def delete (vids : List ℕ) (s : RealTimeMemData n Code) : RealTimeMemData n Code :=
  vids.foldl (fun s vid => if s.vidBucketNoPos.length > vid then s.deleteVid vid else s) s

/-- Two states that differ in the deleted counters only. -/
structure SameSlots (s s' : RealTimeMemData n Code) : Prop where
  entries_eq : ∀ b, s'.entries b = s.entries b
  map_eq : s'.vidBucketNoPos = s.vidBucketNoPos
  limit_eq : s'.bucketKeysLimit = s.bucketKeysLimit
  bitmap_eq : s'.docidsBitmap = s.docidsBitmap
  vidMgr_eq : s'.vidMgr = s.vidMgr

theorem SameSlots.refl (s : RealTimeMemData n Code) : SameSlots s s :=
  ⟨fun _ => rfl, rfl, rfl, rfl, rfl⟩

theorem SameSlots.trans {s s' s'' : RealTimeMemData n Code} (h : SameSlots s s')
    (h' : SameSlots s' s'') : SameSlots s s'' where
  entries_eq b := (h'.entries_eq b).trans (h.entries_eq b)
  map_eq := h'.map_eq.trans h.map_eq
  limit_eq := h'.limit_eq.trans h.limit_eq
  bitmap_eq := h'.bitmap_eq.trans h.bitmap_eq
  vidMgr_eq := h'.vidMgr_eq.trans h.vidMgr_eq

theorem SameSlots.isDeleted_eq {s s' : RealTimeMemData n Code} (h : SameSlots s s') (v : ℕ) :
    s'.isDeleted v = s.isDeleted v := by
  rw [isDeleted, isDeleted, h.bitmap_eq, h.vidMgr_eq]

theorem SameSlots.bucketNoPos_eq {s s' : RealTimeMemData n Code} (h : SameSlots s s') (v : ℕ) :
    s'.bucketNoPos v = s.bucketNoPos v := by
  rw [bucketNoPos, bucketNoPos, h.map_eq]

/-- Replacing a bucket by one with the same slots in use. -/
theorem sameSlots_setBucket (s : RealTimeMemData n Code) (b : Fin n) (x : Bucket Code)
    (hx : x.entries = (s.buckets b).entries) : SameSlots s (s.setBucket b x) where
  entries_eq b' := by
    rw [entries_setBucket]
    split
    · next h => subst h; exact hx
    · rfl
  map_eq := rfl
  limit_eq := rfl
  bitmap_eq := rfl
  vidMgr_eq := rfl

theorem deleteVid_sameSlots (vid : ℕ) (s : RealTimeMemData n Code) :
    SameSlots s (s.deleteVid vid) := by
  unfold deleteVid
  split
  · exact SameSlots.refl s
  · split
    · exact sameSlots_setBucket s _ _ rfl
    · exact SameSlots.refl s

theorem delete_sameSlots (vids : List ℕ) (s : RealTimeMemData n Code) :
    SameSlots s (s.delete vids) := by
  induction vids generalizing s with
  | nil => exact SameSlots.refl s
  | cons vid vids ih =>
    have hhead : SameSlots s (if s.vidBucketNoPos.length > vid then s.deleteVid vid else s) := by
      split
      · exact deleteVid_sameSlots vid s
      · exact SameSlots.refl s
    exact hhead.trans (ih _)

/-! ### Growing -/

/-- What growing bucket `b` can do: the slots in use, the reverse map and every counter stay. -/
structure Grown (s s' : RealTimeMemData n Code) : Prop extends SameSlots s s' where
  deleted_eq : ∀ b, (s'.buckets b).deletedNum = (s.buckets b).deletedNum
  pos_eq : ∀ b, (s'.buckets b).retrieveIdxPos = (s.buckets b).retrieveIdxPos

theorem Grown.refl (s : RealTimeMemData n Code) : Grown s s :=
  { SameSlots.refl s with deleted_eq := fun _ => rfl, pos_eq := fun _ => rfl }

section Grow

variable [Inhabited Code] (F : FloatOps)

/-- `RealTimeMemData::ExtendBucketMem`, that is `AdjustBucketMem` of type 0. -/
def extendBucketMem (b : Fin n) (increment : ℕ) (a : Alloc) (s : RealTimeMemData n Code) :
    Option (RealTimeMemData n Code × Bool) :=
  match a with
  | .noHeader => some (s, false)
  | a => ((s.buckets b).extendMem F increment a).map fun r => (s.setBucket b r.1, r.2)

/-- `RealTimeMemData::ExtendBucketIfNeed`. -/
def extendBucketIfNeed (b : Fin n) (keysSize : ℕ) (a : Alloc) (s : RealTimeMemData n Code) :
    Option (RealTimeMemData n Code × ℤ) :=
  if (s.buckets b).retrieveIdxPos + keysSize ≤ (s.buckets b).curBucketKeys then some (s, 0)
  else if (s.buckets b).curBucketKeys * 2 ≥ s.bucketKeysLimit then some (s, -1)
  else (s.extendBucketMem F b keysSize a).map fun r => (r.1, if r.2 then 0 else -2)

theorem extendBucketMem_spec {b : Fin n} {k : ℕ} {a : Alloc} {s s' : RealTimeMemData n Code}
    {ok : Bool} (h : s.extendBucketMem F b k a = some (s', ok)) :
    Grown s s' ∧
      (ok = true → (s'.buckets b).retrieveIdxPos + k ≤ (s'.buckets b).curBucketKeys) := by
  unfold extendBucketMem at h
  split at h
  · cases h
    exact ⟨Grown.refl s, by simp⟩
  · obtain ⟨⟨x, okx⟩, hx, heq⟩ := Option.map_eq_some_iff.mp h
    obtain ⟨hent, hpos, hdel, hroom⟩ := Bucket.extendMem_spec F hx
    cases heq
    refine ⟨{ sameSlots_setBucket s b x hent with deleted_eq := ?_, pos_eq := ?_ }, ?_⟩
    · intro b'
      rw [buckets_setBucket]
      split
      · next hb => subst hb; exact hdel
      · rfl
    · intro b'
      rw [buckets_setBucket]
      split
      · next hb => subst hb; exact hpos
      · rfl
    · intro hok
      rw [buckets_setBucket, if_pos rfl, hpos]
      exact hroom hok

theorem extendBucketIfNeed_spec {b : Fin n} {k : ℕ} {a : Alloc} {s s' : RealTimeMemData n Code}
    {r : ℤ} (h : s.extendBucketIfNeed F b k a = some (s', r)) :
    Grown s s' ∧
      (r = 0 → (s'.buckets b).retrieveIdxPos + k ≤ (s'.buckets b).curBucketKeys) := by
  unfold extendBucketIfNeed at h
  split at h
  · next hroom => cases h; exact ⟨Grown.refl s, fun _ => hroom⟩
  · split at h
    · cases h; exact ⟨Grown.refl s, by simp⟩
    · obtain ⟨⟨t, ok⟩, ht, heq⟩ := Option.map_eq_some_iff.mp h
      obtain ⟨hgrown, hroom⟩ := extendBucketMem_spec F ht
      cases heq
      refine ⟨hgrown, fun h0 => hroom ?_⟩
      cases ok
      · simp at h0
      · rfl

end Grow

/-! ### The reverse map -/

/-- `RTInvertBucketData::ExtendIDs`: twice as many entries, the new ones `-1`. -/
def extendIDs (map : List ℤ) : List ℤ := map ++ List.replicate map.length (-1)

/-- `while ((size_t)key >= nids_) ExtendIDs()`. -/
def extendIDsLoop : (fuel key : ℕ) → List ℤ → Option (List ℤ)
  | 0, key, map => if key < map.length then some map else none
  | fuel + 1, key, map =>
    if key < map.length then some map else extendIDsLoop fuel key (extendIDs map)

theorem getD_extendIDs (map : List ℤ) (v : ℕ) :
    (extendIDs map).getD v (-1) = map.getD v (-1) := by
  unfold extendIDs
  by_cases hv : v < map.length
  · rw [List.getD_append _ _ _ _ hv]
  · rw [List.getD_append_right _ _ _ _ (by omega), List.getD_eq_default map _ (by omega),
      List.getD_eq_getElem?_getD, List.getElem?_replicate]
    split <;> rfl

theorem extendIDsLoop_spec {fuel key : ℕ} {map map' : List ℤ}
    (h : extendIDsLoop fuel key map = some map') :
    key < map'.length ∧ map.length ≤ map'.length ∧
      ∀ v, map'.getD v (-1) = map.getD v (-1) := by
  induction fuel generalizing map with
  | zero =>
    unfold extendIDsLoop at h
    split at h
    · next hlt => cases h; exact ⟨hlt, Nat.le_refl _, fun _ => rfl⟩
    · cases h
  | succ fuel ih =>
    unfold extendIDsLoop at h
    split at h
    · next hlt => cases h; exact ⟨hlt, Nat.le_refl _, fun _ => rfl⟩
    · obtain ⟨hlt, hlen, hget⟩ := ih h
      refine ⟨hlt, ?_, fun v => (hget v).trans (getD_extendIDs map v)⟩
      rw [extendIDs, List.length_append] at hlen
      omega

/-- Doubling a non-empty map reaches every key. -/
theorem extendIDsLoop_isSome {fuel key : ℕ} {map : List ℤ} (hpos : 0 < map.length)
    (hfuel : key < map.length + fuel) : ∃ map', extendIDsLoop fuel key map = some map' := by
  induction fuel generalizing map with
  | zero => exact ⟨map, by rw [extendIDsLoop, if_pos (by omega)]⟩
  | succ fuel ih =>
    unfold extendIDsLoop
    split
    · exact ⟨_, rfl⟩
    · have hlen : (extendIDs map).length = map.length + map.length := by
        rw [extendIDs, List.length_append, List.length_replicate]
      exact ih (by omega) (by omega)

theorem getD_set_map {map : List ℤ} {key : ℕ} (hkey : key < map.length) (x : ℤ) (v : ℕ) :
    (map.set key x).getD v (-1) = if v = key then x else map.getD v (-1) := by
  simp only [List.getD_eq_getElem?_getD, List.getElem?_set]
  by_cases hv : v = key
  · subst hv; simp [hkey]
  · have hne : key ≠ v := fun h => hv h.symm
    simp [hv, hne]

/-! ### Adding -/

/-- The loop of `AddKeys` over the new keys: each one is entered in the reverse map, and counted as
deleted when its document already is. A negative `long` would never leave the inner loop. -/
def recordKeys (listNo : Fin n) : List ℕ → ℕ → RealTimeMemData n Code →
    Option (RealTimeMemData n Code)
  | [], _, s => some s
  | key :: keys, pos, s =>
    if key < 2 ^ 63 then
      match extendIDsLoop (key + 1) key s.vidBucketNoPos with
      | none => none
      | some map =>
        let s := { s with vidBucketNoPos := map.set key (encodePos listNo pos) }
        recordKeys listNo keys (pos + 1) (if s.isDeleted key then s.deleteVid key else s)
    else none

/-- What `recordKeys` does: the slots stay, and each key maps to the slot it was written to. -/
structure Recorded (listNo : Fin n) (keys : List ℕ) (pos : ℕ) (s s' : RealTimeMemData n Code) :
    Prop where
  entries_eq : ∀ b, s'.entries b = s.entries b
  limit_eq : s'.bucketKeysLimit = s.bucketKeysLimit
  bitmap_eq : s'.docidsBitmap = s.docidsBitmap
  vidMgr_eq : s'.vidMgr = s.vidMgr
  length_le : s.vidBucketNoPos.length ≤ s'.vidBucketNoPos.length
  key_lt : ∀ key ∈ keys, key < s'.vidBucketNoPos.length ∧ key < 2 ^ 63
  map_of_notMem : ∀ v, v ∉ keys → s'.bucketNoPos v = s.bucketNoPos v
  map_of_mem : ∀ v ∈ keys, ∃ i, keys[i]? = some v ∧ s'.bucketNoPos v = encodePos listNo (pos + i)

theorem recordKeys_spec {listNo : Fin n} {keys : List ℕ} {pos : ℕ} {s s' : RealTimeMemData n Code}
    (h : recordKeys listNo keys pos s = some s') : Recorded listNo keys pos s s' := by
  induction keys generalizing pos s with
  | nil =>
    cases h
    exact ⟨fun _ => rfl, rfl, rfl, rfl, Nat.le_refl _, by simp, fun _ _ => rfl, by simp⟩
  | cons key keys ih =>
    unfold recordKeys at h
    split at h
    · next hkey =>
      split at h
      · cases h
      · next map hmap =>
        obtain ⟨hlt, hlen, hget⟩ := extendIDsLoop_spec hmap
        dsimp only at h
        generalize hs1 : { s with vidBucketNoPos := map.set key (encodePos listNo pos) } = s1 at h
        -- the counter update does not touch the slots or the map
        have hsame : SameSlots s1 (if s1.isDeleted key then s1.deleteVid key else s1) := by
          split
          · exact deleteVid_sameSlots key s1
          · exact SameSlots.refl s1
        have hrec := ih h
        have hmap1 : ∀ v, s1.bucketNoPos v =
            if v = key then encodePos listNo pos else s.bucketNoPos v := by
          intro v
          subst hs1
          simp only [bucketNoPos]
          rw [getD_set_map hlt, hget]
        have hlen1 : s1.vidBucketNoPos.length = map.length := by
          subst hs1; exact List.length_set
        have hlen' := hrec.length_le
        rw [hsame.map_eq, hlen1] at hlen'
        refine ⟨?_, ?_, ?_, ?_, by omega, ?_, ?_, ?_⟩
        · intro b
          rw [hrec.entries_eq, hsame.entries_eq]
          subst hs1; rfl
        · rw [hrec.limit_eq, hsame.limit_eq]; subst hs1; rfl
        · rw [hrec.bitmap_eq, hsame.bitmap_eq]; subst hs1; rfl
        · rw [hrec.vidMgr_eq, hsame.vidMgr_eq]; subst hs1; rfl
        · intro k hk
          rcases List.mem_cons.mp hk with rfl | hk
          · exact ⟨by omega, hkey⟩
          · exact hrec.key_lt k hk
        · intro v hv
          rw [List.mem_cons, not_or] at hv
          rw [hrec.map_of_notMem v hv.2, hsame.bucketNoPos_eq, hmap1, if_neg hv.1]
        · intro v hv
          by_cases hin : v ∈ keys
          · obtain ⟨i, hi, hpos⟩ := hrec.map_of_mem v hin
            exact ⟨i + 1, hi, by rw [hpos, Nat.add_assoc, Nat.add_comm 1 i]⟩
          · have hv' : v = key := by
              rcases List.mem_cons.mp hv with h | h
              · exact h
              · exact absurd h hin
            subst hv'
            refine ⟨0, rfl, ?_⟩
            rw [hrec.map_of_notMem v hin, hsame.bucketNoPos_eq, hmap1, if_pos rfl]
            rfl
    · cases h

section Add

variable [Inhabited Code] (F : FloatOps)

/-- `RealTimeMemData::AddKeys`. The retrieve position is published last in the source; nothing in
between reads it. -/
def addKeys (listNo : Fin n) (k : ℕ) (keys : List ℕ) (keysCodes : List Code) (a : Alloc)
    (s : RealTimeMemData n Code) : Option (RealTimeMemData n Code × Bool) :=
  match s.extendBucketIfNeed F listNo k a with
  | none => none
  | some (s, ret) =>
    if ret ≠ 0 then some (s, false)
    else if hc : keysCodes.length = keys.length then
      -- more keys than announced would be copied past the end of the block
      if hk : (s.buckets listNo).retrieveIdxPos + keys.length ≤ (s.buckets listNo).curBucketKeys then
        let pos := (s.buckets listNo).retrieveIdxPos
        let s := s.setBucket listNo ((s.buckets listNo).append keys keysCodes hc hk)
        (recordKeys listNo keys pos s).map fun s => (s, true)
      else none
    else some (s, false)

/-- What a successful `AddKeys` does. -/
structure Added (listNo : Fin n) (keys : List ℕ) (keysCodes : List Code)
    (s s' : RealTimeMemData n Code) : Prop where
  codes_length : keysCodes.length = keys.length
  entries_eq : ∀ b, s'.entries b =
    if b = listNo then s.entries b ++ (keys.map ofVid).zip keysCodes else s.entries b
  limit_eq : s'.bucketKeysLimit = s.bucketKeysLimit
  bitmap_eq : s'.docidsBitmap = s.docidsBitmap
  vidMgr_eq : s'.vidMgr = s.vidMgr
  length_le : s.vidBucketNoPos.length ≤ s'.vidBucketNoPos.length
  key_lt : ∀ key ∈ keys, key < s'.vidBucketNoPos.length ∧ key < 2 ^ 63
  map_of_notMem : ∀ v, v ∉ keys → s'.bucketNoPos v = s.bucketNoPos v
  map_of_mem : ∀ v ∈ keys, ∃ i, keys[i]? = some v ∧
    s'.bucketNoPos v = encodePos listNo ((s.entries listNo).length + i)

/-- **Inversion of `AddKeys`.** It fails and leaves the slots, the map and the counters, or it
succeeds and appends the keys to the bucket. -/
theorem addKeys_cases {listNo : Fin n} {k : ℕ} {keys : List ℕ} {keysCodes : List Code} {a : Alloc}
    {s s' : RealTimeMemData n Code} {ok : Bool}
    (h : s.addKeys F listNo k keys keysCodes a = some (s', ok)) :
    (ok = false ∧ Grown s s') ∨ (ok = true ∧ Added listNo keys keysCodes s s') := by
  unfold addKeys at h
  split at h
  · cases h
  · next s1 ret hext =>
    obtain ⟨hgrown, -⟩ := extendBucketIfNeed_spec F hext
    split at h
    · cases h; exact .inl ⟨rfl, hgrown⟩
    · split at h
      · next hc =>
        split at h
        · next hk =>
          obtain ⟨s2, hrec, heq⟩ := Option.map_eq_some_iff.mp h
          cases heq
          have hr := recordKeys_spec hrec
          have hpos : (s1.buckets listNo).retrieveIdxPos = (s.entries listNo).length := by
            rw [hgrown.pos_eq, entries, Bucket.entries_length]
          refine .inr ⟨rfl, hc, ?_, hr.limit_eq.trans hgrown.limit_eq,
            hr.bitmap_eq.trans hgrown.bitmap_eq, hr.vidMgr_eq.trans hgrown.vidMgr_eq, ?_,
            hr.key_lt, ?_, ?_⟩
          · intro b
            rw [hr.entries_eq, entries_setBucket, hgrown.entries_eq b]
            by_cases hb : b = listNo
            · subst hb
              rw [if_pos rfl, if_pos rfl, Bucket.entries_append]
              exact congrArg (· ++ _) (hgrown.entries_eq b)
            · rw [if_neg hb, if_neg hb]
          · have hle := hr.length_le
            change s1.vidBucketNoPos.length ≤ _ at hle
            rwa [hgrown.map_eq] at hle
          · intro v hv
            rw [hr.map_of_notMem v hv, bucketNoPos_setBucket, hgrown.bucketNoPos_eq]
          · intro v hv
            obtain ⟨i, hi, hmap⟩ := hr.map_of_mem v hv
            exact ⟨i, hi, by rw [hmap, hpos]⟩
        · cases h
      · cases h; exact .inl ⟨rfl, hgrown⟩

/-- `RealTimeMemData::Update`. -/
def update (bucketNo : Fin n) (vid : ℕ) (codes : Code) (a : Alloc) (s : RealTimeMemData n Code) :
    Option (RealTimeMemData n Code × ℤ) :=
  if vid ≥ s.vidBucketNoPos.length then some (s, 0)
  else if s.bucketNoPos vid = -1 then some (s, 0)
  else
    let oldPos := posOf (s.bucketNoPos vid)
    if h : bucketOf (s.bucketNoPos vid) < n then
      let oldBucketNo : Fin n := ⟨_, h⟩
      if oldBucketNo = bucketNo then
        some (s.setBucket oldBucketNo ((s.buckets oldBucketNo).setCode oldPos codes), 0)
      else
        -- mark deleted; a failure of `AddKeys` below does not undo it
        let s := s.setBucket oldBucketNo ((s.buckets oldBucketNo).maskSlot oldPos)
        (s.addKeys F bucketNo 1 [vid] [codes] a).map fun r => (r.1, if r.2 then 1 else 0)
    else none

/-- **Inversion of `Update`.** Nothing happens to a vector that is not in the map; a vector that
stays in its bucket gets its code replaced; any other is masked and added to its new bucket. -/
theorem update_cases {b : Fin n} {vid : ℕ} {code : Code} {a : Alloc}
    {s s' : RealTimeMemData n Code} {r : ℤ} (h : s.update F b vid code a = some (s', r)) :
    (s.bucketNoPos vid = -1 ∧ s' = s ∧ r = 0) ∨
    (∃ ob : Fin n, s.bucketNoPos vid ≠ -1 ∧ bucketOf (s.bucketNoPos vid) = ob ∧
      ((ob = b ∧ r = 0 ∧
          s' = s.setBucket ob ((s.buckets ob).setCode (posOf (s.bucketNoPos vid)) code)) ∨
        (ob ≠ b ∧ ∃ ok,
          (s.setBucket ob ((s.buckets ob).maskSlot (posOf (s.bucketNoPos vid)))).addKeys F b 1 [vid]
            [code] a = some (s', ok) ∧ r = if ok then 1 else 0))) := by
  unfold update at h
  split at h
  · next hlen =>
    cases h
    exact .inl ⟨List.getD_eq_default _ _ (by omega), rfl, rfl⟩
  · split at h
    · next hneg => cases h; exact .inl ⟨hneg, rfl, rfl⟩
    · next hpos =>
      refine .inr ?_
      dsimp only at h
      split at h
      · next hlt =>
        refine ⟨⟨_, hlt⟩, hpos, rfl, ?_⟩
        split at h
        · next hsame => cases h; exact .inl ⟨hsame, rfl, rfl⟩
        · next hmove =>
          obtain ⟨⟨t, ok⟩, ht, heq⟩ := Option.map_eq_some_iff.mp h
          cases heq
          exact .inr ⟨hmove, ok, ht, rfl⟩
      · cases h

/-- **Inversion of `Update`** of a vector whose slot is known. -/
theorem update_cases_of_slot {b b₀ : Fin n} {vid p : ℕ} {code : Code} {a : Alloc}
    {s s' : RealTimeMemData n Code} {r : ℤ} (hmap : s.bucketNoPos vid = encodePos b₀ p)
    (hp : p < 2 ^ 32) (h : s.update F b vid code a = some (s', r)) :
    (b₀ = b ∧ r = 0 ∧ s' = s.setBucket b₀ ((s.buckets b₀).setCode p code)) ∨
      (b₀ ≠ b ∧ ∃ ok, (s.setBucket b₀ ((s.buckets b₀).maskSlot p)).addKeys F b 1 [vid] [code] a =
        some (s', ok) ∧ r = if ok then 1 else 0) := by
  rcases update_cases F h with ⟨hneg, -, -⟩ | ⟨ob, -, hob, hcase⟩
  · exact absurd (hmap.symm.trans hneg) (encodePos_ne_neg_one _ _)
  · rw [hmap, bucketOf_encodePos hp] at hob
    have hsame : b₀ = ob := Fin.ext hob
    rw [hmap, posOf_encodePos hp, ← hsame] at hcase
    exact hcase

end Add

/-! ### Compaction -/

/-- The destination side of the loop of `CompactBucket`. -/
structure CompactCursor (Code : Type) where
  kept : List (Long × Code)
  vidBucketNoPos : List ℤ
  pos : ℕ

/-- The test of `CompactOne`: neither moved away nor deleted. -/
def keepSlot (deleted : ℕ → Bool) (src : Long × Code) : Bool :=
  !isDel src.1 && !deleted (recoverVid src.1)

/-- `RTInvertBucketData::CompactOne`. A slot that is not kept leaves no trace, and the reverse map
is not told. -/
def compactOne (bucketNo : ℕ) (deleted : ℕ → Bool) (cur : CompactCursor Code) (src : Long × Code) :
    CompactCursor Code :=
  if keepSlot deleted src then
    { kept := cur.kept ++ [src]
      vidBucketNoPos := cur.vidBucketNoPos.set src.1.toNat (encodePos bucketNo cur.pos)
      pos := cur.pos + 1 }
  else cur

/-- The `for` loop of `CompactBucket` over the slots in use. -/
def compactLoop (bucketNo : ℕ) (deleted : ℕ → Bool) (cur : CompactCursor Code)
    (slots : List (Long × Code)) : CompactCursor Code :=
  slots.foldl (compactOne bucketNo deleted) cur

theorem compactLoop_kept (bucketNo : ℕ) (deleted : ℕ → Bool) (cur : CompactCursor Code)
    (slots : List (Long × Code)) :
    (compactLoop bucketNo deleted cur slots).kept = cur.kept ++ slots.filter (keepSlot deleted) := by
  induction slots generalizing cur with
  | nil => simp [compactLoop]
  | cons e es ih =>
    have hstep : compactLoop bucketNo deleted cur (e :: es) =
        compactLoop bucketNo deleted (compactOne bucketNo deleted cur e) es := rfl
    rw [hstep, ih]
    by_cases hk : keepSlot deleted e = true <;> simp [compactOne, hk]

/-- The slots of bucket `b` that a compaction keeps. -/
def survivors (s : RealTimeMemData n Code) (b : Fin n) : List (Long × Code) :=
  (s.entries b).filter (keepSlot s.isDeleted)

theorem survivors_length_le (s : RealTimeMemData n Code) (b : Fin n) :
    (s.survivors b).length ≤ (s.buckets b).retrieveIdxPos := by
  have h := List.length_filter_le (keepSlot s.isDeleted) (s.entries b)
  rwa [entries, Bucket.entries_length] at h

/-- What the loop leaves in the reverse map at `v`: the slot of a kept entry of `v`, or what was
there before if no entry of `v` is kept. -/
theorem compactLoop_map (bucketNo : ℕ) (deleted : ℕ → Bool) (cur : CompactCursor Code)
    {slots : List (Long × Code)}
    (hids : ∀ e ∈ slots, recoverVid e.1 < cur.vidBucketNoPos.length)
    (hpos : cur.pos = cur.kept.length) (v : ℕ) :
    let fin := compactLoop bucketNo deleted cur slots
    fin.vidBucketNoPos.length = cur.vidBucketNoPos.length ∧
      ((∃ p e, fin.kept[p]? = some e ∧ recoverVid e.1 = v ∧
          fin.vidBucketNoPos.getD v (-1) = encodePos bucketNo p) ∨
        ((∀ e ∈ slots.filter (keepSlot deleted), recoverVid e.1 ≠ v) ∧
          fin.vidBucketNoPos.getD v (-1) = cur.vidBucketNoPos.getD v (-1))) := by
  induction slots generalizing cur with
  | nil => exact ⟨rfl, .inr ⟨by simp, rfl⟩⟩
  | cons e es ih =>
    have hstep : compactLoop bucketNo deleted cur (e :: es) =
        compactLoop bucketNo deleted (compactOne bucketNo deleted cur e) es := rfl
    rw [hstep]
    by_cases hk : keepSlot deleted e = true
    · have hdel : isDel e.1 = false := by simp [keepSlot] at hk; exact hk.1
      have hid := (recoverVid_of_unmasked hdel).symm
      have hone : compactOne bucketNo deleted cur e =
          ⟨cur.kept ++ [e], cur.vidBucketNoPos.set (recoverVid e.1) (encodePos bucketNo cur.pos),
            cur.pos + 1⟩ := by
        rw [compactOne, if_pos hk, hid]
      have he := hids e List.mem_cons_self
      obtain ⟨hlen, hmap⟩ := ih (compactOne bucketNo deleted cur e)
        (by rw [hone]; simpa using fun e' h' => hids e' (List.mem_cons_of_mem _ h'))
        (by rw [hone]; simp [hpos])
      refine ⟨by rw [hlen, hone, List.length_set], ?_⟩
      rcases hmap with h | ⟨hnone, hold⟩
      · exact .inl h
      · rw [hone] at hold
        rw [getD_set_map he] at hold
        by_cases hv : v = recoverVid e.1
        · -- `e` is the last kept entry of `v`
          refine .inl ⟨cur.pos, e, ?_, hv.symm, by rw [hone]; rw [hold, if_pos hv]⟩
          rw [compactLoop_kept, hone]
          simp [hpos]
        · rw [if_neg hv] at hold
          refine .inr ⟨?_, by rw [hone]; exact hold⟩
          rw [List.filter_cons_of_pos hk]
          intro e' he'
          rcases List.mem_cons.mp he' with rfl | he'
          · exact fun h => hv h.symm
          · exact hnone e' he'
    · have hone : compactOne bucketNo deleted cur e = cur := by rw [compactOne, if_neg hk]
      rw [hone, List.filter_cons_of_neg hk]
      exact ih cur (fun e' h' => hids e' (List.mem_cons_of_mem _ h')) hpos

section Compact

variable [Inhabited Code]

/-- `RTInvertBucketData::CompactBucket`. -/
def compactSlots (b : Fin n) (s : RealTimeMemData n Code) : RealTimeMemData n Code :=
  let cur := compactLoop b s.isDeleted ⟨[], s.vidBucketNoPos, 0⟩ (s.entries b)
  { s.setBucket b ((s.buckets b).compacted cur.kept (by
      rw [compactLoop_kept, List.nil_append]
      exact s.survivors_length_le b)) with
    vidBucketNoPos := cur.vidBucketNoPos }

/-- `RealTimeMemData::CompactBucket`, that is `AdjustBucketMem` of type 1. -/
def compactBucket (b : Fin n) (a : Alloc) (s : RealTimeMemData n Code) :
    RealTimeMemData n Code × Bool :=
  if a = .noHeader then (s, false) else (s.compactSlots b, true)

/-- `RealTimeMemData::Compactable`. -/
def compactable (F : FloatOps) (b : Fin n) (s : RealTimeMemData n Code) : Bool :=
  F.ratioReached (s.buckets b).deletedNum (s.buckets b).retrieveIdxPos

/-- The loop of `CompactIfNeed` over the buckets still to visit. -/
def compactFrom (F : FloatOps) (a : Fin n → Alloc) :
    List (Fin n) → RealTimeMemData n Code → RealTimeMemData n Code × ℤ
  | [], s => (s, 0)
  | b :: bs, s =>
    if s.compactable F b then
      match s.compactBucket b (a b) with
      | (s, true) => compactFrom F a bs s
      | (s, false) => (s, -2)
    else compactFrom F a bs s

/-- `RealTimeMemData::CompactIfNeed`. -/
def compactIfNeed (F : FloatOps) (a : Fin n → Alloc) (s : RealTimeMemData n Code) :
    RealTimeMemData n Code × ℤ :=
  compactFrom F a (List.finRange n) s

/-- `CompactIfNeed` is a sequence of bucket compactions. -/
theorem compactFrom_eq_foldl (F : FloatOps) (a : Fin n → Alloc) (bs : List (Fin n))
    (s : RealTimeMemData n Code) :
    ∃ cs : List (Fin n), (compactFrom F a bs s).1 = cs.foldl (fun s b => s.compactSlots b) s := by
  induction bs generalizing s with
  | nil => exact ⟨[], rfl⟩
  | cons b bs ih =>
    unfold compactFrom
    by_cases hc : s.compactable F b = true
    · rw [if_pos hc]
      by_cases ha : a b = .noHeader
      · exact ⟨[], by simp [compactBucket, ha]⟩
      · obtain ⟨cs, hcs⟩ := ih (s.compactSlots b)
        exact ⟨b :: cs, by simpa [compactBucket, ha] using hcs⟩
    · rw [if_neg hc]
      exact ih s

/-- What a compaction of bucket `b` does. -/
structure Compacted (b : Fin n) (s s' : RealTimeMemData n Code) : Prop where
  entries_eq : ∀ b', s'.entries b' = if b' = b then s.survivors b else s.entries b'
  limit_eq : s'.bucketKeysLimit = s.bucketKeysLimit
  bitmap_eq : s'.docidsBitmap = s.docidsBitmap
  vidMgr_eq : s'.vidMgr = s.vidMgr
  length_eq : s'.vidBucketNoPos.length = s.vidBucketNoPos.length
  map_eq : ∀ v,
    (∃ p e, (s.survivors b)[p]? = some e ∧ recoverVid e.1 = v ∧
      s'.bucketNoPos v = encodePos b p) ∨
    ((∀ e ∈ s.survivors b, recoverVid e.1 ≠ v) ∧ s'.bucketNoPos v = s.bucketNoPos v)

theorem compactSlots_spec {s : RealTimeMemData n Code} (hids : s.IdsInRange) (b : Fin n) :
    Compacted b s (s.compactSlots b) := by
  have hkept : (compactLoop b s.isDeleted ⟨[], s.vidBucketNoPos, 0⟩ (s.entries b)).kept =
      s.survivors b := by
    rw [compactLoop_kept, List.nil_append, survivors]
  have hmap := fun v => compactLoop_map b s.isDeleted ⟨[], s.vidBucketNoPos, 0⟩ (hids b) rfl v
  refine ⟨?_, rfl, rfl, rfl, (hmap 0).1, ?_⟩
  · intro b'
    change (s.setBucket b _).entries b' = _
    rw [entries_setBucket, Bucket.entries_compacted, hkept]
  · intro v
    have h := (hmap v).2
    rw [hkept] at h
    exact h

end Compact

end RealTimeMemData

end AwaDB.Realtime
