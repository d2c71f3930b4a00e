import AwaDB.Lib.Decimal
import AwaDB.Lib.Outcome
import AwaDB.Lib.Run
import AwaDB.Lib.SortedStore
import AwaDB.Table.Row
import Mathlib.Algebra.Group.Nat.Defs
import Mathlib.Algebra.Order.Ring.Int

/-!
# The vectors in RocksDB (`vector/rocksdb_raw_vector.cc`, `io/rocksdb_raw_vector_io.cc`)

`RocksDBRawVector` has the vectors under their numbers, as text of ten digits, so that the order of the
keys is the order of the numbers. The number of vectors is in memory; after a restart it is found again
from the keys. Keys that are beyond it stay where they are.

* `Slice`, `toRowKey`: the keys, and `toRowKey_lt`: their order;
* the functions as the code has them;
* `Agrees`, `agrees_step`: what is under the keys is a list of vectors;
* `reads_of_run`: in every run the readers return the vectors that were written last.
-/

namespace AwaDB

open Lib

/-- A key: RocksDB compares its bytes one by one. -/
structure Slice where
  bytes : Bytes

/-- The bytes as numbers. -/
def Slice.numbers (s : Slice) : List ℕ := s.bytes.map UInt8.toNat

theorem Slice.numbers_injective : Function.Injective Slice.numbers := by
  intro s t h
  have hbytes := List.map_injective_iff.mpr (fun _ _ => UInt8.toNat_inj.mp) h
  cases s
  cases t
  exact congrArg Slice.mk hbytes

instance : LinearOrder Slice := LinearOrder.lift' Slice.numbers Slice.numbers_injective

/-- The last digits of a number, as text. -/
def rowDigits : ℕ → ℕ → Bytes
  | 0, _ => []
  | width + 1, n => UInt8.ofNat (48 + n / 10 ^ width % 10) :: rowDigits width (n % 10 ^ width)

/-- `ToRowKey` of a number that is not negative: `%010d`. -/
def toRowKey (vid : ℕ) : Slice := ⟨rowDigits 10 vid⟩

/-- `PARAM_ERR`, `IO_ERR` and `INTERNAL_ERR`. -/
def paramErr : ℤ := 100
def ioErr : ℤ := 200
def internalErr : ℤ := 300

/-- `vector_byte_size_`, which is the dimension times the size of a number, `size_` of the meta
information, and the database. -/
structure RocksDBRawVector (S : Type) where
  vectorByteSize : ℕ
  size : ℕ
  db : S

namespace RocksDBRawVector

variable {S : Type} (K : SortedStore Slice Bytes S)

/-! ### The program -/

/-- After `InitStore` of a new table. -/
def create (vectorByteSize : ℕ) : RocksDBRawVector S := ⟨vectorByteSize, 0, K.empty⟩

/-- `Decompress` without compression. -/
def decompress (s : RocksDBRawVector S) (data : Bytes) : Outcome ℤ Bytes :=
  if s.vectorByteSize = data.length then .done data else .broken

/-- `UpdateToStore`, with the bytes of `v` as `len`. -/
def updateToStore (vid : ℕ) (v : Bytes) (s : RocksDBRawVector S) : ℤ × RocksDBRawVector S :=
  if v.length ≠ s.vectorByteSize then (-1, s)
  else (0, { s with db := K.put s.db (toRowKey vid) v })

/-- `AddToStore`. -/
def addToStore (v : Bytes) (s : RocksDBRawVector S) : ℤ × RocksDBRawVector S :=
  updateToStore K s.size v s

/-- `GetVector`. -/
def getVector (s : RocksDBRawVector S) (vid : ℤ) : Outcome ℤ Bytes :=
  if (s.size : ℤ) ≤ vid ∨ vid < 0 then .refused 1
  else
    match K.get s.db (toRowKey vid.toNat) with
    | none => .refused ioErr
    | some value => s.decompress value

/-- `Gets`: a number that is negative has no vector. -/
def gets (s : RocksDBRawVector S) : List ℤ → Outcome ℤ (List (Option Bytes))
  | [] => .done []
  | vid :: vids =>
    if vid < 0 then do
      let rest ← gets s vids
      return none :: rest
    else
      match K.get s.db (toRowKey vid.toNat) with
      | none => .refused 2
      | some value => do
        let vec ← s.decompress value
        let rest ← gets s vids
        return some vec :: rest

/-- The loop of `GetVectorHeader` over the iterator. -/
def headerLoop (s : RocksDBRawVector S) : ℕ → List (Slice × Bytes) → Outcome ℤ Bytes
  | 0, _ => .done []
  | _ + 1, [] => .refused internalErr
  | n + 1, e :: entries => do
    let vec ← s.decompress e.2
    let rest ← headerLoop s n entries
    return vec ++ rest

/-- `GetVectorHeader`. -/
def getVectorHeader (s : RocksDBRawVector S) (start : ℤ) (n : ℕ) : Outcome ℤ Bytes :=
  if start < 0 ∨ (s.size : ℤ) < start + n then .refused paramErr
  else s.headerLoop n (K.seek s.db (toRowKey start.toNat))

/-- `RocksDBRawVectorIO::GetDiskVecNum`: the number behind the last key, of those below `vecNum`. -/
def diskVecNum (s : RocksDBRawVector S) : ℕ → ℕ
  | 0 => 0
  | vecNum + 1 => if (K.get s.db (toRowKey vecNum)).isSome then vecNum + 1 else diskVecNum s vecNum

/-- `RocksDBRawVectorIO::Load`. -/
def load (vecNum : ℕ) (s : RocksDBRawVector S) : Outcome ℤ (RocksDBRawVector S) :=
  if vecNum = 0 then .done s
  else
    match K.get s.db (toRowKey (vecNum - 1)) with
    | none => .refused internalErr
    | some _ => .done { s with size := vecNum }

/-- `RawVector::Add` and `RawVector::Update`, and a restart with a number of documents. -/
inductive Op where
  | add (v : Bytes)
  | update (docid : ℕ) (v : Bytes)
  | restart (docNum : Fin (2 ^ 31))

/-- One call; what it returns is left out. -/
def step : Op → RocksDBRawVector S → Option (RocksDBRawVector S)
  | .add v, s =>
    let r := addToStore K v s
    some (if r.1 = 0 then { r.2 with size := r.2.size + 1 } else s)
  | .update docid v, s => some (if s.size ≤ docid then s else (updateToStore K docid v s).2)
  | .restart docNum, s =>
    let opened : RocksDBRawVector S := { s with size := 0 }
    match load K (diskVecNum K opened docNum) opened with
    | .done s => some s
    | _ => none

/-! ### The keys -/

theorem numbers_toRowKey (width n : ℕ) : (rowDigits width n).map UInt8.toNat =
    match width with
    | 0 => []
    | width + 1 => (48 + n / 10 ^ width % 10) :: (rowDigits width (n % 10 ^ width)).map UInt8.toNat := by
  cases width with
  | zero => rfl
  | succ width =>
    rw [rowDigits, List.map_cons, toNat_digit (Nat.mod_lt _ (by decide))]

/-- **The text of a greater number** is greater, if it fits. -/
theorem rowDigits_lt {width m n : ℕ} (hlt : m < n) (hn : n < 10 ^ width) :
    (rowDigits width m).map UInt8.toNat < (rowDigits width n).map UInt8.toNat := by
  induction width generalizing m n with
  | zero => exact absurd hlt (by rw [Nat.pow_zero] at hn; omega)
  | succ width ih =>
    have hpos : 0 < 10 ^ width := Nat.pow_pos (by decide)
    rw [Nat.pow_succ] at hn
    have hdigit : ∀ x, x < 10 ^ width * 10 → x / 10 ^ width % 10 = x / 10 ^ width := fun x hx =>
      Nat.mod_eq_of_lt (Nat.div_lt_of_lt_mul hx)
    rw [numbers_toRowKey, numbers_toRowKey]
    dsimp only
    rw [hdigit m (by omega), hdigit n hn, List.cons_lt_cons_iff]
    have hle : m / 10 ^ width ≤ n / 10 ^ width := Nat.div_le_div_right (Nat.le_of_lt hlt)
    rcases Nat.lt_or_eq_of_le hle with hhead | hhead
    · exact .inl (by omega)
    · refine .inr ⟨by rw [hhead], ih ?_ (Nat.mod_lt _ hpos)⟩
      have hm := Nat.div_add_mod m (10 ^ width)
      have hn' := Nat.div_add_mod n (10 ^ width)
      rw [hhead] at hm
      omega

/-- **The order of the keys** is that of the numbers. -/
theorem toRowKey_lt {m n : ℕ} (hlt : m < n) (hn : n < 10 ^ 10) : toRowKey m < toRowKey n :=
  rowDigits_lt hlt hn

theorem toRowKey_inj {m n : ℕ} (hm : m < 10 ^ 10) (hn : n < 10 ^ 10) (h : toRowKey m = toRowKey n) :
    m = n := by
  rcases Nat.lt_trichotomy m n with hlt | heq | hlt
  · exact absurd h (ne_of_lt (toRowKey_lt hlt hn))
  · exact heq
  · exact absurd h.symm (ne_of_lt (toRowKey_lt hlt hm))

/-! ### The list of vectors -/

/-- The vectors under the keys, and how many of them count. -/
structure Vectors where
  vectors : List Bytes
  size : ℕ

/-- One vector is written: one that there is already, or the next one. -/
def writeVector (vectors : List Bytes) (vid : ℕ) (v : Bytes) : List Bytes :=
  vectors.take vid ++ v :: vectors.drop (vid + 1)

/-- The calls on the list. A vector with the wrong number of bytes is refused. -/
def Vectors.step (vectorByteSize : ℕ) (t : Vectors) : Op → Vectors
  | .add v =>
    if v.length = vectorByteSize then ⟨writeVector t.vectors t.size v, t.size + 1⟩ else t
  | .update docid v =>
    if docid < t.size ∧ v.length = vectorByteSize then ⟨writeVector t.vectors docid v, t.size⟩ else t
  | .restart docNum => ⟨t.vectors, min docNum t.vectors.length⟩

theorem getElem?_writeVector {vectors : List Bytes} {vid : ℕ} (h : vid ≤ vectors.length) (v : Bytes)
    (i : ℕ) : (writeVector vectors vid v)[i]? = if i = vid then some v else vectors[i]? := by
  have hlen : (vectors.take vid).length = vid := by
    rw [List.length_take]
    omega
  rw [writeVector]
  rcases Nat.lt_trichotomy i vid with hlt | rfl | hlt
  · rw [if_neg (by omega), List.getElem?_append_left (by omega), List.getElem?_take_of_lt hlt]
  · rw [if_pos rfl, List.getElem?_append_right (by omega), hlen, Nat.sub_self]
    rfl
  · obtain ⟨k, rfl⟩ : ∃ k, i = vid + 1 + k := ⟨i - (vid + 1), by omega⟩
    have hk : vid + 1 + k - vid = k + 1 := by omega
    rw [if_neg (by omega), List.getElem?_append_right (by omega), hlen, hk, List.getElem?_cons_succ,
      List.getElem?_drop]

theorem length_writeVector {vectors : List Bytes} {vid : ℕ} (h : vid ≤ vectors.length) (v : Bytes) :
    (writeVector vectors vid v).length = max vectors.length (vid + 1) := by
  rw [writeVector, List.length_append, List.length_take, List.length_cons, List.length_drop]
  omega

theorem mem_writeVector {vectors : List Bytes} {vid : ℕ} {v w : Bytes}
    (h : w ∈ writeVector vectors vid v) : w = v ∨ w ∈ vectors := by
  cases List.mem_append.mp h with
  | inl hmem => exact .inr (List.mem_of_mem_take hmem)
  | inr hmem =>
    cases List.mem_cons.mp hmem with
    | inl heq => exact .inl heq
    | inr hmem => exact .inr (List.mem_of_mem_drop hmem)

/-- **What is under the keys is a list of vectors.** -/
structure Agrees (vectorByteSize : ℕ) (s : RocksDBRawVector S) (t : Vectors) : Prop where
  bytes : s.vectorByteSize = vectorByteSize
  size : s.size = t.size
  le : t.size ≤ t.vectors.length
  get : ∀ i v, t.vectors[i]? = some v → K.get s.db (toRowKey i) = some v
  only : ∀ k v, K.get s.db k = some v → ∃ i < t.vectors.length, k = toRowKey i
  length : ∀ v ∈ t.vectors, v.length = vectorByteSize

variable {K} {vectorByteSize : ℕ} {s : RocksDBRawVector S} {t : Vectors}

theorem agrees_create (K : SortedStore Slice Bytes S) (vectorByteSize : ℕ) :
    Agrees K vectorByteSize (create K vectorByteSize) ⟨[], 0⟩ where
  bytes := rfl
  size := rfl
  le := Nat.le_refl 0
  get i v h := by cases h
  only k v h := by
    have hnone := K.get_empty k
    rw [show K.get K.empty k = some v from h] at hnone
    cases hnone
  length v hv := absurd hv List.not_mem_nil

theorem Agrees.get_lt (h : Agrees K vectorByteSize s t) {i : ℕ} (hi : i < t.vectors.length) :
    K.get s.db (toRowKey i) = some t.vectors[i] :=
  h.get i _ (List.getElem?_eq_getElem hi)

/-- **One vector is written.** -/
theorem Agrees.write (h : Agrees K vectorByteSize s t) (hsmall : t.vectors.length < 2 ^ 31) {vid : ℕ}
    (hvid : vid ≤ t.vectors.length) {v : Bytes} (hv : v.length = vectorByteSize) (size : ℕ)
    (hsize : size ≤ max t.vectors.length (vid + 1)) :
    Agrees K vectorByteSize { s with size := size, db := K.put s.db (toRowKey vid) v }
      ⟨writeVector t.vectors vid v, size⟩ where
  bytes := h.bytes
  size := rfl
  le := by
    show size ≤ (writeVector t.vectors vid v).length
    rw [length_writeVector hvid]
    exact hsize
  get i w hw := by
    have hw : (writeVector t.vectors vid v)[i]? = some w := hw
    rw [getElem?_writeVector hvid] at hw
    show K.get (K.put s.db (toRowKey vid) v) (toRowKey i) = some w
    rw [K.get_put]
    by_cases heq : i = vid
    · rw [if_pos heq] at hw
      rw [if_pos (by rw [heq]), hw]
    · rw [if_neg heq] at hw
      have hi := (List.getElem?_eq_some_iff.mp hw).1
      rw [if_neg fun hkey => heq (toRowKey_inj (by omega) (by omega) hkey)]
      exact h.get i w hw
  only k w hw := by
    have hw : K.get (K.put s.db (toRowKey vid) v) k = some w := hw
    rw [K.get_put] at hw
    show ∃ i < (writeVector t.vectors vid v).length, k = toRowKey i
    rw [length_writeVector hvid]
    split at hw
    · rename_i heq
      exact ⟨vid, by omega, heq⟩
    · obtain ⟨i, hi, hkey⟩ := h.only k w hw
      exact ⟨i, by omega, hkey⟩
  length w hw := by
    cases mem_writeVector hw with
    | inl heq => rw [heq, hv]
    | inr hold => exact h.length w hold

/-- The key of a number is there if a vector is. -/
theorem Agrees.isSome_get (h : Agrees K vectorByteSize s t) {i : ℕ} (hi : i < 2 ^ 31) :
    (K.get s.db (toRowKey i)).isSome = decide (i < t.vectors.length) := by
  by_cases hlt : i < t.vectors.length
  · rw [h.get_lt hlt, decide_eq_true hlt]
    rfl
  · rw [decide_eq_false hlt]
    cases hget : K.get s.db (toRowKey i) with
    | none => rfl
    | some v =>
      obtain ⟨j, hj, hkey⟩ := h.only _ v hget
      have heq := toRowKey_inj (by omega) (by omega) hkey
      omega

/-- **The number of vectors is found again**: what the keys have, up to what was asked for. -/
theorem Agrees.diskVecNum (h : Agrees K vectorByteSize s t) {vecNum : ℕ} (hnum : vecNum ≤ 2 ^ 31) :
    diskVecNum K s vecNum = min vecNum t.vectors.length := by
  induction vecNum with
  | zero => exact (Nat.zero_min _).symm
  | succ vecNum ih =>
    rw [RocksDBRawVector.diskVecNum, h.isSome_get (by omega)]
    by_cases hlt : vecNum < t.vectors.length
    · rw [decide_eq_true hlt, if_pos rfl]
      omega
    · rw [decide_eq_false hlt, if_neg Bool.false_ne_true, ih (by omega)]
      omega

/-- **One call.** -/
theorem agrees_step (h : Agrees K vectorByteSize s t) (hsmall : t.vectors.length < 2 ^ 31) (op : Op) :
    ∃ s', step K op s = some s' ∧ Agrees K vectorByteSize s' (t.step vectorByteSize op) := by
  obtain ⟨bytes, size, db⟩ := s
  obtain rfl : bytes = vectorByteSize := h.bytes
  obtain rfl : size = t.size := h.size
  cases op with
  | add v =>
    refine ⟨_, rfl, ?_⟩
    rw [Vectors.step, addToStore, updateToStore]
    by_cases hv : v.length = bytes
    · rw [if_neg (not_not.mpr hv), if_pos rfl, if_pos hv]
      exact h.write hsmall h.le hv (t.size + 1) (by omega)
    · rw [if_pos hv, if_neg hv]
      exact h
  | update docid v =>
    refine ⟨_, rfl, ?_⟩
    rw [Vectors.step, updateToStore]
    have hle := h.le
    by_cases hdocid : docid < t.size
    · rw [if_neg (Nat.not_le.mpr hdocid)]
      by_cases hv : v.length = bytes
      · rw [if_neg (not_not.mpr hv), if_pos ⟨hdocid, hv⟩]
        exact h.write hsmall (Nat.le_trans (Nat.le_of_lt hdocid) hle) hv t.size (by omega)
      · rw [if_pos hv, if_neg fun hboth => hv hboth.2]
        exact h
    · rw [if_pos (Nat.not_lt.mp hdocid), if_neg fun hboth => hdocid hboth.1]
      exact h
  | restart docNum =>
    have hopened : Agrees K bytes ⟨bytes, 0, db⟩ ⟨t.vectors, 0⟩ :=
      ⟨h.bytes, rfl, Nat.zero_le _, h.get, h.only, h.length⟩
    have hnum := hopened.diskVecNum (Nat.le_of_lt docNum.isLt)
    rw [step, hnum, load]
    have hle : min docNum.val t.vectors.length ≤ t.vectors.length := Nat.min_le_right _ _
    by_cases hzero : min docNum.val t.vectors.length = 0
    · rw [if_pos hzero]
      refine ⟨_, rfl, ?_⟩
      rw [Vectors.step, hzero]
      exact hopened
    · have hlt : min docNum.val t.vectors.length - 1 < t.vectors.length := by omega
      rw [if_neg hzero]
      have hget := hopened.get_lt hlt
      rw [hget]
      exact ⟨_, rfl, h.bytes, rfl, hle, h.get, h.only, h.length⟩

/-- A call adds at most one vector. -/
theorem length_step (vectorByteSize : ℕ) (h : t.size ≤ t.vectors.length) (op : Op) :
    (t.step vectorByteSize op).vectors.length ≤ t.vectors.length + 1 := by
  cases op with
  | add v =>
    rw [Vectors.step]
    split
    · show (writeVector t.vectors t.size v).length ≤ _
      rw [length_writeVector h]
      omega
    · omega
  | update docid v =>
    rw [Vectors.step]
    split
    · rename_i hboth
      show (writeVector t.vectors docid v).length ≤ _
      rw [length_writeVector (by omega)]
      omega
    · omega
  | restart docNum => exact Nat.le_succ _

/-- **Every run.** -/
theorem agrees_run (h : Agrees K vectorByteSize s t) (ops : List Op)
    (hsmall : t.vectors.length + ops.length < 2 ^ 31) :
    ∃ s', runOps (step K) ops s = some s' ∧
      Agrees K vectorByteSize s' (ops.foldl (Vectors.step vectorByteSize) t) ∧
        (ops.foldl (Vectors.step vectorByteSize) t).vectors.length < 2 ^ 31 := by
  induction ops generalizing s t with
  | nil => exact ⟨s, rfl, h, by rw [List.length_nil] at hsmall; exact hsmall⟩
  | cons op ops ih =>
    rw [List.length_cons] at hsmall
    obtain ⟨s', hs', hagrees⟩ := agrees_step h (by omega) op
    have hlen := length_step vectorByteSize h.le op
    obtain ⟨s'', hs'', hlast⟩ := ih hagrees (by omega)
    exact ⟨s'', by rw [runOps_cons, hs', Option.bind_some, hs''], hlast⟩

/-! ### Reading -/

theorem Agrees.decompress (h : Agrees K vectorByteSize s t) {v : Bytes} (hv : v ∈ t.vectors) :
    s.decompress v = .done v := by
  rw [RocksDBRawVector.decompress, h.bytes, h.length v hv]
  exact if_pos rfl

theorem Agrees.getVector (h : Agrees K vectorByteSize s t) {i : ℕ} (hi : i < t.size) :
    ∃ v, t.vectors[i]? = some v ∧ getVector K s i = .done v := by
  have hlt := Nat.lt_of_lt_of_le hi h.le
  refine ⟨_, List.getElem?_eq_getElem hlt, ?_⟩
  rw [RocksDBRawVector.getVector, h.size, if_neg (by omega), Int.toNat_natCast, h.get_lt hlt]
  exact h.decompress (List.getElem_mem hlt)

/-- **`Gets`** returns the vector of every number that has one, and none for a negative one. -/
theorem Agrees.gets (h : Agrees K vectorByteSize s t) {vids : List ℤ}
    (hvids : ∀ vid ∈ vids, vid < t.vectors.length) : gets K s vids =
      .done (vids.map fun vid => if vid < 0 then none else t.vectors[vid.toNat]?) := by
  induction vids with
  | nil => rfl
  | cons vid vids ih =>
    obtain ⟨hvid, hvids⟩ := List.forall_mem_cons.mp hvids
    rw [RocksDBRawVector.gets, ih hvids, List.map_cons]
    by_cases hneg : vid < 0
    · rw [if_pos hneg, if_pos hneg]
      rfl
    · have hlt : vid.toNat < t.vectors.length := by omega
      rw [if_neg hneg, if_neg hneg, h.get_lt hlt, List.getElem?_eq_getElem hlt]
      dsimp only
      rw [h.decompress (List.getElem_mem hlt)]
      rfl

theorem headerLoop_eq {n : ℕ} {entries : List (Slice × Bytes)} (hn : n ≤ entries.length)
    (hentries : ∀ e ∈ entries, s.decompress e.2 = .done e.2) :
    s.headerLoop n entries = .done ((entries.map Prod.snd).take n).flatten := by
  induction n generalizing entries with
  | zero => rfl
  | succ n ih =>
    cases entries with
    | nil => exact absurd hn (Nat.not_succ_le_zero n)
    | cons e entries =>
      obtain ⟨he, hrest⟩ := List.forall_mem_cons.mp hentries
      rw [headerLoop, he, ih (Nat.le_of_succ_le_succ hn) hrest]
      rfl

/-- The entries from a key on have the vectors from a number on. -/
theorem Agrees.seek (h : Agrees K vectorByteSize s t) (hsmall : t.vectors.length < 2 ^ 31) {start : ℕ}
    (hstart : start ≤ t.vectors.length) :
    (K.seek s.db (toRowKey start)).map Prod.snd = t.vectors.drop start := by
  rw [K.seek_numbered (n := t.vectors.length) toRowKey (fun i => t.vectors.getD i [])
    (fun i j hij hj => toRowKey_lt hij (by omega)) (fun i hi => ?_) h.only hstart, List.map_map]
  · refine List.ext_getElem? fun i => ?_
    rw [List.getElem?_drop]
    by_cases hi : i < t.vectors.length - start
    · have hlt : start + i < t.vectors.length := by omega
      rw [List.getElem?_map, List.getElem?_range hi, List.getElem?_eq_getElem hlt]
      simp [List.getD_eq_getElem?_getD, hlt]
    · rw [List.getElem?_eq_none (by simpa using hi), List.getElem?_eq_none (by omega)]
  · rw [h.get_lt hi]
    simp [List.getD_eq_getElem?_getD, hi]

/-- **`GetVectorHeader`** returns the vectors from a number on, one behind the other. -/
theorem Agrees.getVectorHeader (h : Agrees K vectorByteSize s t) (hsmall : t.vectors.length < 2 ^ 31)
    {start n : ℕ} (hn : start + n ≤ t.size) :
    getVectorHeader K s start n = .done ((t.vectors.drop start).take n).flatten := by
  have hle := h.le
  have hseek := h.seek hsmall (Nat.le_trans (Nat.le_add_right start n) (Nat.le_trans hn hle))
  have hlen := congrArg List.length hseek
  rw [List.length_map, List.length_drop] at hlen
  rw [RocksDBRawVector.getVectorHeader, h.size, if_neg (by omega), Int.toNat_natCast,
    headerLoop_eq (by omega) (fun e he => h.decompress ?_), hseek]
  have hmem : e.2 ∈ t.vectors.drop start := by
    rw [← hseek]
    exact List.mem_map_of_mem he
  exact List.mem_of_mem_drop hmem

/-- **In every run** of additions, updates and restarts the readers return the vectors that were written
last, and nothing breaks: `GetVector` and `Gets` one or some of them, and `GetVectorHeader` those of a
range in their order. A number that is out of range is refused. -/
theorem reads_of_run (K : SortedStore Slice Bytes S) (vectorByteSize : ℕ) (ops : List Op)
    (hsmall : ops.length < 2 ^ 31) :
    ∃ s t, runOps (step K) ops (create K vectorByteSize) = some s ∧
      t = ops.foldl (Vectors.step vectorByteSize) ⟨[], 0⟩ ∧ s.size = t.size ∧
      (∀ i : ℕ, i < t.size → ∃ v, t.vectors[i]? = some v ∧ RocksDBRawVector.getVector K s i = .done v) ∧
      (∀ vid : ℤ, vid < 0 ∨ t.size ≤ vid → RocksDBRawVector.getVector K s vid = .refused 1) ∧
      (∀ vids : List ℤ, (∀ vid ∈ vids, vid < t.size) → RocksDBRawVector.gets K s vids =
        .done (vids.map fun vid => if vid < 0 then none else t.vectors[vid.toNat]?)) ∧
      (∀ start n : ℕ, start + n ≤ t.size → RocksDBRawVector.getVectorHeader K s start n =
        .done ((t.vectors.drop start).take n).flatten) ∧
      ∀ (start : ℤ) (n : ℕ), start < 0 ∨ t.size < start + n →
        RocksDBRawVector.getVectorHeader K s start n = .refused paramErr := by
  obtain ⟨s, hrun, h, hlen⟩ := agrees_run (agrees_create K vectorByteSize) ops (by simpa using hsmall)
  refine ⟨s, _, hrun, rfl, h.size, fun i hi => h.getVector hi, fun vid hvid => ?_, fun vids hvids => ?_,
    fun start n hn => h.getVectorHeader hlen hn, fun start n hout => ?_⟩
  · rw [RocksDBRawVector.getVector, h.size, if_pos hvid.symm]
  · have hle := h.le
    refine h.gets fun vid hvid => ?_
    have hlt := hvids vid hvid
    omega
  · rw [RocksDBRawVector.getVectorHeader, h.size, if_pos hout]

/-- Three vectors of two bytes, of which two are written again, one of another size, and one that a
restart leaves out. -/
def fewVectors : List Op :=
  [.add [1, 2], .add [3, 4], .add [5], .add [6, 6], .add [8, 8], .update 0 [7, 8],
    .restart ⟨3, by decide⟩, .update 1 [9, 9]]

theorem reads_of_run_few : ∃ s, runOps (step (SortedStore.map Slice Bytes)) fewVectors
    (create (SortedStore.map Slice Bytes) 2) = some s ∧ s.size = 3 ∧
      RocksDBRawVector.getVectorHeader (SortedStore.map Slice Bytes) s 0 3 =
        .done [7, 8, 9, 9, 6, 6] := by
  obtain ⟨s, t, hrun, rfl, hsize, -, -, -, hheader, -⟩ :=
    reads_of_run (SortedStore.map Slice Bytes) 2 fewVectors (by decide)
  exact ⟨s, hrun, hsize, hheader 0 3 (by decide)⟩

end RocksDBRawVector

end AwaDB
