import AwaDB.Lib.Memory

/-!
# The bitmap of deleted documents (`util/bitmap.cc`, `util/bitmap_manager.cc`)

A `char *` bitmap is modelled bit by bit: bit `id` of the list is bit `id & 7` of byte `id >> 3`.
`BitmapManager` keeps `size_` and a bitmap of `(size_ >> 3) + 1` bytes, checks every id against
`size_`, and doubles the bitmap in `SetMaxID`; `Dump` copies whole bytes to the file.
-/

namespace AwaDB

/-- A bitmap, one entry a bit; its length is eight times the number of its bytes. -/
abbrev Bits := List Bool

namespace Bits

/-- `bitmap::test`. -/
def test (bitmap : Bits) (id : ℕ) : Bool := bitmap.getD id false

/-- `bitmap::create`: `(size >> 3) + 1` zeroed bytes. -/
def create (size : ℕ) : Bits := List.replicate (8 * (size / 8 + 1)) false

@[simp] theorem length_create (size : ℕ) : (create size).length = 8 * (size / 8 + 1) :=
  List.length_replicate

@[simp] theorem test_create (size i : ℕ) : test (create size) i = false := by
  simp [test, create, List.getD_eq_getElem?_getD, List.getElem?_replicate]
  split <;> rfl

/-- Writing a bit inside the bitmap is seen by later tests of that bit and of no other. -/
theorem test_set (bitmap : Bits) {id : ℕ} (h : id < bitmap.length) (x : Bool) (i : ℕ) :
    test (List.set bitmap id x) i = if id = i then x else test bitmap i := by
  simp only [test, List.getD_eq_getElem?_getD, List.getElem?_set]
  by_cases hi : id = i
  · subst hi; simp [h]
  · simp [hi]

theorem test_append_left (bitmap rest : Bits) {i : ℕ} (h : i < bitmap.length) :
    test (bitmap ++ rest) i = test bitmap i := by
  simp only [test, List.getD_eq_getElem?_getD, List.getElem?_append_left h]

/-- Clear bits behind a clear bit change nothing. -/
theorem test_append_false {bitmap : Bits} {n i : ℕ} (h : test bitmap i = false) :
    test (bitmap ++ List.replicate n false) i = false := by
  by_cases hi : i < bitmap.length
  · rw [test_append_left _ _ hi, h]
  · have hget : (List.replicate n false)[i - bitmap.length]?.getD false = false := by
      rw [List.getElem?_replicate]
      split <;> rfl
    rw [test, List.getD_eq_getElem?_getD, List.getElem?_append_right (by omega), hget]

/-- The bits of a block of memory that others were copied into. -/
theorem test_patch (bitmap xs : Bits) {off : ℕ} (h : off ≤ bitmap.length) (i : ℕ) :
    test (Lib.patch bitmap off xs) i =
      if off ≤ i ∧ i < off + xs.length then test xs (i - off) else test bitmap i := by
  have hlen : (bitmap.take off).length = off := by rw [List.length_take, Nat.min_eq_left h]
  have hfirst : (bitmap.take off ++ xs).length = off + xs.length := by
    rw [List.length_append, hlen]
  simp only [test, List.getD_eq_getElem?_getD, Lib.patch]
  by_cases hlow : i < off
  · have hno : ¬ (off ≤ i ∧ i < off + xs.length) := by omega
    rw [if_neg hno, List.getElem?_append_left (by omega), List.getElem?_append_left (by omega),
      List.getElem?_take_of_lt hlow]
  · by_cases hin : i < off + xs.length
    · rw [if_pos ⟨by omega, hin⟩, List.getElem?_append_left (by omega),
        List.getElem?_append_right (by omega), hlen]
    · have hno : ¬ (off ≤ i ∧ i < off + xs.length) := by omega
      have hpos : off + xs.length + (i - (off + xs.length)) = i := by omega
      rw [if_neg hno, List.getElem?_append_right (by omega), hfirst, List.getElem?_drop, hpos]

end Bits

/-- `bitmap::BitmapManager`. The bitmap always covers the `size_` ids that may be tested; `file`
holds the bytes dumped so far. -/
structure BitmapManager where
  bitmap : Bits
  size : ℕ
  file : Bits
  covers : size < bitmap.length
deriving DecidableEq, Repr

namespace BitmapManager

/-- `BitmapManager::Init` on an empty dump file. -/
def init (bitSize : ℕ) : BitmapManager where
  bitmap := Bits.create bitSize
  size := bitSize
  file := []
  covers := by rw [Bits.length_create]; omega

/-- `BitmapManager::Test`. -/
def test (m : BitmapManager) (bitId : ℕ) : Bool :=
  if bitId < m.size then m.bitmap.test bitId else false

/-- The write that `Set` and `Unset` share: nothing happens at or past `size_`. -/
def write (m : BitmapManager) (bitId : ℕ) (x : Bool) : BitmapManager :=
  if bitId < m.size then
    { m with
      bitmap := m.bitmap.set bitId x
      covers := by rw [List.length_set]; exact m.covers }
  else m

/-- `BitmapManager::Set`; no caller reads its return code. -/
def set (m : BitmapManager) (bitId : ℕ) : BitmapManager := m.write bitId true

/-- `BitmapManager::Unset`; no caller reads its return code. -/
def unset (m : BitmapManager) (bitId : ℕ) : BitmapManager := m.write bitId false

/-- `BitmapManager::Dump`: the bytes that hold the bits `beginBitId .. beginBitId + bitLen - 1` go
to the file, which the system pads with zero bytes when the write starts past its end. -/
def dump (m : BitmapManager) (beginBitId : ℕ := 0) (bitLen : ℕ := 0) : BitmapManager :=
  let bitLen := if bitLen = 0 then m.size else bitLen
  if beginBitId + bitLen > m.size then m
  else
    let beginByte := beginBitId / 8
    let endByte := (beginBitId + bitLen - 1) / 8
    let bytes := (m.bitmap.drop (8 * beginByte)).take (8 * (endByte - beginByte + 1))
    let padded := m.file ++ List.replicate (8 * beginByte - m.file.length) false
    { m with file := Lib.patch padded (8 * beginByte) bytes }

/-- `BitmapManager::SetMaxID`: the size is doubled, once. -/
def setMaxID (m : BitmapManager) (bitId : ℕ) : BitmapManager :=
  if m.size > bitId then m
  else
    dump
      { bitmap := m.bitmap ++ List.replicate (8 * (2 * m.size / 8 + 1) - m.bitmap.length) false
        size := 2 * m.size
        file := m.file
        covers := by
          have := m.covers
          simp only [List.length_append, List.length_replicate]
          omega }

@[simp] theorem size_write (m : BitmapManager) (i : ℕ) (x : Bool) : (m.write i x).size = m.size := by
  unfold write; split <;> rfl

@[simp] theorem size_set (m : BitmapManager) (i : ℕ) : (m.set i).size = m.size := size_write m i true

@[simp] theorem size_unset (m : BitmapManager) (i : ℕ) : (m.unset i).size = m.size :=
  size_write m i false

/-- A dump changes the file only. -/
theorem dump_eq (m : BitmapManager) (b n : ℕ) :
    m.dump b n = { m with file := (m.dump b n).file } := by
  by_cases h : b + (if n = 0 then m.size else n) > m.size
  · simp only [dump, h, if_true]
  · simp only [dump, h, if_false]

@[simp] theorem size_dump (m : BitmapManager) (b n : ℕ) : (m.dump b n).size = m.size := by
  rw [dump_eq]

@[simp] theorem test_dump (m : BitmapManager) (b n i : ℕ) : (m.dump b n).test i = m.test i := by
  rw [dump_eq]
  rfl

@[simp] theorem test_init (bitSize i : ℕ) : (init bitSize).test i = false := by
  simp [init, test]

theorem test_write (m : BitmapManager) (id i : ℕ) (x : Bool) :
    (m.write id x).test i = if id = i ∧ id < m.size then x else m.test i := by
  by_cases hid : id < m.size
  · have hlen : id < m.bitmap.length := Nat.lt_trans hid m.covers
    by_cases hi : id = i
    · subst hi
      simp [write, hid, test, Bits.test_set m.bitmap hlen]
    · simp [write, hid, test, Bits.test_set m.bitmap hlen, hi]
  · simp [write, hid]

theorem test_set (m : BitmapManager) (id i : ℕ) :
    (m.set id).test i = if id = i ∧ id < m.size then true else m.test i :=
  test_write m id i true

theorem test_unset (m : BitmapManager) (id i : ℕ) :
    (m.unset id).test i = if id = i ∧ id < m.size then false else m.test i :=
  test_write m id i false

/-- A set bit stays set when another one is. -/
theorem test_set_of_test {m : BitmapManager} {i : ℕ} (id : ℕ) (h : m.test i = true) :
    (m.set id).test i = true := by
  rw [test_set]; split
  · rfl
  · exact h

/-- A bit that is clear although another was set was clear before. -/
theorem test_of_test_set {m : BitmapManager} {i : ℕ} (id : ℕ) (h : (m.set id).test i = false) :
    m.test i = false :=
  Bool.eq_false_iff.mpr fun hset => Bool.eq_false_iff.mp h (test_set_of_test id hset)

/-- No test reaches past the size, so a set bit is below it. -/
theorem lt_size_of_test {m : BitmapManager} {i : ℕ} (h : m.test i = true) : i < m.size := by
  by_contra hlt
  simp [test, hlt] at h

/-! ### Bits behind the size -/

/-- The bits of the last bytes that no id reaches are clear. -/
def Clean (m : BitmapManager) : Prop :=
  ∀ i, m.size ≤ i → m.bitmap.test i = false

theorem clean_init (bitSize : ℕ) : (init bitSize).Clean := fun i _ => Bits.test_create bitSize i

theorem Clean.dump {m : BitmapManager} (h : m.Clean) (b n : ℕ) : (m.dump b n).Clean := by
  rw [dump_eq]
  exact h

theorem Clean.write {m : BitmapManager} (h : m.Clean) (id : ℕ) (x : Bool) :
    (m.write id x).Clean := by
  intro i hi
  rw [size_write] at hi
  by_cases hid : id < m.size
  · have hlen : id < m.bitmap.length := Nat.lt_trans hid m.covers
    have hne : id ≠ i := by omega
    simp only [BitmapManager.write, hid, if_true, Bits.test_set m.bitmap hlen, hne, if_false]
    exact h i hi
  · simp only [BitmapManager.write, hid, if_false]
    exact h i hi

/-- Growing keeps the bits, and the new ones are clear. -/
theorem Clean.setMaxID {m : BitmapManager} (h : m.Clean) (id : ℕ) :
    (m.setMaxID id).Clean ∧ ∀ i, (m.setMaxID id).test i = m.test i := by
  by_cases hid : m.size > id
  · simp only [BitmapManager.setMaxID, hid, if_true]
    exact ⟨h, fun _ => trivial⟩
  · simp only [BitmapManager.setMaxID, hid, if_false]
    refine ⟨Clean.dump (fun i hi => ?_) 0 0, fun i => ?_⟩
    · have hi' : 2 * m.size ≤ i := hi
      exact Bits.test_append_false (h i (by omega))
    · rw [test_dump]
      by_cases hi : i < m.size
      · have hlen : i < m.bitmap.length := Nat.lt_trans hi m.covers
        have hi2 : i < 2 * m.size := by omega
        simp only [test, hi, hi2, if_true, Bits.test_append_left _ _ hlen]
      · have hclear : Bits.test (m.bitmap ++ List.replicate
            (8 * (2 * m.size / 8 + 1) - m.bitmap.length) false) i = false :=
          Bits.test_append_false (h i (by omega))
        simp only [test, hi, if_false, hclear, ite_self]

/-! ### The dump file -/

/-- The manager that a new process opens over the dump file: `FileBytesSize`, `Init` and `Load`, or
`Init` and `Dump` when the file is empty. -/
def reopen (file : Bits) (initSize : ℕ) : BitmapManager :=
  if file.length / 8 = 0 then (init initSize).dump
  else
    { bitmap := Lib.patch (Bits.create (8 * (file.length / 8))) 0 (file.take (8 * (file.length / 8)))
      size := 8 * (file.length / 8)
      file := file
      covers := by
        have hlen : (file.take (8 * (file.length / 8))).length = 8 * (file.length / 8) := by
          rw [List.length_take]
          omega
        rw [Lib.patch_length _ _ _ (by rw [hlen, Bits.length_create]; omega), Bits.length_create]
        omega }

/-- Whatever the file holds, no bit is set behind the ids of the new process. -/
theorem clean_reopen (file : Bits) (initSize : ℕ) : (reopen file initSize).Clean := by
  rw [reopen]
  split
  · exact (clean_init initSize).dump 0 0
  · intro i hi
    have hsize : 8 * (file.length / 8) ≤ i := hi
    have hlen : (file.take (8 * (file.length / 8))).length = 8 * (file.length / 8) := by
      rw [List.length_take]
      omega
    show Bits.test (Lib.patch _ 0 _) i = false
    rw [Bits.test_patch _ _ (Nat.zero_le _), Bits.test_create, hlen]
    exact if_neg fun hcond => by omega

/-- The file has the bits of the ids, in whole bytes. -/
structure Dumped (m : BitmapManager) : Prop where
  size_pos : 0 < m.size
  dvd : 8 ∣ m.size
  length : m.file.length = m.size
  test : ∀ i < m.size, m.file.test i = m.bitmap.test i

/-- The file is read whole. -/
theorem reopen_eq {m : BitmapManager} (h : m.Dumped) (initSize : ℕ) :
    (reopen m.file initSize).bitmap = Lib.patch (Bits.create m.size) 0 m.file ∧
      (reopen m.file initSize).size = m.size ∧ (reopen m.file initSize).file = m.file := by
  obtain ⟨k, hk⟩ := h.dvd
  have hpos := h.size_pos
  have hlen := h.length
  have hbytes : 8 * (m.file.length / 8) = m.size := by omega
  have hne : ¬ m.file.length / 8 = 0 := by omega
  have hall : m.file.take m.size = m.file := List.take_of_length_le (by omega)
  rw [reopen, if_neg hne]
  simp only [hbytes, hall, and_self]

theorem test_bitmap_reopen {m : BitmapManager} (h : m.Dumped) (initSize i : ℕ) :
    (reopen m.file initSize).bitmap.test i = if i < m.size then m.bitmap.test i else false := by
  rw [(reopen_eq h initSize).1, Bits.test_patch _ _ (Nat.zero_le _), h.length, Bits.test_create]
  simp only [Nat.zero_le, true_and, Nat.zero_add, Nat.sub_zero]
  by_cases hi : i < m.size
  · rw [if_pos hi, if_pos hi, h.test i hi]
  · rw [if_neg hi, if_neg hi]

theorem test_reopen {m : BitmapManager} (h : m.Dumped) (initSize i : ℕ) :
    (reopen m.file initSize).test i = m.test i := by
  rw [test, (reopen_eq h initSize).2.1, test_bitmap_reopen h]
  by_cases hi : i < m.size
  · rw [if_pos hi, if_pos hi, test, if_pos hi]
  · rw [if_neg hi, test, if_neg hi]

/-- The manager of the new process is sound as well. -/
theorem reopen_sound {m : BitmapManager} (h : m.Dumped) (initSize : ℕ) :
    (reopen m.file initSize).Clean ∧ (reopen m.file initSize).Dumped := by
  obtain ⟨-, hsize, hfile⟩ := reopen_eq h initSize
  refine ⟨fun i hi => ?_, ?_, ?_, ?_, fun i hi => ?_⟩
  · rw [hsize] at hi
    rw [test_bitmap_reopen h, if_neg (Nat.not_lt.mpr hi)]
  · rw [hsize]
    exact h.size_pos
  · rw [hsize]
    exact h.dvd
  · rw [hsize, hfile]
    exact h.length
  · rw [hsize] at hi
    rw [hfile, test_bitmap_reopen h, if_pos hi, h.test i hi]

/-- Dumping everything. -/
theorem dumped_dump {m : BitmapManager} (hpos : 0 < m.size) (hdvd : 8 ∣ m.size)
    (hfile : m.file.length ≤ m.size) : m.dump.Dumped := by
  obtain ⟨k, hk⟩ := hdvd
  have hcovers := m.covers
  have hbytes : 8 * ((0 + m.size - 1) / 8 - 0 / 8 + 1) = m.size := by omega
  have hpad : 8 * (0 / 8) - m.file.length = 0 := by omega
  have hall : ¬ 0 + m.size > m.size := by omega
  have heq : m.dump.file = Lib.patch m.file 0 (m.bitmap.take m.size) := by
    simp only [dump, if_true, if_neg hall, hbytes, hpad]
    simp
  have hlen : (m.bitmap.take m.size).length = m.size := by
    rw [List.length_take]
    omega
  refine ⟨by rw [size_dump]; exact hpos, by rw [size_dump]; exact ⟨k, hk⟩, ?_, fun i hi => ?_⟩
  · rw [heq, size_dump, Lib.patch, List.take_zero, List.nil_append, List.length_append,
      List.length_drop, hlen]
    omega
  · rw [size_dump] at hi
    have hbit : (m.dump).bitmap = m.bitmap := by rw [dump_eq]
    rw [heq, hbit, Bits.test_patch _ _ (Nat.zero_le _), hlen, if_pos ⟨Nat.zero_le i, by omega⟩]
    simp only [Bits.test, List.getD_eq_getElem?_getD, Nat.sub_zero, List.getElem?_take_of_lt hi]

theorem dumped_init {size : ℕ} (hpos : 0 < size) (hdvd : 8 ∣ size) : (init size).dump.Dumped :=
  dumped_dump hpos hdvd (Nat.zero_le _)

theorem Dumped.setMaxID {m : BitmapManager} (h : m.Dumped) (id : ℕ) : (m.setMaxID id).Dumped := by
  unfold BitmapManager.setMaxID
  split
  · exact h
  · have hpos := h.size_pos
    refine dumped_dump ?_ ?_ ?_
    · show 0 < 2 * m.size
      omega
    · show 8 ∣ 2 * m.size
      exact Nat.dvd_trans h.dvd (Nat.dvd_mul_left m.size 2)
    · show m.file.length ≤ 2 * m.size
      rw [h.length]
      omega

/-- A bit is written and its byte dumped. -/
theorem Dumped.write {m : BitmapManager} (h : m.Dumped) (id : ℕ) (x : Bool) :
    ((m.write id x).dump id 1).Dumped := by
  obtain ⟨k, hk⟩ := h.dvd
  have hcovers := m.covers
  by_cases hid : id < m.size
  · have hlen := h.length
    have hfit : ¬ id + 1 > m.size := by omega
    have hbytes : 8 * ((id + 1 - 1) / 8 - id / 8 + 1) = 8 := by omega
    have hpad : 8 * (id / 8) - m.file.length = 0 := by omega
    have hw : m.write id x = { m with
        bitmap := m.bitmap.set id x
        covers := by rw [List.length_set]; exact m.covers } := by
      rw [BitmapManager.write, if_pos hid]
    have hblock : (((m.bitmap.set id x).drop (8 * (id / 8))).take 8).length = 8 := by
      rw [List.length_take, List.length_drop, List.length_set]
      omega
    have heq : ((m.write id x).dump id 1).file =
        Lib.patch m.file (8 * (id / 8)) (((m.bitmap.set id x).drop (8 * (id / 8))).take 8) := by
      rw [hw]
      simp only [dump, Nat.one_ne_zero, if_false, if_neg hfit, hbytes, hpad]
      simp
    have hbit : ((m.write id x).dump id 1).bitmap = m.bitmap.set id x := by
      rw [dump_eq, hw]
    refine ⟨by rw [size_dump, size_write]; exact h.size_pos,
      by rw [size_dump, size_write]; exact ⟨k, hk⟩, ?_, fun i hi => ?_⟩
    · rw [heq, size_dump, size_write, Lib.patch_length _ _ _ (by rw [hblock]; omega), hlen]
    · rw [size_dump, size_write] at hi
      rw [heq, hbit, Bits.test_patch _ _ (by omega), hblock]
      by_cases hin : 8 * (id / 8) ≤ i ∧ i < 8 * (id / 8) + 8
      · have hpos : 8 * (id / 8) + (i - 8 * (id / 8)) = i := by omega
        rw [if_pos hin]
        simp only [Bits.test, List.getD_eq_getElem?_getD]
        rw [List.getElem?_take_of_lt (by omega), List.getElem?_drop, hpos]
      · have hne : id ≠ i := by omega
        rw [if_neg hin, Bits.test_set _ (by omega), if_neg hne, h.test i hi]
  · have hno : id + 1 > m.size := by omega
    have hw : m.write id x = m := by rw [BitmapManager.write, if_neg hid]
    have heq : m.dump id 1 = m := by
      simp only [dump, Nat.one_ne_zero, if_false, if_pos hno]
    rw [hw, heq]
    exact h

/-! ### Growing -/

/-- The bitmap was grown, or nothing happened to it. -/
structure Grows (m m' : BitmapManager) : Prop where
  clean : m.Clean → m'.Clean
  dumped : m.Dumped → m'.Dumped
  test : m.Clean → ∀ i, m'.test i = m.test i

namespace Grows

theorem refl (m : BitmapManager) : Grows m m := ⟨id, id, fun _ _ => rfl⟩

theorem trans {m₁ m₂ m₃ : BitmapManager} (h : Grows m₁ m₂) (h' : Grows m₂ m₃) : Grows m₁ m₃ :=
  ⟨fun hc => h'.clean (h.clean hc), fun hd => h'.dumped (h.dumped hd),
    fun hc i => (h'.test (h.clean hc) i).trans (h.test hc i)⟩

theorem setMaxID (m : BitmapManager) (id : ℕ) : Grows m (m.setMaxID id) :=
  ⟨fun hc => (hc.setMaxID id).1, fun hd => hd.setMaxID id, fun hc => (hc.setMaxID id).2⟩

end Grows

end BitmapManager

end AwaDB
