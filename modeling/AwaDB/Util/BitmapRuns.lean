import AwaDB.Lib.Run
import AwaDB.Util.BitmapManager
import Mathlib.Algebra.Order.Ring.Int

/-!
# The delete bitmap in 32 bits, over whole runs (`util/bitmap_manager.cc`)

Ids and sizes are unsigned 32-bit numbers. A dump of the last id wraps around and passes the check of its
arguments, and so does a size that is doubled too often. `SetMaxID` doubles the size once, whatever id it
is asked for.

* `dump32`, `setMaxID32`: the functions with their arithmetic; `none` is an access outside the bitmap;
* `Persisted`: who loads the file tests the same for every id without a change that was not dumped;
* `Reached`: every id up to those that `SetMaxID` was asked for can be set and tested;
* `bitmap_always`: both hold in every run whose steps are as `Fits` says.
-/

namespace AwaDB

open Lib

namespace BitmapManager

/-! ### The arithmetic -/

/-- `BitmapManager::Dump`. -/
def dump32 (m : BitmapManager) (beginBitId bitLen : ℕ) : Option BitmapManager :=
  let bitLen := if bitLen = 0 then m.size else bitLen
  if (beginBitId + bitLen) % 2 ^ 32 > m.size then some m
  else
    let beginByte := beginBitId / 8
    let endByte := (beginBitId + bitLen + (2 ^ 32 - 1)) % 2 ^ 32 / 8
    let dumpBytes := (endByte + (2 ^ 32 - beginByte) + 1) % 2 ^ 32
    if m.bitmap.length < 8 * (beginByte + dumpBytes) then none
    else
      let bytes := (m.bitmap.drop (8 * beginByte)).take (8 * dumpBytes)
      let padded := m.file ++ List.replicate (8 * beginByte - m.file.length) false
      some { m with file := patch padded (8 * beginByte) bytes }

/-- `BitmapManager::SetMaxID`; the old bitmap is copied into the new one. -/
def setMaxID32 (m : BitmapManager) (bitId : ℕ) : Option BitmapManager :=
  if m.size > bitId then some m
  else
    let size := 2 * m.size % 2 ^ 32
    if h : m.bitmap.length ≤ 8 * (size / 8 + 1) then
      dump32
        { bitmap := m.bitmap ++ List.replicate (8 * (size / 8 + 1) - m.bitmap.length) false
          size := size
          file := m.file
          covers := by
            simp only [List.length_append, List.length_replicate]
            omega } 0 0
    else none

/-! ### Runs -/

/-- A call. -/
inductive BitmapOp where
  | set (id : UInt32)
  | unset (id : UInt32)
  | dump
  | dumpBit (id : UInt32)
  | setMaxID (id : UInt32)
deriving DecidableEq, Repr

/-- A manager, the ids whose last change was not dumped, and how many ids `SetMaxID` was asked for. -/
structure BitmapRun where
  manager : BitmapManager
  pending : ℕ → Bool
  asked : ℕ

/-- A manager with a new file. -/
def BitmapRun.start (bitSize : ℕ) : BitmapRun := ⟨init bitSize, fun _ => false, 0⟩

/-- One call. -/
def stepRun (op : BitmapOp) (s : BitmapRun) : Option BitmapRun :=
  match op with
  | .set id => some
      { s with
        manager := s.manager.set id.toNat
        pending := fun i => s.pending i || decide (i = id.toNat ∧ i < s.manager.size) }
  | .unset id => some
      { s with
        manager := s.manager.unset id.toNat
        pending := fun i => s.pending i || decide (i = id.toNat ∧ i < s.manager.size) }
  | .dump => (s.manager.dump32 0 0).map fun m =>
      { s with manager := m, pending := fun i => s.pending i && decide (m.size ≤ i) }
  | .dumpBit id => (s.manager.dump32 id.toNat 1).map fun m =>
      { s with
        manager := m
        pending := fun i => s.pending i && !decide (i / 8 = id.toNat / 8 ∧ id.toNat < m.size) }
  | .setMaxID id => (s.manager.setMaxID32 id.toNat).map fun m =>
      { manager := m
        pending := fun i => s.pending i && decide (m.size = s.manager.size ∨ m.size ≤ i)
        asked := max s.asked (id.toNat + 1) }

/-- **The file is the bitmap**: a manager that loads it answers the same. -/
def Persisted (s : BitmapRun) : Prop :=
  s.manager.file.length < 2 ^ 32 ∧ ∀ initSize i, s.pending i = false →
    (reopen s.manager.file initSize).test i = s.manager.test i

/-- The ids that were asked for can be set, unset and tested. -/
def Reached (s : BitmapRun) : Prop :=
  ∀ id < s.asked, (s.manager.set id).test id = true ∧ (s.manager.unset id).test id = false

/-- A step that is as the functions expect: the last id is not dumped alone, and doubling the size once
is enough for the id and does not wrap. -/
def Fits (op : BitmapOp) (s : BitmapRun) : Prop :=
  match op with
  | .dumpBit id => id.toNat + 1 < 2 ^ 32
  | .setMaxID id => id.toNat < s.manager.size ∨
      id.toNat < 2 * s.manager.size ∧ 2 * s.manager.size ≤ 2 ^ 32 - 8
  | _ => True

variable {m : BitmapManager} {s s' : BitmapRun}

/-! ### Without wrapping -/

theorem dump32_eq (hexact : m.bitmap.length = 8 * (m.size / 8 + 1)) (hpos : 0 < m.size)
    {b n : ℕ} (hwrap : b + (if n = 0 then m.size else n) < 2 ^ 32) :
    m.dump32 b n = some (m.dump b n) := by
  have hn : 0 < if n = 0 then m.size else n := by split <;> omega
  unfold dump32 dump
  dsimp only
  generalize (if n = 0 then m.size else n) = len at hwrap hn ⊢
  rw [Nat.mod_eq_of_lt hwrap]
  by_cases hover : b + len > m.size
  · rw [if_pos hover, if_pos hover]
  · have hend : (b + len + (2 ^ 32 - 1)) % 2 ^ 32 = b + len - 1 := by omega
    have hbytes : ((b + len - 1) / 8 + (2 ^ 32 - b / 8) + 1) % 2 ^ 32 =
        (b + len - 1) / 8 - b / 8 + 1 := by omega
    have hin : ¬ m.bitmap.length < 8 * (b / 8 + ((b + len - 1) / 8 - b / 8 + 1)) := by omega
    rw [if_neg hover, if_neg hover, hend, hbytes, if_neg hin]

theorem setMaxID32_eq (hexact : m.bitmap.length = 8 * (m.size / 8 + 1)) (hpos : 0 < m.size)
    {id : ℕ} (hfits : id < m.size ∨ 2 * m.size ≤ 2 ^ 32 - 8) :
    m.setMaxID32 id = some (m.setMaxID id) := by
  unfold setMaxID32 setMaxID
  by_cases hid : m.size > id
  · rw [if_pos hid, if_pos hid]
  · have hmod : 2 * m.size % 2 ^ 32 = 2 * m.size := by omega
    have hroom : m.bitmap.length ≤ 8 * (2 * m.size / 8 + 1) := by omega
    rw [if_neg hid, if_neg hid]
    simp only [hmod]
    rw [dif_pos hroom, dump32_eq]
    · simp only [List.length_append, List.length_replicate]
      omega
    · show 0 < 2 * m.size
      omega
    · show 0 + (if 0 = 0 then 2 * m.size else 0) < 2 ^ 32
      simp
      omega

/-! ### The file after a dump -/

theorem Bits.length_patch (bitmap xs : Bits) {off : ℕ} (h : off ≤ bitmap.length) :
    (Lib.patch bitmap off xs).length = max bitmap.length (off + xs.length) := by
  simp only [Lib.patch, List.length_append, List.length_take, List.length_drop]
  omega

/-- **A dump** copies the bytes of its bits, and no others. -/
theorem file_dump (hexact : m.bitmap.length = 8 * (m.size / 8 + 1)) {b n len : ℕ}
    (hlen : (if n = 0 then m.size else n) = len) (hpos : 0 < len) (hfit : b + len ≤ m.size) :
    (m.dump b n).file.length = max m.file.length (8 * ((b + len - 1) / 8 + 1)) ∧
      ∀ i, (m.dump b n).file.test i =
        if 8 * (b / 8) ≤ i ∧ i < 8 * ((b + len - 1) / 8 + 1) then m.bitmap.test i
        else m.file.test i := by
  have hno : ¬ b + len > m.size := by omega
  let bytes := (m.bitmap.drop (8 * (b / 8))).take (8 * ((b + len - 1) / 8 - b / 8 + 1))
  let padded := m.file ++ List.replicate (8 * (b / 8) - m.file.length) false
  have heq : (m.dump b n).file = Lib.patch padded (8 * (b / 8)) bytes := by
    unfold dump
    dsimp only
    rw [hlen, if_neg hno]
  have hbytes : bytes.length = 8 * ((b + len - 1) / 8 - b / 8 + 1) := by
    simp only [bytes, List.length_take, List.length_drop]
    omega
  have hpadded : padded.length = max m.file.length (8 * (b / 8)) := by
    simp only [padded, List.length_append, List.length_replicate]
    omega
  rw [heq]
  refine ⟨?_, fun i => ?_⟩
  · rw [Bits.length_patch _ _ (by omega), hbytes, hpadded]
    omega
  · rw [Bits.test_patch _ _ (by omega), hbytes]
    by_cases hin : 8 * (b / 8) ≤ i ∧ i < 8 * ((b + len - 1) / 8 + 1)
    · have hpos' : 8 * (b / 8) + (i - 8 * (b / 8)) = i := by omega
      rw [if_pos hin, if_pos ⟨hin.1, by omega⟩]
      simp only [bytes, Bits.test, List.getD_eq_getElem?_getD]
      rw [List.getElem?_take_of_lt (by omega), List.getElem?_drop, hpos']
    · rw [if_neg hin, if_neg fun h => hin ⟨h.1, by omega⟩]
      by_cases hi : i < m.file.length
      · exact Bits.test_append_left _ _ hi
      · have hclear : m.file.test i = false := by
          rw [Bits.test, List.getD_eq_getElem?_getD, List.getElem?_eq_none (by omega)]
          rfl
        rw [hclear]
        exact Bits.test_append_false hclear

/-- What a new process tests is what the file has. -/
theorem test_reopen_file {file : Bits} (h : 8 ∣ file.length) (initSize i : ℕ) :
    (reopen file initSize).test i = file.test i := by
  obtain ⟨k, hk⟩ := h
  have hbytes : file.length / 8 = k := by omega
  have hbehind : file.length ≤ i → file.test i = false := by
    intro hi
    rw [Bits.test, List.getD_eq_getElem?_getD, List.getElem?_eq_none hi]
    rfl
  unfold reopen
  by_cases hempty : file.length / 8 = 0
  · rw [if_pos hempty, test_dump, test_init, hbehind (by omega)]
  · rw [if_neg hempty]
    show (if i < 8 * (file.length / 8) then
      Bits.test (Lib.patch (Bits.create (8 * (file.length / 8))) 0
        (file.take (8 * (file.length / 8)))) i else false) = _
    rw [hbytes]
    by_cases hi : i < 8 * k
    · rw [if_pos hi, Bits.test_patch _ _ (Nat.zero_le _), List.length_take, Nat.sub_zero,
        if_pos ⟨Nat.zero_le i, by omega⟩, ← hk, List.take_length]
    · rw [if_neg hi, hbehind (by omega)]

/-! ### The invariant -/

/-- What every step keeps. -/
structure Kept (s : BitmapRun) : Prop where
  size_pos : 0 < s.manager.size
  size_le : s.manager.size ≤ 2 ^ 32 - 8
  exact : s.manager.bitmap.length = 8 * (s.manager.size / 8 + 1)
  clean : s.manager.Clean
  whole : 8 ∣ s.manager.file.length
  fileLe : s.manager.file.length ≤ 8 * ((s.manager.size - 1) / 8 + 1)
  below : ∀ i, s.pending i = true → i < s.manager.size
  file : ∀ i, s.pending i = false → s.manager.file.test i = s.manager.bitmap.test i
  reached : s.asked ≤ s.manager.size

theorem kept_start {bitSize : ℕ} (hpos : 0 < bitSize) (hle : bitSize ≤ 2 ^ 32 - 8) :
    Kept (BitmapRun.start bitSize) where
  size_pos := hpos
  size_le := hle
  exact := Bits.length_create bitSize
  clean := clean_init bitSize
  whole := Nat.dvd_zero 8
  fileLe := Nat.zero_le _
  below := fun _ h => nomatch h
  file := fun i _ => (Bits.test_create bitSize i).symm
  reached := Nat.zero_le _

/-- `Set` and `Unset`. -/
theorem Kept.write (h : Kept s) (id : ℕ) (x : Bool) :
    Kept { s with
      manager := s.manager.write id x
      pending := fun i => s.pending i || decide (i = id ∧ i < s.manager.size) } := by
  by_cases hid : id < s.manager.size
  · have hlen : id < s.manager.bitmap.length := Nat.lt_trans hid s.manager.covers
    have hw : s.manager.write id x = { s.manager with
        bitmap := s.manager.bitmap.set id x
        covers := by rw [List.length_set]; exact s.manager.covers } := by
      rw [BitmapManager.write, if_pos hid]
    have hclean := h.clean.write id x
    rw [hw] at hclean ⊢
    refine ⟨h.size_pos, h.size_le, ?_, hclean, h.whole, h.fileLe, fun i hi => ?_, fun i hi => ?_,
      h.reached⟩
    · exact List.length_set.trans h.exact
    · cases Bool.or_eq_true_iff.mp hi with
      | inl hi => exact h.below i hi
      | inr hi => exact (of_decide_eq_true hi).2
    · obtain ⟨hold, hnew⟩ := Bool.or_eq_false_iff.mp hi
      have hne : id ≠ i := by
        rintro rfl
        exact of_decide_eq_false hnew ⟨rfl, hid⟩
      show s.manager.file.test i = Bits.test (s.manager.bitmap.set id x) i
      rw [Bits.test_set _ hlen, if_neg hne, h.file i hold]
  · have hw : s.manager.write id x = s.manager := by rw [BitmapManager.write, if_neg hid]
    have hpending : (fun i => s.pending i || decide (i = id ∧ i < s.manager.size)) = s.pending := by
      funext i
      have hno : ¬ (i = id ∧ i < s.manager.size) := by
        rintro ⟨rfl, hi⟩
        exact hid hi
      rw [decide_eq_false hno, Bool.or_false]
    rw [hw, hpending]
    exact h

/-- A dump of bits below the size, after which the ids in its bytes are not pending. -/
theorem Kept.dump (h : Kept s) {b n len : ℕ} (hlen : (if n = 0 then s.manager.size else n) = len)
    (hpos : 0 < len) (hfit : b + len ≤ s.manager.size) {pending : ℕ → Bool}
    (hstill : ∀ i, pending i = true → s.pending i = true)
    (hdone : ∀ i, s.pending i = true → pending i = false →
      8 * (b / 8) ≤ i ∧ i < 8 * ((b + len - 1) / 8 + 1)) :
    Kept { s with manager := s.manager.dump b n, pending := pending } := by
  obtain ⟨hfile, htest⟩ := file_dump h.exact hlen hpos hfit
  have hbitmap : (s.manager.dump b n).bitmap = s.manager.bitmap := by rw [dump_eq]
  have hsize := size_dump s.manager b n
  have hwhole := h.whole
  have hfileLe := h.fileLe
  refine ⟨?_, ?_, ?_, h.clean.dump b n, ?_, ?_, fun i hi => ?_, fun i hi => ?_, ?_⟩
  · exact hsize ▸ h.size_pos
  · exact hsize ▸ h.size_le
  · rw [hbitmap, hsize]
    exact h.exact
  · rw [hfile]
    omega
  · rw [hfile, hsize]
    omega
  · rw [hsize]
    exact h.below i (hstill i hi)
  · rw [htest, hbitmap]
    split
    · rfl
    · rename_i hout
      cases hp : s.pending i with
      | false => exact h.file i hp
      | true => exact absurd (hdone i hp hi) hout
  · exact hsize ▸ h.reached

/-- The bitmap before it is dumped by `SetMaxID`. -/
theorem Kept.grow (h : Kept s) (hdouble : 2 * s.manager.size ≤ 2 ^ 32 - 8) {g : BitmapManager}
    (hbitmap : g.bitmap = s.manager.bitmap ++
      List.replicate (8 * (2 * s.manager.size / 8 + 1) - s.manager.bitmap.length) false)
    (hsize : g.size = 2 * s.manager.size) (hfile : g.file = s.manager.file) :
    Kept { s with manager := g } := by
  have hpos := h.size_pos
  have hexact := h.exact
  have hfileLe := h.fileLe
  have hreached := h.reached
  have hcovers := s.manager.covers
  refine ⟨?_, ?_, ?_, fun i hi => ?_, ?_, ?_, fun i hi => ?_, fun i hi => ?_, ?_⟩
  · show 0 < g.size
    omega
  · show g.size ≤ 2 ^ 32 - 8
    omega
  · show g.bitmap.length = 8 * (g.size / 8 + 1)
    rw [hbitmap, hsize, List.length_append, List.length_replicate]
    omega
  · have hi' : g.size ≤ i := hi
    show g.bitmap.test i = false
    rw [hbitmap]
    exact Bits.test_append_false (h.clean i (by omega))
  · show 8 ∣ g.file.length
    rw [hfile]
    exact h.whole
  · show g.file.length ≤ 8 * ((g.size - 1) / 8 + 1)
    rw [hfile, hsize]
    omega
  · have hlt := h.below i hi
    show i < g.size
    omega
  · show g.file.test i = g.bitmap.test i
    rw [hfile, hbitmap, h.file i hi]
    by_cases hlt : i < s.manager.bitmap.length
    · exact (Bits.test_append_left _ _ hlt).symm
    · have hclear : s.manager.bitmap.test i = false := h.clean i (by omega)
      rw [hclear]
      exact (Bits.test_append_false hclear).symm
  · show s.asked ≤ g.size
    omega

/-- `SetMaxID` for an id that one doubling reaches. -/
theorem Kept.setMaxID (h : Kept s) {id : ℕ} (hfits : id < s.manager.size ∨
    id < 2 * s.manager.size ∧ 2 * s.manager.size ≤ 2 ^ 32 - 8) :
    Kept { manager := s.manager.setMaxID id
           pending := fun i => s.pending i &&
             decide ((s.manager.setMaxID id).size = s.manager.size ∨ (s.manager.setMaxID id).size ≤ i)
           asked := max s.asked (id + 1) } := by
  have hreached := h.reached
  by_cases hid : id < s.manager.size
  · have heq : s.manager.setMaxID id = s.manager := by rw [BitmapManager.setMaxID, if_pos hid]
    have hpending : (fun i => s.pending i &&
        decide (s.manager.size = s.manager.size ∨ s.manager.size ≤ i)) = s.pending := by
      funext i
      rw [decide_eq_true (.inl rfl), Bool.and_true]
    rw [heq, hpending]
    exact { h with reached := Nat.max_le.mpr ⟨hreached, hid⟩ }
  · obtain ⟨hlt, hdouble⟩ := hfits.resolve_left hid
    have hpos := h.size_pos
    obtain ⟨g, heq, hbitmap, hsize, hfile⟩ : ∃ g : BitmapManager, s.manager.setMaxID id = g.dump ∧
        g.bitmap = s.manager.bitmap ++
          List.replicate (8 * (2 * s.manager.size / 8 + 1) - s.manager.bitmap.length) false ∧
        g.size = 2 * s.manager.size ∧ g.file = s.manager.file := by
      rw [BitmapManager.setMaxID, if_neg hid]
      exact ⟨_, rfl, rfl, rfl, rfl⟩
    rw [heq, size_dump, hsize]
    have hgrown : Kept { s with manager := g } := h.grow hdouble hbitmap hsize hfile
    have hdumped : Kept { s with
        manager := g.dump
        pending := fun i => s.pending i &&
          decide (2 * s.manager.size = s.manager.size ∨ 2 * s.manager.size ≤ i) } := by
      refine hgrown.dump (show (if 0 = 0 then g.size else 0) = g.size from rfl) ?_ ?_
        (fun i hi => (Bool.and_eq_true_iff.mp hi).1) fun i hi _ => ?_
      · omega
      · show 0 + g.size ≤ g.size
        omega
      · have hlt : i < g.size := hgrown.below i hi
        omega
    refine { hdumped with reached := ?_ }
    show max s.asked (id + 1) ≤ g.dump.size
    rw [size_dump]
    omega

/-- **One call** that fits is inside the bitmap and keeps the invariant. -/
theorem Kept.step {op : BitmapOp} (h : Kept s) (hfits : Fits op s) :
    ∃ s', stepRun op s = some s' ∧ Kept s' := by
  have hpos := h.size_pos
  have hle := h.size_le
  cases op with
  | set id => exact ⟨_, rfl, h.write id.toNat true⟩
  | unset id => exact ⟨_, rfl, h.write id.toNat false⟩
  | dump =>
    have heq := @dump32_eq s.manager h.exact hpos 0 0 (by show 0 + s.manager.size < 2 ^ 32; omega)
    refine ⟨_, congrArg (Option.map _) heq, ?_⟩
    refine h.dump (show (if 0 = 0 then s.manager.size else 0) = s.manager.size from rfl) hpos
      (Nat.le_of_eq (Nat.zero_add _)) (fun i hi => (Bool.and_eq_true_iff.mp hi).1) fun i hi _ => ?_
    have hlt := h.below i hi
    omega
  | dumpBit id =>
    have heq := @dump32_eq s.manager h.exact hpos id.toNat 1 hfits
    refine ⟨_, congrArg (Option.map _) heq, ?_⟩
    by_cases hid : id.toNat < s.manager.size
    · refine h.dump (show (if 1 = 0 then s.manager.size else 1) = 1 from rfl) Nat.one_pos hid
        (fun i hi => (Bool.and_eq_true_iff.mp hi).1) fun i hi hnot => ?_
      rw [hi, Bool.true_and, size_dump, Bool.not_eq_false', decide_eq_true_iff] at hnot
      omega
    · have hno : id.toNat + 1 > s.manager.size := by omega
      have hdump : s.manager.dump id.toNat 1 = s.manager := by
        simp only [BitmapManager.dump, Nat.one_ne_zero, if_false, if_pos hno]
      have hpending : (fun i => s.pending i &&
          !decide (i / 8 = id.toNat / 8 ∧ id.toNat < s.manager.size)) = s.pending := by
        funext i
        rw [decide_eq_false fun hc => hid hc.2, Bool.not_false, Bool.and_true]
      rw [hdump]
      dsimp only
      rw [hpending]
      exact h
  | setMaxID id =>
    have heq := @setMaxID32_eq s.manager h.exact hpos id.toNat (hfits.imp_right And.right)
    exact ⟨_, congrArg (Option.map _) heq, h.setMaxID hfits⟩

theorem Kept.persisted (h : Kept s) : Persisted s := by
  have hle := h.size_le
  have hfile := h.fileLe
  refine ⟨by omega, fun initSize i hi => ?_⟩
  rw [test_reopen_file h.whole, h.file i hi, BitmapManager.test]
  split
  · rfl
  · exact h.clean i (by omega)

theorem Kept.reaches (h : Kept s) : Reached s := by
  intro id hid
  have hlt : id < s.manager.size := Nat.lt_of_lt_of_le hid h.reached
  rw [test_set, test_unset, if_pos ⟨rfl, hlt⟩, if_pos ⟨rfl, hlt⟩]
  exact ⟨rfl, rfl⟩

/-- **The delete bitmap persists**, and `SetMaxID` reaches the ids it was asked for, in every state of
every run whose calls fit. -/
theorem bitmap_always (bitSize : ℕ) (hpos : 0 < bitSize) (hle : bitSize ≤ 2 ^ 32 - 8)
    (ops : List BitmapOp) (hfits : Guarded stepRun Fits ops (BitmapRun.start bitSize)) :
    (∃ s, runOps stepRun ops (BitmapRun.start bitSize) = some s) ∧
      Always stepRun (fun s => Persisted s ∧ Reached s) ops (BitmapRun.start bitSize) := by
  obtain ⟨hdefined, halways⟩ := always_of_guarded (fun _ _ => Kept.step) (kept_start hpos hle) hfits
  exact ⟨hdefined, halways.imp fun _ h => ⟨h.persisted, h.reaches⟩⟩

/-- Nine ids, two of them deleted, one of the changes dumped. -/
theorem bitmap_always_nine :
    (∃ s, runOps stepRun [.setMaxID 8, .set 8, .dumpBit 8, .set 1] (BitmapRun.start 8) = some s) ∧
      Always stepRun (fun s => Persisted s ∧ Reached s) [.setMaxID 8, .set 8, .dumpBit 8, .set 1]
        (BitmapRun.start 8) := by
  refine bitmap_always 8 (by decide) (by decide) _ ⟨.inr (by decide), fun s hs => ?_⟩
  cases hs
  refine ⟨trivial, fun s hs => ?_⟩
  cases hs
  refine ⟨show UInt32.toNat 8 + 1 < 2 ^ 32 by decide, fun s hs => ?_⟩
  cases hs
  exact ⟨trivial, fun _ _ => trivial⟩

/-- **One doubling is not enough**: after `SetMaxID(100)` on eight bits, id 100 cannot be set. -/
theorem setMaxID_not_reached :
    ∃ s, runOps stepRun [.setMaxID 100] (BitmapRun.start 8) = some s ∧ ¬ Reached s := by
  refine ⟨_, rfl, fun h => ?_⟩
  exact absurd (h 100 (by decide)).1 (by decide)

end BitmapManager

end AwaDB
