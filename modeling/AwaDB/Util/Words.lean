import AwaDB.Util.BitmapManager
import Mathlib.Data.Int.Notation

/-!
# Bitmaps word by word

The range index copies and combines bitmaps in loops over words of `BM_OPERATE_TYPE`, which have
64 bits (`op_len`). `onWords` is such a loop, and `test_onWords` says bit by bit what it does.
-/

namespace AwaDB.Bits

/-- `dst[i] = f(dst[i], src[j])` for words. -/
def onWord (f : Bool → Bool → Bool) (dst src : Bits) (i j : ℕ) : Bits :=
  dst.mapIdx fun k b => if k / 64 = i then f b (src.test (64 * j + k % 64)) else b

/-- `for (k = 0; k < n; ++k) dst[i + k] = f(dst[i + k], src[j + k])` for words. -/
def onWords (f : Bool → Bool → Bool) (dst src : Bits) (i j : ℕ) : ℕ → Bits
  | 0 => dst
  | n + 1 => onWord f (onWords f dst src i j n) src (i + n) (j + n)

/-- `dst[i + k] = src[j + k]`. -/
def copyWords : Bits → Bits → ℕ → ℕ → ℕ → Bits := onWords fun _ b => b

/-- `dst[i + k] |= src[j + k]`. -/
def orWords : Bits → Bits → ℕ → ℕ → ℕ → Bits := onWords (· || ·)

/-- `dst[i + k] &= src[j + k]`. -/
def andWords : Bits → Bits → ℕ → ℕ → ℕ → Bits := onWords (· && ·)

@[simp] theorem length_onWord (f : Bool → Bool → Bool) (dst src : Bits) (i j : ℕ) :
    (onWord f dst src i j).length = dst.length := List.length_mapIdx

@[simp] theorem length_onWords (f : Bool → Bool → Bool) (dst src : Bits) (i j n : ℕ) :
    (onWords f dst src i j n).length = dst.length := by
  induction n with
  | zero => rfl
  | succ n ih => rw [onWords, length_onWord, ih]

theorem test_onWord (f : Bool → Bool → Bool) (dst src : Bits) (i j : ℕ) {k : ℕ}
    (hk : k < dst.length) :
    test (onWord f dst src i j) k =
      if k / 64 = i then f (dst.test k) (src.test (64 * j + k % 64)) else dst.test k := by
  simp only [test, onWord, List.getD_eq_getElem?_getD, List.getElem?_mapIdx,
    List.getElem?_eq_getElem hk, Option.map_some, Option.getD_some]

/-- **A loop over `n` words** combines the bits of these words and leaves the others. -/
theorem test_onWords (f : Bool → Bool → Bool) (dst src : Bits) (i j n : ℕ) {k : ℕ}
    (hk : k < dst.length) :
    test (onWords f dst src i j n) k =
      if 64 * i ≤ k ∧ k < 64 * (i + n) then
        f (dst.test k) (src.test (k - 64 * i + 64 * j))
      else dst.test k := by
  induction n with
  | zero =>
    have hno : ¬ (64 * i ≤ k ∧ k < 64 * (i + 0)) := by omega
    rw [onWords, if_neg hno]
  | succ n ih =>
    rw [onWords, test_onWord f _ src _ _ (by rw [length_onWords]; exact hk), ih]
    by_cases hword : k / 64 = i + n
    · have hlow : ¬ (64 * i ≤ k ∧ k < 64 * (i + n)) := by omega
      have hin : 64 * i ≤ k ∧ k < 64 * (i + (n + 1)) := by omega
      have hpos : 64 * (j + n) + k % 64 = k - 64 * i + 64 * j := by omega
      rw [if_pos hword, if_neg hlow, if_pos hin, hpos]
    · rw [if_neg hword]
      have hsame : (64 * i ≤ k ∧ k < 64 * (i + (n + 1))) ↔ (64 * i ≤ k ∧ k < 64 * (i + n)) := by
        omega
      simp only [hsame]

/-- The loop from the words `i` of `dst` and `j` of `src`, undefined where it leaves one of them. -/
def onWords? (f : Bool → Bool → Bool) (dst src : Bits) (i j n : ℤ) : Option Bits :=
  if n ≤ 0 then some dst
  else if 0 ≤ i ∧ 64 * (i + n) ≤ dst.length ∧ 0 ≤ j ∧ 64 * (j + n) ≤ src.length then
    some (onWords f dst src i.toNat j.toNat n.toNat)
  else none

theorem onWords?_eq (f : Bool → Bool → Bool) {dst src : Bits} {i j n : ℕ}
    (hdst : 64 * (i + n) ≤ dst.length) (hsrc : 64 * (j + n) ≤ src.length) :
    onWords? f dst src i j n = some (onWords f dst src i j n) := by
  rw [onWords?]
  split
  · rename_i hn
    have hzero : n = 0 := by omega
    rw [hzero]
    rfl
  · rw [if_pos ⟨by omega, by omega, by omega, by omega⟩]
    rfl

theorem eq_of_onWords? {f : Bool → Bool → Bool} {dst src bits : Bits} {i j n : ℤ}
    (h : onWords? f dst src i j n = some bits) : bits = onWords f dst src i.toNat j.toNat n.toNat := by
  rw [onWords?] at h
  split at h
  · rename_i hn
    cases h
    rw [Int.toNat_of_nonpos hn]
    rfl
  · split at h
    · exact (Option.some.inj h).symm
    · cases h

theorem test_of_length_le (bitmap : Bits) {k : ℕ} (hk : bitmap.length ≤ k) :
    bitmap.test k = false := by
  rw [test, List.getD_eq_getElem?_getD, List.getElem?_eq_none hk, Option.getD_none]

theorem lt_length_of_test {bitmap : Bits} {k : ℕ} (h : bitmap.test k = true) :
    k < bitmap.length := by
  by_contra hk
  rw [test_of_length_le bitmap (by omega)] at h
  cases h

end AwaDB.Bits
