import AwaDB.Lib.Memory
import Mathlib.Data.List.Basic
import Mathlib.Data.Nat.Notation
import Mathlib.Logic.Function.Basic
import Mathlib.Tactic.Common

/-!
# Files

A file is a function from offsets to bytes; `none` is a byte that was never written, which reads as
zero. `pwrite` writes a list of bytes at an offset, and `pread` reads a number of them.

* `pwrite_append`: a list is written as its two parts, one behind the other;
* `pwrite_comm`: writes to disjoint ranges commute;
* `pread_pwrite_self`, `pread_pwrite_disjoint`, `pread_pwrite_inside`: what is read back.
-/

namespace AwaDB.Lib

/-- The bytes of a file. -/
abbrev File := ℕ → Option UInt8

namespace File

/-- The bytes at the offsets from `off` on are replaced. -/
def pwrite (off : ℕ) (bytes : List UInt8) (f : File) : File := fun i =>
  if off ≤ i ∧ i < off + bytes.length then bytes[i - off]? else f i

/-- `len` bytes from `off` on. -/
def pread (off len : ℕ) (f : File) : List UInt8 :=
  (List.range len).map fun i => (f (off + i)).getD 0

variable {f : File} {off off' : ℕ} {xs ys : List UInt8}

theorem pwrite_of_lt {i : ℕ} (h : i < off) : f.pwrite off xs i = f i := by
  rw [pwrite, if_neg]
  omega

theorem pwrite_of_ge {i : ℕ} (h : off + xs.length ≤ i) : f.pwrite off xs i = f i := by
  rw [pwrite, if_neg]
  omega

theorem pwrite_inside {i : ℕ} (h : i < xs.length) : f.pwrite off xs (off + i) = xs[i]? := by
  rw [pwrite, if_pos (by omega), Nat.add_sub_cancel_left]

/-- A byte that was written stays written. -/
theorem isSome_pwrite {i : ℕ} (h : (f i).isSome) : (f.pwrite off xs i).isSome := by
  rw [pwrite]
  split
  next hin =>
    rw [List.getElem?_eq_getElem (by omega)]
    rfl
  · exact h

@[simp] theorem pwrite_nil : f.pwrite off [] = f := by
  funext i
  rw [pwrite, if_neg]
  simp only [List.length_nil]
  omega

theorem pwrite_append : f.pwrite off (xs ++ ys) = (f.pwrite off xs).pwrite (off + xs.length) ys := by
  funext i
  simp only [pwrite, List.length_append]
  by_cases hleft : i < off + xs.length
  · rw [if_neg (show ¬ (off + xs.length ≤ i ∧ i < off + xs.length + ys.length) by omega)]
    by_cases hoff : off ≤ i
    · rw [if_pos (by omega), if_pos ⟨hoff, hleft⟩, List.getElem?_append_left (by omega)]
    · rw [if_neg (by omega), if_neg (by omega)]
  · by_cases hright : i < off + xs.length + ys.length
    · rw [if_pos (by omega), if_pos (by omega), List.getElem?_append_right (by omega)]
      congr 1
      omega
    · rw [if_neg (by omega), if_neg (by omega), if_neg (by omega)]

/-- **Writes to disjoint ranges** commute. -/
theorem pwrite_comm (h : off + xs.length ≤ off' ∨ off' + ys.length ≤ off) :
    (f.pwrite off xs).pwrite off' ys = (f.pwrite off' ys).pwrite off xs := by
  funext i
  simp only [pwrite]
  by_cases hx : off ≤ i ∧ i < off + xs.length
  · rw [if_pos hx, if_neg (by omega), if_pos hx]
  · rw [if_neg hx, if_neg hx]

/-- The later of two writes of one range. -/
theorem pwrite_pwrite_self (h : xs.length = ys.length) :
    (f.pwrite off xs).pwrite off ys = f.pwrite off ys := by
  funext i
  simp only [pwrite, h]
  split <;> rfl

theorem pread_pwrite_self : (f.pwrite off xs).pread off xs.length = xs := by
  refine List.ext_getElem (by simp [pread]) fun i hi hi' => ?_
  simp only [pread, List.getElem_map, List.getElem_range]
  rw [pwrite_inside hi', List.getElem?_eq_getElem hi']
  rfl

theorem pread_congr {f g : File} {len : ℕ} (h : ∀ i, i < len → f (off + i) = g (off + i)) :
    f.pread off len = g.pread off len := by
  refine List.map_congr_left fun i hi => ?_
  rw [h i (List.mem_range.mp hi)]

theorem pread_pwrite_disjoint {len : ℕ} (h : off + len ≤ off' ∨ off' + xs.length ≤ off) :
    (f.pwrite off' xs).pread off len = f.pread off len := by
  refine pread_congr fun i hi => ?_
  cases h with
  | inl h => exact pwrite_of_lt (by omega)
  | inr h => exact pwrite_of_ge (by omega)

@[simp] theorem pread_length {len : ℕ} : (f.pread off len).length = len := by
  rw [pread, List.length_map, List.length_range]

theorem getElem?_pread {len : ℕ} (i : ℕ) :
    (f.pread off len)[i]? = if i < len then some ((f (off + i)).getD 0) else none := by
  rw [pread, List.getElem?_map]
  by_cases h : i < len
  · rw [List.getElem?_range h, if_pos h]
    rfl
  · rw [List.getElem?_eq_none (by rw [List.length_range]; omega), if_neg h]
    rfl

/-- A write within a range is a copy into what is read of the range. -/
theorem pread_pwrite_inside {len pos : ℕ} (h : pos + xs.length ≤ len) :
    (f.pwrite (off + pos) xs).pread off len = patch (f.pread off len) pos xs := by
  refine List.ext_getElem? fun i => ?_
  rw [getElem?_patch (by rw [pread_length]; exact h), getElem?_pread]
  by_cases hin : pos ≤ i ∧ i < pos + xs.length
  · have hwrite : f.pwrite (off + pos) xs (off + pos + (i - pos)) = xs[i - pos]? :=
      pwrite_inside (by omega)
    have hoff : off + pos + (i - pos) = off + i := by omega
    rw [if_pos hin, if_pos (by omega), ← hoff, hwrite, List.getElem?_eq_getElem (by omega)]
    rfl
  · have hout : ¬ (off + pos ≤ off + i ∧ off + i < off + pos + xs.length) := by omega
    rw [if_neg hin, getElem?_pread, pwrite, if_neg hout]

/-- Two ranges, one behind the other. -/
theorem pread_add {len len' : ℕ} :
    f.pread off (len + len') = f.pread off len ++ f.pread (off + len) len' := by
  refine List.ext_getElem? fun i => ?_
  rw [List.getElem?_append, pread_length, getElem?_pread, getElem?_pread, getElem?_pread]
  by_cases hi : i < len
  · rw [if_pos (by omega), if_pos hi, if_pos hi]
  · rw [if_neg hi, Nat.add_assoc off, Nat.add_sub_cancel' (Nat.not_lt.mp hi)]
    by_cases hi' : i < len + len'
    · rw [if_pos hi', if_pos (by omega)]
    · rw [if_neg hi', if_neg (by omega)]

/-- A part of what is read of a range. -/
theorem take_drop_pread {len pos num : ℕ} (h : pos + num ≤ len) :
    ((f.pread off len).drop pos).take num = f.pread (off + pos) num := by
  refine List.ext_getElem? fun i => ?_
  rw [List.getElem?_take, List.getElem?_drop, getElem?_pread, getElem?_pread, Nat.add_assoc]
  by_cases hi : i < num
  · rw [if_pos hi, if_pos hi, if_pos (by omega)]
  · rw [if_neg hi, if_neg hi]

end File

end AwaDB.Lib
