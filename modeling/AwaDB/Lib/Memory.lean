import Mathlib.Data.List.Basic
import Mathlib.Data.List.TakeDrop
import Mathlib.Tactic.Common

/-!
# Blocks of memory

A block of memory is a list of cells. `patch` is the effect of a `memcpy` of `xs` into the block at
offset `off`, and `freshBlock` the copy of a prefix into a newly allocated block. The lemmas say
which cells change and which do not.
-/

namespace AwaDB.Lib

/-- Blocks are numbered one segment after the other: a number is one block. -/
theorem mul_add_inj {n i j a b : ℕ} (ha : a < n) (hb : b < n) (h : i * n + a = j * n + b) :
    i = j ∧ a = b := by
  have hdiv : ∀ i a, a < n → (i * n + a) / n = i := by
    intro i a ha
    rw [Nat.mul_comm, Nat.mul_add_div (by omega), Nat.div_eq_of_lt ha, Nat.add_zero]
  have hij : i = j := by rw [← hdiv i a ha, h, hdiv j b hb]
  subst hij
  exact ⟨rfl, Nat.add_left_cancel h⟩

variable {α : Type*}

/-- The block `l` after the cells of `xs` are copied into it from offset `off` on. -/
def patch (l : List α) (off : ℕ) (xs : List α) : List α :=
  l.take off ++ xs ++ l.drop (off + xs.length)

theorem patch_length (l xs : List α) (off : ℕ) (h : off + xs.length ≤ l.length) :
    (patch l off xs).length = l.length := by
  simp only [patch, List.length_append, List.length_take, List.length_drop]
  omega

/-- The copied cells, and the others. -/
theorem getElem?_patch {l xs : List α} {off : ℕ} (h : off + xs.length ≤ l.length) (i : ℕ) :
    (patch l off xs)[i]? = if off ≤ i ∧ i < off + xs.length then xs[i - off]? else l[i]? := by
  have hleft : (l.take off).length = off := by rw [List.length_take]; omega
  rw [patch, List.append_assoc]
  by_cases hoff : i < off
  · rw [List.getElem?_append_left (by omega), List.getElem?_take_of_lt hoff, if_neg (by omega)]
  · rw [List.getElem?_append_right (by omega), hleft]
    by_cases hin : i < off + xs.length
    · rw [List.getElem?_append_left (by omega), if_pos (by omega)]
    · rw [List.getElem?_append_right (by omega), List.getElem?_drop, if_neg (by omega)]
      congr 1
      omega

/-- The prefix that ends with the copied cells is the old prefix followed by them. -/
theorem patch_take_end (l xs : List α) {off : ℕ} (h : off ≤ l.length) :
    (patch l off xs).take (off + xs.length) = l.take off ++ xs := by
  have hlen : (l.take off ++ xs).length = off + xs.length := by
    rw [List.length_append, List.length_take, Nat.min_eq_left h]
  rw [patch, ← hlen, List.take_left]

/-- Cells that are copied into a prefix. -/
theorem patch_take (l xs : List α) {off k : ℕ} (hoff : off + xs.length ≤ k) (hk : k ≤ l.length) :
    (patch l off xs).take k = patch (l.take k) off xs := by
  have htake : (l.take k).length = k := by
    rw [List.length_take]
    omega
  apply List.ext_getElem?
  intro i
  rw [getElem?_patch (by omega)]
  by_cases hi : i < k
  · rw [List.getElem?_take_of_lt hi, List.getElem?_take_of_lt hi, getElem?_patch (by omega)]
  · rw [List.getElem?_take_eq_none (by omega), List.getElem?_take_eq_none (by omega), if_neg (by omega)]

/-- A new block of `cap` cells whose first `pos` cells are copied from `l`; no cell of the rest is
read before it is written, so their content is `d`. -/
def freshBlock (d : α) (l : List α) (pos cap : ℕ) : List α :=
  l.take pos ++ List.replicate (cap - pos) d

theorem freshBlock_length (d : α) (l : List α) {pos cap : ℕ} (hpos : pos ≤ l.length)
    (hcap : pos ≤ cap) : (freshBlock d l pos cap).length = cap := by
  simp only [freshBlock, List.length_append, List.length_take, List.length_replicate]
  omega

theorem freshBlock_take (d : α) (l : List α) {pos cap : ℕ} (hpos : pos ≤ l.length) :
    (freshBlock d l pos cap).take pos = l.take pos := by
  have hlen : (l.take pos).length = pos := by rw [List.length_take]; omega
  conv_lhs => rw [freshBlock, ← hlen]
  rw [hlen, List.take_append_of_le_length (by omega), List.take_take, Nat.min_self]

end AwaDB.Lib
