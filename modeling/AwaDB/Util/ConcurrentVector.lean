import AwaDB.Lib.Groups
import AwaDB.Lib.Run
import Mathlib.Algebra.Order.Ring.Int

/-!
# The vector of groups (`util/concurrent_vector.h`)

`ConcurrentVector` keeps its elements in groups of `grp_gap_`, and the pointers to the groups in an array
whose length is a `Base`, an unsigned type of one or two bytes.

* `pushBack`, `resetData`, `getData`, `tryGetData`, `getLastData` and `resize` as the code has them; an access
  outside of an allocation is `none`;
* `Refines`: the groups in use are the elements of a list, and zeros behind;
* `refines_iff`: exactly which runs are those of a list;
* `resize_overflow` and `resize_regrow`: two that write behind an allocation.
-/

namespace AwaDB

open Lib

/-- The arguments of `Init`, the number of values of `Base` and `sizeof(Value)`. -/
structure VectorSizes where
  beginGrpCapacity : ℕ
  grpGap : ℕ
  baseNum : ℕ
  valueSize : ℕ
  begin_pos : 0 < beginGrpCapacity
  begin_lt : beginGrpCapacity < baseNum
  gap_pos : 0 < grpGap
  gap_lt : grpGap < baseNum
  base_le : baseNum ≤ 2 ^ 16
  value_le : valueSize ≤ 8

/-- `ConcurrentVector`; `grps` are the groups up to `grp_num_`. -/
structure ConcurrentVector (α : Type*) where
  grps : List (List α)
  grpCapacity : ℕ
  size : ℕ
deriving DecidableEq, Repr

namespace ConcurrentVector

variable {α : Type*} [Zero α] {z : VectorSizes} {s : ConcurrentVector α} {xs : List α} {n id : ℕ} {val : α}

/-- `Init`. -/
def init (z : VectorSizes) : ConcurrentVector α := ⟨[], z.beginGrpCapacity, 0⟩

/-- The array that `PushBack` allocates when the old one is full; `begin_grp_capacity_` pointers behind the
old ones are cleared. -/
def extend (z : VectorSizes) (s : ConcurrentVector α) : Option (ConcurrentVector α) :=
  if s.grps.length ≥ s.grpCapacity then
    let newCapacity := (s.grpCapacity + z.beginGrpCapacity) % z.baseNum
    if s.grpCapacity + z.beginGrpCapacity ≤ newCapacity then some { s with grpCapacity := newCapacity }
    else none
  else some s

/-- `PushBack`. -/
def pushBack (z : VectorSizes) (val : α) (s : ConcurrentVector α) : Option (ConcurrentVector α) :=
  if s.size % z.grpGap = 0 then
    (extend z s).bind fun s =>
      if s.grps.length < s.grpCapacity then
        some { s with
          grps := s.grps ++ [val :: List.replicate (z.grpGap - 1) 0], size := (s.size + 1) % 2 ^ 32 }
      else none
  else if s.grps = [] then none
  else
    some { s with
      grps := s.grps.modify (s.grps.length - 1) fun grp => grp.set (s.size % z.grpGap) val
      size := (s.size + 1) % 2 ^ 32 }

/-- `ResetData`. -/
def resetData (z : VectorSizes) (id : ℕ) (val : α) (s : ConcurrentVector α) :
    Option (Bool × ConcurrentVector α) :=
  if id ≥ s.size then some (false, s)
  else if id / z.grpGap < s.grps.length then
    some (true, { s with grps := s.grps.modify (id / z.grpGap) fun grp => grp.set (id % z.grpGap) val })
  else none

/-- Element `id`, in the group that it belongs to. -/
def slot (z : VectorSizes) (id : ℕ) (s : ConcurrentVector α) : Option α :=
  (s.grps[id / z.grpGap]?).bind fun grp => grp[id % z.grpGap]?

/-- `GetData` that returns the element. -/
def getData (z : VectorSizes) (id : ℕ) (s : ConcurrentVector α) : Option α :=
  if id / z.grpGap ≥ s.grps.length then some 0 else slot z id s

/-- `GetData` that returns whether there is one. -/
def tryGetData (z : VectorSizes) (id : ℕ) (s : ConcurrentVector α) : Option (Option α) :=
  if id ≥ s.size then some none else (slot z id s).map some

/-- `GetLastData`. -/
def getLastData (z : VectorSizes) (s : ConcurrentVector α) : Option (Option α) :=
  if s.grps.length = 0 then some none else (slot z (s.size - 1) s).map some

/-- The number of groups that have room for `n` elements. -/
def newGrpNum (z : VectorSizes) (n : ℕ) : ℕ := n / z.grpGap + if n % z.grpGap = 0 then 0 else 1

/-- The array that `Resize` allocates when the old one is too short: the quotient is taken for the
capacity, and the old pointers are copied. -/
def regrow (z : VectorSizes) (grpNum : ℕ) (s : ConcurrentVector α) : Option (ConcurrentVector α) :=
  if grpNum > s.grpCapacity then
    let newCapacity :=
      (grpNum / z.beginGrpCapacity + if grpNum % z.beginGrpCapacity = 0 then 0 else 1) % z.baseNum
    if s.grpCapacity ≤ newCapacity then some { s with grpCapacity := newCapacity } else none
  else some s

/-- `Resize`. The rest of the last group is cleared as if an element had the size of a pointer. -/
def resize (z : VectorSizes) (n : ℕ) (s : ConcurrentVector α) : Option (ConcurrentVector α) :=
  let grpNum := newGrpNum z n
  if grpNum ≤ s.grps.length then
    if n % z.grpGap = 0 then some { s with size := n, grps := s.grps.take grpNum }
    else
      let rest := z.grpGap - n % z.grpGap
      if 8 * rest ≤ z.valueSize * rest then
        some { s with
          size := n
          grps := (s.grps.take grpNum).modify (grpNum - 1) fun grp =>
            grp.take (n % z.grpGap) ++ List.replicate rest 0 }
      else none
  else
    (regrow z grpNum s).bind fun s =>
      if grpNum ≤ s.grpCapacity then
        some { s with
          size := n
          grps := s.grps ++ List.replicate (grpNum - s.grps.length) (List.replicate z.grpGap 0) }
      else none

/-! ### Groups and list -/

/-- The groups in use are the elements, and zeros up to the end of the last group. -/
structure Refines (z : VectorSizes) (s : ConcurrentVector α) (xs : List α) : Prop where
  uniform : Uniform z.grpGap s.grps
  flatten : s.grps.flatten = xs ++ List.replicate (s.grps.length * z.grpGap - xs.length) 0
  size : s.size = xs.length
  grpNum : s.grps.length = newGrpNum z xs.length
  room : s.grps.length ≤ s.grpCapacity
  capacity_pos : 0 < s.grpCapacity
  capacity_lt : s.grpCapacity < z.baseNum

theorem refines_init (z : VectorSizes) : Refines z (init z : ConcurrentVector α) [] where
  uniform := uniform_nil
  flatten := by simp [init]
  size := rfl
  grpNum := by simp [init, newGrpNum]
  room := Nat.zero_le _
  capacity_pos := z.begin_pos
  capacity_lt := z.begin_lt

/-- The groups have room for `n` elements, and not for a group more. -/
theorem le_newGrpNum_mul (z : VectorSizes) (n : ℕ) :
    n ≤ newGrpNum z n * z.grpGap ∧ (n % z.grpGap = 0 → newGrpNum z n * z.grpGap = n) := by
  have hdiv := Nat.div_add_mod n z.grpGap
  have hmod := Nat.mod_lt n z.gap_pos
  rw [Nat.mul_comm] at hdiv
  unfold newGrpNum
  split
  · rename_i hzero
    rw [Nat.add_zero]
    omega
  · rename_i hne
    rw [Nat.succ_mul]
    exact ⟨by omega, fun h => absurd h hne⟩

theorem Refines.length_le (h : Refines z s xs) : xs.length ≤ s.grps.length * z.grpGap := by
  rw [h.grpNum]
  exact (le_newGrpNum_mul z xs.length).1

/-- The size is far from the end of a `uint32_t`. -/
theorem Refines.size_lt (h : Refines z s xs) : xs.length + 1 < 2 ^ 32 := by
  have hgap := z.gap_lt
  have hbase := z.base_le
  have hroom := h.room
  have hcapacity := h.capacity_lt
  have hmul : s.grps.length * z.grpGap ≤ 65535 * 65535 := Nat.mul_le_mul (by omega) (by omega)
  have hlength := h.length_le
  omega

theorem newGrpNum_mul_lt (z : VectorSizes) (n : ℕ) : newGrpNum z n * z.grpGap < n + z.grpGap := by
  have hdiv := Nat.div_add_mod n z.grpGap
  have hpos := z.gap_pos
  rw [Nat.mul_comm] at hdiv
  unfold newGrpNum
  split
  · rw [Nat.add_zero]
    omega
  · rw [Nat.succ_mul]
    omega

/-- There is one number of groups that fits. -/
theorem newGrpNum_eq {k : ℕ} (hle : n ≤ k * z.grpGap) (hlt : k * z.grpGap < n + z.grpGap) :
    newGrpNum z n = k := by
  have hle' := (le_newGrpNum_mul z n).1
  have hlt' := newGrpNum_mul_lt z n
  apply Nat.le_antisymm
  · apply Nat.le_of_lt_succ
    apply Nat.lt_of_mul_lt_mul_right (a := z.grpGap)
    rw [Nat.succ_mul]
    omega
  · apply Nat.le_of_lt_succ
    apply Nat.lt_of_mul_lt_mul_right (a := z.grpGap)
    rw [Nat.succ_mul]
    omega

/-- In a group that is not full the next element goes to the last group. -/
theorem newGrpNum_of_ne (hne : n % z.grpGap ≠ 0) : newGrpNum z n = n / z.grpGap + 1 := by
  unfold newGrpNum
  rw [if_neg hne]

/-! ### `PushBack` -/

/-- A group more, with the element in front. -/
theorem Refines.push_group (h : Refines z s xs) (hfull : s.size % z.grpGap = 0) {capacity : ℕ}
    (hroom : s.grps.length < capacity) (hcapacity : capacity < z.baseNum) :
    Refines z ⟨s.grps ++ [val :: List.replicate (z.grpGap - 1) 0], capacity, (s.size + 1) % 2 ^ 32⟩
      (xs ++ [val]) := by
  have hpos := z.gap_pos
  have hend : s.grps.length * z.grpGap = xs.length := by
    rw [h.grpNum]
    rw [h.size] at hfull
    exact (le_newGrpNum_mul z xs.length).2 hfull
  have hgroup : (val :: List.replicate (z.grpGap - 1) (0 : α)).length = z.grpGap := by
    rw [List.length_cons, List.length_replicate]
    omega
  have hnext : (s.grps.length + 1) * z.grpGap = xs.length + z.grpGap := by
    rw [Nat.succ_mul, hend]
  constructor
  · show Uniform z.grpGap (s.grps ++ [val :: List.replicate (z.grpGap - 1) 0])
    exact h.uniform.append (uniform_replicate hgroup 1)
  · show (s.grps ++ [val :: List.replicate (z.grpGap - 1) 0]).flatten = _
    have hrest : xs.length + z.grpGap - (xs.length + 1) = z.grpGap - 1 := by omega
    rw [List.flatten_append, h.flatten, hend, Nat.sub_self, List.length_append, List.length_append,
      List.length_singleton, List.length_singleton, hnext, hrest]
    simp
  · show (s.size + 1) % 2 ^ 32 = (xs ++ [val]).length
    rw [h.size, Nat.mod_eq_of_lt h.size_lt, List.length_append, List.length_singleton]
  · show (s.grps ++ [val :: List.replicate (z.grpGap - 1) 0]).length = newGrpNum z (xs ++ [val]).length
    rw [List.length_append, List.length_append, List.length_singleton, List.length_singleton]
    symm
    apply newGrpNum_eq
    · omega
    · omega
  · show (s.grps ++ [val :: List.replicate (z.grpGap - 1) 0]).length ≤ capacity
    rw [List.length_append, List.length_singleton]
    omega
  · exact Nat.lt_of_le_of_lt (Nat.zero_le _) hroom
  · exact hcapacity

/-- The element goes into the last group. -/
theorem Refines.push_slot (h : Refines z s xs) (val : α) (hpart : s.size % z.grpGap ≠ 0) :
    s.grps ≠ [] ∧ Refines z
      { s with
        grps := s.grps.modify (s.grps.length - 1) fun grp => grp.set (s.size % z.grpGap) val
        size := (s.size + 1) % 2 ^ 32 } (xs ++ [val]) := by
  have hpart' := hpart
  rw [h.size] at hpart'
  have hgrpNum := h.grpNum.trans (newGrpNum_of_ne hpart')
  have hlast : s.grps.length - 1 = s.size / z.grpGap := by
    rw [hgrpNum, h.size, Nat.add_sub_cancel]
  have hlt : xs.length < s.grps.length * z.grpGap := by
    have hdiv := Nat.div_add_mod xs.length z.grpGap
    have hmod := Nat.mod_lt xs.length z.gap_pos
    rw [hgrpNum, Nat.succ_mul, Nat.mul_comm]
    omega
  have hnum : newGrpNum z (xs.length + 1) = s.grps.length := by
    apply newGrpNum_eq
    · omega
    · have hdiv := Nat.div_add_mod xs.length z.grpGap
      rw [hgrpNum, Nat.succ_mul, Nat.mul_comm (xs.length / z.grpGap)]
      omega
  refine ⟨fun hnil => ?_, ?_⟩
  · rw [hnil, List.length_nil] at hgrpNum
    exact absurd hgrpNum (Nat.succ_ne_zero _).symm
  rw [hlast]
  constructor
  · exact h.uniform.modify _ fun grp hgrp => by rw [List.length_set, hgrp]
  · show (s.grps.modify _ _).flatten = _
    have hrest : s.grps.length * z.grpGap - xs.length =
        s.grps.length * z.grpGap - (xs.length + 1) + 1 := by omega
    rw [h.uniform.flatten_set z.gap_pos, h.flatten, h.size, List.length_modify, List.length_append,
      List.length_singleton, hrest, List.replicate_succ]
    simp
  · show (s.size + 1) % 2 ^ 32 = (xs ++ [val]).length
    rw [h.size, Nat.mod_eq_of_lt h.size_lt, List.length_append, List.length_singleton]
  · show (s.grps.modify _ _).length = _
    rw [List.length_modify, List.length_append, List.length_singleton, hnum]
  · show (s.grps.modify _ _).length ≤ s.grpCapacity
    rw [List.length_modify]
    exact h.room
  · exact h.capacity_pos
  · exact h.capacity_lt

/-- The array of the groups can be extended when it has to be. -/
def PushFits (z : VectorSizes) (s : ConcurrentVector α) : Prop :=
  s.size % z.grpGap = 0 → s.grpCapacity ≤ s.grps.length →
    s.grpCapacity + z.beginGrpCapacity < z.baseNum

theorem Refines.pushBack (h : Refines z s xs) (val : α) (hfits : PushFits z s) :
    ∃ s', pushBack z val s = some s' ∧ Refines z s' (xs ++ [val]) := by
  unfold ConcurrentVector.pushBack
  by_cases hfull : s.size % z.grpGap = 0
  · rw [if_pos hfull]
    unfold extend
    by_cases hcapacity : s.grps.length ≥ s.grpCapacity
    · have hlt := hfits hfull hcapacity
      have hpos := z.begin_pos
      have hroom : s.grps.length < s.grpCapacity + z.beginGrpCapacity :=
        Nat.lt_of_le_of_lt h.room (Nat.lt_add_of_pos_right hpos)
      rw [if_pos hcapacity, Nat.mod_eq_of_lt hlt]
      dsimp only
      rw [if_pos (Nat.le_refl _), Option.bind_some, if_pos hroom]
      exact ⟨_, rfl, h.push_group hfull hroom hlt⟩
    · rw [if_neg hcapacity, Option.bind_some, if_pos (by omega)]
      exact ⟨_, rfl, h.push_group hfull (by omega) h.capacity_lt⟩
  · rw [if_neg hfull, if_neg (h.push_slot val hfull).1]
    exact ⟨_, rfl, (h.push_slot val hfull).2⟩

/-- A capacity that wraps is too small for the pointers that are cleared. -/
theorem pushBack_eq_none (hfits : ¬ PushFits z s) : pushBack z val s = none := by
  unfold PushFits at hfits
  push Not at hfits
  obtain ⟨hfull, hcapacity, hwrap⟩ := hfits
  have hpos : 0 < z.baseNum := Nat.lt_of_le_of_lt (Nat.zero_le _) z.gap_lt
  have hmod := Nat.mod_lt (s.grpCapacity + z.beginGrpCapacity) hpos
  unfold pushBack extend
  rw [if_pos hfull, if_pos hcapacity]
  dsimp only
  rw [if_neg (by omega), Option.bind_none]

/-! ### `ResetData` and the readers -/

theorem Refines.slot (h : Refines z s xs) (hid : id < xs.length) : slot z id s = xs[id]? := by
  unfold ConcurrentVector.slot
  rw [← h.uniform.getElem?_flatten z.gap_pos, h.flatten, List.getElem?_append_left hid]

/-- An element that there is has its group. -/
theorem Refines.div_lt (h : Refines z s xs) (hid : id < xs.length) :
    id / z.grpGap < s.grps.length := by
  apply Nat.div_lt_of_lt_mul
  rw [Nat.mul_comm]
  exact Nat.lt_of_lt_of_le hid h.length_le

theorem Refines.resetData (h : Refines z s xs) (id : ℕ) (val : α) :
    ∃ s', resetData z id val s = some (decide (id < xs.length), s') ∧ Refines z s' (xs.set id val) := by
  unfold ConcurrentVector.resetData
  by_cases hid : id < xs.length
  · have hdiv := h.div_lt hid
    rw [if_neg (by rw [h.size]; omega), if_pos hdiv, decide_eq_true hid]
    refine ⟨_, rfl, ?_, ?_, ?_, ?_, ?_, h.capacity_pos, h.capacity_lt⟩
    · exact h.uniform.modify _ fun grp hgrp => by rw [List.length_set, hgrp]
    · show (s.grps.modify _ _).flatten = _
      rw [h.uniform.flatten_set z.gap_pos, h.flatten, List.length_modify, List.length_set,
        List.set_append_left id val hid]
    · rw [List.length_set]
      exact h.size
    · show (s.grps.modify _ _).length = _
      rw [List.length_modify, List.length_set]
      exact h.grpNum
    · show (s.grps.modify _ _).length ≤ s.grpCapacity
      rw [List.length_modify]
      exact h.room
  · rw [if_pos (by rw [h.size]; omega), decide_eq_false hid, List.set_eq_of_length_le (by omega)]
    exact ⟨s, rfl, h⟩

/-- What the readers return, and whether an element is written, are as for the list. -/
structure Reads (z : VectorSizes) (s : ConcurrentVector α) (xs : List α) : Prop where
  size : s.size = xs.length
  getData : ∀ id, getData z id s = some (xs[id]?.getD 0)
  tryGetData : ∀ id, tryGetData z id s = some xs[id]?
  getLastData : getLastData z s = some xs.getLast?
  resetData : ∀ id val, (resetData z id val s).map Prod.fst = some (decide (id < xs.length))

/-- Behind the elements there are zeros, or no group. -/
theorem Refines.getData (h : Refines z s xs) (id : ℕ) : getData z id s = some (xs[id]?.getD 0) := by
  unfold ConcurrentVector.getData
  by_cases hid : id < xs.length
  · rw [if_neg (Nat.not_le_of_lt (h.div_lt hid)), h.slot hid, List.getElem?_eq_getElem hid]
    rfl
  · rw [List.getElem?_eq_none (Nat.le_of_not_lt hid)]
    by_cases hgroup : id / z.grpGap ≥ s.grps.length
    · rw [if_pos hgroup]
      rfl
    · have hlt : id < s.grps.length * z.grpGap := by
        rw [← Nat.div_lt_iff_lt_mul z.gap_pos]
        exact Nat.lt_of_not_le hgroup
      rw [if_neg hgroup]
      unfold ConcurrentVector.slot
      rw [← h.uniform.getElem?_flatten z.gap_pos, h.flatten,
        List.getElem?_append_right (Nat.le_of_not_lt hid), List.getElem?_replicate,
        if_pos (by omega)]
      rfl

theorem Refines.reads (h : Refines z s xs) : Reads z s xs where
  size := h.size
  getData := h.getData
  tryGetData id := by
    unfold ConcurrentVector.tryGetData
    by_cases hid : id < xs.length
    · rw [if_neg (by rw [h.size]; omega), h.slot hid, List.getElem?_eq_getElem hid]
      rfl
    · rw [if_pos (by rw [h.size]; omega), List.getElem?_eq_none (Nat.le_of_not_lt hid)]
  getLastData := by
    unfold ConcurrentVector.getLastData
    cases xs with
    | nil =>
      have hzero : s.grps.length = 0 := by
        rw [h.grpNum]
        simp [newGrpNum]
      rw [if_pos hzero]
      rfl
    | cons x xs =>
      have hle := h.length_le
      have hne : s.grps.length ≠ 0 := by
        intro hzero
        rw [hzero, Nat.zero_mul, List.length_cons] at hle
        omega
      have hlast : (x :: xs).length - 1 < (x :: xs).length := by
        rw [List.length_cons]
        omega
      rw [if_neg hne, h.size, h.slot hlast, List.getLast?_eq_getElem?,
        List.getElem?_eq_getElem hlast]
      rfl
  resetData id val := by
    obtain ⟨s', hreset, -⟩ := h.resetData id val
    rw [hreset]
    rfl

/-! ### `Resize` -/

/-- The list after `Resize`. -/
def resizeList (n : ℕ) (xs : List α) : List α := xs.take n ++ List.replicate (n - xs.length) 0

theorem length_resizeList (n : ℕ) (xs : List α) : (resizeList n xs).length = n := by
  unfold resizeList
  rw [List.length_append, List.length_take, List.length_replicate]
  omega

/-- Elements and zeros, cut and filled up again. -/
theorem take_zeros (xs : List α) {k : ℕ} (hn : n ≤ k) :
    (xs ++ List.replicate (k - xs.length) 0).take n = resizeList n xs := by
  have hmin : min (n - xs.length) (k - xs.length) = n - xs.length := by omega
  unfold resizeList
  rw [List.take_append, List.take_replicate, hmin]

/-- When every group that is kept is there, `Resize` stays inside it if elements have the size of
pointers; when there are too few pointers, their new number is right if there was one pointer at first. -/
def ResizeFits (z : VectorSizes) (n : ℕ) (s : ConcurrentVector α) : Prop :=
  if newGrpNum z n ≤ s.grps.length then n % z.grpGap ≠ 0 → z.valueSize = 8
  else s.grpCapacity < newGrpNum z n → z.beginGrpCapacity = 1 ∧ newGrpNum z n < z.baseNum

/-- Whole groups are kept. -/
theorem Refines.resize_whole (h : Refines z s xs) (hgrpNum : newGrpNum z n ≤ s.grps.length)
    (hwhole : n % z.grpGap = 0) :
    Refines z { s with size := n, grps := s.grps.take (newGrpNum z n) } (resizeList n xs) := by
  have hend := (le_newGrpNum_mul z n).2 hwhole
  have htake : (s.grps.take (newGrpNum z n)).length = newGrpNum z n := by
    rw [List.length_take]
    omega
  constructor
  · exact h.uniform.take _
  · show (s.grps.take (newGrpNum z n)).flatten = _
    have hle : n ≤ s.grps.length * z.grpGap := by
      rw [← hend]
      exact Nat.mul_le_mul_right _ hgrpNum
    rw [h.uniform.flatten_take, h.flatten, hend, take_zeros xs hle, htake, hend, length_resizeList,
      Nat.sub_self, List.replicate_zero, List.append_nil]
  · exact (length_resizeList n xs).symm
  · rw [length_resizeList]
    exact htake
  · show (s.grps.take (newGrpNum z n)).length ≤ s.grpCapacity
    have hroom := h.room
    omega
  · exact h.capacity_pos
  · exact h.capacity_lt

/-- The last group is kept up to the new size. -/
theorem Refines.resize_part (h : Refines z s xs) (hgrpNum : newGrpNum z n ≤ s.grps.length)
    (hpart : n % z.grpGap ≠ 0) :
    Refines z
      { s with
        size := n
        grps := (s.grps.take (newGrpNum z n)).modify (newGrpNum z n - 1) fun grp =>
          grp.take (n % z.grpGap) ++ List.replicate (z.grpGap - n % z.grpGap) 0 }
      (resizeList n xs) := by
  have hmod := Nat.mod_lt n z.gap_pos
  have hdiv := Nat.div_add_mod n z.grpGap
  rw [newGrpNum_of_ne hpart] at hgrpNum ⊢
  have htake : (s.grps.take (n / z.grpGap + 1)).length = n / z.grpGap + 1 := by
    rw [List.length_take]
    omega
  have hlt : n < s.grps.length * z.grpGap := by
    apply Nat.lt_of_lt_of_le _ (Nat.mul_le_mul_right _ hgrpNum)
    rw [Nat.succ_mul, Nat.mul_comm]
    omega
  rw [Nat.add_sub_cancel]
  constructor
  · apply (h.uniform.take _).modify
    intro grp hgrp
    rw [List.length_append, List.length_take, List.length_replicate, hgrp]
    omega
  · show ((s.grps.take (n / z.grpGap + 1)).modify _ _).flatten = _
    have hrest : (n / z.grpGap + 1) * z.grpGap - n = z.grpGap - n % z.grpGap := by
      rw [Nat.succ_mul, Nat.mul_comm]
      omega
    rw [h.uniform.flatten_cut z.gap_pos _ n hlt, h.flatten, take_zeros xs (Nat.le_of_lt hlt),
      List.length_modify, htake, length_resizeList, hrest]
  · exact (length_resizeList n xs).symm
  · show ((s.grps.take (n / z.grpGap + 1)).modify _ _).length = _
    rw [List.length_modify, htake, length_resizeList, newGrpNum_of_ne hpart]
  · show ((s.grps.take (n / z.grpGap + 1)).modify _ _).length ≤ s.grpCapacity
    have hroom := h.room
    rw [List.length_modify, htake]
    omega
  · exact h.capacity_pos
  · exact h.capacity_lt

/-- Groups of zeros are appended. -/
theorem Refines.resize_more (h : Refines z s xs) (hgrpNum : s.grps.length < newGrpNum z n) {capacity : ℕ}
    (hroom : newGrpNum z n ≤ capacity) (hcapacity : capacity < z.baseNum) :
    Refines z
      ⟨s.grps ++ List.replicate (newGrpNum z n - s.grps.length) (List.replicate z.grpGap 0), capacity, n⟩
      (resizeList n xs) := by
  have hlength : (s.grps ++ List.replicate (newGrpNum z n - s.grps.length)
      (List.replicate z.grpGap (0 : α))).length = newGrpNum z n := by
    rw [List.length_append, List.length_replicate]
    omega
  have hgrown : xs.length ≤ n := by
    have hle := h.length_le
    have hmul := Nat.mul_le_mul_right z.grpGap hgrpNum
    have hlt := newGrpNum_mul_lt z n
    rw [Nat.succ_mul] at hmul
    omega
  constructor
  · exact h.uniform.append (uniform_replicate List.length_replicate _)
  · show (s.grps ++ List.replicate _ _).flatten = _
    have hle := h.length_le
    have hmul := Nat.mul_le_mul_right z.grpGap (Nat.le_of_lt hgrpNum)
    have hn := (le_newGrpNum_mul z n).1
    have hzeros : s.grps.length * z.grpGap - xs.length +
        (newGrpNum z n - s.grps.length) * z.grpGap =
        n - xs.length + (newGrpNum z n * z.grpGap - n) := by
      rw [Nat.sub_mul]
      omega
    rw [List.flatten_append, h.flatten, List.flatten_replicate_replicate, hlength, length_resizeList,
      List.append_assoc, List.replicate_append_replicate, hzeros, resizeList,
      List.take_of_length_le hgrown, List.append_assoc, List.replicate_append_replicate]
  · exact (length_resizeList n xs).symm
  · rw [length_resizeList]
    exact hlength
  · show (s.grps ++ List.replicate _ _).length ≤ capacity
    rw [hlength]
    exact hroom
  · show 0 < capacity
    omega
  · exact hcapacity

/-- A quotient is too small for the number itself, also when it is rounded up. -/
theorem quotient_lt {g b : ℕ} (hb : 2 ≤ b) (hg : 2 ≤ g) : g / b + (if g % b = 0 then 0 else 1) < g := by
  have hdiv := Nat.div_add_mod g b
  have hmul := Nat.mul_le_mul_right (g / b) hb
  split
  · omega
  · have hmod : 1 ≤ g % b := by omega
    by_cases hzero : g / b = 0
    · omega
    · omega

omit [Zero α] in
/-- The capacity that `regrow` computes is enough when there was one pointer at first, and in no other
case. -/
theorem regrow_eq (hgrpNum : s.grpCapacity < newGrpNum z n) (hpos : 0 < s.grpCapacity) :
    (z.beginGrpCapacity = 1 → newGrpNum z n < z.baseNum →
      regrow z (newGrpNum z n) s = some { s with grpCapacity := newGrpNum z n }) ∧
    (¬ (z.beginGrpCapacity = 1 ∧ newGrpNum z n < z.baseNum) →
      ∀ s', regrow z (newGrpNum z n) s = some s' → s'.grpCapacity < newGrpNum z n) := by
  have hbase : 0 < z.baseNum := Nat.lt_of_le_of_lt (Nat.zero_le _) z.gap_lt
  unfold regrow
  rw [if_pos hgrpNum]
  dsimp only
  constructor
  · intro hone hlt
    rw [hone, Nat.div_one, Nat.mod_one, if_pos rfl, Nat.add_zero, Nat.mod_eq_of_lt hlt,
      if_pos (Nat.le_of_lt hgrpNum)]
  · intro hnot s' hs'
    rw [Option.ite_none_right_eq_some] at hs'
    rw [← Option.some.inj hs'.2]
    show (newGrpNum z n / z.beginGrpCapacity +
      if newGrpNum z n % z.beginGrpCapacity = 0 then 0 else 1) % z.baseNum < newGrpNum z n
    by_cases hone : z.beginGrpCapacity = 1
    · have hge : z.baseNum ≤ newGrpNum z n := Nat.le_of_not_lt fun hlt => hnot ⟨hone, hlt⟩
      exact Nat.lt_of_lt_of_le (Nat.mod_lt _ hbase) hge
    · have hbegin := z.begin_pos
      exact Nat.lt_of_le_of_lt (Nat.mod_le _ _) (quotient_lt (by omega) (by omega))

theorem Refines.resize (h : Refines z s xs) (hfits : ResizeFits z n s) :
    ∃ s', resize z n s = some s' ∧ Refines z s' (resizeList n xs) := by
  unfold ConcurrentVector.resize
  unfold ResizeFits at hfits
  dsimp only
  by_cases hgrpNum : newGrpNum z n ≤ s.grps.length
  · rw [if_pos hgrpNum] at hfits ⊢
    by_cases hwhole : n % z.grpGap = 0
    · rw [if_pos hwhole]
      exact ⟨_, rfl, h.resize_whole hgrpNum hwhole⟩
    · rw [if_neg hwhole, hfits hwhole, if_pos (Nat.le_refl _)]
      exact ⟨_, rfl, h.resize_part hgrpNum hwhole⟩
  · rw [if_neg hgrpNum] at hfits ⊢
    by_cases hcapacity : s.grpCapacity < newGrpNum z n
    · obtain ⟨hone, hlt⟩ := hfits hcapacity
      rw [(regrow_eq hcapacity h.capacity_pos).1 hone hlt, Option.bind_some, if_pos (Nat.le_refl _)]
      exact ⟨_, rfl, h.resize_more (Nat.lt_of_not_le hgrpNum) (Nat.le_refl _) hlt⟩
    · unfold regrow
      rw [if_neg hcapacity, Option.bind_some, if_pos (Nat.le_of_not_lt hcapacity)]
      exact ⟨_, rfl, h.resize_more (Nat.lt_of_not_le hgrpNum) (Nat.le_of_not_lt hcapacity)
        h.capacity_lt⟩

/-- Too many bytes are cleared, or the new array is too short. -/
theorem resize_eq_none (h : Refines z s xs) (hfits : ¬ ResizeFits z n s) : resize z n s = none := by
  unfold resize
  unfold ResizeFits at hfits
  dsimp only
  by_cases hgrpNum : newGrpNum z n ≤ s.grps.length
  · rw [if_pos hgrpNum] at hfits ⊢
    push Not at hfits
    have hvalue := z.value_le
    have hmod := Nat.mod_lt n z.gap_pos
    rw [if_neg hfits.1, if_neg]
    intro hle
    have height := Nat.le_of_mul_le_mul_right hle (by omega)
    omega
  · rw [if_neg hgrpNum] at hfits ⊢
    rw [Classical.not_imp] at hfits
    rw [Option.bind_eq_none_iff]
    intro s' hs'
    rw [if_neg]
    exact Nat.not_le_of_lt ((regrow_eq hfits.1 h.capacity_pos).2 hfits.2 s' hs')

/-! ### Runs -/

/-- The calls that change the vector. -/
inductive VectorCall (α : Type*) where
  | pushBack (val : α)
  | resize (n : ℕ)
  | resetData (id : ℕ) (val : α)
deriving DecidableEq, Repr

/-- One call, and what it does to the list. -/
def step (z : VectorSizes) :
    VectorCall α → ConcurrentVector α × List α → Option (ConcurrentVector α × List α)
  | .pushBack val, (s, xs) => (pushBack z val s).map fun s => (s, xs ++ [val])
  | .resize n, (s, xs) => (resize z n s).map fun s => (s, resizeList n xs)
  | .resetData id val, (s, xs) => (resetData z id val s).map fun r => (r.2, xs.set id val)

/-- The arrays and groups that the call needs fit. -/
def Fits (z : VectorSizes) : VectorCall α → ConcurrentVector α × List α → Prop
  | .pushBack _, p => PushFits z p.1
  | .resize n, p => ResizeFits z n p.1
  | .resetData _ _, _ => True

theorem Refines.step {call : VectorCall α} {p : ConcurrentVector α × List α} (h : Refines z p.1 p.2)
    (hfits : Fits z call p) : ∃ p', step z call p = some p' ∧ Refines z p'.1 p'.2 := by
  cases call with
  | pushBack val =>
    obtain ⟨s', hs', hrefines⟩ := h.pushBack val hfits
    exact ⟨(s', p.2 ++ [val]), by simp [ConcurrentVector.step, hs'], hrefines⟩
  | resize n =>
    obtain ⟨s', hs', hrefines⟩ := h.resize hfits
    exact ⟨(s', resizeList n p.2), by simp [ConcurrentVector.step, hs'], hrefines⟩
  | resetData id val =>
    obtain ⟨s', hs', hrefines⟩ := h.resetData id val
    exact ⟨(s', p.2.set id val), by simp [ConcurrentVector.step, hs'], hrefines⟩

theorem step_eq_none {call : VectorCall α} {p : ConcurrentVector α × List α} (h : Refines z p.1 p.2)
    (hfits : ¬ Fits z call p) : ConcurrentVector.step z call p = none := by
  cases call with
  | pushBack val =>
    show (ConcurrentVector.pushBack z val p.1).map _ = none
    rw [pushBack_eq_none hfits]
    rfl
  | resize n =>
    show (ConcurrentVector.resize z n p.1).map _ = none
    rw [resize_eq_none h hfits]
    rfl
  | resetData id val => exact absurd trivial hfits

/-- **A list**: the calls of a run stay inside the allocations, and the readers return in every state what
they would for the list, exactly when every call fits. -/
theorem refines_iff (z : VectorSizes) (calls : List (VectorCall α)) :
    ((∃ p, runOps (ConcurrentVector.step z) calls (init z, []) = some p) ∧
      Always (ConcurrentVector.step z) (fun p => Reads z p.1 p.2) calls (init z, [])) ↔
      Guarded (ConcurrentVector.step z) (Fits z) calls (init z, []) := by
  apply defined_always_iff (A := fun p => Refines z p.1 p.2) (L := fun _ _ => True)
  · exact fun p h => h.reads
  · exact fun call p h _ hfits => h.step hfits
  · intro call p p' h _ hfits hstep
    rw [step_eq_none h hfits] at hstep
    cases hstep
  · exact refines_init z
  · exact guarded_of_forall (fun _ _ => trivial) calls _

/-- `block_pos_` of a `StringBlock`. -/
def blockPosSizes : VectorSizes :=
  ⟨50, 1000, 2 ^ 16, 4, by decide, by decide, by decide, by decide, by decide, by decide⟩

/-- `segments_` of a `StorageManager`. -/
def segmentsSizes : VectorSizes :=
  ⟨20, 50, 2 ^ 8, 8, by decide, by decide, by decide, by decide, by decide, by decide⟩

/-- Elements of four bytes: two are pushed, and the rest of the group behind the first is cleared as if
elements had eight. -/
theorem resize_overflow :
    runOps (ConcurrentVector.step blockPosSizes) [.pushBack 7, .pushBack 9, .resize 1]
      ((init blockPosSizes : ConcurrentVector ℕ), []) = none := by
  decide +kernel

/-- Twenty pointers, and room for 21 groups: two pointers are allocated, and twenty copied. -/
theorem resize_regrow :
    runOps (ConcurrentVector.step segmentsSizes) [.resize 1001]
      ((init segmentsSizes : ConcurrentVector ℕ), []) = none := by
  decide +kernel

end ConcurrentVector

end AwaDB
