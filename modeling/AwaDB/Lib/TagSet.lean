import Mathlib.Algebra.Group.Nat.Defs
import Mathlib.Data.Nat.Basic
import Mathlib.Tactic.Common

/-!
# Sets of numbers in an array of tags

A set of numbers below the length of an array: those whose cell has the current tag. It is made empty by
another tag, which no cell has; only if the tags of `w` bits are used up are the cells cleared.

* `TagSet.Ready`: no cell is ahead of the tag, or the next tag is the first one again;
* `TagSet.not_mem_reset`: after `reset` the set is empty, whatever was in the array at first;
* `TagSet.mem_mark`: `mark` puts one number into the set.
-/

namespace AwaDB.Lib

/-- An array of tags with `w` bits. -/
structure TagSet (w : ℕ) where
  tag : ℕ
  cells : List ℕ
deriving Repr

namespace TagSet

variable {w : ℕ} {s : TagSet w} {i j : ℕ}

/-- An array whose cells have any contents. The tag is the last one, so that the first `reset` clears
the cells. -/
def create (contents : List ℕ) : TagSet w := ⟨2 ^ w - 1, contents⟩

/-- The next tag; after the last one the cells are cleared, and the tag is the one after zero. -/
def reset (s : TagSet w) : TagSet w :=
  let tag := (s.tag + 1) % 2 ^ w
  if tag = 0 then ⟨1, s.cells.map fun _ => 0⟩ else ⟨tag, s.cells⟩

/-- The number is in the set. -/
def mem (s : TagSet w) (i : ℕ) : Bool := s.cells[i]? == some s.tag

/-- The number is put in. -/
def mark (s : TagSet w) (i : ℕ) : TagSet w := ⟨s.tag, s.cells.set i s.tag⟩

/-- No cell is ahead of the tag, unless it is the last one. -/
def Ready (s : TagSet w) : Prop := s.tag < 2 ^ w ∧ (s.tag + 1 = 2 ^ w ∨ ∀ c ∈ s.cells, c ≤ s.tag)

@[simp] theorem length_create (contents : List ℕ) :
    (create contents : TagSet w).cells.length = contents.length := rfl

@[simp] theorem length_reset : s.reset.cells.length = s.cells.length := by
  rw [reset]
  split <;> simp

@[simp] theorem length_mark : (s.mark i).cells.length = s.cells.length := List.length_set

theorem ready_create (contents : List ℕ) : (create contents : TagSet w).Ready := by
  have hpos : 0 < 2 ^ w := Nat.two_pow_pos w
  show 2 ^ w - 1 < 2 ^ w ∧ (2 ^ w - 1 + 1 = 2 ^ w ∨ _)
  exact ⟨by omega, .inl (by omega)⟩

/-- **After `reset`** no cell has the tag, and none is ahead of it. -/
theorem reset_spec (hw : 0 < w) (h : s.Ready) :
    s.reset.tag < 2 ^ w ∧ ∀ c ∈ s.reset.cells, c < s.reset.tag := by
  obtain ⟨hlt, hcells⟩ := h
  have htwo : 1 < 2 ^ w := Nat.one_lt_two_pow (by omega)
  rcases Nat.lt_or_ge (s.tag + 1) (2 ^ w) with hnext | hlast
  · have hreset : s.reset = ⟨s.tag + 1, s.cells⟩ := by
      rw [reset, Nat.mod_eq_of_lt hnext]
      rfl
    rw [hreset]
    refine ⟨hnext, fun c hc => ?_⟩
    have hc : c ∈ s.cells := hc
    cases hcells with
    | inl heq => omega
    | inr hle => exact Nat.lt_succ_of_le (hle c hc)
  · have heq : s.tag + 1 = 2 ^ w := by omega
    have hreset : s.reset = ⟨1, s.cells.map fun _ => 0⟩ := by
      rw [reset, heq, Nat.mod_self]
      rfl
    rw [hreset]
    refine ⟨htwo, fun c hc => ?_⟩
    obtain ⟨-, -, rfl⟩ := List.mem_map.mp hc
    exact Nat.one_pos

theorem ready_reset (hw : 0 < w) (h : s.Ready) : s.reset.Ready := by
  obtain ⟨hlt, hcells⟩ := reset_spec hw h
  exact ⟨hlt, .inr fun c hc => Nat.le_of_lt (hcells c hc)⟩

/-- **`reset` makes the set empty.** -/
theorem not_mem_reset (hw : 0 < w) (h : s.Ready) (i : ℕ) : s.reset.mem i = false := by
  rw [mem, beq_eq_false_iff_ne]
  intro hcell
  have hlt := (reset_spec hw h).2 _ (List.mem_of_getElem? hcell)
  exact absurd hlt (Nat.lt_irrefl _)

/-- **`mark` puts a number in.** -/
theorem mem_mark (hi : i < s.cells.length) : (s.mark i).mem j = (decide (j = i) || s.mem j) := by
  rw [mem, mark]
  by_cases hj : j = i
  · subst hj
    simp [List.getElem?_set_self hi]
  · have hne : i ≠ j := fun heq => hj heq.symm
    simp [mem, List.getElem?_set_ne hne, hj]

theorem ready_mark (h : s.Ready) (i : ℕ) : (s.mark i).Ready := by
  obtain ⟨hlt, hcells⟩ := h
  refine ⟨hlt, hcells.imp_right fun hle c hc => ?_⟩
  cases List.mem_or_eq_of_mem_set hc with
  | inl hold => exact hle c hold
  | inr hnew => exact Nat.le_of_eq hnew

end TagSet

end AwaDB.Lib
