import AwaDB.Lib.Binary
import Mathlib.Algebra.Order.Ring.Int
import Mathlib.Data.Nat.Log
import Mathlib.Data.Rat.Defs

/-!
# Finite numbers of a binary format

* `Finite.value` is a number as a fraction, `nearest` rounds a fraction to a magnitude, `convert` goes to
  another format;
* `convert_eq`: **a number that the other format has** is converted to it;
* `shortest` finds the shortest decimal that is rounded to a number, and `general` prints it, with an
  exponent where it is below -4 or above 5.
-/

namespace AwaDB.Lib

namespace BinaryFormat

/-- The finite numbers. -/
structure Finite (f : BinaryFormat) where
  negative : Bool
  magnitude : ℕ
  lt : magnitude < f.infinity
deriving DecidableEq

/-- The least magnitude is `1 / scale`. -/
def scale (f : BinaryFormat) : ℕ := 2 ^ (2 ^ (f.exponentBits - 1) + f.fractionBits - 2)

/-- The magnitude that is nearest to a fraction. -/
def nearest (f : BinaryFormat) (num den : ℕ) : ℕ :=
  let shift := Nat.log2 (num * f.scale / den) - f.fractionBits
  min f.infinity (roundDiv (num * f.scale) (den * 2 ^ shift) + shift * 2 ^ f.fractionBits)

variable {f g : BinaryFormat}

theorem scale_pos : 0 < f.scale := Nat.two_pow_pos _

/-! ### Rounding what needs none -/

theorem roundDiv_mul {den : ℕ} (hden : 0 < den) (k : ℕ) : roundDiv (k * den) den = k := by
  unfold roundDiv
  rw [Nat.mul_mod_left, Nat.mul_zero, if_pos hden, Nat.mul_div_cancel _ hden]

/-- **A fraction that the format has** is rounded to its magnitude. -/
theorem nearest_eq {num den k : ℕ} (hden : 0 < den) (hk : k < f.infinity)
    (h : num * f.scale = f.units k * den) : f.nearest num den = k := by
  have hpos : 0 < 2 ^ f.fractionBits := Nat.two_pow_pos _
  have hdiv : num * f.scale / den = f.units k := by rw [h, Nat.mul_div_cancel _ hden]
  unfold nearest
  rw [hdiv, h]
  dsimp only
  by_cases hsub : k / 2 ^ f.fractionBits = 0
  · -- a subnormal number is its own magnitude
    have hlt : k < 2 ^ f.fractionBits := (Nat.div_eq_zero_iff_lt hpos).mp hsub
    have hunits : f.units k = k := by
      unfold units
      rw [if_pos hsub, Nat.mod_eq_of_lt hlt]
    have hshift : Nat.log2 k - f.fractionBits = 0 := by
      rcases Nat.eq_zero_or_pos k with hzero | hkpos
      · rw [hzero]
        exact Nat.zero_sub _
      · exact Nat.sub_eq_zero_of_le (Nat.le_of_lt ((Nat.log2_lt (Nat.ne_of_gt hkpos)).mpr hlt))
    rw [hunits, hshift, Nat.pow_zero, Nat.mul_one, roundDiv_mul hden, Nat.zero_mul, Nat.add_zero]
    exact Nat.min_eq_right (Nat.le_of_lt hk)
  · -- a normal number is shifted by its exponent
    have hunits : f.units k = (2 ^ f.fractionBits + k % 2 ^ f.fractionBits) *
        2 ^ (k / 2 ^ f.fractionBits - 1) := by
      unfold units
      rw [if_neg hsub]
    have hmod : k % 2 ^ f.fractionBits < 2 ^ f.fractionBits := Nat.mod_lt _ hpos
    generalize hexp : k / 2 ^ f.fractionBits - 1 = e at hunits
    have hlog : Nat.log2 (f.units k) = f.fractionBits + e := by
      rw [Nat.log2_eq_iff (by rw [hunits]; positivity), hunits, Nat.pow_add]
      refine ⟨Nat.mul_le_mul_right _ (Nat.le_add_right _ _), ?_⟩
      rw [Nat.add_assoc, Nat.add_comm e, ← Nat.add_assoc, Nat.pow_add]
      refine Nat.mul_lt_mul_of_pos_right ?_ (Nat.two_pow_pos _)
      rw [Nat.pow_succ]
      omega
    have hround : f.units k * den =
        (2 ^ f.fractionBits + k % 2 ^ f.fractionBits) * (den * 2 ^ e) := by
      rw [hunits, Nat.mul_assoc, Nat.mul_comm (2 ^ e)]
    rw [hlog, Nat.add_sub_cancel_left, hround, roundDiv_mul (Nat.mul_pos hden (Nat.two_pow_pos _))]
    have hsum : 2 ^ f.fractionBits + k % 2 ^ f.fractionBits + e * 2 ^ f.fractionBits = k := by
      have hk := Nat.div_add_mod k (2 ^ f.fractionBits)
      have he : k / 2 ^ f.fractionBits = e + 1 := by
        rw [← hexp, Nat.sub_add_cancel (Nat.pos_of_ne_zero hsub)]
      rw [he, Nat.mul_add, Nat.mul_one, Nat.mul_comm] at hk
      omega
    rw [hsum]
    exact Nat.min_eq_right (Nat.le_of_lt hk)

namespace Finite

variable (x : Finite f)

/-- The word of the number. -/
def word : ℕ := if x.negative then f.signBit + x.magnitude else x.magnitude

/-- The number in units of the least one. -/
def signed : ℤ := if x.negative then -(f.units x.magnitude : ℤ) else f.units x.magnitude

/-- The number as a fraction. -/
def value : ℚ := mkRat x.signed f.scale

/-- The number cut to an integer. -/
def trunc : ℤ := x.signed.tdiv f.scale

/-- The word of the number in another format, which may be an infinity. -/
def convert (g : BinaryFormat) : ℕ :=
  let magnitude := g.nearest (f.units x.magnitude) f.scale
  if x.negative then g.signBit + magnitude else magnitude

variable {x}

theorem natAbs_signed : x.signed.natAbs = f.units x.magnitude := by
  unfold signed
  split
  · rw [Int.natAbs_neg, Int.natAbs_natCast]
  · exact Int.natAbs_natCast _

theorem value_eq_iff {y : Finite g} : x.value = y.value ↔ x.signed * g.scale = y.signed * f.scale :=
  Rat.mkRat_eq_iff (Nat.ne_of_gt scale_pos) (Nat.ne_of_gt scale_pos)

theorem value_eq_intCast_iff {n : ℤ} : x.value = n ↔ x.signed = n * f.scale := by
  unfold value
  rw [Rat.mkRat_eq_div, div_eq_iff (Nat.cast_ne_zero.mpr (Nat.ne_of_gt scale_pos))]
  exact_mod_cast Iff.rfl

/-- **A whole number** is cut to itself. -/
theorem trunc_eq {n : ℤ} (h : x.value = n) : x.trunc = n := by
  unfold trunc
  rw [value_eq_intCast_iff.mp h]
  exact Int.mul_tdiv_cancel _ (Int.natCast_ne_zero.mpr (Nat.ne_of_gt scale_pos))

/-- **A number that the other format has** is converted to it. -/
theorem convert_eq {y : Finite g} (h : x.value = y.value) :
    ∃ z : Finite g, x.convert g = z.word ∧ z.value = x.value := by
  have hcross : x.signed * g.scale = y.signed * f.scale := value_eq_iff.mp h
  have hunits : f.units x.magnitude * g.scale = g.units y.magnitude * f.scale := by
    have habs := congrArg Int.natAbs hcross
    rwa [Int.natAbs_mul, Int.natAbs_mul, natAbs_signed, natAbs_signed, Int.natAbs_natCast,
      Int.natAbs_natCast] at habs
  have hnearest : g.nearest (f.units x.magnitude) f.scale = y.magnitude :=
    nearest_eq scale_pos y.lt hunits
  refine ⟨⟨x.negative, y.magnitude, y.lt⟩, ?_, ?_⟩
  · unfold convert word
    rw [hnearest]
  · rw [value_eq_iff]
    unfold signed
    dsimp only
    split
    · rw [neg_mul, neg_mul]
      exact_mod_cast congrArg (fun n : ℕ => -(n : ℤ)) hunits.symm
    · exact_mod_cast hunits.symm

/-! ### The text of a number -/

/-- How many decimals the least number needs, and some more. -/
def places (f : BinaryFormat) : ℕ := (2 ^ (f.exponentBits - 1) + f.fractionBits - 2) / 3 + 20

variable (x)

/-- The number in units of the last decimal. -/
def scaled : ℕ := f.units x.magnitude * 10 ^ places f / f.scale

/-- The decimal with `count` in units of `10 ^ zeros` of the last decimal is rounded to the number. -/
def Rounds (zeros count : ℕ) : Prop :=
  f.nearest (count * 10 ^ zeros) (10 ^ places f) = x.magnitude

instance (zeros count : ℕ) : Decidable (x.Rounds zeros count) := inferInstanceAs (Decidable (_ = _))

/-- One of the two decimals around the number, in units of `10 ^ zeros`, that is rounded to it; the
nearer one of both. -/
def around (zeros : ℕ) : Option ℕ :=
  let below := x.scaled / 10 ^ zeros
  if x.Rounds zeros below then
    if x.Rounds zeros (below + 1) then
      some (roundDiv (f.units x.magnitude * 10 ^ places f) (f.scale * 10 ^ zeros))
    else some below
  else if x.Rounds zeros (below + 1) then some (below + 1)
  else none

/-- The digits of the shortest decimal that is rounded to the number, and where its point is. -/
def shortest : List UInt8 × ℤ :=
  let size := (natDecimal x.scaled).length
  ((List.range (f.fractionBits / 3 + 2)).findSome? fun n =>
    (x.around (size - (n + 1))).map fun count =>
      let digits := natDecimal count
      ((digits.reverse.dropWhile (· = 48)).reverse, (size : ℤ) - (n + 1) + digits.length - places f)).getD ([], 0)

/-- The text of `%g` with the shortest precision. -/
def general : List UInt8 :=
  (if x.negative then [45] else []) ++
    if x.magnitude = 0 then [48]
    else
      let digits := x.shortest.1
      let point := x.shortest.2
      if point - 1 < -4 ∨ 6 ≤ point - 1 then
        digits.take 1 ++ (if 1 < digits.length then 46 :: digits.drop 1 else []) ++
          101 :: (if point - 1 < 0 then 45 else 43) ::
            (if (point - 1).natAbs < 10 then [48] else []) ++ natDecimal (point - 1).natAbs
      else if point ≤ 0 then 48 :: 46 :: List.replicate point.natAbs 48 ++ digits
      else if point < digits.length then
        digits.take point.toNat ++ 46 :: digits.drop point.toNat
      else digits ++ List.replicate (point.toNat - digits.length) 48

end Finite

end BinaryFormat

end AwaDB.Lib
