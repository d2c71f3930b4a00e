import AwaDB.Lib.Codec
import AwaDB.Lib.Decimal
import Mathlib.Data.EReal.Operations
import Mathlib.Tactic.Positivity

/-!
# Numbers in words of bytes, and their order

* `beWord_lt_iff`: big-endian words of one width are ordered as their numbers, byte by byte;
* `BinaryFormat` is an interchange format of floating-point numbers: a sign bit, an exponent and a
  fraction. `BinaryFormat.value_lt_iff`: the numbers are ordered as the words read as a sign and a
  magnitude (`rank`), and the two zeros are the only different words with one value;
* `BinaryFormat.text` is the decimal text of a number, rounded to six decimals.
-/

namespace AwaDB.Lib

/-! ### Big-endian words -/

/-- The `w` low bytes of `x`, most significant first. -/
def beWord (w x : ℕ) : List UInt8 := (leWord w x).reverse

theorem leWord_mod (w x : ℕ) : leWord w (x % 256 ^ w) = leWord w x := by
  induction w generalizing x with
  | zero => rfl
  | succ w ih =>
    have hbyte : UInt8.ofNat (x % 256 ^ (w + 1)) = UInt8.ofNat x := by
      apply UInt8.toNat_inj.mp
      show x % 256 ^ (w + 1) % 256 = x % 256
      exact Nat.mod_mod_of_dvd x (Dvd.intro_left _ (Nat.pow_succ 256 w).symm)
    have hdiv : x % 256 ^ (w + 1) / 256 = x / 256 % 256 ^ w := by
      rw [Nat.pow_succ, Nat.mul_comm, Nat.mod_mul_right_div_self]
    rw [leWord, leWord, hbyte, hdiv, ih]

theorem leWord_succ (w x : ℕ) : leWord (w + 1) x = leWord w x ++ [UInt8.ofNat (x / 256 ^ w)] := by
  induction w generalizing x with
  | zero => simp [leWord]
  | succ w ih =>
    rw [leWord, ih, leWord, List.cons_append, Nat.div_div_eq_div_mul, Nat.pow_succ, Nat.mul_comm 256]

theorem beWord_succ (w x : ℕ) : beWord (w + 1) x = UInt8.ofNat (x / 256 ^ w) :: beWord w x := by
  unfold beWord
  rw [leWord_succ, List.reverse_append]
  rfl

theorem beWord_mod (w x : ℕ) : beWord w (x % 256 ^ w) = beWord w x := by
  unfold beWord
  rw [leWord_mod]

theorem beWord_lt_mod_iff (w x y : ℕ) :
    beWord w x < beWord w y ↔ x % 256 ^ w < y % 256 ^ w := by
  induction w with
  | zero => simp [beWord, leWord, Nat.mod_one]
  | succ w ih =>
    have hbyte : ∀ z : ℕ, (UInt8.ofNat (z / 256 ^ w)).toNat = z / 256 ^ w % 256 := fun _ => rfl
    have hsplit : ∀ z : ℕ, z % 256 ^ (w + 1) = z % 256 ^ w + 256 ^ w * (z / 256 ^ w % 256) :=
      fun z => by rw [Nat.pow_succ, Nat.mod_mul]
    have hlow : ∀ z : ℕ, z % 256 ^ w < 256 ^ w := fun z => Nat.mod_lt _ (by positivity)
    rw [beWord_succ, beWord_succ, List.cons_lt_cons_iff, ih, UInt8.lt_iff_toNat_lt,
      ← UInt8.toNat_inj, hbyte, hbyte, hsplit x, hsplit y]
    have hx := hlow x
    have hy := hlow y
    generalize x / 256 ^ w % 256 = p, y / 256 ^ w % 256 = q at *
    generalize x % 256 ^ w = r, y % 256 ^ w = s, 256 ^ w = b at *
    constructor
    · rintro (hlt | ⟨rfl, hlt⟩)
      · have hmul : b * (p + 1) ≤ b * q := Nat.mul_le_mul_left b hlt
        rw [Nat.mul_add] at hmul
        omega
      · omega
    · intro hlt
      by_cases hpq : p < q
      · exact .inl hpq
      · by_cases heq : p = q
        · subst heq
          exact .inr ⟨rfl, by omega⟩
        · have hmul : b * (q + 1) ≤ b * p := Nat.mul_le_mul_left b (by omega)
          rw [Nat.mul_add] at hmul
          omega

/-- **Words of one width are ordered as their numbers.** -/
theorem beWord_lt_iff {w x y : ℕ} (hx : x < 256 ^ w) (hy : y < 256 ^ w) :
    beWord w x < beWord w y ↔ x < y := by
  rw [beWord_lt_mod_iff, Nat.mod_eq_of_lt hx, Nat.mod_eq_of_lt hy]

theorem beWord_le_iff {w x y : ℕ} (hx : x < 256 ^ w) (hy : y < 256 ^ w) :
    beWord w x ≤ beWord w y ↔ x ≤ y := by
  rw [← List.not_lt, beWord_lt_iff hy hx, Nat.not_lt]

theorem beWord_inj {w x y : ℕ} (hx : x < 256 ^ w) (hy : y < 256 ^ w) :
    beWord w x = beWord w y ↔ x = y := by
  refine ⟨fun heq => ?_, fun heq => heq ▸ rfl⟩
  have hle := (beWord_le_iff hx hy).mp (heq ▸ List.le_refl _)
  have hge := (beWord_le_iff hy hx).mp (heq ▸ List.le_refl _)
  exact Nat.le_antisymm hle hge

/-! ### Floating-point words -/

/-- A sign bit, `exponentBits` and `fractionBits`. -/
structure BinaryFormat where
  exponentBits : ℕ
  fractionBits : ℕ

namespace BinaryFormat

variable (f : BinaryFormat)

/-- Words from here on have the sign bit. -/
def signBit : ℕ := 2 ^ (f.exponentBits + f.fractionBits)

/-- The word without its sign bit. -/
def magnitude (word : ℕ) : ℕ := if word < f.signBit then word else word - f.signBit

/-- The magnitude with all exponent bits and no fraction. -/
def infinity : ℕ := (2 ^ f.exponentBits - 1) * 2 ^ f.fractionBits

/-- The word is a number or an infinity. -/
def IsNumber (word : ℕ) : Prop := word < 2 * f.signBit ∧ f.magnitude word ≤ f.infinity

instance (word : ℕ) : Decidable (f.IsNumber word) := inferInstanceAs (Decidable (_ ∧ _))

/-- A finite magnitude in units of the least one: without exponent bits the number is subnormal. -/
def units (magnitude : ℕ) : ℕ :=
  if magnitude / 2 ^ f.fractionBits = 0 then magnitude % 2 ^ f.fractionBits
  else (2 ^ f.fractionBits + magnitude % 2 ^ f.fractionBits) *
    2 ^ (magnitude / 2 ^ f.fractionBits - 1)

/-- The least magnitude; the exponent has the bias `2 ^ (exponentBits - 1) - 1`. -/
noncomputable def unit : ℝ :=
  2 ^ (2 - 2 ^ (f.exponentBits - 1) - f.fractionBits : ℤ)

/-- The number of a magnitude. -/
noncomputable def absValue (magnitude : ℕ) : EReal :=
  if magnitude = f.infinity then ⊤ else ((f.units magnitude * f.unit : ℝ) : EReal)

/-- The number of a word. -/
noncomputable def value (word : ℕ) : EReal :=
  if word < f.signBit then f.absValue (f.magnitude word) else -f.absValue (f.magnitude word)

/-- The word as a sign and a magnitude. -/
def rank (word : ℕ) : ℤ :=
  if word < f.signBit then f.magnitude word else -(f.magnitude word : ℤ)

variable {f}

/-! #### Magnitudes -/

theorem units_lt_succ (k : ℕ) : f.units k < f.units (k + 1) := by
  have hpos : 0 < 2 ^ f.fractionBits := by positivity
  unfold units
  generalize 2 ^ f.fractionBits = b at *
  have hk := Nat.div_add_mod k b
  have hr := Nat.mod_lt k hpos
  by_cases hcarry : k % b + 1 < b
  · -- the exponent stays
    have hdiv : (k + 1) / b = k / b := by
      refine Nat.div_eq_of_lt_le ?_ ?_
      · rw [Nat.mul_comm]
        omega
      · rw [Nat.add_mul, Nat.mul_comm]
        omega
    have hmod : (k + 1) % b = k % b + 1 := by
      have hsum := Nat.div_add_mod (k + 1) b
      rw [hdiv] at hsum
      omega
    rw [hdiv, hmod]
    split
    · exact Nat.lt_succ_self _
    · exact Nat.mul_lt_mul_of_pos_right (by omega) (by positivity)
  · -- the fraction starts again
    have hfull : k % b = b - 1 := by omega
    have hsucc : k + 1 = b * (k / b + 1) := by
      rw [Nat.mul_add]
      omega
    have hdiv : (k + 1) / b = k / b + 1 := by
      rw [hsucc, Nat.mul_div_cancel_left _ hpos]
    have hmod : (k + 1) % b = 0 := by
      rw [hsucc, Nat.mul_mod_right]
    rw [hdiv, hmod, hfull, if_neg (Nat.succ_ne_zero _), Nat.add_sub_cancel, Nat.add_zero]
    split
    · rename_i hzero
      rw [hzero, Nat.pow_zero, Nat.mul_one]
      omega
    · rename_i hexp
      obtain ⟨e, he⟩ := Nat.exists_eq_succ_of_ne_zero hexp
      rw [he, Nat.succ_sub_one, Nat.pow_succ', ← Nat.mul_assoc]
      exact Nat.mul_lt_mul_of_pos_right (by omega) (by positivity)

theorem units_strictMono : StrictMono f.units := strictMono_nat_of_lt_succ units_lt_succ

theorem unit_pos : 0 < f.unit := by
  unfold unit
  exact zpow_pos two_pos _

theorem absValue_strictMono {k k' : ℕ} (hlt : k < k') (hle : k' ≤ f.infinity) :
    f.absValue k < f.absValue k' := by
  unfold absValue
  rw [if_neg (Nat.ne_of_lt (Nat.lt_of_lt_of_le hlt hle))]
  split
  · exact EReal.coe_lt_top _
  · refine EReal.coe_lt_coe_iff.mpr (mul_lt_mul_of_pos_right ?_ unit_pos)
    exact Nat.cast_lt.mpr (units_strictMono hlt)

theorem absValue_zero (hinf : 0 < f.infinity) : f.absValue 0 = 0 := by
  have hunits : f.units 0 = 0 := by
    unfold units
    rw [Nat.zero_div, Nat.zero_mod, if_pos rfl]
  unfold absValue
  rw [if_neg (Nat.ne_of_lt hinf), hunits, Nat.cast_zero, zero_mul, EReal.coe_zero]

theorem absValue_nonneg (hinf : 0 < f.infinity) {k : ℕ} (hle : k ≤ f.infinity) :
    0 ≤ f.absValue k := by
  by_cases hzero : k = 0
  · rw [hzero, absValue_zero hinf]
  · rw [← absValue_zero hinf]
    exact le_of_lt (absValue_strictMono (Nat.pos_of_ne_zero hzero) hle)

/-! #### Words -/

theorem rank_eq (n : ℕ) :
    f.rank n = if n < f.signBit then (n : ℤ) else -((n - f.signBit : ℕ) : ℤ) := by
  unfold rank magnitude
  split
  · rfl
  · rfl

/-- The rank decides the order: one direction of each of the two statements below. -/
theorem value_lt_of_rank (hinf : 0 < f.infinity) {a b : ℕ} (ha : f.IsNumber a) (hb : f.IsNumber b)
    (hlt : f.rank a < f.rank b) : f.value a < f.value b := by
  have hneg : ∀ {k : ℕ}, 0 < k → k ≤ f.infinity → -f.absValue k < 0 := by
    intro k hk hle
    rw [EReal.neg_lt_comm, neg_zero, ← absValue_zero hinf]
    exact absValue_strictMono hk hle
  unfold rank at hlt
  unfold value
  split at hlt
  · rename_i hsa
    rw [if_pos hsa]
    split at hlt
    · rename_i hsb
      rw [if_pos hsb]
      exact absValue_strictMono (by omega) hb.2
    · omega
  · rename_i hsa
    rw [if_neg hsa]
    split at hlt
    · rename_i hsb
      rw [if_pos hsb]
      by_cases hzero : f.magnitude a = 0
      · rw [hzero, absValue_zero hinf, neg_zero, ← absValue_zero hinf]
        exact absValue_strictMono (by omega) hb.2
      · exact lt_of_lt_of_le (hneg (Nat.pos_of_ne_zero hzero) ha.2) (absValue_nonneg hinf hb.2)
    · rename_i hsb
      rw [if_neg hsb]
      exact EReal.neg_lt_neg_iff.mpr (absValue_strictMono (by omega) ha.2)

theorem value_eq_of_rank (hinf : 0 < f.infinity) {a b : ℕ} (heq : f.rank a = f.rank b) :
    f.value a = f.value b := by
  unfold rank at heq
  unfold value
  split at heq
  · rename_i hsa
    rw [if_pos hsa]
    split at heq
    · rename_i hsb
      rw [if_pos hsb, Int.ofNat_inj.mp heq]
    · rename_i hsb
      have ha0 : f.magnitude a = 0 := by omega
      have hb0 : f.magnitude b = 0 := by omega
      rw [if_neg hsb, ha0, hb0, absValue_zero hinf, neg_zero]
  · rename_i hsa
    rw [if_neg hsa]
    split at heq
    · rename_i hsb
      have ha0 : f.magnitude a = 0 := by omega
      have hb0 : f.magnitude b = 0 := by omega
      rw [if_pos hsb, ha0, hb0, absValue_zero hinf, neg_zero]
    · rename_i hsb
      rw [if_neg hsb, Int.ofNat_inj.mp (neg_inj.mp heq)]

/-- **Numbers are ordered as their ranks.** -/
theorem value_lt_iff (hinf : 0 < f.infinity) {a b : ℕ} (ha : f.IsNumber a) (hb : f.IsNumber b) :
    f.value a < f.value b ↔ f.rank a < f.rank b := by
  refine ⟨fun hlt => ?_, value_lt_of_rank hinf ha hb⟩
  by_contra hge
  rcases eq_or_lt_of_le (not_lt.mp hge) with heq | hgt
  · exact absurd hlt (value_eq_of_rank hinf heq ▸ lt_irrefl _)
  · exact lt_asymm hlt (value_lt_of_rank hinf hb ha hgt)

/-! ### Numbers as text -/

/-- The nearest integer to a quotient, the even one of two. -/
def roundDiv (num den : ℕ) : ℕ :=
  if 2 * (num % den) < den then num / den
  else if den < 2 * (num % den) then num / den + 1
  else num / den + num / den % 2

variable (f)

/-- The text of a magnitude: `inf`, `nan`, or a number with six decimals. -/
def absText (magnitude : ℕ) : List UInt8 :=
  if magnitude = f.infinity then [105, 110, 102]
  else if f.infinity < magnitude then [110, 97, 110]
  else
    let millionths := roundDiv (f.units magnitude * 10 ^ 6)
      (2 ^ (2 ^ (f.exponentBits - 1) + f.fractionBits - 2))
    natDecimal (millionths / 10 ^ 6) ++
      46 :: (List.range 6).map fun i => UInt8.ofNat (48 + millionths / 10 ^ (5 - i) % 10)

/-- `std::to_string` of the number of a word, which is `printf` with `%f`. -/
def text (word : ℕ) : List UInt8 :=
  if word < f.signBit then f.absText (f.magnitude word) else 45 :: f.absText (f.magnitude word)

variable {f}

theorem length_absText (k : ℕ) :
    3 ≤ (f.absText k).length ∧ (k < f.infinity → 8 ≤ (f.absText k).length) := by
  unfold absText
  split
  · rename_i heq
    exact ⟨Nat.le_refl _, fun hlt => absurd heq (Nat.ne_of_lt hlt)⟩
  · split
    · rename_i hgt
      exact ⟨Nat.le_refl _, fun hlt => absurd hlt (Nat.not_lt.mpr (Nat.le_of_lt hgt))⟩
    · dsimp only
      obtain ⟨c, cs, hcons, -⟩ := natDecimal_cons (roundDiv (f.units k * 10 ^ 6)
        (2 ^ (2 ^ (f.exponentBits - 1) + f.fractionBits - 2)) / 10 ^ 6)
      rw [hcons, List.length_append, List.length_cons, List.length_cons, List.length_map,
        List.length_range]
      exact ⟨by omega, fun _ => by omega⟩

/-- A text has at least three characters, and that of a finite number eight. -/
theorem length_text (word : ℕ) :
    3 ≤ (f.text word).length ∧ (f.magnitude word < f.infinity → 8 ≤ (f.text word).length) := by
  obtain ⟨hthree, height⟩ := length_absText (f := f) (f.magnitude word)
  unfold text
  split
  · exact ⟨hthree, height⟩
  · rw [List.length_cons]
    exact ⟨by omega, fun hlt => Nat.le_succ_of_le (height hlt)⟩

/-- The texts of what is no finite number. -/
theorem text_of_not_finite {word : ℕ} (h : ¬ f.magnitude word < f.infinity) :
    f.text word ∈ ([[105, 110, 102], [110, 97, 110], [45, 105, 110, 102], [45, 110, 97, 110]] :
      List (List UInt8)) := by
  have habs : f.absText (f.magnitude word) = [105, 110, 102] ∨
      f.absText (f.magnitude word) = [110, 97, 110] := by
    unfold absText
    split
    · exact .inl rfl
    · rw [if_pos (by omega)]
      exact .inr rfl
  unfold text
  split
  · obtain heq | heq := habs <;> rw [heq] <;> decide
  · obtain heq | heq := habs <;> rw [heq] <;> decide

end BinaryFormat

end AwaDB.Lib
