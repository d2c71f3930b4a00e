import AwaDB.Lib.Binary
import AwaDB.Table.RangeQuery
import Mathlib.Data.EReal.Basic

/-!
# The keys of numbers (`ReverseEndian` in `table/field_range_index.cc`)

`ReverseEndian` turns the bytes of a number round and flips the sign bit, for all types alike. That
orders the keys of two's complement integers as the integers. Floating-point numbers are a sign and a
magnitude: the negative ones are ordered the wrong way round, and the two zeros have two keys.

* `keepsOrder_iff`: which pairs of numbers have keys in the right order;
* `scanExact_iff`: which scans from one number to another visit the numbers in between.
-/

namespace AwaDB

/-- The field types whose index is numeric. -/
inductive NumericType where
  | int
  | long
  | float
  | double
deriving DecidableEq, Repr

namespace NumericType

/-- The type as the table has it. -/
def dataType : NumericType → DataType
  | .int => .int
  | .long => .long
  | .float => .float
  | .double => .double

/-- The bytes of a value, `n` being its bit pattern. -/
def bytes (t : NumericType) (n : ℕ) : Bytes := Lib.leWord (fTypeSize t.dataType) n

/-- The key of a value. -/
def key (t : NumericType) (n : ℕ) : Bytes := (reverseEndian (t.bytes n)).getD []

/-- IEEE 754 binary32. -/
def binary32 : Lib.BinaryFormat := ⟨8, 23⟩

/-- IEEE 754 binary64. -/
def binary64 : Lib.BinaryFormat := ⟨11, 52⟩

/-- A word of `w` bits in two's complement. -/
def signed (w n : ℕ) : ℤ := if n < 2 ^ (w - 1) then n else (n : ℤ) - 2 ^ w

/-- The number that a bit pattern stands for. -/
noncomputable def value : NumericType → ℕ → EReal
  | .int, n => ((signed 32 n : ℝ) : EReal)
  | .long, n => ((signed 64 n : ℝ) : EReal)
  | .float, n => binary32.value n
  | .double, n => binary64.value n

/-- The bit patterns of the type other than NaN. -/
def Valid : NumericType → ℕ → Prop
  | .int, n => n < 2 ^ 32
  | .long, n => n < 2 ^ 64
  | .float, n => binary32.IsNumber n
  | .double, n => binary64.IsNumber n

instance (t : NumericType) (n : ℕ) : Decidable (t.Valid n) :=
  match t with
  | .int => inferInstanceAs (Decidable (n < 2 ^ 32))
  | .long => inferInstanceAs (Decidable (n < 2 ^ 64))
  | .float => inferInstanceAs (Decidable (binary32.IsNumber n))
  | .double => inferInstanceAs (Decidable (binary64.IsNumber n))

/-- The integers. -/
def IsInteger (t : NumericType) : Prop := t = .int ∨ t = .long

/-- Half the bit patterns: those from here on have the sign bit. -/
def half (t : NumericType) : ℕ := 2 ^ (8 * fTypeSize t.dataType - 1)

/-- The place of a value in the order of its type. -/
def rank : NumericType → ℕ → ℤ
  | .int, n => signed 32 n
  | .long, n => signed 64 n
  | .float, n => binary32.rank n
  | .double, n => binary64.rank n

variable {t : NumericType} {a b n : ℕ}

/-! ### The order of the values -/

theorem infinity_pos : 0 < binary32.infinity ∧ 0 < binary64.infinity := by decide

theorem coe_int_lt_iff (i j : ℤ) : ((i : ℝ) : EReal) < ((j : ℝ) : EReal) ↔ i < j := by
  rw [EReal.coe_lt_coe_iff, Int.cast_lt]

/-- **Values are ordered as their ranks.** -/
theorem value_lt_iff (ha : t.Valid a) (hb : t.Valid b) : t.value a < t.value b ↔ t.rank a < t.rank b :=
  match t with
  | .int => coe_int_lt_iff _ _
  | .long => coe_int_lt_iff _ _
  | .float => Lib.BinaryFormat.value_lt_iff infinity_pos.1 ha hb
  | .double => Lib.BinaryFormat.value_lt_iff infinity_pos.2 ha hb

theorem value_le_iff (ha : t.Valid a) (hb : t.Valid b) :
    t.value a ≤ t.value b ↔ t.rank a ≤ t.rank b := by
  rw [← not_lt, value_lt_iff hb ha, not_lt]

theorem value_eq_iff (ha : t.Valid a) (hb : t.Valid b) :
    t.value a = t.value b ↔ t.rank a = t.rank b := by
  rw [le_antisymm_iff, value_le_iff ha hb, value_le_iff hb ha, ← le_antisymm_iff]

theorem valid_zero (t : NumericType) : t.Valid 0 := by
  cases t <;> decide

theorem value_zero (t : NumericType) : t.value 0 = 0 := by
  cases t with
  | int => simp [value, signed]
  | long => simp [value, signed]
  | float =>
    show binary32.value 0 = 0
    unfold Lib.BinaryFormat.value
    exact (if_pos (by decide)).trans (Lib.BinaryFormat.absValue_zero infinity_pos.1)
  | double =>
    show binary64.value 0 = 0
    unfold Lib.BinaryFormat.value
    exact (if_pos (by decide)).trans (Lib.BinaryFormat.absValue_zero infinity_pos.2)

theorem valid_lt (h : t.Valid n) : n < 2 * t.half :=
  match t with
  | .int => h
  | .long => h
  | .float => h.1
  | .double => h.1

/-- The rank of an integer. -/
theorem rank_integer (ht : t.IsInteger) :
    t.rank n = if n < t.half then (n : ℤ) else n - 2 * t.half := by
  obtain rfl | rfl := ht <;> rfl

/-- The rank of a floating-point number. -/
theorem rank_float (ht : ¬ t.IsInteger) :
    t.rank n = if n < t.half then (n : ℤ) else -(n - t.half : ℕ) := by
  cases t with
  | int => exact absurd (.inl rfl) ht
  | long => exact absurd (.inr rfl) ht
  | float => exact Lib.BinaryFormat.rank_eq n
  | double => exact Lib.BinaryFormat.rank_eq n

/-! ### The order of the keys -/

/-- `ReverseEndian` adds half of the words. -/
theorem reverseEndian_leWord (w n : ℕ) :
    reverseEndian (Lib.leWord (w + 1) n) = some (Lib.beWord (w + 1) (n + 128 * 256 ^ w)) := by
  have hreverse : (Lib.leWord (w + 1) n).reverse = UInt8.ofNat (n / 256 ^ w) :: Lib.beWord w n :=
    Lib.beWord_succ w n
  have hfirst : (n + 128 * 256 ^ w) / 256 ^ w = n / 256 ^ w + 128 :=
    Nat.add_mul_div_right n 128 (by positivity)
  have hrest : Lib.beWord w (n + 128 * 256 ^ w) = Lib.beWord w n := by
    rw [← Lib.beWord_mod w (n + 128 * 256 ^ w), Nat.add_mul_mod_self_right, Lib.beWord_mod]
  unfold reverseEndian
  rw [hreverse, Lib.beWord_succ, hfirst, hrest, UInt8.ofNat_add]
  rfl

/-- The place of a value in the order of the keys. -/
def keyRank (t : NumericType) (n : ℕ) : ℕ := if n < t.half then n + t.half else n - t.half

theorem keyRank_lt (hn : n < 2 * t.half) : t.keyRank n < 256 ^ fTypeSize t.dataType := by
  have hwidth : 256 ^ fTypeSize t.dataType = 2 * t.half := by cases t <;> rfl
  unfold keyRank
  split <;> omega

theorem key_eq (hn : n < 2 * t.half) :
    t.key n = Lib.beWord (fTypeSize t.dataType) (t.keyRank n) := by
  have hsum : t.key n = Lib.beWord (fTypeSize t.dataType) (n + t.half) := by
    unfold key bytes
    cases t with
    | int => exact congrArg (Option.getD · []) (reverseEndian_leWord 3 n)
    | long => exact congrArg (Option.getD · []) (reverseEndian_leWord 7 n)
    | float => exact congrArg (Option.getD · []) (reverseEndian_leWord 3 n)
    | double => exact congrArg (Option.getD · []) (reverseEndian_leWord 7 n)
  have hwidth : 256 ^ fTypeSize t.dataType = 2 * t.half := by cases t <;> rfl
  rw [hsum]
  unfold keyRank
  split
  · rfl
  · rename_i hhalf
    rw [← Lib.beWord_mod, hwidth, Nat.mod_eq_sub_mod (by omega), Nat.mod_eq_of_lt (by omega)]
    congr 1
    omega

theorem key_lt_iff (ha : t.Valid a) (hb : t.Valid b) : t.key a < t.key b ↔ t.keyRank a < t.keyRank b := by
  rw [key_eq (valid_lt ha), key_eq (valid_lt hb),
    Lib.beWord_lt_iff (keyRank_lt (valid_lt ha)) (keyRank_lt (valid_lt hb))]

theorem key_le_iff (ha : t.Valid a) (hb : t.Valid b) : t.key a ≤ t.key b ↔ t.keyRank a ≤ t.keyRank b := by
  rw [← List.not_lt, key_lt_iff hb ha, Nat.not_lt]

theorem keyRank_inj (ha : t.Valid a) (hb : t.Valid b) : t.keyRank a = t.keyRank b ↔ a = b := by
  have hlta := valid_lt ha
  have hltb := valid_lt hb
  unfold keyRank
  split <;> split <;> omega

theorem key_inj (ha : t.Valid a) (hb : t.Valid b) : t.key a = t.key b ↔ a = b := by
  rw [key_eq (valid_lt ha), key_eq (valid_lt hb),
    Lib.beWord_inj (keyRank_lt (valid_lt ha)) (keyRank_lt (valid_lt hb)), keyRank_inj ha hb]

/-- The two places of an integer. -/
theorem integer_cases (ht : t.IsInteger) (n : ℕ) :
    (n < t.half ∧ t.keyRank n = n + t.half ∧ t.rank n = n) ∨
      (t.half ≤ n ∧ t.keyRank n = n - t.half ∧ t.rank n = n - 2 * t.half) := by
  rw [rank_integer ht]
  unfold keyRank
  split
  · rename_i hlt
    exact .inl ⟨hlt, rfl, rfl⟩
  · rename_i hge
    exact .inr ⟨Nat.le_of_not_lt hge, rfl, rfl⟩

/-- The two places of a floating-point number: among the negative ones the orders differ. -/
theorem float_cases (ht : ¬ t.IsInteger) (n : ℕ) :
    (n < t.half ∧ t.keyRank n = n + t.half ∧ t.rank n = n) ∨
      (t.half ≤ n ∧ t.keyRank n = n - t.half ∧ t.rank n = t.half - n) := by
  rw [rank_float ht]
  unfold keyRank
  split
  · rename_i hlt
    exact .inl ⟨hlt, rfl, rfl⟩
  · rename_i hge
    exact .inr ⟨Nat.le_of_not_lt hge, rfl, by omega⟩

/-! ### Two values -/

/-- The keys of two values are in the order of the values. -/
def KeepsOrder (t : NumericType) (a b : ℕ) : Prop :=
  (t.value a < t.value b → t.key a < t.key b) ∧ (t.value b < t.value a → t.key b < t.key a) ∧
    (t.value a = t.value b → t.key a = t.key b)

theorem value_eq_zero_iff (ha : t.Valid a) : t.value a = 0 ↔ t.rank a = 0 := by
  have hrank : t.rank 0 = 0 := by cases t <;> decide
  rw [← value_zero t, value_eq_iff ha (valid_zero t), hrank]

theorem value_pos_iff (ha : t.Valid a) : 0 < t.value a ↔ 0 < t.rank a := by
  have hrank : t.rank 0 = 0 := by cases t <;> decide
  rw [← value_zero t, value_lt_iff (valid_zero t) ha, hrank]

theorem value_neg_iff (ha : t.Valid a) : t.value a < 0 ↔ t.rank a < 0 := by
  have hrank : t.rank 0 = 0 := by cases t <;> decide
  rw [← value_zero t, value_lt_iff ha (valid_zero t), hrank]

/-- **Which pairs have keys in the right order.** -/
theorem keepsOrder_iff (ha : t.Valid a) (hb : t.Valid b) :
    KeepsOrder t a b ↔ t.IsInteger ∨ a = b ∨
      (a < t.half ∨ b < t.half) ∧ (t.value a ≠ 0 ∨ t.value b ≠ 0) := by
  have hlta := valid_lt ha
  have hltb := valid_lt hb
  unfold KeepsOrder
  rw [value_lt_iff ha hb, value_lt_iff hb ha, value_eq_iff ha hb, key_lt_iff ha hb, key_lt_iff hb ha,
    key_inj ha hb, Ne, Ne, value_eq_zero_iff ha, value_eq_zero_iff hb]
  by_cases ht : t.IsInteger
  · simp only [ht, true_or, iff_true]
    have hca := integer_cases ht a
    have hcb := integer_cases ht b
    omega
  · simp only [ht, false_or]
    have hca := float_cases ht a
    have hcb := float_cases ht b
    omega

/-! ### Scans -/

open Classical in
/-- A scan visits the nodes of the values from `lo` to `hi`, in every tree of values of the type. -/
def ScanExact (t : NumericType) (lo hi : ℕ) : Prop :=
  ∀ tree : BTree, (∀ key ∈ tree.keys, ∃ n, t.Valid n ∧ t.key n = key) →
    tree.nodesBetween (t.key lo) (t.key hi) =
      (tree.entries.filter fun entry => ∃ n, t.Valid n ∧ t.key n = entry.1 ∧
        t.value lo ≤ t.value n ∧ t.value n ≤ t.value hi).map Sigma.snd

/-- The negative zero. -/
theorem valid_half (ht : ¬ t.IsInteger) : t.Valid t.half := by
  cases t with
  | int => exact absurd (.inl rfl) ht
  | long => exact absurd (.inr rfl) ht
  | float => decide
  | double => decide

/-- The negative number next to it. -/
theorem valid_half_succ (ht : ¬ t.IsInteger) : t.Valid (t.half + 1) := by
  cases t with
  | int => exact absurd (.inl rfl) ht
  | long => exact absurd (.inr rfl) ht
  | float => decide
  | double => decide

variable {lo hi : ℕ}

/-- Value by value. -/
theorem scanExact_iff_forall : ScanExact t lo hi ↔ ∀ n, t.Valid n →
    (t.key lo ≤ t.key n ∧ t.key n ≤ t.key hi ↔ t.value lo ≤ t.value n ∧ t.value n ≤ t.value hi) := by
  have hself : ∀ {n : ℕ}, t.Valid n → ((∃ m, t.Valid m ∧ t.key m = t.key n ∧
      t.value lo ≤ t.value m ∧ t.value m ≤ t.value hi) ↔
        t.value lo ≤ t.value n ∧ t.value n ≤ t.value hi) := by
    intro n hn
    constructor
    · rintro ⟨m, hm, heq, hin⟩
      rwa [(key_inj hm hn).mp heq] at hin
    · exact fun hin => ⟨n, hn, rfl, hin⟩
  constructor
  · intro hscan n hn
    -- the tree with this value alone
    have hone := hscan (AList.singleton (t.key n) Node.new) fun key hkey =>
      ⟨n, hn, (List.mem_singleton.mp hkey).symm⟩
    have hentries : (AList.singleton (t.key n) Node.new : BTree).entries =
        [⟨t.key n, Node.new⟩] := rfl
    unfold BTree.nodesBetween at hone
    rw [hentries] at hone
    have hlen := congrArg List.length hone
    simp only [List.length_map, List.filter_cons, List.filter_nil, decide_eq_true_eq,
      hself hn] at hlen
    by_cases hvisit : t.key lo ≤ t.key n ∧ t.key n ≤ t.key hi
    · by_cases hin : t.value lo ≤ t.value n ∧ t.value n ≤ t.value hi
      · exact iff_of_true hvisit hin
      · rw [if_pos hvisit, if_neg hin] at hlen
        cases hlen
    · by_cases hin : t.value lo ≤ t.value n ∧ t.value n ≤ t.value hi
      · rw [if_neg hvisit, if_pos hin] at hlen
        cases hlen
      · exact iff_of_false hvisit hin
  · intro hall tree hkeys
    unfold BTree.nodesBetween
    congr 1
    refine List.filter_congr fun entry hentry => ?_
    obtain ⟨n, hn, hkey⟩ := hkeys entry.1 (List.mem_map_of_mem hentry)
    rw [decide_eq_decide, ← hkey, hself hn]
    exact hall n hn

/-- **Which scans visit the values from `lo` to `hi`.** -/
theorem scanExact_iff (hlo : t.Valid lo) (hhi : t.Valid hi) :
    ScanExact t lo hi ↔ t.IsInteger ∨ 0 < t.value lo ∨ lo = 0 ∧ t.value hi < 0 ∨
      lo = hi ∧ t.value hi < 0 := by
  have hltlo := valid_lt hlo
  have hlthi := valid_lt hhi
  rw [scanExact_iff_forall, value_pos_iff hlo, value_neg_iff hhi]
  have hranks : ∀ n, t.Valid n →
      ((t.key lo ≤ t.key n ∧ t.key n ≤ t.key hi ↔ t.value lo ≤ t.value n ∧ t.value n ≤ t.value hi) ↔
        (t.keyRank lo ≤ t.keyRank n ∧ t.keyRank n ≤ t.keyRank hi ↔
          t.rank lo ≤ t.rank n ∧ t.rank n ≤ t.rank hi)) := by
    intro n hn
    rw [key_le_iff hlo hn, key_le_iff hn hhi, value_le_iff hlo hn, value_le_iff hn hhi]
  by_cases ht : t.IsInteger
  · simp only [ht, true_or, iff_true]
    intro n hn
    have hltn := valid_lt hn
    have hclo := integer_cases ht lo
    have hchi := integer_cases ht hi
    have hcn := integer_cases ht n
    rw [hranks n hn]
    omega
  · simp only [ht, false_or]
    have hclo := float_cases ht lo
    have hchi := float_cases ht hi
    have hpos : 0 < t.half := by unfold half; positivity
    constructor
    · intro hall
      -- the values that tell: the lower bound, the two zeros and the negative number next to them
      have hat : ∀ n, t.Valid n → (t.keyRank lo ≤ t.keyRank n ∧ t.keyRank n ≤ t.keyRank hi ↔
          t.rank lo ≤ t.rank n ∧ t.rank n ≤ t.rank hi) := fun n hn => (hranks n hn).mp (hall n hn)
      have hself := hat lo hlo
      have hzero := hat 0 (valid_zero t)
      have hnegzero := hat t.half (valid_half ht)
      have hnext := hat (t.half + 1) (valid_half_succ ht)
      have hczero : t.keyRank 0 = t.half ∧ t.rank 0 = 0 := by
        have := float_cases ht 0
        omega
      have hcnegzero : t.keyRank t.half = 0 ∧ t.rank t.half = 0 := by
        have := float_cases ht t.half
        omega
      have hcnext : t.keyRank (t.half + 1) = 1 ∧ t.rank (t.half + 1) = -1 := by
        have := float_cases ht (t.half + 1)
        omega
      rw [hczero.1, hczero.2] at hzero
      rw [hcnegzero.1, hcnegzero.2] at hnegzero
      rw [hcnext.1, hcnext.2] at hnext
      omega
    · intro hcond n hn
      have hltn := valid_lt hn
      have hcn := float_cases ht n
      rw [hranks n hn]
      omega

/-- **What the keys keep of the order**, for two values and for a scan. -/
theorem key_order_iff (ha : t.Valid a) (hb : t.Valid b) (hlo : t.Valid lo) (hhi : t.Valid hi) :
    (KeepsOrder t a b ↔ t.IsInteger ∨ a = b ∨
        (a < t.half ∨ b < t.half) ∧ (t.value a ≠ 0 ∨ t.value b ≠ 0)) ∧
      (ScanExact t lo hi ↔ t.IsInteger ∨ 0 < t.value lo ∨ lo = 0 ∧ t.value hi < 0 ∨
        lo = hi ∧ t.value hi < 0) :=
  ⟨keepsOrder_iff ha hb, scanExact_iff hlo hhi⟩

/-- `-1` and `1` as integers, and the scan from the one to the other. -/
theorem key_order_int : KeepsOrder .int (2 ^ 32 - 1) 1 ∧ ScanExact .int (2 ^ 32 - 1) 1 := by
  have h : ∀ n, n < 2 ^ 32 → Valid .int n := fun _ hn => hn
  have horder := key_order_iff (h (2 ^ 32 - 1) (by decide)) (h 1 (by decide))
    (h (2 ^ 32 - 1) (by decide)) (h 1 (by decide))
  exact ⟨horder.1.mpr (.inl (.inl rfl)), horder.2.mpr (.inl (.inl rfl))⟩

/-- `-2` and `-1` as floating-point numbers. -/
theorem key_order_negative : ¬ KeepsOrder .float 0xC0000000 0xBF800000 := by
  rw [keepsOrder_iff (by decide) (by decide)]
  rintro (hint | heq | ⟨hsign, -⟩)
  · obtain heq | heq := hint <;> cases heq
  · cases heq
  · exact absurd hsign (by decide)

end NumericType

end AwaDB
