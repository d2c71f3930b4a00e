import Mathlib.Data.List.TakeWhile
import Mathlib.Data.Nat.Digits.Defs
import Mathlib.Data.Int.Basic
import Mathlib.Tactic.Common

/-!
# Integers as decimal text

`decimal` is the text that `std::to_string` makes of an integer, and `parse` reads an integer the way
Python's `int` reads one from bytes: space around it, a sign, digits with single underscores between
them.

* `parse_decimal`: the text of an integer is read as this integer;
* `parse_bound`: what is read from `n` bytes has at most `n` digits, and none of the bytes is a control
  character below the tab.
-/

namespace AwaDB.Lib

/-- The text of a natural number. -/
def natDecimal (n : ℕ) : List UInt8 :=
  if n = 0 then [48] else (Nat.digits 10 n).reverse.map fun d => UInt8.ofNat (48 + d)

/-- `std::to_string`. -/
def decimal (n : ℤ) : List UInt8 :=
  if n < 0 then 45 :: natDecimal n.natAbs else natDecimal n.natAbs

/-- `Py_ISSPACE`. -/
def isSpace (c : UInt8) : Bool := c = 32 || (9 ≤ c && c ≤ 13)

def isDigit (c : UInt8) : Bool := 48 ≤ c && c ≤ 57

/-- Read digits behind a number, and space behind them; the flag says whether a digit was last. -/
def readDigits : ℕ → Bool → List UInt8 → Option ℕ
  | acc, digit, [] => if digit then some acc else none
  | acc, digit, c :: cs =>
    if isDigit c then readDigits (10 * acc + (c.toNat - 48)) true cs
    else if !digit then none
    else if c = 95 then readDigits acc false cs
    else if isSpace c && cs.all isSpace then some acc
    else none

/-- `int(bytes)`. -/
def parse (bytes : List UInt8) : Option ℤ :=
  match bytes.dropWhile isSpace with
  | [] => none
  | c :: cs =>
    if c = 45 then (readDigits 0 false cs).map fun n : ℕ => -Int.ofNat n
    else if c = 43 then (readDigits 0 false cs).map Int.ofNat
    else (readDigits 0 false (c :: cs)).map Int.ofNat

/-! ### Reading a text back -/

theorem toNat_digit {d : ℕ} (h : d < 10) : (UInt8.ofNat (48 + d)).toNat = 48 + d := by
  have hsmall : 48 + d < 256 := by omega
  exact Nat.mod_eq_of_lt hsmall

theorem isDigit_digit {d : ℕ} (h : d < 10) : isDigit (UInt8.ofNat (48 + d)) = true := by
  have hnat := toNat_digit h
  rw [isDigit, Bool.and_eq_true, decide_eq_true_iff, decide_eq_true_iff, UInt8.le_iff_toNat_le,
    UInt8.le_iff_toNat_le, hnat]
  exact ⟨Nat.le_add_right 48 d, by show 48 + d ≤ 57; omega⟩

theorem readDigits_map {ds : List ℕ} (h : ∀ d ∈ ds, d < 10) (acc : ℕ) (digit : Bool)
    (hne : digit = true ∨ ds ≠ []) :
    readDigits acc digit (ds.map fun d => UInt8.ofNat (48 + d)) =
      some (ds.foldl (fun n d => 10 * n + d) acc) := by
  induction ds generalizing acc digit with
  | nil =>
    have hdigit := hne.resolve_right (fun hnot => hnot rfl)
    rw [List.map_nil, readDigits, if_pos hdigit]
    rfl
  | cons d ds ih =>
    have hd := h d List.mem_cons_self
    rw [List.map_cons, readDigits, if_pos (isDigit_digit hd), toNat_digit hd, Nat.add_sub_cancel_left,
      ih (fun d' hd' => h d' (List.mem_cons_of_mem d hd')) _ _ (.inl rfl)]
    rfl

theorem readDigits_natDecimal (n : ℕ) : readDigits 0 false (natDecimal n) = some n := by
  rw [natDecimal]
  split
  · rename_i hzero
    rw [hzero]
    rfl
  · rename_i hne
    have hdigits : ∀ d ∈ (Nat.digits 10 n).reverse, d < 10 := fun d hd =>
      Nat.digits_lt_base (by decide) (List.mem_reverse.mp hd)
    have hnil : (Nat.digits 10 n).reverse ≠ [] :=
      List.reverse_ne_nil_iff.mpr (Nat.digits_ne_nil_iff_ne_zero.mpr hne)
    have hfold : (Nat.digits 10 n).foldr (fun d m => 10 * m + d) 0 = n := by
      have hof := Nat.ofDigits_digits 10 n
      rw [Nat.ofDigits_eq_foldr] at hof
      refine Eq.trans ?_ hof
      refine congrArg (fun f => (Nat.digits 10 n).foldr f 0) ?_
      funext d m
      exact Nat.add_comm (10 * m) d
    rw [readDigits_map hdigits 0 false (.inr hnil), List.foldl_reverse, hfold]

/-- A text starts with a digit. -/
theorem natDecimal_cons (n : ℕ) : ∃ c cs, natDecimal n = c :: cs ∧ isDigit c = true := by
  rw [natDecimal]
  split
  · exact ⟨48, [], rfl, by decide⟩
  · rename_i hne
    have hnil : (Nat.digits 10 n).reverse ≠ [] :=
      List.reverse_ne_nil_iff.mpr (Nat.digits_ne_nil_iff_ne_zero.mpr hne)
    obtain ⟨d, ds, hds⟩ := List.exists_cons_of_ne_nil hnil
    have hd : d < 10 := by
      refine Nat.digits_lt_base (b := 10) (m := n) (by decide) (List.mem_reverse.mp ?_)
      rw [hds]
      exact List.mem_cons_self
    rw [hds]
    exact ⟨_, _, rfl, isDigit_digit hd⟩

theorem not_isSpace_of_isDigit {c : UInt8} (h : isDigit c = true) :
    isSpace c = false ∧ c ≠ 45 ∧ c ≠ 43 := by
  rw [isDigit, Bool.and_eq_true, decide_eq_true_iff, decide_eq_true_iff, UInt8.le_iff_toNat_le,
    UInt8.le_iff_toNat_le] at h
  have hlow : 48 ≤ c.toNat := h.1
  have hne : ∀ d : UInt8, d.toNat < 48 → c ≠ d := by
    rintro d hd rfl
    omega
  refine ⟨?_, hne 45 (by decide), hne 43 (by decide)⟩
  rw [isSpace, Bool.or_eq_false_iff, Bool.and_eq_false_iff]
  refine ⟨decide_eq_false (hne 32 (by decide)), .inr (decide_eq_false fun hle => ?_)⟩
  have hle' : c.toNat ≤ 13 := UInt8.le_iff_toNat_le.mp hle
  omega

/-- **The text of an integer** is read as this integer. -/
theorem parse_decimal (n : ℤ) : parse (decimal n) = some n := by
  have hread := readDigits_natDecimal n.natAbs
  rw [decimal]
  split
  · rename_i hneg
    have hspace : isSpace 45 = false := by decide
    rw [parse, List.dropWhile_cons_of_neg (by rw [hspace]; exact Bool.false_ne_true)]
    dsimp only
    rw [if_pos rfl, hread, Option.map_some]
    have hvalue : -((n.natAbs : ℕ) : ℤ) = n := by omega
    exact congrArg some hvalue
  · rename_i hpos
    obtain ⟨c, cs, htext, hdigit⟩ := natDecimal_cons n.natAbs
    obtain ⟨hspace, hminus, hplus⟩ := not_isSpace_of_isDigit hdigit
    rw [htext] at hread ⊢
    rw [parse, List.dropWhile_cons_of_neg (by rw [hspace]; exact Bool.false_ne_true)]
    dsimp only
    rw [if_neg hminus, if_neg hplus, hread, Option.map_some]
    have hvalue : ((n.natAbs : ℕ) : ℤ) = n := by omega
    exact congrArg some hvalue

/-! ### What can be read -/

theorem isSpace_bound {c : UInt8} (h : isSpace c = true) : 9 ≤ c.toNat := by
  rw [isSpace, Bool.or_eq_true, Bool.and_eq_true, decide_eq_true_iff, decide_eq_true_iff] at h
  rcases h with rfl | ⟨h, -⟩
  · decide
  · exact UInt8.le_iff_toNat_le.mp h

theorem readDigits_bound {acc n : ℕ} {digit : Bool} {cs : List UInt8}
    (h : readDigits acc digit cs = some n) :
    n < (acc + 1) * 10 ^ cs.length ∧ ∀ c ∈ cs, 9 ≤ c.toNat := by
  induction cs generalizing acc digit with
  | nil =>
    rw [readDigits] at h
    split at h
    · cases h
      exact ⟨by simp, fun c hc => (List.not_mem_nil hc).elim⟩
    · cases h
  | cons c cs ih =>
    have hpow : 10 ^ (c :: cs).length = 10 * 10 ^ cs.length := by
      rw [List.length_cons, Nat.pow_succ, Nat.mul_comm]
    have hpos : 0 < 10 ^ cs.length := Nat.pos_of_ne_zero (by simp)
    rw [readDigits] at h
    split at h
    · rename_i hdigit
      obtain ⟨hn, hcs⟩ := ih h
      rw [isDigit, Bool.and_eq_true, decide_eq_true_iff, decide_eq_true_iff,
        UInt8.le_iff_toNat_le, UInt8.le_iff_toNat_le] at hdigit
      have hlow : 48 ≤ c.toNat := hdigit.1
      have hhigh : c.toNat ≤ 57 := hdigit.2
      refine ⟨Nat.lt_of_lt_of_le hn ?_, fun c' hc' => ?_⟩
      · rw [hpow, ← Nat.mul_assoc]
        exact Nat.mul_le_mul_right _ (by omega)
      · rcases List.mem_cons.mp hc' with rfl | hc'
        · omega
        · exact hcs c' hc'
    · split at h
      · cases h
      · split at h
        · rename_i hunder
          obtain ⟨hn, hcs⟩ := ih h
          refine ⟨Nat.lt_of_lt_of_le hn ?_, fun c' hc' => ?_⟩
          · rw [hpow]
            exact Nat.mul_le_mul_left _ (by omega)
          · rcases List.mem_cons.mp hc' with rfl | hc'
            · rw [hunder]
              decide
            · exact hcs c' hc'
        · split at h
          · rename_i hspace
            obtain ⟨hc, hall⟩ := Bool.and_eq_true_iff.mp hspace
            cases h
            refine ⟨?_, fun c' hc' => ?_⟩
            · have hone : 1 ≤ 10 ^ (c :: cs).length := by
                rw [hpow]
                omega
              calc n < (n + 1) * 1 := by omega
                _ ≤ (n + 1) * 10 ^ (c :: cs).length := Nat.mul_le_mul_left _ hone
            · rcases List.mem_cons.mp hc' with rfl | hc'
              · exact isSpace_bound hc
              · exact isSpace_bound (List.all_eq_true.mp hall c' hc')
          · cases h

/-- **What is read** from some bytes has no more digits than they are. -/
theorem parse_bound {bytes : List UInt8} {z : ℤ} (h : parse bytes = some z) :
    z.natAbs < 10 ^ bytes.length ∧ ∀ c ∈ bytes, 9 ≤ c.toNat := by
  have hsplit := List.takeWhile_append_dropWhile (p := isSpace) (l := bytes)
  have hspaces : ∀ c ∈ bytes.takeWhile isSpace, 9 ≤ c.toNat := fun c hc =>
    isSpace_bound (List.mem_takeWhile_imp hc)
  have hlen : (bytes.dropWhile isSpace).length ≤ bytes.length :=
    (List.dropWhile_sublist _).length_le
  -- the bytes behind the space
  have hrest : z.natAbs < 10 ^ (bytes.dropWhile isSpace).length ∧
      ∀ c ∈ bytes.dropWhile isSpace, 9 ≤ c.toNat := by
    rw [parse] at h
    cases hdrop : bytes.dropWhile isSpace with
    | nil =>
      rw [hdrop] at h
      cases h
    | cons c cs =>
      rw [hdrop] at h
      dsimp only at h
      have hsigned : ∀ {n : ℕ}, readDigits 0 false cs = some n → 9 ≤ c.toNat →
          n < 10 ^ (c :: cs).length ∧ ∀ c' ∈ c :: cs, 9 ≤ c'.toNat := by
        intro n hn hc
        obtain ⟨hbound, hcs⟩ := readDigits_bound hn
        rw [Nat.zero_add, Nat.one_mul] at hbound
        refine ⟨Nat.lt_of_lt_of_le hbound (Nat.pow_le_pow_right (by decide) (Nat.le_succ _)), ?_⟩
        intro c' hc'
        rcases List.mem_cons.mp hc' with rfl | hc'
        · exact hc
        · exact hcs c' hc'
      split at h
      · rename_i hminus
        obtain ⟨n, hn, rfl⟩ := Option.map_eq_some_iff.mp h
        rw [Int.natAbs_neg]
        exact hsigned hn (by rw [hminus]; decide)
      · split at h
        · rename_i hplus
          obtain ⟨n, hn, rfl⟩ := Option.map_eq_some_iff.mp h
          exact hsigned hn (by rw [hplus]; decide)
        · obtain ⟨n, hn, rfl⟩ := Option.map_eq_some_iff.mp h
          obtain ⟨hbound, hcs⟩ := readDigits_bound hn
          rw [Nat.zero_add, Nat.one_mul] at hbound
          exact ⟨hbound, hcs⟩
  refine ⟨Nat.lt_of_lt_of_le hrest.1 (Nat.pow_le_pow_right (by decide) hlen), fun c hc => ?_⟩
  rw [← hsplit] at hc
  rcases List.mem_append.mp hc with hc | hc
  · exact hspaces c hc
  · exact hrest.2 c hc

end AwaDB.Lib
