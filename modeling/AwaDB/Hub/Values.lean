import AwaDB.Client.Awa
import AwaDB.Lib.Shortest
import AwaDB.Table.KeyOrder

/-!
# JSON values as bytes (`hub/hub_local_proxy.go`)

A JSON number is a finite `float64`. The proxy takes a number to be a decimal if a point is in its text,
and writes it as a `float32` then and as an integer otherwise. The conversion to an integer is exact in
the range of its type, and what the machine makes of another number is a parameter.

* `Encodes`: what the bytes of a JSON value are in the type of a field;
* `int_encodes`, `float_encodes`: the conversions of numbers that the type has.
-/

namespace AwaDB.Hub

open Lib BinaryFormat

/-- `float64`. -/
abbrev Float64 := Finite NumericType.binary64

/-- `float32`. -/
abbrev Float32 := Finite NumericType.binary32

/-- What `encoding/json` puts into an `interface{}`. -/
inductive Json where
  | null
  | bool (b : Bool)
  | number (x : Float64)
  | string (s : String)
  | array (elements : List Json)
  | object (members : List (String × Json))

/-- `FieldType` of `awadb.proto`. -/
inductive FieldType where
  | int
  | long
  | float
  | double
  | string
  | multiString
  | vector
  | keyword
deriving DecidableEq, Repr

/-- `IsDecimal`; `fmt.Sprint` prints the shortest text, and 46 is the point. -/
def isDecimal (a : Float64) : Bool := a.general.contains 46

/-- `Int64tobytes`. -/
def int64tobytes (a : ℤ) : Bytes := leWord 8 (a % 2 ^ 64).toNat

/-- `Int32tobytes`. -/
def int32tobytes (a : ℤ) : Bytes := leWord 4 (a % 2 ^ 32).toNat

/-- `Float32tobytes((float32)(a))`. -/
def float32tobytes (a : Float64) : Bytes := leWord 4 (a.convert NumericType.binary32)

section

variable (overflow : ℕ → Float64 → ℤ)

/-- A number as an integer of `bits` bits. -/
def toInt (bits : ℕ) (a : Float64) : ℤ :=
  if -2 ^ (bits - 1) ≤ a.trunc ∧ a.trunc < 2 ^ (bits - 1) then a.trunc else overflow bits a

/-- `(int32)(a)`. -/
def int32 (a : Float64) : ℤ := toInt overflow 32 a

/-- `(int64)(a)`. -/
def int64 (a : Float64) : ℤ := toInt overflow 64 a

end

/-! ### What the bytes of a value are -/

/-- The number is an integer of `bits` bits. -/
def IsInt (bits : ℕ) (a : Float64) (n : ℤ) : Prop :=
  a.value = n ∧ -2 ^ (bits - 1) ≤ n ∧ n < 2 ^ (bits - 1)

/-- The bytes are those of a `float32` with the value of the number. -/
def IsFloat (a : Float64) (bytes : Bytes) : Prop :=
  ∃ w : Float32, w.value = a.value ∧ bytes = leWord 4 w.word

/-- **The bytes and the strings of a field decode to the value.** -/
def Encodes : FieldType → Json → Bytes → List String → Prop
  | .int, .number a, value, _ => ∃ n, IsInt 32 a n ∧ value = int32tobytes n
  | .int, .bool b, value, _ => value = int32tobytes b.toNat
  | .long, .number a, value, _ => ∃ n, IsInt 64 a n ∧ value = int64tobytes n
  | .long, .bool b, value, _ => value = int64tobytes b.toNat
  | .float, .number a, value, _ => IsFloat a value
  | .double, .number a, value, _ => value = leWord 8 a.word
  | .string, .string s, value, _ => value = Awa.utf8 s
  | .keyword, .string s, value, _ => value = Awa.utf8 s
  | .multiString, .array elements, _, strings => elements = strings.map .string
  | .vector, .array elements, value, _ => ∃ numbers words, elements = numbers.map .number ∧
      List.Forall₂ IsFloat numbers words ∧ value = words.flatten
  | _, _, _, _ => False

variable {overflow : ℕ → Float64 → ℤ} {a : Float64}

theorem toInt_eq {bits : ℕ} {n : ℤ} (h : IsInt bits a n) : toInt overflow bits a = n := by
  unfold toInt
  rw [Finite.trunc_eq h.1, if_pos h.2]

/-- **An integer of the type** is converted to its bytes. -/
theorem int_encodes (bits : ℕ) {n : ℤ} (h : IsInt bits a n) : IsInt bits a (toInt overflow bits a) := by
  rw [toInt_eq h]
  exact h

/-- **A number of the type** is converted to its bytes. -/
theorem float_encodes {bytes : Bytes} (h : IsFloat a bytes) : IsFloat a (float32tobytes a) := by
  obtain ⟨w, hvalue, -⟩ := h
  obtain ⟨z, hz, heq⟩ := Finite.convert_eq hvalue.symm
  exact ⟨z, heq, congrArg (leWord 4) hz⟩

theorem floats_encode {numbers : List Float64} {words : List Bytes}
    (h : List.Forall₂ IsFloat numbers words) :
    List.Forall₂ IsFloat numbers (numbers.map float32tobytes) := by
  induction h with
  | nil => exact .nil
  | cons hfirst _ ih => exact .cons (float_encodes hfirst) ih

end AwaDB.Hub
