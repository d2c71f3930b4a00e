import AwaDB.Lib.Memory
import AwaDB.Lib.Run
import Mathlib.Algebra.Group.Nat.Defs
import Mathlib.Data.List.Nodup
import Mathlib.Data.Nat.Notation

/-!
# Rows of the table (`table/table.cc`)

A row is kept cell by cell, one for each field of the schema. A fixed-size field owns its bytes; a
string field owns a reference into the string storage, and its cell says which text the reference
leads to. Bytes that were never written are `none`.

* `copyAt` is a `memcpy` into the row that starts at a cell: it may run into the cells behind;
* `storeField` and `updateField` are the loop bodies of `Table::Add` (and `BatchAdd`) and of
  `Table::Update`. The first goes by the type of the schema, the second by the type the document
  gives.
-/

namespace AwaDB

abbrev Bytes := List UInt8

instance lawfulBEq_bytes : LawfulBEq Bytes := List.instLawfulBEq

/-- `DataType`. -/
inductive DataType where
  | int
  | long
  | float
  | double
  | string
  | vector
  | multiString
deriving DecidableEq, Repr

/-- `Field`: what a document says about one field. -/
structure Field where
  name : String
  value : Bytes
  datatype : DataType
deriving DecidableEq, Repr

/-- `FieldInfo`: what a table says about one field. -/
structure FieldInfo where
  name : String
  dataType : DataType
  isIndex : Bool
deriving DecidableEq, Repr

/-- `Table::FTypeSize`; a string reference is a block id, a position and a length. -/
def fTypeSize : DataType → ℕ
  | .int => 4
  | .long => 8
  | .float => 4
  | .double => 8
  | .string => 4 + 2 + 2
  | .vector => 0
  | .multiString => 0

/-- `STR_MAX_INDEX_LEN`. -/
def strMaxIndexLen : ℕ := 2048

/-- `MAX_STRING_LEN`. -/
def maxStringLen : ℕ := 65535

/-- A byte of a row buffer; `none` as long as nothing was written there. -/
abbrev MemByte := Option UInt8

/-- The cell of one field. -/
inductive Cell where
  | fixed (bytes : List MemByte)
  | str (text : Option Bytes)
deriving DecidableEq, Repr

abbrev Row := List Cell

/-! ### Copying bytes into a row -/

/-- The bytes that `memcpy(_, value.c_str(), n)` reads: the value, its terminating zero, and then
memory behind the string. -/
def readMem (value : Bytes) (n : ℕ) : List MemByte :=
  (value.map some ++ [some 0] ++ List.replicate n none).take n

/-- Copy `bytes` over the cells from the first one on. A string reference that is hit leads
nowhere afterwards; running past the row is undefined. -/
def copyInto : Row → List MemByte → Option Row
  | cells, [] => some cells
  | [], _ :: _ => none
  | .fixed old :: cells, byte :: bytes =>
    (copyInto cells ((byte :: bytes).drop old.length)).map
      (.fixed (Lib.patch old 0 ((byte :: bytes).take old.length)) :: ·)
  | .str _ :: cells, byte :: bytes =>
    (copyInto cells ((byte :: bytes).drop (fTypeSize .string))).map (.str none :: ·)

/-- Copy `bytes` into the row at the offset of cell `i`. -/
def copyAt (row : Row) (i : ℕ) (bytes : List MemByte) : Option Row :=
  (copyInto (row.drop i) bytes).map (row.take i ++ ·)

/-- The number of bytes of a value that has a fixed size. -/
def Cell.width : Cell → Option ℕ
  | .fixed bytes => some bytes.length
  | .str _ => none

theorem Cell.width_eq_some {c : Cell} {n : ℕ} :
    c.width = some n ↔ ∃ bytes, c = .fixed bytes ∧ bytes.length = n := by
  cases c <;> simp [Cell.width]

/-- A copy leaves the cells their sizes. -/
theorem copyInto_width {row row' : Row} {bytes : List MemByte} (h : copyInto row bytes = some row') :
    row'.map Cell.width = row.map Cell.width := by
  induction row generalizing row' bytes with
  | nil =>
    cases bytes with
    | nil =>
      cases h
      rfl
    | cons byte bytes => cases h
  | cons c cells ih =>
    cases bytes with
    | nil =>
      rw [copyInto] at h
      cases h
      rfl
    | cons byte bytes =>
      cases c with
      | fixed old =>
        obtain ⟨rest, hrest, rfl⟩ := Option.map_eq_some_iff.mp h
        have hsize : (Lib.patch old 0 ((byte :: bytes).take old.length)).length = old.length := by
          apply Lib.patch_length
          rw [Nat.zero_add]
          exact List.length_take_le _ _
        rw [List.map_cons, List.map_cons, ih hrest, Cell.width, Cell.width, hsize]
      | str text =>
        obtain ⟨rest, hrest, rfl⟩ := Option.map_eq_some_iff.mp h
        rw [List.map_cons, List.map_cons, ih hrest]
        rfl

theorem readMem_of_length {value : Bytes} {n : ℕ} (h : value.length = n) :
    readMem value n = value.map some := by
  have hlen : (value.map some : List MemByte).length = n := by rw [List.length_map, h]
  rw [readMem, List.append_assoc, List.take_append_of_le_length (Nat.le_of_eq hlen.symm), ← hlen,
    List.take_length]

/-- **An exact copy** replaces a cell of its size and no other. -/
theorem copyAt_exact {row : Row} {i : ℕ} {old bytes : List MemByte}
    (hcell : row[i]? = some (.fixed old)) (hlen : bytes.length = old.length) :
    copyAt row i bytes = some (row.set i (.fixed bytes)) := by
  obtain ⟨hi, hget⟩ := List.getElem?_eq_some_iff.mp hcell
  have hdrop : row.drop i = .fixed old :: row.drop (i + 1) := by
    rw [List.drop_eq_getElem_cons hi, hget]
  have hset : row.set i (.fixed bytes) = row.take i ++ .fixed bytes :: row.drop (i + 1) :=
    List.set_eq_take_append_cons_drop.trans (if_pos hi)
  have hpatch : Lib.patch old 0 (bytes.take old.length) = bytes := by
    rw [← hlen, List.take_length, Lib.patch, hlen, Nat.zero_add, List.drop_length]
    simp
  rw [copyAt, hdrop, hset]
  cases bytes with
  | nil =>
    have hold : old = [] := List.length_eq_zero_iff.mp hlen.symm
    simp [copyInto, hold]
  | cons byte bytes =>
    have hrest : (byte :: bytes).drop old.length = [] := by rw [← hlen, List.drop_length]
    simp [copyInto, hrest, hpatch]

/-! ### The schema -/

/-- The fields of a table, in the order of the `AddField` calls. `AddField` refuses a name twice,
and every document is found by the key field. -/
structure Schema where
  attrs : List FieldInfo
  names_nodup : (attrs.map FieldInfo.name).Nodup
  key_mem : "_id" ∈ attrs.map FieldInfo.name
deriving DecidableEq, Repr

namespace Schema

def names (s : Schema) : List String := s.attrs.map FieldInfo.name

/-- The names in the order of `FieldMap()`, a `std::map`. -/
def fieldMap (s : Schema) : List String := s.names.mergeSort fun a b => a ≤ b

/-- `attr_idx_map_`. -/
def attrIdx (s : Schema) (name : String) : Option ℕ :=
  if name ∈ s.names then some (s.names.idxOf name) else none

/-- `attr_type_map_`, for a field of the schema. -/
def attrType (s : Schema) (i : ℕ) : Option DataType := s.attrs[i]?.map FieldInfo.dataType

/-- `id_type_`: whether the key field is a string. -/
def idIsString (s : Schema) : Bool :=
  ((s.attrIdx "_id").bind s.attrType) == some .string

/-- `Table::CheckStrLen`. -/
def checkStrLen (s : Schema) (name : String) (len : ℕ) : ℕ :=
  let isIndex := s.attrs.any fun info => info.name = name ∧ info.isIndex
  let len := if len > strMaxIndexLen && isIndex then strMaxIndexLen else len
  if len > maxStringLen then maxStringLen else len

/-- The text that is stored for a string field: the length is cast to 16 bits, then checked. -/
def storedText (s : Schema) (field : Field) : Bytes :=
  field.value.take (s.checkStrLen field.name (field.value.length % 2 ^ 16))

/-- The uninitialised row buffer. -/
def freshRow (s : Schema) : Row :=
  s.attrs.map fun info =>
    if info.dataType = .string then .str none
    else .fixed (List.replicate (fTypeSize info.dataType) none)

/-- The loop body of `Table::Add` and `BatchAdd`. In `Add` an unknown name gets offset 0 and type
`INT` from `operator[]`. -/
def storeField (s : Schema) (field : Field) (row : Row) : Option Row :=
  match s.attrIdx field.name with
  | none => copyAt row 0 (readMem field.value (fTypeSize .int))
  | some i =>
    match s.attrType i with
    | some .string => some (row.set i (.str (some (s.storedText field))))
    | some ty => copyAt row i (readMem field.value (fTypeSize ty))
    | none => none

/-- The loop body of `Table::Update`. A string is written over the reference found in the row, so
that one which leads nowhere is undefined; other values are copied with their own length. -/
def updateField (s : Schema) (field : Field) (row : Row) : Option Row :=
  match s.attrIdx field.name with
  | none => some row
  | some i =>
    if field.datatype = .string then
      match row[i]? with
      | some (.str (some _)) => some (row.set i (.str (some (s.storedText field))))
      | _ => none
    else copyAt row i (field.value.map some)

end Schema

end AwaDB
