import AwaDB.Lib.Run
import AwaDB.Table.Node
import AwaDB.Table.Row
import Mathlib.Data.List.AList

/-!
# The index of one field (`FieldRangeIndex` in `table/field_range_index.cc`)

The index maps keys to nodes. A numeric value has one key, its bytes in reverse order with the sign
bit flipped; a string has a key for each of its tags. The B-tree is taken for the ordered map it
implements, and kept as an association list.
-/

namespace AwaDB

/-- `kDelim_`. -/
def kDelim : UInt8 := 1

/-- `ReverseEndian`, which writes before its output when the value is empty. -/
def reverseEndian (value : Bytes) : Option Bytes :=
  match value.reverse with
  | [] => none
  | byte :: bytes => some ((byte + 0x80) :: bytes)

/-- `utils::split`, and `strtok_r` over a string: the pieces between delimiters that are not
empty. -/
def split (value : Bytes) : List Bytes := (value.splitOn kDelim).filter (· ≠ [])

/-- The bytes that a C string function sees. -/
def cString (value : Bytes) : Bytes := value.takeWhile (· ≠ 0)

/-- The B-tree of an index. -/
abbrev BTree := AList fun _ : Bytes => Node

namespace BTree

/-- `InsertToBt`. -/
def insertToBt (value : ℕ) (key : Bytes) (t : BTree) : Option BTree :=
  match t.lookup key with
  | none => (Node.new.add value).map fun n => t.insert key n
  | some n => (n.add value).map fun n => t.insert key n

/-- `DeleteFromBt`. -/
def deleteFromBt (value : ℕ) (key : Bytes) (t : BTree) : BTree :=
  match t.lookup key with
  | none => t
  | some n => t.insert key (n.delete value)

/-- The document is in the node of the key. -/
def Holds (t : BTree) (key : Bytes) (d : ℕ) : Prop := ∃ n, t.lookup key = some n ∧ n.Holds d

instance (t : BTree) (key : Bytes) (d : ℕ) : Decidable (t.Holds key d) :=
  match h : t.lookup key with
  | none => isFalse fun ⟨_, hn, _⟩ => by rw [h] at hn; cases hn
  | some n => decidable_of_iff (n.Holds d) (by simp [Holds, h])

variable {t : BTree} {key key' : Bytes} {n n' : Node}

/-- One node is written: a key has it, or the node that it had. -/
theorem lookup_insert_some (h : (AList.insert key n t).lookup key' = some n') :
    key' = key ∧ n' = n ∨ key' ≠ key ∧ t.lookup key' = some n' := by
  by_cases heq : key' = key
  · subst heq
    rw [AList.lookup_insert] at h
    exact .inl ⟨rfl, (Option.some.inj h).symm⟩
  · rw [AList.lookup_insert_ne heq] at h
    exact .inr ⟨heq, h⟩

theorem lookup_insert_none (h : (AList.insert key n t).lookup key' = none) :
    key' ≠ key ∧ t.lookup key' = none := by
  by_cases heq : key' = key
  · subst heq
    rw [AList.lookup_insert] at h
    cases h
  · rw [AList.lookup_insert_ne heq] at h
    exact ⟨heq, h⟩

end BTree

/-- `FieldRangeIndex`. -/
structure FieldRangeIndex where
  isNumeric : Bool
  tree : BTree

namespace FieldRangeIndex

/-- The constructor. -/
def create (fieldType : DataType) : FieldRangeIndex where
  isNumeric := decide (fieldType ≠ .string)
  tree := ∅

/-- The keys that `Add` and `Delete` find in a value. -/
def keys? (i : FieldRangeIndex) (value : Bytes) : Option (List Bytes) :=
  if i.isNumeric then (reverseEndian value).map fun key => [key]
  else some (split (cString value))

/-- `FieldRangeIndex::Add`. -/
def add (i : FieldRangeIndex) (key : Bytes) (value : ℕ) : Option FieldRangeIndex :=
  (i.keys? key).bind fun keys =>
    (Lib.runOps (BTree.insertToBt value) keys i.tree).map fun tree => { i with tree := tree }

/-- `FieldRangeIndex::Delete`. -/
def delete (i : FieldRangeIndex) (key : Bytes) (value : ℕ) : Option FieldRangeIndex :=
  (i.keys? key).map fun keys =>
    { i with tree := keys.foldl (fun tree key => tree.deleteFromBt value key) i.tree }

end FieldRangeIndex

end AwaDB
