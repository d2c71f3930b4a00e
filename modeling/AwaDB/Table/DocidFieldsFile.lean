import AwaDB.Lib.Codec
import AwaDB.Lib.Lists
import AwaDB.Table.Row

/-!
# The file of the dynamic columns (`DocidFieldsMgr::Dump` and `Load` in `table/docid_fields_mgr.cc`)

`Dump` looks at two counters, opens the file for writing, which empties it, and writes the fields, the
sizes of the entries and the entries. `Load` reads them in the same order.

* `load_written`: what a `Dump` has written to its end is read back, whatever the entries are;
* `persists_iff_refused`: the copy of the last `Dump` is safe exactly when the next one stops before it
  opens the file.
-/

namespace AwaDB

open Lib

/-- A field of `fid_id2name_`, with its type and `fid2index_`. -/
structure SavedField where
  name : Bytes
  id : ℕ
  dataType : DataType
  isIndex : Bool
deriving DecidableEq, Repr

/-- The array of one docid: the number of its fields, and the ids and positions behind it. -/
structure SavedEntry where
  num : ℕ
  body : Bytes
deriving DecidableEq, Repr

/-- What `DocidFieldsMgr` has in memory: `entries` is `docid_fields_map_`. -/
structure DocidContent where
  capacity : ℕ
  size : ℕ
  fieldsSize : ℕ
  fields : List SavedField
  entries : List (Option SavedEntry)
deriving DecidableEq, Repr

namespace DocidContent

/-! ### Dump -/

/-- The byte for a type. -/
def typeCode : DataType → ℕ
  | .int => 0
  | .long => 1
  | .float => 2
  | .double => 3
  | .string => 4
  | .vector => 5
  | .multiString => 6

/-- The type of a byte. -/
def typeOf : ℕ → DataType
  | 1 => .long
  | 2 => .float
  | 3 => .double
  | 4 => .string
  | 5 => .vector
  | 6 => .multiString
  | _ => .int

/-- One field; the length of the name is cast to a byte. -/
def writeField (f : SavedField) : Bytes :=
  leWord 1 (f.name.length % 2 ^ 8) ++ (f.name.take (f.name.length % 2 ^ 8) ++
    (leWord 1 f.id ++ (leWord 1 (typeCode f.dataType) ++ leWord 1 f.isIndex.toNat)))

/-- The entries below `size_`, if none of them is missing. -/
def saved (m : DocidContent) : Option (List SavedEntry) := (m.entries.take m.size).mapM id

/-- `Dump` returns false before it opens the file. -/
def refused (m : DocidContent) : Bool := m.capacity < m.size ∨ m.fieldsSize ≠ m.fields.length

/-- What `Dump` writes, up to its end or until it finds that an entry is missing. -/
def written (m : DocidContent) : Bytes :=
  leWord 4 m.capacity ++ (leWord 4 m.size ++ (leWord 1 m.fieldsSize ++ (m.fields.flatMap writeField ++
    match m.saved with
    | none => []
    | some entries =>
      (entries.map fun e => 5 * e.num).flatMap (leWord 4) ++ entries.flatMap SavedEntry.body)))

/-! ### Load -/

/-- Some bytes. -/
def readBytes (num : ℕ) : Reader Bytes := fun f =>
  if f.length < num then none else some (f.take num, f.drop num)

/-- One field. -/
def readField : Reader SavedField := fun f =>
  (readWord 1 f).bind fun len =>
    (readBytes len.1 len.2).bind fun name =>
      (readWord 1 name.2).bind fun fid =>
        (readWord 1 fid.2).bind fun type =>
          (readWord 1 type.2).map fun isIndex =>
            (⟨name.1, fid.1, typeOf type.1, isIndex.1 = 1⟩, isIndex.2)

/-- The entries of these sizes. -/
def readEntries : List ℕ → Reader (List SavedEntry)
  | [], f => some ([], f)
  | info :: infos, f =>
    (readBytes info f).bind fun body =>
      (readEntries infos body.2).map fun rest => (⟨info / 5 % 2 ^ 8, body.1⟩ :: rest.1, rest.2)

/-- The columns with a folder; a vector needs none. -/
def hasColumn (folders : Bytes → Bool) (f : SavedField) : Bool := f.dataType = .vector ∨ folders f.name

/-- `Load` behind `capacity_`. -/
def loadRest (folders : Bytes → Bool) (capacity : ℕ) (f : Bytes) : Option DocidContent :=
  (readWord 4 f).bind fun size =>
    (readWord 1 size.2).bind fun fieldsSize =>
      (readList readField fieldsSize.1 fieldsSize.2).bind fun fields =>
        (readList (readWord 4) size.1 fields.2).bind fun infos =>
          (readEntries (infos.1.take capacity) infos.2).map fun entries =>
            { capacity
              size := size.1
              fieldsSize := fieldsSize.1
              fields := fields.1.filter (hasColumn folders)
              entries := entries.1.map some ++ List.replicate (capacity - size.1) none }

/-- `DocidFieldsMgr::Load`. From an empty file nothing is read and the members stay zero; to use what a
shorter file does not have is undefined. -/
def load (folders : Bytes → Bool) (f : Bytes) : Option DocidContent :=
  if f = [] then some ⟨0, 0, 0, [], []⟩
  else (readWord 4 f).bind fun capacity => loadRest folders capacity.1 capacity.2

/-! ### What is persistent -/

/-- What a `Dump` that fails may leave: the file as it was, or the first bytes of the new one. -/
def FailsWith (m : DocidContent) (file after : Option Bytes) : Prop :=
  if m.refused then after = file
  else ∃ k, after = some (m.written.take k) ∧ (k < m.written.length ∨ m.saved = none)

/-- **The content is persistent** after the content of the last `Dump`, if there was one: what is
written to the end is read back, and if it is not, what is read is what was read before. -/
structure Persists (folders : Bytes → Bool) (m : DocidContent) (last : Option DocidContent) : Prop where
  restores : m.refused = false → m.saved ≠ none → load folders m.written = some m
  keeps : ∀ after, m.FailsWith (last.map written) after →
    after.map (load folders) = last.map fun l => load folders l.written

/-! ### The round trip -/

/-- A content that fits its file: no entry below `size_` is missing, none is above it, and each has as
many bytes as its first says. -/
structure Sound (folders : Bytes → Bool) (m : DocidContent) (rows : List SavedEntry) : Prop where
  capacity : m.capacity < 2 ^ 32
  size : m.size ≤ m.capacity
  fieldsSize : m.fieldsSize < 2 ^ 8
  length : rows.length = m.size
  entries : m.entries = rows.map some ++ List.replicate (m.capacity - m.size) none
  body : ∀ e ∈ rows, e.num < 2 ^ 8 ∧ e.body.length = 5 * e.num
  field : ∀ f ∈ m.fields, f.name.length < 2 ^ 8 ∧ f.id < 2 ^ 8 ∧ hasColumn folders f = true

theorem reads_readBytes (bytes : Bytes) : Reads (readBytes bytes.length) bytes bytes := by
  intro rest
  rw [readBytes, if_neg (by simp), List.take_left, List.drop_left]

theorem typeOf_typeCode (t : DataType) : typeOf (typeCode t) = t := by
  cases t <;> rfl

theorem reads_readField {f : SavedField} (hname : f.name.length < 2 ^ 8) (hid : f.id < 2 ^ 8) :
    Reads readField (writeField f) f := by
  intro rest
  have hcode : typeCode f.dataType < 256 ^ 1 := by
    cases f.dataType <;> decide
  have hindex : f.isIndex.toNat < 256 ^ 1 := by
    cases f.isIndex <;> decide
  have hbool : decide (f.isIndex.toNat = 1) = f.isIndex := by
    cases f.isIndex <;> rfl
  rw [writeField, Nat.mod_eq_of_lt hname, List.take_length, readField]
  simp only [List.append_assoc]
  rw [readWord_leWord hname, Option.bind_some, reads_readBytes, Option.bind_some, readWord_leWord hid,
    Option.bind_some, readWord_leWord hcode, Option.bind_some, readWord_leWord hindex, Option.map_some,
    typeOf_typeCode, hbool]

theorem reads_readEntries {entries : List SavedEntry}
    (h : ∀ e ∈ entries, e.num < 2 ^ 8 ∧ e.body.length = 5 * e.num) :
    Reads (readEntries (entries.map fun e => 5 * e.num)) (entries.flatMap SavedEntry.body) entries := by
  intro rest
  induction entries with
  | nil => rfl
  | cons e entries ih =>
    obtain ⟨hnum, hbody⟩ := h e List.mem_cons_self
    have hrest := ih fun e' he' => h e' (List.mem_cons_of_mem e he')
    have hread := reads_readBytes e.body (entries.flatMap SavedEntry.body ++ rest)
    rw [hbody] at hread
    rw [List.flatMap_cons, List.map_cons, List.append_assoc, readEntries, hread, Option.bind_some, hrest,
      Option.map_some, Nat.mul_div_cancel_left _ (by decide), Nat.mod_eq_of_lt hnum]

theorem Sound.saved {folders : Bytes → Bool} {m : DocidContent} {rows : List SavedEntry}
    (h : m.Sound folders rows) : m.saved = some rows := by
  have hlength : (rows.map some).length = m.size := by rw [List.length_map, h.length]
  rw [DocidContent.saved, h.entries, ← hlength, List.take_left, mapM_id_map_some]

/-- **What `Dump` has written is read back.** -/
theorem load_written {folders : Bytes → Bool} {m : DocidContent} {rows : List SavedEntry}
    (h : m.Sound folders rows) (hrefused : m.refused = false) :
    load folders m.written = some m := by
  have hfields : m.fieldsSize = m.fields.length := by
    have hnot : ¬ (m.capacity < m.size ∨ m.fieldsSize ≠ m.fields.length) := by
      simpa [refused] using hrefused
    exact not_not.mp fun hne => hnot (.inr hne)
  have hsize : m.size < 256 ^ 4 := Nat.lt_of_le_of_lt h.size h.capacity
  have hlist : Reads (readList readField m.fields.length) (m.fields.flatMap writeField) m.fields :=
    readList_flatMap fun f hf => reads_readField (h.field f hf).1 (h.field f hf).2.1
  have hwords : Reads (readList (readWord 4) (rows.map fun e => 5 * e.num).length)
      ((rows.map fun e => 5 * e.num).flatMap (leWord 4)) (rows.map fun e => 5 * e.num) := by
    apply readList_flatMap
    intro w hw
    obtain ⟨e, he, rfl⟩ := List.mem_map.mp hw
    have hnum := (h.body e he).1
    exact readWord_leWord (by omega)
  rw [List.length_map, h.length] at hwords
  have hinfos : (rows.map fun e => 5 * e.num).length ≤ m.capacity := by
    rw [List.length_map, h.length]
    exact h.size
  have hentries := reads_readEntries h.body []
  rw [List.append_nil] at hentries
  rw [load, if_neg (by simp [written, leWord]), written, h.saved]
  dsimp only
  rw [readWord_leWord h.capacity, Option.bind_some, loadRest, readWord_leWord hsize, Option.bind_some,
    hfields, readWord_leWord (by rw [← hfields]; exact h.fieldsSize), Option.bind_some, hlist,
    Option.bind_some, hwords, Option.bind_some, List.take_of_length_le hinfos, hentries,
    Option.map_some, ← hfields, ← h.entries,
    List.filter_eq_self.mpr fun f hf => (h.field f hf).2.2]

/-! ### The last copy -/

theorem loadRest_capacity {folders : Bytes → Bool} {capacity : ℕ} {f : Bytes} {m : DocidContent}
    (h : loadRest folders capacity f = some m) : m.capacity = capacity := by
  obtain ⟨size, -, h⟩ := Option.bind_eq_some_iff.mp h
  obtain ⟨fieldsSize, -, h⟩ := Option.bind_eq_some_iff.mp h
  obtain ⟨fields, -, h⟩ := Option.bind_eq_some_iff.mp h
  obtain ⟨infos, -, h⟩ := Option.bind_eq_some_iff.mp h
  obtain ⟨entries, -, rfl⟩ := Option.map_eq_some_iff.mp h
  rfl

/-- The empty file is not read as the copy of the last `Dump`. -/
theorem load_nil_ne {folders : Bytes → Bool} {l : DocidContent} (hpos : 0 < l.capacity)
    (hlt : l.capacity < 2 ^ 32) : load folders [] ≠ load folders l.written := by
  intro heq
  have hnil : load folders [] = some ⟨0, 0, 0, [], []⟩ := rfl
  rw [hnil, load, if_neg (by simp [written, leWord]), written, readWord_leWord hlt,
    Option.bind_some] at heq
  have hcapacity : 0 = l.capacity := loadRest_capacity heq.symm
  omega

theorem not_persists {folders : Bytes → Bool} {m : DocidContent} {last : Option DocidContent}
    (hlast : ∀ l, last = some l → 0 < l.capacity ∧ l.capacity < 2 ^ 32) (hrefused : m.refused = false) :
    ¬ m.Persists folders last := by
  intro h
  have hfails : m.FailsWith (last.map written) (some []) := by
    rw [FailsWith, hrefused]
    exact ⟨0, rfl, .inl (by simp [written, leWord])⟩
  have hkeeps := h.keeps (some []) hfails
  cases last with
  | none => cases hkeeps
  | some l =>
    obtain ⟨hpos, hlt⟩ := hlast l rfl
    exact load_nil_ne hpos hlt (Option.some.inj hkeeps)

/-- **The copy of the last `Dump` is safe exactly when the next one is refused.** -/
theorem persists_iff_refused (folders : Bytes → Bool) (m : DocidContent) (last : Option DocidContent)
    (hlast : ∀ l, last = some l → 0 < l.capacity ∧ l.capacity < 2 ^ 32) :
    m.Persists folders last ↔ m.refused = true := by
  constructor
  · intro h
    cases hrefused : m.refused with
    | true => rfl
    | false => exact absurd h (not_persists hlast hrefused)
  · intro hrefused
    refine ⟨fun hfalse => ?_, fun after hafter => ?_⟩
    · rw [hrefused] at hfalse
      cases hfalse
    · rw [FailsWith, hrefused] at hafter
      replace hafter : after = last.map written := hafter
      rw [hafter, Option.map_map]
      rfl

/-- One column and one docid. -/
def oneDocid : DocidContent where
  capacity := 2
  size := 1
  fieldsSize := 1
  fields := [⟨[97], 1, .int, true⟩]
  entries := [some ⟨1, [1, 0, 0, 0, 0]⟩, none]

/-- The same, but the entry is that of the second docid. -/
def secondDocid : DocidContent := { oneDocid with entries := [none, some ⟨1, [1, 0, 0, 0, 0]⟩] }

theorem persists_oneDocid :
    secondDocid.Persists (fun _ => true) (some oneDocid) ↔ secondDocid.refused = true :=
  persists_iff_refused _ _ _ fun l h => by
    cases h
    decide

/-- The entry of the first docid is missing, and the copy that was there is lost. -/
theorem lost_copy : ¬ ∀ (folders : Bytes → Bool) (m : DocidContent) (last : Option DocidContent),
    (∀ l, last = some l → 0 < l.capacity ∧ l.capacity < 2 ^ 32) → m.Persists folders last := by
  intro h
  have hlast : ∀ l, some oneDocid = some l → 0 < l.capacity ∧ l.capacity < 2 ^ 32 := by
    intro l hl
    cases hl
    decide
  exact not_persists hlast (by decide) (h (fun _ => true) secondDocid (some oneDocid) hlast)

end DocidContent

end AwaDB
