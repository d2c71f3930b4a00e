import AwaDB.Client.Shelf
import AwaDB.Lib.Binary
import AwaDB.Table.KeyOrder
import AwaDB.Table.MultiString
import AwaDB.Vector.VectorManager

/-!
# The item of a search result (`Response::PackResultItem`, `Table::GetDocInfo`)

The fields that are asked for are split: vectors come from the vector stores, the other fields from the
table, which takes an empty list of fields for all of them. Numbers of the rows become text, those of the
columns stay bytes.

* `numberText_ne`: no number is its own text;
* `packResultItem_isSome`, `mem_packResultItem`: when an item is made, and what it has;
* `pack_result_item_iff`: an item has the fields that were asked for and nothing else, in one form,
  exactly when the list and the document are as `Plain` says.
-/

namespace AwaDB

open Lib

/-- `VectorManager::GetVector` of one field as bytes: the length of the vector and the vector. There are
no sources. -/
def VectorManager.framed (m : VectorManager) (docid : ℕ) (name : String) : Option Bytes :=
  let v := m.raw name
  if v.size ≤ docid then none
  else (v.getVector docid).map fun vec => leWord 4 v.vectorByteSize ++ vec.take v.vectorByteSize

namespace Awa

/-- `Table::NumericValueToStr`. -/
def numericValueToStr (type : DataType) (bytes : Bytes) : Bytes :=
  let word : ℕ := bytes.foldr (fun byte n => byte.toNat + 256 * n) 0
  match type with
  | .int => GammaEngine.numberText bytes
  | .float => NumericType.binary32.text word
  | .long => GammaEngine.numberText bytes
  | .double => NumericType.binary64.text word
  | _ => bytes

/-- What `GetDocInfo` makes of a cell. Empty strings are left out; what is read from memory that was never
written is undefined. -/
def cellValue (type : DataType) : Cell → Option (Option Bytes)
  | .str none => none
  | .str (some bytes) => some (if bytes = [] then none else some bytes)
  | .fixed bytes => (bytes.mapM id).map fun bytes => some (numericValueToStr type bytes)

/-- A name and a value of an item. -/
abbrev Entry := String × List MemByte

/-- A field of the schema in `GetDocInfo`. -/
def Shelf.rowEntry (s : Shelf) (row : Row) (name : String) : Option (Option Entry) :=
  (s.table.schema.attrIdx name).bind fun i =>
    (s.table.schema.attrType i).bind fun type =>
      (row[i]?).bind fun cell =>
        (cellValue type cell).map fun value => value.map fun bytes => (name, bytes.map some)

/-- `DocidFieldsMgr::Get` of a field, and what `PackResultItem` makes of a list of strings. -/
def Shelf.columnEntry (s : Shelf) (docid : ℕ) (name : String) : Option Entry :=
  if s.found docid name then
    let value := (s.columns.get docid name).getD []
    if (s.columns.fields name).map ColumnField.dataType = some .multiString then
      some (name, (packStrings (multiGet ((value.mapM id).getD [])).2).map some)
    else some (name, value)
  else none

/-- A field in the loop over the fields that `GetDocInfo` is asked for. -/
def Shelf.tableEntry (s : Shelf) (docid : ℕ) (row : Row) (name : String) : Option (Option Entry) :=
  if name ∈ s.table.schema.names then s.rowEntry row name else some (s.columnEntry docid name)

/-- `Table::GetDocInfo`, where `columnNames` are the names of `fid_name2id_`. -/
def Shelf.getDocInfo (s : Shelf) (columnNames : List String) (docid : ℕ) (fields : List String) :
    Option (List Entry) :=
  if (docid : ℤ) > s.table.lastDocid then some []
  else
    match s.table.getRow docid with
    | none => some []
    | some row =>
      if fields = [] then
        (s.table.schema.names.mapM (s.rowEntry row)).map fun entries =>
          columnNames.filterMap (s.columnEntry docid) ++ entries.filterMap id
      else (fields.mapM (s.tableEntry docid row)).map fun entries => entries.filterMap id

/-- The vectors of an item: all of them, or none if `GetVector` fails. -/
def vectorEntries (m : VectorManager) (docid : ℕ) (vecFields : List String) : List Entry :=
  (vecFields.mapM fun name => (m.framed docid name).map fun bytes => (name, bytes.map some)).getD []

/-- The names and values of `Response::PackResultItem`. -/
def Shelf.packResultItem (s : Shelf) (m : VectorManager) (columnNames : List String) (docid : ℕ)
    (asked : List String) : Option (List Entry) :=
  (s.getDocInfo columnNames docid (asked.filter (· ∉ m.names))).map fun fields =>
    vectorEntries m docid (asked.filter (· ∈ m.names)) ++ fields

/-! ### What a document holds -/

/-- The row has a value: bytes that were written, and one of them at least. -/
def Shelf.InRow (s : Shelf) (row : Row) (name : String) : Prop :=
  ∃ i bytes, s.table.schema.attrIdx name = some i ∧ bytes ≠ [] ∧
    (row[i]? = some (.fixed (bytes.map some)) ∨ row[i]? = some (.str (some bytes)))

/-- The columns have a value: the entry of the document has the id of the field. -/
def Shelf.InColumns (s : Shelf) (docid : ℕ) (name : String) : Prop :=
  ∃ entry c, s.columns.entries docid = some entry ∧ s.columns.fields name = some c ∧
    c.id ∈ entry.map Prod.fst

/-- The document holds a value for the name: a vector, or a value of the table. -/
def Shelf.Holds (s : Shelf) (m : VectorManager) (docid : ℕ) (row : Row) (name : String) : Prop :=
  if name ∈ m.names then (m.framed docid name).isSome = true
  else if name ∈ s.table.schema.names then s.InRow row name
  else s.InColumns docid name

/-- The bytes that are stored for a number. -/
def Shelf.storedBytes (s : Shelf) (docid : ℕ) (row : Row) (name : String) : Option (List MemByte) :=
  if name ∈ s.table.schema.names then
    (s.table.schema.attrIdx name).bind fun i =>
      (row[i]?).bind fun cell =>
        match cell with
        | .fixed bytes => some bytes
        | .str _ => none
  else s.columns.get docid name

/-- The item has the fields that were asked for and that the document holds, and integers as text. -/
structure Carries (s : Shelf) (m : VectorManager) (docid : ℕ) (row : Row) (asked : List String)
    (item : List Entry) : Prop where
  names : ∀ name, name ∈ item.map Prod.fst ↔ name ∈ asked ∧ s.Holds m docid row name
  ints : ∀ p ∈ item, s.fieldType p.1 = some .int ∨ s.fieldType p.1 = some .long →
    ∃ bytes, s.storedBytes docid row p.1 = some (bytes.map some) ∧
      p.2 = (GammaEngine.numberText bytes).map some

/-- The table gives something for the name when it is asked for all fields. -/
def Shelf.Shows (s : Shelf) (docid : ℕ) (row : Row) (name : String) : Prop :=
  (∃ i, s.table.schema.attrIdx name = some i ∧ row[i]? ≠ some (.str (some []))) ∨
    s.found docid name = true

/-- **The lists and documents without surprises**: all vectors that are asked for are there or none of
them is; the list has a field that is no vector, or the table has nothing of the document; the fields of
the rows have a value or an empty string; the columns that are there are found, and the integers are in
the rows. -/
structure Plain (s : Shelf) (m : VectorManager) (docid : ℕ) (row : Row) (asked : List String) : Prop where
  vectors : (∀ name ∈ asked, name ∈ m.names → (m.framed docid name).isSome) ∨
    ∀ name ∈ asked, name ∈ m.names → m.framed docid name = none
  table : (∀ name ∈ asked, name ∈ m.names) → ∀ name, ¬ s.Shows docid row name
  rows : ∀ name ∈ asked, ∀ i, s.table.schema.attrIdx name = some i →
    s.InRow row name ∨ row[i]? = some (.str (some []))
  columns : ∀ name ∈ asked, s.InColumns docid name → s.found docid name = true
  ints : ∀ name ∈ asked, s.found docid name = true →
    s.fieldType name ≠ some .int ∧ s.fieldType name ≠ some .long

/-- Each name belongs to a vector, a field of the schema or a column, and `columnNames` are all columns. -/
structure Shelf.Separate (s : Shelf) (m : VectorManager) (columnNames : List String) : Prop where
  vectors : ∀ name ∈ m.names, name ∉ s.table.schema.names
  columns : ∀ name ∈ columnNames, name ∉ m.names ∧ name ∉ s.table.schema.names
  all : ∀ name, (s.columns.fields name).isSome → name ∈ columnNames

/-! ### Texts of numbers -/

/-- A text of an integer has a character, and they are the minus sign and digits. -/
theorem decimal_bound (z : ℤ) : decimal z ≠ [] ∧ ∀ c ∈ decimal z, 45 ≤ c.toNat ∧ c.toNat ≤ 57 := by
  have hnat : ∀ c ∈ natDecimal z.natAbs, 45 ≤ c.toNat ∧ c.toNat ≤ 57 := by
    intro c hc
    rw [natDecimal] at hc
    split at hc
    · rw [List.mem_singleton.mp hc]
      decide
    · obtain ⟨d, hd, rfl⟩ := List.mem_map.mp hc
      have hlt : d < 10 := Nat.digits_lt_base (by decide) (List.mem_reverse.mp hd)
      rw [toNat_digit hlt]
      omega
  obtain ⟨c, cs, hcons, -⟩ := natDecimal_cons z.natAbs
  rw [decimal]
  split
  · refine ⟨List.cons_ne_nil _ _, fun c hc => ?_⟩
    rcases List.mem_cons.mp hc with rfl | hc
    · decide
    · exact hnat c hc
  · exact ⟨hcons ▸ List.cons_ne_nil _ _, hnat⟩

/-- The number of such characters: the last one is the highest digit. -/
theorem word_bound {bytes : Bytes} {n : ℕ} (hlen : bytes.length = n + 1)
    (h : ∀ c ∈ bytes, 45 ≤ c.toNat ∧ c.toNat ≤ 57) :
    45 * 256 ^ n ≤ bytes.foldr (fun byte n => byte.toNat + 256 * n) 0 ∧
      bytes.foldr (fun byte n => byte.toNat + 256 * n) 0 < 58 * 256 ^ n := by
  induction n generalizing bytes with
  | zero =>
    obtain ⟨c, rfl⟩ := List.length_eq_one_iff.mp hlen
    obtain ⟨hlow, hhigh⟩ := h c List.mem_cons_self
    rw [List.foldr_cons, List.foldr_nil]
    omega
  | succ n ih =>
    cases bytes with
    | nil => cases hlen
    | cons c cs =>
      obtain ⟨hlow, hhigh⟩ := ih (Nat.succ.inj hlen) fun c' hc' => h c' (List.mem_cons_of_mem c hc')
      have hc := (h c List.mem_cons_self).2
      rw [List.foldr_cons, Nat.pow_succ]
      omega

/-- **No number is its own text**: the characters are higher than the digits. -/
theorem numberText_ne (bytes : Bytes) : GammaEngine.numberText bytes ≠ bytes := by
  intro heq
  obtain ⟨z, hz, htext⟩ : ∃ z : ℤ,
      (2 * bytes.foldr (fun byte n => byte.toNat + 256 * n) 0 < 256 ^ bytes.length →
        z = (bytes.foldr (fun byte n => byte.toNat + 256 * n) 0 : ℕ)) ∧
      GammaEngine.numberText bytes = decimal z := ⟨_, fun hlt => if_pos hlt, rfl⟩
  rw [heq] at htext
  obtain ⟨hne, hchars⟩ := decimal_bound z
  have hread := parse_decimal z
  rw [← htext] at hne hchars hread
  obtain ⟨n, hlen⟩ := Nat.exists_eq_succ_of_ne_zero (mt List.length_eq_zero_iff.mp hne)
  obtain ⟨hlow, hhigh⟩ := word_bound hlen hchars
  have hten : 10 ^ (n + 1) ≤ 45 * 256 ^ n := by
    rw [Nat.pow_succ, Nat.mul_comm]
    exact Nat.mul_le_mul (by decide) (Nat.pow_le_pow_left (by decide) n)
  have hpow : 256 ^ (n + 1) = 256 * 256 ^ n := by
    rw [Nat.pow_succ, Nat.mul_comm]
  have hdigits := (parse_bound hread).1
  rw [hlen, Nat.succ_eq_add_one, hpow] at hz
  rw [hlen, Nat.succ_eq_add_one, hz (by omega), Int.natAbs_natCast] at hdigits
  omega

/-! ### What an item has -/

section

variable {s : Shelf} {m : VectorManager} {columnNames asked : List String} {docid : ℕ} {row : Row}

theorem attrIdx_of_mem {name : String} (h : name ∈ s.table.schema.names) :
    ∃ i type, s.table.schema.attrIdx name = some i ∧ s.table.schema.attrType i = some type := by
  have hlt : s.table.schema.names.idxOf name < s.table.schema.attrs.length := by
    have hidx := List.idxOf_lt_length_of_mem h
    rwa [Schema.names, List.length_map] at hidx
  exact ⟨_, _, if_pos h, congrArg (Option.map FieldInfo.dataType) (List.getElem?_eq_getElem hlt)⟩

theorem mem_of_attrIdx {name : String} {i : ℕ} (h : s.table.schema.attrIdx name = some i) :
    name ∈ s.table.schema.names := by
  by_contra hno
  rw [Schema.attrIdx, if_neg hno] at h
  cases h

/-- What is made of a cell. -/
theorem cellValue_cases {type : DataType} {cell : Cell} {value : Option Bytes}
    (h : cellValue type cell = some value) :
    (value = none ∧ cell = .str (some [])) ∨
    ∃ bytes, (cell = .str (some bytes) ∧ bytes ≠ [] ∧ value = some bytes) ∨
      (cell = .fixed (bytes.map some) ∧ value = some (numericValueToStr type bytes)) := by
  cases cell with
  | str text =>
    cases text with
    | none => cases h
    | some bytes =>
      obtain rfl := Option.some.inj h
      by_cases hnil : bytes = []
      · exact .inl ⟨if_pos hnil, by rw [hnil]⟩
      · exact .inr ⟨bytes, .inl ⟨rfl, hnil, if_neg hnil⟩⟩
  | fixed cells =>
    obtain ⟨bytes, hbytes, rfl⟩ := Option.map_eq_some_iff.mp h
    exact .inr ⟨bytes, .inr ⟨by rw [eq_map_some_of_mapM_id hbytes], rfl⟩⟩

/-- A field of the schema, by its cell. -/
theorem rowEntry_eq (hshaped : s.table.schema.Shaped row) {name : String}
    (h : name ∈ s.table.schema.names) :
    ∃ i type cell, s.table.schema.attrIdx name = some i ∧ row[i]? = some cell ∧
      s.rowEntry row name =
        (cellValue type cell).map fun value => value.map fun bytes => (name, bytes.map some) := by
  obtain ⟨i, type, hidx, htype⟩ := attrIdx_of_mem h
  have hlt : i < row.length := by
    obtain ⟨info, hinfo, -⟩ := Option.map_eq_some_iff.mp htype
    rw [hshaped.length]
    exact (List.getElem?_eq_some_iff.mp hinfo).1
  refine ⟨i, type, row[i], hidx, List.getElem?_eq_getElem hlt, ?_⟩
  rw [Shelf.rowEntry, hidx, Option.bind_some, htype, Option.bind_some, List.getElem?_eq_getElem hlt,
    Option.bind_some]

/-- Nothing is made of an empty string, and only of this. -/
theorem rowEntry_none_iff (hshaped : s.table.schema.Shaped row) {name : String} {i : ℕ}
    (hidx : s.table.schema.attrIdx name = some i) :
    s.rowEntry row name = some none ↔ row[i]? = some (.str (some [])) := by
  obtain ⟨i', type, cell, hidx', hcell, hentry⟩ := rowEntry_eq hshaped (mem_of_attrIdx hidx)
  obtain rfl := Option.some.inj (hidx.symm.trans hidx')
  rw [hentry, hcell, Option.some.injEq, Option.map_eq_some_iff]
  constructor
  · rintro ⟨value, hvalue, hnone⟩
    rcases cellValue_cases hvalue with ⟨-, hempty⟩ | ⟨bytes, ⟨-, -, rfl⟩ | ⟨-, rfl⟩⟩
    · exact hempty
    · cases hnone
    · cases hnone
  · rintro rfl
    exact ⟨none, rfl, rfl⟩

/-- An entry of the rows has the name of its field. -/
theorem rowEntry_some {name : String} {e : Entry}
    (h : s.rowEntry row name = some (some e)) : e.1 = name := by
  obtain ⟨i, -, hrest⟩ := Option.bind_eq_some_iff.mp h
  obtain ⟨type, -, hrest⟩ := Option.bind_eq_some_iff.mp hrest
  obtain ⟨cell, -, hrest⟩ := Option.bind_eq_some_iff.mp hrest
  obtain ⟨value, -, hvalue⟩ := Option.map_eq_some_iff.mp hrest
  obtain ⟨bytes, -, rfl⟩ := Option.map_eq_some_iff.mp hvalue
  rfl

/-- A value in the row makes an entry. -/
theorem rowEntry_of_inRow (hshaped : s.table.schema.Shaped row) {name : String}
    (h : s.InRow row name) : ∃ e, s.rowEntry row name = some (some e) := by
  obtain ⟨i, bytes, hidx, hne, hcell⟩ := h
  obtain ⟨i', type, cell, hidx', hcell', hentry⟩ := rowEntry_eq hshaped (mem_of_attrIdx hidx)
  obtain rfl := Option.some.inj (hidx.symm.trans hidx')
  rw [hentry]
  rcases hcell with hcell | hcell <;> rw [hcell] at hcell' <;> obtain rfl := Option.some.inj hcell'
  · rw [cellValue, mapM_id_map_some]
    exact ⟨_, rfl⟩
  · rw [cellValue, if_neg hne]
    exact ⟨_, rfl⟩

theorem columnEntry_isSome {name : String} :
    (s.columnEntry docid name).isSome ↔ s.found docid name = true := by
  rw [Shelf.columnEntry]
  split
  · rename_i hfound
    refine iff_of_true ?_ hfound
    dsimp only
    split <;> rfl
  · rename_i hfound
    exact iff_of_false (by simp) hfound

theorem columnEntry_some {name : String} {e : Entry} (h : s.columnEntry docid name = some e) :
    e.1 = name ∧ s.found docid name = true := by
  have hfound := columnEntry_isSome.mp (Option.isSome_of_mem h)
  rw [Shelf.columnEntry, if_pos hfound] at h
  dsimp only at h
  split at h <;> exact ⟨(congrArg Prod.fst (Option.some.inj h)).symm, hfound⟩

/-- What is found is in the entry of the document. -/
theorem inColumns_of_found {name : String} (h : s.found docid name = true) :
    s.InColumns docid name ∧ (s.columns.fields name).isSome := by
  rw [Shelf.found, Bool.and_eq_true] at h
  obtain ⟨entry, hentry, hrest⟩ := Option.bind_eq_some_iff.mp (Option.eq_some_of_isSome h.2)
  obtain ⟨c, hc, hfind⟩ := Option.bind_eq_some_iff.mp hrest
  exact ⟨⟨entry, c, hentry, hc, List.mem_of_getElem? (DocidFieldsMgr.find_sound hfind)⟩,
    Option.isSome_of_mem hc⟩

/-- An entry of the table has the name that it was asked for. -/
theorem tableEntry_some {name : String} {e : Entry}
    (h : s.tableEntry docid row name = some (some e)) : e.1 = name := by
  rw [Shelf.tableEntry] at h
  split at h
  · exact rowEntry_some h
  · exact (columnEntry_some (Option.some.inj h)).1

/-- The vectors of an item have the names that were asked for, if all of them are there. -/
theorem mem_vectorEntries {names : List String} {name : String} :
    name ∈ (vectorEntries m docid names).map Prod.fst ↔
      name ∈ names ∧ ∀ name ∈ names, (m.framed docid name).isSome := by
  rw [vectorEntries]
  cases hall : names.mapM fun name => (m.framed docid name).map fun bytes => (name, bytes.map some) with
  | none =>
    have hnot : ¬ ∀ name ∈ names, (m.framed docid name).isSome := by
      intro hsome
      have hmapM : (names.mapM fun name => (m.framed docid name).map fun bytes =>
          ((name, bytes.map some) : Entry)).isSome :=
        mapM_isSome_iff.mpr fun name hname => by rw [Option.isSome_map]; exact hsome name hname
      rw [hall] at hmapM
      cases hmapM
    exact iff_of_false (fun hno => List.not_mem_nil hno) fun h => hnot h.2
  | some entries =>
    have hsome : ∀ name ∈ names, (m.framed docid name).isSome := fun name hname => by
      have h := mapM_isSome_iff.mp (Option.isSome_of_mem hall) name hname
      rwa [Option.isSome_map] at h
    rw [Option.getD_some, List.mem_map]
    constructor
    · rintro ⟨e, he, rfl⟩
      obtain ⟨name, hname, hentry⟩ := (mem_of_mapM hall).mp he
      obtain ⟨bytes, -, rfl⟩ := Option.map_eq_some_iff.mp hentry
      exact ⟨hname, hsome⟩
    · rintro ⟨hname, -⟩
      obtain ⟨bytes, hbytes⟩ := Option.isSome_iff_exists.mp (hsome name hname)
      exact ⟨(name, bytes.map some), (mem_of_mapM hall).mpr ⟨name, hname, by rw [hbytes]; rfl⟩, rfl⟩

variable (hlast : (docid : ℤ) ≤ s.table.lastDocid) (hrow : s.table.rows[docid]? = some row)

include hlast hrow

/-- A list of fields is taken one by one. -/
theorem getDocInfo_of_ne {fields : List String} (hne : fields ≠ []) :
    s.getDocInfo columnNames docid fields =
      (fields.mapM (s.tableEntry docid row)).map fun entries => entries.filterMap id := by
  have hget : s.table.getRow docid = some row := by
    rw [Table.getRow, if_neg (by omega), Int.toNat_natCast, hrow]
  rw [Shelf.getDocInfo, if_neg (not_lt.mpr hlast), hget]
  exact if_neg hne

/-- The empty list of fields is taken for all of them. -/
theorem getDocInfo_nil :
    s.getDocInfo columnNames docid [] =
      (s.table.schema.names.mapM (s.rowEntry row)).map fun entries =>
        columnNames.filterMap (s.columnEntry docid) ++ entries.filterMap id := by
  have hget : s.table.getRow docid = some row := by
    rw [Table.getRow, if_neg (by omega), Int.toNat_natCast, hrow]
  rw [Shelf.getDocInfo, if_neg (not_lt.mpr hlast), hget]
  exact if_pos rfl

/-- What a list of fields gives. -/
theorem mem_getDocInfo {fields : List String} (hne : fields ≠ []) {entries : List Entry}
    (h : s.getDocInfo columnNames docid fields = some entries) {e : Entry} :
    e ∈ entries ↔ ∃ name ∈ fields, s.tableEntry docid row name = some (some e) := by
  rw [getDocInfo_of_ne hlast hrow hne] at h
  obtain ⟨found, hfound, rfl⟩ := Option.map_eq_some_iff.mp h
  rw [List.mem_filterMap]
  constructor
  · rintro ⟨value, hvalue, rfl⟩
    exact (mem_of_mapM hfound).mp hvalue
  · rintro ⟨name, hname, hentry⟩
    exact ⟨some e, (mem_of_mapM hfound).mpr ⟨name, hname, hentry⟩, rfl⟩

/-- Each field of the list was taken. -/
theorem getDocInfo_taken {fields : List String} {entries : List Entry}
    (h : s.getDocInfo columnNames docid fields = some entries) {name : String} (hmem : name ∈ fields) :
    ∃ value, s.tableEntry docid row name = some value ∧ ∀ e, value = some e → e ∈ entries := by
  have hne : fields ≠ [] := List.ne_nil_of_mem hmem
  have htaken := h
  rw [getDocInfo_of_ne hlast hrow hne] at htaken
  obtain ⟨found, hfound, -⟩ := Option.map_eq_some_iff.mp htaken
  obtain ⟨value, hvalue⟩ := Option.isSome_iff_exists.mp
    (mapM_isSome_iff.mp (Option.isSome_of_mem hfound) name hmem)
  refine ⟨value, hvalue, fun e he => (mem_getDocInfo hlast hrow hne h).mpr ⟨name, hmem, ?_⟩⟩
  rw [hvalue, he]

/-- The empty list gives all that the table shows. -/
theorem mem_getDocInfo_nil (hshaped : s.table.schema.Shaped row)
    (hall : ∀ name, (s.columns.fields name).isSome → name ∈ columnNames) {entries : List Entry}
    (h : s.getDocInfo columnNames docid [] = some entries) {name : String}
    (hshows : s.Shows docid row name) : name ∈ entries.map Prod.fst := by
  rw [getDocInfo_nil hlast hrow] at h
  obtain ⟨rows, hrows, rfl⟩ := Option.map_eq_some_iff.mp h
  rw [List.map_append, List.mem_append]
  rcases hshows with ⟨i, hidx, hcell⟩ | hfound
  · have hmem := mem_of_attrIdx hidx
    obtain ⟨value, hvalue⟩ := Option.isSome_iff_exists.mp
      (mapM_isSome_iff.mp (Option.isSome_of_mem hrows) name hmem)
    cases value with
    | none => exact absurd ((rowEntry_none_iff hshaped hidx).mp hvalue) hcell
    | some e =>
      refine .inr (List.mem_map.mpr ⟨e, List.mem_filterMap.mpr ⟨some e, ?_, rfl⟩, rowEntry_some hvalue⟩)
      exact (mem_of_mapM hrows).mpr ⟨name, hmem, hvalue⟩
  · obtain ⟨e, he⟩ := Option.isSome_iff_exists.mp (columnEntry_isSome.mpr hfound)
    refine .inl (List.mem_map.mpr ⟨e, List.mem_filterMap.mpr ⟨name, ?_, he⟩, (columnEntry_some he).1⟩)
    exact hall name (inColumns_of_found hfound).2

/-- Nothing is given if there is nothing to show. -/
theorem getDocInfo_nil_of_not_shows (hshaped : s.table.schema.Shaped row)
    (hnone : ∀ name, ¬ s.Shows docid row name) : s.getDocInfo columnNames docid [] = some [] := by
  have hrows : ∀ name ∈ s.table.schema.names, s.rowEntry row name = some none := by
    intro name hname
    obtain ⟨i, type, hidx, -⟩ := attrIdx_of_mem hname
    refine (rowEntry_none_iff hshaped hidx).mpr (by_contra fun hcell => ?_)
    exact hnone name (.inl ⟨i, hidx, hcell⟩)
  obtain ⟨rows, hmapM⟩ := Option.isSome_iff_exists.mp (mapM_isSome_iff.mpr fun name hname =>
    Option.isSome_of_mem (hrows name hname))
  have hrowsNil : rows.filterMap id = [] := by
    refine List.filterMap_eq_nil_iff.mpr fun value hvalue => ?_
    obtain ⟨name, hname, hentry⟩ := (mem_of_mapM hmapM).mp hvalue
    exact Option.some.inj (hentry.symm.trans (hrows name hname))
  have hcolumnsNil : columnNames.filterMap (s.columnEntry docid) = [] := by
    refine List.filterMap_eq_nil_iff.mpr fun name _ => ?_
    rw [← Option.not_isSome_iff_eq_none, columnEntry_isSome]
    exact fun hfound => hnone name (.inr hfound)
  rw [getDocInfo_nil hlast hrow, hmapM, Option.map_some, hrowsNil, hcolumnsNil]
  rfl

end

/-! ### When an item carries what was asked for -/

section

variable {s : Shelf} {m : VectorManager} {columnNames asked : List String} {docid : ℕ} {row : Row}

/-- What the table shows is no vector. -/
theorem Shelf.Separate.not_mem_of_shows (h : s.Separate m columnNames) {name : String}
    (hshows : s.Shows docid row name) : name ∉ m.names := by
  rcases hshows with ⟨i, hidx, -⟩ | hfound
  · exact fun hmem => h.vectors name hmem (mem_of_attrIdx hidx)
  · exact (h.columns name (h.all name (inColumns_of_found hfound).2)).1

/-- A column is neither a vector nor in the schema. -/
theorem Shelf.Separate.column (h : s.Separate m columnNames) {name : String}
    (hcolumns : s.InColumns docid name) : name ∉ m.names ∧ name ∉ s.table.schema.names := by
  obtain ⟨entry, c, -, hc, -⟩ := hcolumns
  exact h.columns name (h.all name (Option.isSome_of_mem hc))

/-- A vector field has no type in the table. -/
theorem Shelf.Separate.fieldType_vector (h : s.Separate m columnNames) {name : String}
    (hmem : name ∈ m.names) : s.fieldType name = none := by
  have hidx : s.table.schema.attrIdx name = none := if_neg (h.vectors name hmem)
  have hfields : s.columns.fields name = none := by
    rw [← Option.not_isSome_iff_eq_none]
    exact fun hsome => (h.columns name (h.all name hsome)).1 hmem
  rw [Shelf.fieldType, hidx]
  dsimp only
  rw [hfields]
  rfl

/-- The type of a row's integer. -/
theorem fieldType_row {name : String} {i : ℕ} (hidx : s.table.schema.attrIdx name = some i) :
    s.fieldType name = s.table.schema.attrType i := by
  rw [Shelf.fieldType, hidx]

/-- An integer of the rows becomes its text. -/
theorem rowEntry_int (hshaped : s.table.schema.Shaped row) {name : String} {e : Entry}
    (h : s.rowEntry row name = some (some e))
    (hint : s.fieldType name = some .int ∨ s.fieldType name = some .long) :
    ∃ bytes, s.storedBytes docid row name = some (bytes.map some) ∧
      e.2 = (GammaEngine.numberText bytes).map some := by
  obtain ⟨i, hidx, hrest⟩ := Option.bind_eq_some_iff.mp h
  obtain ⟨type, htype, hrest⟩ := Option.bind_eq_some_iff.mp hrest
  obtain ⟨cell, hcell, hrest⟩ := Option.bind_eq_some_iff.mp hrest
  obtain ⟨value, hvalue, hentry⟩ := Option.map_eq_some_iff.mp hrest
  rw [fieldType_row hidx, htype, Option.some.injEq, Option.some.injEq] at hint
  have hne : type ≠ .string := by
    rcases hint with rfl | rfl <;> exact fun hno => by cases hno
  obtain ⟨cells, hcells, -⟩ := hshaped.fixed i type htype hne
  obtain rfl : cell = .fixed cells := Option.some.inj (hcell.symm.trans hcells)
  rcases cellValue_cases hvalue with ⟨-, hno⟩ | ⟨bytes, ⟨hno, -⟩ | ⟨hbytes, rfl⟩⟩
  · cases hno
  · cases hno
  · obtain rfl := Cell.fixed.inj hbytes
    refine ⟨bytes, ?_, ?_⟩
    · rw [Shelf.storedBytes, if_pos (mem_of_attrIdx hidx), hidx, Option.bind_some, hcell]
      rfl
    · obtain rfl := Option.some.inj hentry
      rcases hint with rfl | rfl <;> rfl

/-- An integer of a column stays as it is stored. -/
theorem columnEntry_int {name : String} {e : Entry} (hschema : name ∉ s.table.schema.names)
    (h : s.columnEntry docid name = some e)
    (hint : s.fieldType name = some .int ∨ s.fieldType name = some .long) :
    e.2 = (s.columns.get docid name).getD [] := by
  have hidx : s.table.schema.attrIdx name = none := if_neg hschema
  rw [Shelf.fieldType, hidx] at hint
  dsimp only at hint
  rw [Shelf.columnEntry, if_pos (columnEntry_some h).2] at h
  dsimp only at h
  rw [if_neg (by rcases hint with hint | hint <;> rw [hint] <;> exact fun hno => by cases hno)] at h
  exact (congrArg Prod.snd (Option.some.inj h)).symm

/-- The table gives no vectors. -/
theorem not_mem_of_getDocInfo {fields : List String} {entries : List Entry}
    (hlast : (docid : ℤ) ≤ s.table.lastDocid) (hrow : s.table.rows[docid]? = some row)
    (hsep : s.Separate m columnNames)
    (h : s.getDocInfo columnNames docid fields = some entries) {e : Entry} (he : e ∈ entries) :
    e.1 ∉ m.names := by
  have hrowEntry : ∀ {name}, name ∈ s.table.schema.names → s.rowEntry row name = some (some e) →
      e.1 ∉ m.names := fun hmem hvalue hno => hsep.vectors _ hno (rowEntry_some hvalue ▸ hmem)
  have hcolumn : ∀ {name}, s.columnEntry docid name = some e → e.1 ∉ m.names := fun hvalue => by
    obtain ⟨rfl, hfound⟩ := columnEntry_some hvalue
    have hshows : s.Shows docid row e.1 := .inr hfound
    exact hsep.not_mem_of_shows hshows
  by_cases hnil : fields = []
  · rw [hnil, getDocInfo_nil hlast hrow] at h
    obtain ⟨rows, hrows, rfl⟩ := Option.map_eq_some_iff.mp h
    rcases List.mem_append.mp he with he | he
    · obtain ⟨name, -, hvalue⟩ := List.mem_filterMap.mp he
      exact hcolumn hvalue
    · obtain ⟨value, hvalue, rfl⟩ := List.mem_filterMap.mp he
      obtain ⟨name, hname, hentry⟩ := (mem_of_mapM hrows).mp hvalue
      exact hrowEntry hname hentry
  · obtain ⟨name, -, hvalue⟩ := (mem_getDocInfo hlast hrow hnil h).mp he
    rw [Shelf.tableEntry] at hvalue
    split at hvalue
    · rename_i hmem
      exact hrowEntry hmem hvalue
    · exact hcolumn (Option.some.inj hvalue)

/-- What the table gives for a plain list. -/
theorem Plain.getDocInfo (hplain : Plain s m docid row asked)
    (hlast : (docid : ℤ) ≤ s.table.lastDocid) (hrow : s.table.rows[docid]? = some row)
    (hshaped : s.table.schema.Shaped row) :
    ∃ fields, s.getDocInfo columnNames docid (asked.filter (· ∉ m.names)) = some fields ∧
      ∀ e, e ∈ fields ↔ ∃ name ∈ asked, name ∉ m.names ∧
        s.tableEntry docid row name = some (some e) := by
  have hmem : ∀ {name}, name ∈ asked.filter (· ∉ m.names) ↔ name ∈ asked ∧ name ∉ m.names := by
    intro name
    rw [List.mem_filter, decide_eq_true_iff]
  by_cases hnil : asked.filter (· ∉ m.names) = []
  · have hvectors : ∀ name ∈ asked, name ∈ m.names := fun name hname => by
      by_contra hno
      exact List.not_mem_nil (hnil ▸ hmem.mpr ⟨hname, hno⟩)
    rw [hnil]
    refine ⟨[], getDocInfo_nil_of_not_shows hlast hrow hshaped (hplain.table hvectors), fun e => ?_⟩
    apply iff_of_false List.not_mem_nil
    rintro ⟨name, hname, hno, -⟩
    exact hno (hvectors name hname)
  · have hsome : ∀ name ∈ asked.filter (· ∉ m.names), (s.tableEntry docid row name).isSome := by
      intro name hname
      rw [Shelf.tableEntry]
      split
      · rename_i hschema
        obtain ⟨i, type, hidx, -⟩ := attrIdx_of_mem hschema
        rcases hplain.rows name (hmem.mp hname).1 i hidx with hin | hempty
        · obtain ⟨e, he⟩ := rowEntry_of_inRow hshaped hin
          exact Option.isSome_of_mem he
        · exact Option.isSome_of_mem ((rowEntry_none_iff hshaped hidx).mpr hempty)
      · rfl
    obtain ⟨entries, hentries⟩ := Option.isSome_iff_exists.mp (mapM_isSome_iff.mpr hsome)
    have hfields : s.getDocInfo columnNames docid (asked.filter (· ∉ m.names)) =
        some (entries.filterMap id) := by
      rw [getDocInfo_of_ne hlast hrow hnil, hentries]
      rfl
    refine ⟨_, hfields, fun e => ?_⟩
    rw [mem_getDocInfo hlast hrow hnil hfields]
    constructor
    · rintro ⟨name, hname, hvalue⟩
      exact ⟨name, (hmem.mp hname).1, (hmem.mp hname).2, hvalue⟩
    · rintro ⟨name, hasked, hno, hvalue⟩
      exact ⟨name, hmem.mpr ⟨hasked, hno⟩, hvalue⟩

/-- A field of a plain list is given exactly if the table holds it. -/
theorem Plain.tableEntry_iff (hplain : Plain s m docid row asked)
    (hshaped : s.table.schema.Shaped row) {name : String} (hname : name ∈ asked)
    (hvector : name ∉ m.names) :
    (∃ e, s.tableEntry docid row name = some (some e)) ↔ s.Holds m docid row name := by
  rw [Shelf.Holds, if_neg hvector, Shelf.tableEntry]
  split
  · rename_i hschema
    refine ⟨fun ⟨e, he⟩ => ?_, rowEntry_of_inRow hshaped⟩
    obtain ⟨i, type, hidx, -⟩ := attrIdx_of_mem hschema
    rcases hplain.rows name hname i hidx with hin | hempty
    · exact hin
    · cases he.symm.trans ((rowEntry_none_iff hshaped hidx).mpr hempty)
  · constructor
    · rintro ⟨e, he⟩
      exact (inColumns_of_found (columnEntry_some (Option.some.inj he)).2).1
    · intro hin
      obtain ⟨e, he⟩ := Option.isSome_iff_exists.mp
        (columnEntry_isSome.mpr (hplain.columns name hname hin))
      exact ⟨e, congrArg some he⟩

/-- **Plain lists** are carried. -/
theorem Plain.carries (hplain : Plain s m docid row asked)
    (hlast : (docid : ℤ) ≤ s.table.lastDocid) (hrow : s.table.rows[docid]? = some row)
    (hshaped : s.table.schema.Shaped row) (hsep : s.Separate m columnNames) :
    ∃ item, s.packResultItem m columnNames docid asked = some item ∧
      Carries s m docid row asked item := by
  obtain ⟨fields, hfields, hmem⟩ := hplain.getDocInfo hlast hrow hshaped
  refine ⟨_, by rw [Shelf.packResultItem, hfields]; rfl, fun name => ?_, fun p hp hint => ?_⟩
  · rw [List.map_append, List.mem_append, mem_vectorEntries, List.mem_filter, decide_eq_true_iff]
    constructor
    · rintro (⟨⟨hasked, hvector⟩, hall⟩ | hfield)
      · refine ⟨hasked, ?_⟩
        rw [Shelf.Holds, if_pos hvector]
        exact hall name (List.mem_filter.mpr ⟨hasked, decide_eq_true hvector⟩)
      · obtain ⟨e, he, rfl⟩ := List.mem_map.mp hfield
        obtain ⟨name, hasked, hvector, hvalue⟩ := (hmem e).mp he
        rw [tableEntry_some hvalue]
        exact ⟨hasked, (hplain.tableEntry_iff hshaped hasked hvector).mp ⟨e, hvalue⟩⟩
    · rintro ⟨hasked, hholds⟩
      by_cases hvector : name ∈ m.names
      · rw [Shelf.Holds, if_pos hvector] at hholds
        rcases hplain.vectors with hall | hnone
        · refine .inl ⟨⟨hasked, hvector⟩, fun name' hname' => ?_⟩
          rw [List.mem_filter, decide_eq_true_iff] at hname'
          exact hall name' hname'.1 hname'.2
        · rw [hnone name hasked hvector] at hholds
          cases hholds
      · obtain ⟨e, he⟩ := (hplain.tableEntry_iff hshaped hasked hvector).mpr hholds
        exact .inr (List.mem_map.mpr ⟨e, (hmem e).mpr ⟨name, hasked, hvector, he⟩, tableEntry_some he⟩)
  · rcases List.mem_append.mp hp with hp | hp
    · have hname := (mem_vectorEntries.mp (List.mem_map_of_mem hp)).1
      rw [List.mem_filter, decide_eq_true_iff] at hname
      rw [hsep.fieldType_vector hname.2] at hint
      rcases hint with hint | hint <;> cases hint
    · obtain ⟨name, hasked, hvector, hvalue⟩ := (hmem p).mp hp
      obtain rfl := tableEntry_some hvalue
      rw [Shelf.tableEntry] at hvalue
      split at hvalue
      · exact rowEntry_int hshaped hvalue hint
      · obtain ⟨hnoint, hnolong⟩ := hplain.ints p.1 hasked (columnEntry_some (Option.some.inj hvalue)).2
        rcases hint with hint | hint
        · exact absurd hint hnoint
        · exact absurd hint hnolong

/-! The entries that are carried, one kind after the other. -/

section

variable {fields : List Entry}
  (h : Carries s m docid row asked (vectorEntries m docid (asked.filter (· ∈ m.names)) ++ fields))
  (hlast : (docid : ℤ) ≤ s.table.lastDocid) (hrow : s.table.rows[docid]? = some row)
  (hsep : s.Separate m columnNames)
  (hfields : s.getDocInfo columnNames docid (asked.filter (· ∉ m.names)) = some fields)

include h hlast hrow hsep hfields

/-- One vector that is carried has all of them carried. -/
theorem Carries.vectors_of_one {name : String} (hname : name ∈ asked) (hvector : name ∈ m.names)
    (hsome : (m.framed docid name).isSome) :
    ∀ name ∈ asked, name ∈ m.names → (m.framed docid name).isSome := by
  have hholds : s.Holds m docid row name := by
    rw [Shelf.Holds, if_pos hvector]
    exact hsome
  have hmem := (h.names name).mpr ⟨hname, hholds⟩
  rw [List.map_append, List.mem_append] at hmem
  rcases hmem with hmem | hmem
  · intro name' hname' hvector'
    exact (mem_vectorEntries.mp hmem).2 name' (List.mem_filter.mpr ⟨hname', decide_eq_true hvector'⟩)
  · -- the table gives no vectors
    obtain ⟨e, he, rfl⟩ := List.mem_map.mp hmem
    exact absurd hvector (not_mem_of_getDocInfo hlast hrow hsep hfields he)

/-- A list of vectors alone carries nothing of the table. -/
theorem Carries.not_shows (hshaped : s.table.schema.Shaped row)
    (hvectors : ∀ name ∈ asked, name ∈ m.names) (name : String) : ¬ s.Shows docid row name := by
  intro hshows
  have hnil : asked.filter (· ∉ m.names) = [] := by
    refine List.filter_eq_nil_iff.mpr fun name hname => ?_
    rw [decide_eq_true_iff]
    exact not_not.mpr (hvectors name hname)
  rw [hnil] at hfields
  have hin := mem_getDocInfo_nil hlast hrow hshaped hsep.all hfields hshows
  have hasked := ((h.names name).mp (by rw [List.map_append]; exact List.mem_append_right _ hin)).1
  exact hsep.not_mem_of_shows hshows (hvectors name hasked)

/-- A field of the rows that is carried has a value, or it is an empty string. -/
theorem Carries.inRow_or_empty (hshaped : s.table.schema.Shaped row) {name : String}
    (hname : name ∈ asked) {i : ℕ} (hidx : s.table.schema.attrIdx name = some i) :
    s.InRow row name ∨ row[i]? = some (.str (some [])) := by
  have hschema := mem_of_attrIdx hidx
  have hvector : name ∉ m.names := fun hmem => hsep.vectors name hmem hschema
  obtain ⟨value, hvalue, hin⟩ := getDocInfo_taken hlast hrow hfields
    (List.mem_filter.mpr ⟨hname, decide_eq_true hvector⟩)
  have hrowEntry : s.rowEntry row name = some value := by
    rwa [Shelf.tableEntry, if_pos hschema] at hvalue
  cases value with
  | none => exact .inr ((rowEntry_none_iff hshaped hidx).mp hrowEntry)
  | some e =>
    have hmem := List.mem_map_of_mem (f := Prod.fst) (List.mem_append_right
      (vectorEntries m docid (asked.filter (· ∈ m.names))) (hin e rfl))
    have hholds := ((h.names _).mp hmem).2
    rw [rowEntry_some hrowEntry, Shelf.Holds, if_neg hvector, if_pos hschema] at hholds
    exact .inl hholds

/-- A column that is carried is found. -/
theorem Carries.found_of_inColumns {name : String} (hname : name ∈ asked)
    (hin : s.InColumns docid name) : s.found docid name = true := by
  obtain ⟨hvector, hschema⟩ := hsep.column hin
  have hholds : s.Holds m docid row name := by
    rw [Shelf.Holds, if_neg hvector, if_neg hschema]
    exact hin
  have hmem := (h.names name).mpr ⟨hname, hholds⟩
  rw [List.map_append, List.mem_append] at hmem
  rcases hmem with hmem | hmem
  · exact absurd (of_decide_eq_true (List.mem_filter.mp (mem_vectorEntries.mp hmem).1).2) hvector
  · obtain ⟨e, he, rfl⟩ := List.mem_map.mp hmem
    have hne : asked.filter (· ∉ m.names) ≠ [] :=
      List.ne_nil_of_mem (List.mem_filter.mpr ⟨hname, decide_eq_true hvector⟩)
    obtain ⟨name, -, hvalue⟩ := (mem_getDocInfo hlast hrow hne hfields).mp he
    obtain rfl := tableEntry_some hvalue
    rw [Shelf.tableEntry, if_neg hschema] at hvalue
    exact (columnEntry_some (Option.some.inj hvalue)).2

/-- A column that is carried is no integer: it would stay as it is stored. -/
theorem Carries.not_int_of_found {name : String} (hname : name ∈ asked)
    (hfound : s.found docid name = true) :
    s.fieldType name ≠ some .int ∧ s.fieldType name ≠ some .long := by
  obtain ⟨hvector, hschema⟩ := hsep.column (inColumns_of_found hfound).1
  obtain ⟨e, he⟩ := Option.isSome_iff_exists.mp (columnEntry_isSome.mpr hfound)
  obtain ⟨value, hvalue, hin⟩ := getDocInfo_taken hlast hrow hfields
    (List.mem_filter.mpr ⟨hname, decide_eq_true hvector⟩)
  rw [Shelf.tableEntry, if_neg hschema, he] at hvalue
  obtain rfl := (columnEntry_some he).1
  rw [← not_or]
  intro hint
  obtain ⟨bytes, hstored, htext⟩ :=
    h.ints e (List.mem_append_right _ (hin e (Option.some.inj hvalue).symm)) hint
  rw [Shelf.storedBytes, if_neg hschema] at hstored
  rw [columnEntry_int hschema he hint, hstored, Option.getD_some] at htext
  exact numberText_ne bytes (List.map_injective_iff.mpr (Option.some_injective _) htext).symm

end

/-- **What is carried** was asked for in a plain list. -/
theorem Carries.plain {item : List Entry} (h : Carries s m docid row asked item)
    (hpack : s.packResultItem m columnNames docid asked = some item)
    (hlast : (docid : ℤ) ≤ s.table.lastDocid) (hrow : s.table.rows[docid]? = some row)
    (hshaped : s.table.schema.Shaped row) (hsep : s.Separate m columnNames) :
    Plain s m docid row asked := by
  obtain ⟨fields, hfields, rfl⟩ := Option.map_eq_some_iff.mp hpack
  refine ⟨?_, ?_, ?_, ?_, ?_⟩
  · by_cases hall : ∀ name ∈ asked, name ∈ m.names → (m.framed docid name).isSome
    · exact .inl hall
    · refine .inr fun name hname hvector => Option.not_isSome_iff_eq_none.mp fun hsome => hall ?_
      exact h.vectors_of_one hlast hrow hsep hfields hname hvector hsome
  · exact fun hvectors => h.not_shows hlast hrow hsep hfields hshaped hvectors
  · exact fun name hname i => h.inRow_or_empty hlast hrow hsep hfields hshaped hname
  · exact fun name hname => h.found_of_inColumns hlast hrow hsep hfields hname
  · exact fun name hname => h.not_int_of_found hlast hrow hsep hfields hname

end

/-- A table with a number, and one document. -/
def itemShelf : Shelf :=
  ⟨{ Table.create Table.countSchema with
      rows := [[.str (some [97]), .fixed ((leWord 4 5).map some)]]
      lastDocid := 0 }, DocidFieldsMgr.create, 2⟩

/-- The vectors of the document. -/
def itemVectors : VectorManager where
  names := ["v"]
  raw := fun _ => ⟨1, 4, .mmap, true, [[0, 0, 128, 63]], [], 1, []⟩

theorem shaped_item : itemShelf.table.schema.Shaped [.str (some [97]), .fixed ((leWord 4 5).map some)] where
  length := rfl
  fixed := fun i ty hty hne => by
    match i with
    | 0 => exact absurd (Option.some.inj hty).symm hne
    | 1 =>
      obtain rfl := Option.some.inj hty
      exact ⟨_, rfl, rfl⟩
    | i + 2 => cases hty

theorem separate_item : itemShelf.Separate itemVectors [] where
  vectors := by decide
  columns := fun _ h => absurd h List.not_mem_nil
  all := fun _ h => by cases h

end Awa

end AwaDB
