import AwaDB.Client.Awa
import AwaDB.Engine.GetDocs
import AwaDB.Table.DocidFieldsMgr
import AwaDB.Table.StoredRows

/-!
# The table of a server, as its clients fill it (`awadb_async_call.cc`, `table.cc`, `gamma_response.cc`)

The rows hold the fields of the schema, the columns those that were added later. An update rewrites the
row and knows no columns. A search packs integers as decimal text if they are in the rows, and leaves the
bytes of a column as they are.

* `encode_cases`: what a client makes of a value;
* `RowField.batchRow`, `RowField.updateFields`: the cell that a field of the rows is stored in;
* `get_put`: what a new document finds in the columns;
* `Shelf.Still.run`: what is stored of a document stays in every run that does not update it;
* `Shelf.Good.run`: what holds of every table of a server.
-/

namespace AwaDB.Awa

open Lib Table

/-! ### Storing and searching -/

/-- The table, its dynamic columns, and `field_num_`, the number of the fields of both. -/
structure Shelf where
  table : Table
  columns : DocidFieldsMgr
  fieldNum : ℕ

/-- A table just created. -/
def Shelf.create (schema : Schema) : Shelf :=
  ⟨Table.create schema, DocidFieldsMgr.create, schema.attrs.length⟩

/-- `GetAllAttrType` of a name. -/
def Shelf.fieldType (s : Shelf) (name : String) : Option DataType :=
  match s.table.schema.attrIdx name with
  | some i => s.table.schema.attrType i
  | none => (s.columns.fields name).map ColumnField.dataType

/-- Whether `DocidFieldsMgr::Get` finds the field in the entry of a document. -/
def Shelf.found (s : Shelf) (docid : ℕ) (name : String) : Bool :=
  !(s.columns.size ≤ docid) &&
    ((s.columns.entries docid).bind fun entry =>
      (s.columns.fields name).bind fun c => DocidFieldsMgr.find c.id (entry.map Prod.fst)).isSome

/-- The value of a field as `PackResultItem` gives it to the reply: empty strings are left out in
`GetDocInfo`, and integers become text. The texts of floats and the joined text of a multi-string, which
the client does not read, are not followed. -/
def Shelf.packValue (s : Shelf) (docid : ℕ) (name : String) : Option Bytes :=
  match s.table.schema.attrIdx name with
  | some i =>
    (s.table.getFieldRawValue docid i).bind fun cell =>
      match cell with
      | .str text => text.bind fun bytes => if bytes = [] then none else some bytes
      | .fixed bytes => (bytes.mapM id).map fun bytes =>
          if s.fieldType name = some .int ∨ s.fieldType name = some .long then
            GammaEngine.numberText bytes
          else bytes
  | none =>
    if s.fieldType name = some .multiString then if s.found docid name then some [] else none
    else (s.columns.get docid name).bind fun bytes => bytes.mapM id

/-- The field of the reply to a search for the fields `asked`. Without any, `PackResultItem` gives all
fields, and their type stays the first one of `FieldType`. -/
def Shelf.replyField (s : Shelf) (asked : List String) (docid : ℕ) (name : String) : Option PbField :=
  if name ∈ asked ∨ asked = [] then
    (s.packValue docid name).map fun value =>
      ⟨some name, value, if name ∈ asked then s.fieldType name else some .int, []⟩
  else none

/-- The fields of a document as the server hands them to the engine: the value was taken and encoded by
the client, with the type that the server has for the field. A packed float has four bytes, and vectors
are not among the fields of the table. -/
structure SentAs (s : Shelf) (p : String × Value) (f : Field) : Prop where
  name : f.name = p.1
  checked : ∃ (c : Client) (isNew : Bool), c.fieldCheck p.1 p.2 = .ok (f.datatype, isNew)
  encoded : ∃ texts, encode f.datatype p.2 = some (f.value, texts)
  known : s.fieldType p.1 = some f.datatype
  float : f.datatype = .float → f.value.length = fTypeSize .float
  scalar : f.datatype ≠ .vector

/-- A new document: `BatchAdd` appends its row and puts its columns. -/
def Shelf.storeNew (s : Shelf) (doc : Doc) (docid : ℕ) : Option (Row × DocidFieldsMgr) :=
  (s.table.batchRow doc).bind fun row =>
    if s.table.newColumnFields doc = [] then some (row, s.columns)
    else (s.columns.put docid (s.table.newColumnFields doc)).map fun m => (row, m)

/-- A document that is there: `Table::Update` rewrites its row and knows no columns. -/
def Shelf.storeUpdate (s : Shelf) (doc : Doc) (docid : ℕ) : Option (Row × DocidFieldsMgr) :=
  (s.table.getRow docid).bind fun row =>
    (runOps s.table.schema.updateField doc.tableFields row).map fun row => (row, s.columns)

/-- What a server does to a table: a field is added, a document is added, or one that is there is
updated. Keys and the list of the columns' calls are not read by a search. -/
inductive ShelfOp where
  | addField (info : FieldInfo)
  | add (doc : Doc)
  | update (doc : Doc) (docid : ℕ)

def Shelf.step (op : ShelfOp) (s : Shelf) : Option Shelf :=
  match op with
  | .addField info =>
      if info.name ∈ s.table.schema.names then some s
      else some ⟨s.table.addNewField info, s.columns.addField info (s.fieldNum % 2 ^ 8), s.fieldNum + 1⟩
  | .add doc => (s.storeNew doc s.table.rows.length).map fun r =>
      ⟨{ s.table with rows := s.table.rows ++ [r.1] }, r.2, s.fieldNum⟩
  | .update doc docid => (s.storeUpdate doc docid).map fun r =>
      ⟨{ s.table with rows := s.table.rows.set docid r.1 }, r.2, s.fieldNum⟩

/-- The later shelf has the document as it was stored. -/
structure Shelf.Still (s : Shelf) (docid : ℕ) (row : Row) (m : DocidFieldsMgr) (s' : Shelf) : Prop where
  schema : s'.table.schema = s.table.schema
  row : s'.table.rows[docid]? = some row
  fields : ∀ name c, s.columns.fields name = some c → s'.columns.fields name = some c
  entry : s'.columns.entries docid = m.entries docid
  values : DocidFieldsMgr.Extends m.values s'.columns.values

/-! ### What was sent -/

theorem toBytes_eq_some {n : ℤ} {size : ℕ} {bytes : Bytes} (h : toBytes n size = some bytes) :
    ∃ k : ℕ, n = k ∧ k < 256 ^ size ∧ bytes = leWord size k := by
  rw [toBytes] at h
  split at h
  · rename_i hn
    cases h
    refine ⟨n.toNat, (Int.toNat_of_nonneg hn.1).symm, ?_, rfl⟩
    have hk : ((n.toNat : ℕ) : ℤ) < ((256 ^ size : ℕ) : ℤ) := by
      rw [Int.toNat_of_nonneg hn.1]
      exact hn.2
    exact Int.ofNat_lt.mp hk
  · cases h

variable {s : Shelf} {p : String × Value} {f : Field}

/-- **What is encoded**, type by type. -/
theorem encode_cases {type : DataType} {v : Value} {value : Bytes} {texts : List String}
    (h : encode type v = some (value, texts)) :
    (∃ (w : ℕ) (k : ℕ), (type = .int ∧ w = 4 ∨ type = .long ∧ w = 8) ∧ v = .int k ∧ k < 256 ^ w ∧
      value = leWord w k) ∨
    type = .float ∨
    (type = .string ∧ ∃ text, v = .str (some text) ∧ value = utf8 text) ∨
    (type = .multiString ∧ value = [] ∧ ∀ n, v ≠ .int n) ∨
    type = .vector := by
  cases type with
  | int =>
    cases v with
    | int n =>
      obtain ⟨bytes, hbytes, hpair⟩ := Option.map_eq_some_iff.mp h
      obtain ⟨k, rfl, hk, rfl⟩ := toBytes_eq_some hbytes
      exact .inl ⟨4, k, .inl ⟨rfl, rfl⟩, rfl, hk, (Prod.mk.inj hpair).1.symm⟩
    | _ => cases h
  | long =>
    cases v with
    | int n =>
      obtain ⟨bytes, hbytes, hpair⟩ := Option.map_eq_some_iff.mp h
      obtain ⟨k, rfl, hk, rfl⟩ := toBytes_eq_some hbytes
      exact .inl ⟨8, k, .inr ⟨rfl, rfl⟩, rfl, hk, (Prod.mk.inj hpair).1.symm⟩
    | _ => cases h
  | float => exact .inr (.inl rfl)
  | double => cases h
  | string =>
    cases v with
    | str text =>
      obtain ⟨text, rfl, hpair⟩ := Option.map_eq_some_iff.mp h
      exact .inr (.inr (.inl ⟨rfl, text, rfl, (Prod.mk.inj hpair).1.symm⟩))
    | _ => cases h
  | multiString =>
    have hempty : value = [] ∧ ∀ n, v ≠ .int n := by
      cases v with
      | str text =>
        obtain ⟨text, -, hpair⟩ := Option.map_eq_some_iff.mp h
        exact ⟨(Prod.mk.inj hpair).1.symm, nofun⟩
      | list elements =>
        obtain ⟨texts', -, hpair⟩ := Option.map_eq_some_iff.mp h
        exact ⟨(Prod.mk.inj hpair).1.symm, nofun⟩
      | _ => cases h
    exact .inr (.inr (.inr (.inl ⟨rfl, hempty⟩)))
  | vector => exact .inr (.inr (.inr (.inr rfl)))

/-- An integer, as an `INT` or a `LONG`. -/
theorem SentAs.int (h : SentAs s p f) {w : ℕ}
    (hw : f.datatype = .int ∧ w = 4 ∨ f.datatype = .long ∧ w = 8) :
    ∃ k : ℕ, p.2 = .int k ∧ k < 256 ^ w ∧ f.value = leWord w k := by
  obtain ⟨texts, hencode⟩ := h.encoded
  rcases hw with ⟨htype, rfl⟩ | ⟨htype, rfl⟩
  all_goals
    rw [htype] at hencode
    rcases encode_cases hencode with ⟨w, k, hw, hv, hk, hvalue⟩ | hno | ⟨hno, -⟩ | ⟨hno, -⟩ | hno
    · rcases hw with ⟨hint, rfl⟩ | ⟨hlong, rfl⟩
      · first | exact ⟨k, hv, hk, hvalue⟩ | cases hint
      · first | exact ⟨k, hv, hk, hvalue⟩ | cases hlong
    all_goals cases hno

theorem SentAs.str (h : SentAs s p f) (htype : f.datatype = .string) :
    ∃ text, p.2 = .str (some text) ∧ f.value = utf8 text := by
  obtain ⟨texts, hencode⟩ := h.encoded
  rw [htype] at hencode
  rcases encode_cases hencode with ⟨w, k, hw, -⟩ | hfloat | ⟨-, hstr⟩ | ⟨hmulti, -⟩ | hvector
  · rcases hw with ⟨hint, -⟩ | ⟨hlong, -⟩
    · cases hint
    · cases hlong
  · cases hfloat
  · exact hstr
  · cases hmulti
  · cases hvector

/-- A list of strings is not empty: an empty list is a vector. -/
theorem SentAs.multi (h : SentAs s p f) (htype : f.datatype = .multiString) : p.2 ≠ .list [] := by
  obtain ⟨c, isNew, hcheck⟩ := h.checked
  intro hv
  rw [hv, htype, Client.fieldCheck] at hcheck
  have hvector : checkType p.1 (.list []) = some .vector := by
    rw [checkType, if_neg (fun hint => by cases hint.2)]
    rfl
  rw [hvector] at hcheck
  dsimp only at hcheck
  cases htypes : c.types p.1 with
  | none =>
    rw [htypes] at hcheck
    dsimp only at hcheck
    split at hcheck <;> cases hcheck
  | some known =>
    rw [htypes] at hcheck
    dsimp only at hcheck
    split at hcheck
    · rename_i hstring
      cases hstring.1
    · split at hcheck
      · cases hcheck
      · split at hcheck <;> cases hcheck

/-- A multi-string is no integer. -/
theorem SentAs.multi_int (h : SentAs s p f) (htype : f.datatype = .multiString) (n : ℤ) :
    p.2 ≠ .int n := by
  obtain ⟨texts, hencode⟩ := h.encoded
  intro hv
  rw [htype, hv] at hencode
  cases hencode

/-- The values that have a size have that of their type. -/
theorem SentAs.size (h : SentAs s p f) (hstr : f.datatype ≠ .string) :
    f.value.length = fTypeSize f.datatype := by
  obtain ⟨texts, hencode⟩ := h.encoded
  rcases encode_cases hencode with ⟨w, k, hw, -, -, hvalue⟩ | hfloat | ⟨hno, -⟩ | ⟨hmulti, hvalue, -⟩ |
    hvector
  · rw [hvalue, length_leWord]
    rcases hw with ⟨htype, rfl⟩ | ⟨htype, rfl⟩
    · rw [htype]
      rfl
    · rw [htype]
      rfl
  · rw [hfloat]
    exact h.float hfloat
  · exact absurd hno hstr
  · rw [hvalue, hmulti]
    rfl
  · exact absurd hvector h.scalar

/-! ### The cell of a field -/

/-- The cell that a value of the right size is stored in. -/
def storedCell (s : Schema) (f : Field) : Cell :=
  if f.datatype = .string then .str (some (s.storedText f)) else .fixed (f.value.map some)

/-- A field of the rows, with the type of its column and the size of its type. -/
structure RowField (s : Schema) (f : Field) (i : ℕ) : Prop where
  idx : s.attrIdx f.name = some i
  type : s.attrType i = some f.datatype
  size : f.datatype ≠ .string → f.value.length = fTypeSize f.datatype

theorem SentAs.rowField (h : SentAs s p f) {i : ℕ} (hi : s.table.schema.attrIdx f.name = some i) :
    RowField s.table.schema f i := by
  have hknown := h.known
  rw [← h.name, Shelf.fieldType, hi] at hknown
  exact ⟨hi, hknown, h.size⟩

/-- The position of a field of the rows. -/
theorem RowField.idx_eq {s : Schema} {f : Field} {i : ℕ} (h : RowField s f i) :
    f.name ∈ s.names ∧ s.idx f = i := by
  have hidx := h.idx
  rw [Schema.attrIdx] at hidx
  split at hidx
  · rename_i hmem
    exact ⟨hmem, Option.some.inj hidx⟩
  · cases hidx

/-- `BatchAdd` writes the cell of a field that the document gives once. -/
theorem RowField.batchRow {t : Table} {doc : Doc} {row : Row} {i : ℕ} (h : RowField t.schema f i)
    (hphantoms : t.phantoms = []) (hnodup : (doc.tableFields.map Field.name).Nodup)
    (hf : f ∈ doc.tableFields) (hrow : t.batchRow doc = some row) :
    row[i]? = some (storedCell t.schema f) := by
  obtain ⟨hmem, hidx⟩ := h.idx_eq
  obtain ⟨info, hinfo, htype⟩ := Option.map_eq_some_iff.mp h.type
  have hname : f.name = info.name := (Schema.idx_eq_iff hinfo).mp ⟨hmem, hidx⟩
  have hoffset : ∀ g : Field, t.hasOffset g.name = true ↔ g.name ∈ t.schema.names := by
    intro g
    rw [hasOffset, hphantoms]
    simp
  have hlast : Schema.lastOf (doc.tableFields.filter fun g => t.hasOffset g.name) info.name = some f := by
    rw [Schema.lastOf, ← List.filter_reverse, List.find?_filter]
    have hunique : ∀ g ∈ doc.tableFields.reverse, g.name = info.name → g = f := fun g hg hgname =>
      List.inj_on_of_nodup_map hnodup (List.mem_reverse.mp hg) hf (hgname.trans hname.symm)
    cases hfound : doc.tableFields.reverse.find?
        (fun g => decide (t.hasOffset g.name = true ∧ decide (g.name = info.name) = true)) with
    | none =>
      have hnone := List.find?_eq_none.mp hfound f (List.mem_reverse.mpr hf)
      exact absurd (decide_eq_true ⟨(hoffset f).mpr hmem, decide_eq_true hname⟩) hnone
    | some g =>
      have hg := List.find?_some hfound
      have hgname := of_decide_eq_true (of_decide_eq_true hg).2
      rw [hunique g (List.mem_of_find?_eq_some hfound) hgname]
  have hstray : t.schema.strayBehind (doc.tableFields.filter fun g => t.hasOffset g.name) i info =
      none := by
    rw [Schema.strayBehind]
    split
    · refine List.find?_eq_none.mpr fun g hg => ?_
      have hmem' := List.mem_reverse.mp ((List.takeWhile_sublist _).subset hg)
      rw [decide_eq_true_iff, not_not]
      exact (hoffset g).mp (List.mem_filter.mp hmem').2
    · rfl
  have hcell := (Schema.runOps_storeField hrow).cells i info hinfo
  rw [hcell, Schema.cellAfter, hstray, Schema.writtenCell, hlast, storedCell, htype]
  dsimp only
  by_cases hstr : f.datatype = .string
  · rw [if_pos hstr, if_pos hstr]
  · rw [if_neg hstr, if_neg hstr, readMem_of_length (h.size hstr)]

theorem RowField.lt {s : Schema} {row : Row} {i : ℕ} (h : RowField s f i) (hrow : s.Shaped row) :
    i < row.length := by
  obtain ⟨info, hinfo, -⟩ := Option.map_eq_some_iff.mp h.type
  rw [hrow.length]
  exact (List.getElem?_eq_some_iff.mp hinfo).1

/-- The cell of a field has the size of its type. -/
theorem RowField.shaped_set {s : Schema} {row : Row} {i : ℕ} (h : RowField s f i) (hrow : s.Shaped row) :
    s.Shaped (row.set i (storedCell s f)) where
  length := by rw [List.length_set, hrow.length]
  fixed := by
    intro j type hj hne
    by_cases hij : i = j
    · subst hij
      rw [h.type] at hj
      cases hj
      rw [List.getElem?_set_self (h.lt hrow), storedCell, if_neg hne]
      exact ⟨_, rfl, by rw [List.length_map, h.size hne]⟩
    · rw [List.getElem?_set_ne hij]
      exact hrow.fixed j type hj hne

/-- `BatchAdd` of one field of the rows. -/
theorem RowField.storeField {s : Schema} {row row' : Row} {i : ℕ} (h : RowField s f i)
    (hrow : s.Shaped row) (hstore : s.storeField f row = some row') : s.Shaped row' := by
  rw [Schema.storeField, h.idx] at hstore
  dsimp only at hstore
  rw [h.type] at hstore
  by_cases hstr : f.datatype = .string
  · rw [hstr] at hstore
    cases hstore
    have hshaped := h.shaped_set hrow
    rwa [storedCell, if_pos hstr] at hshaped
  · obtain ⟨old, hold, hlen⟩ := hrow.fixed i f.datatype h.type hstr
    have hcopy : copyAt row i (readMem f.value (fTypeSize f.datatype)) = some row' := by
      cases htype : f.datatype <;> rw [htype] at hstore hstr <;>
        first | exact hstore | exact absurd rfl hstr
    rw [readMem_of_length (h.size hstr),
      copyAt_exact hold (by rw [List.length_map, h.size hstr, hlen])] at hcopy
    cases hcopy
    have hshaped := h.shaped_set hrow
    rwa [storedCell, if_neg hstr] at hshaped

/-- `Table::Update` of one field of the rows. -/
theorem RowField.updateField {s : Schema} {row row' : Row} {i : ℕ} (h : RowField s f i)
    (hrow : s.Shaped row) (hupdate : s.updateField f row = some row') :
    row' = row.set i (storedCell s f) ∧ s.Shaped row' := by
  have hset : row' = row.set i (storedCell s f) := by
    rw [Schema.updateField, h.idx] at hupdate
    dsimp only at hupdate
    by_cases hstr : f.datatype = .string
    · rw [if_pos hstr] at hupdate
      rw [storedCell, if_pos hstr]
      split at hupdate
      · exact (Option.some.inj hupdate).symm
      · cases hupdate
    · obtain ⟨old, hold, hlen⟩ := hrow.fixed i f.datatype h.type hstr
      rw [if_neg hstr, copyAt_exact hold (by rw [List.length_map, h.size hstr, hlen])] at hupdate
      rw [storedCell, if_neg hstr]
      exact (Option.some.inj hupdate).symm
  exact ⟨hset, hset ▸ h.shaped_set hrow⟩

/-- The fields of an update: of the rows, or not of the table. -/
def UpdateField (s : Schema) (f : Field) : Prop := s.attrIdx f.name = none ∨ ∃ i, RowField s f i

theorem updateFields_frame {s : Schema} {fields : List Field} {row row' : Row} {i : ℕ}
    (hfields : ∀ g ∈ fields, UpdateField s g) (hother : ∀ g ∈ fields, s.attrIdx g.name ≠ some i)
    (hrow : s.Shaped row) (hrun : runOps s.updateField fields row = some row') :
    row'[i]? = row[i]? ∧ s.Shaped row' := by
  induction fields generalizing row with
  | nil =>
    cases hrun
    exact ⟨rfl, hrow⟩
  | cons g fields ih =>
    obtain ⟨row₁, hfirst, hrest⟩ := Option.bind_eq_some_iff.mp hrun
    have hstep : row₁[i]? = row[i]? ∧ s.Shaped row₁ := by
      rcases hfields g List.mem_cons_self with hnone | ⟨j, hg⟩
      · rw [Schema.updateField, hnone] at hfirst
        cases hfirst
        exact ⟨rfl, hrow⟩
      · obtain ⟨hset, hshaped⟩ := hg.updateField hrow hfirst
        have hne : j ≠ i := by
          rintro rfl
          exact hother g List.mem_cons_self hg.idx
        rw [hset, List.getElem?_set_ne hne]
        exact ⟨rfl, hset ▸ hshaped⟩
    obtain ⟨hcell, hshaped⟩ := ih (fun g' hg' => hfields g' (List.mem_cons_of_mem g hg'))
      (fun g' hg' => hother g' (List.mem_cons_of_mem g hg')) hstep.2 hrest
    exact ⟨hcell.trans hstep.1, hshaped⟩

/-- `Table::Update` writes the cell of a field that the document gives once. -/
theorem RowField.updateFields {s : Schema} {fields : List Field} {row row' : Row} {i : ℕ}
    (h : RowField s f i) (hfields : ∀ g ∈ fields, UpdateField s g)
    (hnodup : (fields.map Field.name).Nodup) (hf : f ∈ fields) (hrow : s.Shaped row)
    (hrun : runOps s.updateField fields row = some row') : row'[i]? = some (storedCell s f) := by
  obtain ⟨before, after, rfl⟩ := List.append_of_mem hf
  rw [runOps_append] at hrun
  obtain ⟨row₁, hbefore, hrest⟩ := Option.bind_eq_some_iff.mp hrun
  obtain ⟨row₂, hfirst, hafter⟩ := Option.bind_eq_some_iff.mp hrest
  have hnames : ∀ g ∈ before ++ after, s.attrIdx g.name ≠ some i := by
    intro g hg hgi
    obtain ⟨hmem, hidx⟩ := h.idx_eq
    have hgmem : g.name ∈ s.names ∧ s.names.idxOf g.name = i := by
      rw [Schema.attrIdx] at hgi
      split at hgi
      · rename_i hin
        exact ⟨hin, Option.some.inj hgi⟩
      · cases hgi
    have hsame : g.name = f.name := (List.idxOf_inj hgmem.1).mp (hgmem.2.trans hidx.symm)
    rw [List.map_append, List.map_cons] at hnodup
    have hnot : f.name ∉ (before ++ after).map Field.name := by
      rw [List.map_append]
      exact (List.nodup_cons.mp (List.nodup_middle.mp hnodup)).1
    exact hnot (hsame ▸ List.mem_map_of_mem hg)
  obtain ⟨-, hshaped₁⟩ := updateFields_frame
    (fun g hg => hfields g (List.mem_append_left _ hg))
    (fun g hg => hnames g (List.mem_append_left _ hg)) hrow hbefore
  obtain ⟨hset, hshaped₂⟩ := h.updateField hshaped₁ hfirst
  obtain ⟨hcell, -⟩ := updateFields_frame
    (fun g hg => hfields g (List.mem_append_right _ (List.mem_cons_of_mem f hg)))
    (fun g hg => hnames g (List.mem_append_right _ hg)) hshaped₂ hafter
  rw [hcell, hset, List.getElem?_set_self (h.lt hshaped₁)]

/-! ### The columns of a new document -/

/-- The positions of a put lead to the values that the columns made of the fields. -/
theorem putFields_values {m : DocidFieldsMgr} {fields : List Field}
    {values : String → List (List MemByte)} {r : (String → List (List MemByte)) × List (ℕ × ℕ)}
    (h : m.putFields fields values = some r) :
    DocidFieldsMgr.Extends values r.1 ∧ ∀ q ∈ r.2, ∃ g ∈ fields, ∃ c, m.fields g.name = some c ∧
      c.id = q.1 ∧ ∀ v, columnKind g.datatype ≠ none → columnValue c.dataType g.value = some v →
        (r.1 g.name)[q.2]? = some v := by
  induction fields generalizing values r with
  | nil =>
    cases h
    exact ⟨DocidFieldsMgr.Extends.refl _, fun _ hq => nomatch hq⟩
  | cons g fields ih =>
    rw [DocidFieldsMgr.putFields] at h
    cases hc : m.fields g.name with
    | none =>
      rw [hc] at h
      obtain ⟨hext, hleads⟩ := ih h
      refine ⟨hext, fun q hq => ?_⟩
      obtain ⟨g', hg', hrest⟩ := hleads q hq
      exact ⟨g', List.mem_cons_of_mem g hg', hrest⟩
    | some c =>
      rw [hc] at h
      dsimp only at h
      cases hkind : columnKind g.datatype with
      | none =>
        rw [hkind] at h
        obtain ⟨r', hr', rfl⟩ := Option.map_eq_some_iff.mp h
        obtain ⟨hext, hleads⟩ := ih hr'
        refine ⟨hext, fun q hq => ?_⟩
        rcases List.mem_cons.mp hq with rfl | hq
        · exact ⟨g, List.mem_cons_self, c, hc, rfl, fun v hno => absurd hkind hno⟩
        · obtain ⟨g', hg', hrest⟩ := hleads q hq
          exact ⟨g', List.mem_cons_of_mem g hg', hrest⟩
      | some kind =>
        rw [hkind] at h
        dsimp only at h
        split at h
        · cases h
        · obtain ⟨r', hr', rfl⟩ := Option.map_eq_some_iff.mp h
          obtain ⟨hext, hleads⟩ := ih hr'
          refine ⟨(DocidFieldsMgr.extends_append values g.name _).trans hext, fun q hq => ?_⟩
          rcases List.mem_cons.mp hq with rfl | hq
          · refine ⟨g, List.mem_cons_self, c, hc, rfl, fun v _ hv => hext _ _ _ ?_⟩
            rw [Function.update_self, hv]
            exact List.getElem?_concat_length
          · obtain ⟨g', hg', hrest⟩ := hleads q hq
            exact ⟨g', List.mem_cons_of_mem g hg', hrest⟩

/-- The ids that a put leaves in the entry of the document. -/
def keptIds (m : DocidFieldsMgr) (fields : List Field) : List ℕ :=
  let ids := fields.filterMap fun f => (m.fields f.name).map ColumnField.id
  ids.take (ids.length % 2 ^ 8)

theorem putFields_ids {m : DocidFieldsMgr} {fields : List Field} {values : String → List (List MemByte)}
    {r : (String → List (List MemByte)) × List (ℕ × ℕ)} (h : m.putFields fields values = some r) :
    r.2.map Prod.fst = fields.filterMap fun f => (m.fields f.name).map ColumnField.id := by
  induction fields generalizing values r with
  | nil =>
    cases h
    rfl
  | cons g fields ih =>
    rw [DocidFieldsMgr.putFields] at h
    cases hc : m.fields g.name with
    | none =>
      rw [hc] at h
      rw [List.filterMap_cons_none (by rw [hc]; rfl)]
      exact ih h
    | some c =>
      rw [List.filterMap_cons_some (by rw [hc]; rfl)]
      rw [hc] at h
      dsimp only at h
      split at h
      · obtain ⟨r', hr', rfl⟩ := Option.map_eq_some_iff.mp h
        rw [List.map_cons, ih hr']
      · split at h
        · cases h
        · obtain ⟨r', hr', rfl⟩ := Option.map_eq_some_iff.mp h
          rw [List.map_cons, ih hr']

/-- The entry that a put leaves. -/
theorem map_entry {m : DocidFieldsMgr} {fields : List Field} {values : String → List (List MemByte)}
    {r : (String → List (List MemByte)) × List (ℕ × ℕ)} (h : m.putFields fields values = some r) :
    (r.2.take (r.2.length % 2 ^ 8)).map Prod.fst = keptIds m fields := by
  have hids := putFields_ids h
  have hlen : r.2.length = (fields.filterMap fun f => (m.fields f.name).map ColumnField.id).length := by
    rw [← hids, List.length_map]
  rw [keptIds, ← hids, List.map_take, List.length_map]

/-- **What a new document gets back** from a column is what the column made of its own value. -/
theorem get_put {m m₁ m' : DocidFieldsMgr} {docid : ℕ} {fields : List Field} (hids : m.Distinct)
    (hnodup : (fields.map Field.name).Nodup) (hput : m.put docid fields = some m₁) {c : ColumnField}
    (hf : f ∈ fields) (hc : m.fields f.name = some c) (hkind : columnKind c.dataType ≠ none)
    (hsame : columnKind f.datatype ≠ none) {v : List MemByte}
    (hv : columnValue c.dataType f.value = some v) (hc' : m'.fields f.name = some c)
    (hentry : m'.entries docid = m₁.entries docid)
    (hvalues : DocidFieldsMgr.Extends m₁.values m'.values) :
    m'.get docid f.name =
      if docid < m'.size ∧ (DocidFieldsMgr.find c.id (keptIds m fields)).isSome then some v
      else none := by
  obtain ⟨r, hr, rfl⟩ := Option.map_eq_some_iff.mp hput
  have hkept : m'.entries docid = some (r.2.take (r.2.length % 2 ^ 8)) :=
    hentry.trans (Function.update_self ..)
  rw [DocidFieldsMgr.get, hkept, hc', Option.bind_some, Option.bind_some, map_entry hr]
  by_cases hlt : docid < m'.size
  · rw [if_neg (by omega)]
    cases hi : DocidFieldsMgr.find c.id (keptIds m fields) with
    | none =>
      rw [if_neg (fun h => by cases h.2)]
      rfl
    | some i =>
      have hfound := DocidFieldsMgr.find_sound hi
      rw [← map_entry hr, List.getElem?_map] at hfound
      obtain ⟨q, hq, hid⟩ := Option.map_eq_some_iff.mp hfound
      -- the id is that of the field, and the names of the fields are different
      obtain ⟨g, hg, cg, hcg, hcid, hvalue⟩ :=
        (putFields_values hr).2 q (List.mem_of_mem_take (List.mem_of_getElem? hq))
      have hname : g.name = f.name := hids g.name f.name cg c hcg hc (hcid.trans hid)
      have heq : g = f := List.inj_on_of_nodup_map hnodup hg hf hname
      subst heq
      have hcol : cg = c := Option.some.inj (hcg.symm.trans hc)
      subst hcol
      rw [Option.bind_some, hq, Option.bind_some, if_neg hkind, hvalues _ _ _ (hvalue v hsame hv),
        if_pos ⟨hlt, rfl⟩]
  · rw [if_pos (by omega), if_neg (fun h => hlt h.1)]

theorem found_put {s' : Shelf} {m m₁ : DocidFieldsMgr} {docid : ℕ} {fields : List Field}
    (hput : m.put docid fields = some m₁) {name : String} {c : ColumnField}
    (hc : s'.columns.fields name = some c)
    (hentry : s'.columns.entries docid = m₁.entries docid) :
    s'.found docid name = (decide (docid < s'.columns.size) &&
      (DocidFieldsMgr.find c.id (keptIds m fields)).isSome) := by
  obtain ⟨r, hr, rfl⟩ := Option.map_eq_some_iff.mp hput
  have hkept : s'.columns.entries docid = some (r.2.take (r.2.length % 2 ^ 8)) :=
    hentry.trans (Function.update_self ..)
  rw [Shelf.found, hkept, hc, Option.bind_some, Option.bind_some, map_entry hr, ← decide_not]
  simp only [not_le]

/-! ### Later steps -/

theorem put_fields {m m' : DocidFieldsMgr} {docid : ℕ} {fields : List Field}
    (hput : m.put docid fields = some m') :
    m'.fields = m.fields ∧ (∀ d, d ≠ docid → m'.entries d = m.entries d) ∧
      DocidFieldsMgr.Extends m.values m'.values := by
  obtain ⟨r, hr, rfl⟩ := Option.map_eq_some_iff.mp hput
  exact ⟨rfl, fun d hd => Function.update_of_ne hd .., (putFields_values hr).1⟩

/-- The columns of a new document. -/
theorem Shelf.storeNew_columns {s : Shelf} {doc : Doc} {docid : ℕ} {r : Row × DocidFieldsMgr}
    (h : s.storeNew doc docid = some r) :
    r.2.fields = s.columns.fields ∧ (∀ d, d ≠ docid → r.2.entries d = s.columns.entries d) ∧
      DocidFieldsMgr.Extends s.columns.values r.2.values := by
  obtain ⟨row, -, hrest⟩ := Option.bind_eq_some_iff.mp h
  split at hrest
  · cases hrest
    exact ⟨rfl, fun _ _ => rfl, DocidFieldsMgr.Extends.refl _⟩
  · obtain ⟨m, hput, rfl⟩ := Option.map_eq_some_iff.mp hrest
    exact put_fields hput

theorem mem_of_getRow {t : Table} {docid : ℤ} {row : Row} (h : t.getRow docid = some row) :
    row ∈ t.rows := by
  rw [getRow] at h
  split at h
  · cases h
  · exact List.mem_of_getElem? h

theorem Shelf.storeUpdate_columns {s : Shelf} {doc : Doc} {docid : ℕ} {r : Row × DocidFieldsMgr}
    (h : s.storeUpdate doc docid = some r) : r.2 = s.columns ∧ docid < s.table.rows.length := by
  obtain ⟨row₀, hrow₀, hrest⟩ := Option.bind_eq_some_iff.mp h
  obtain ⟨row, -, rfl⟩ := Option.map_eq_some_iff.mp hrest
  have hneg : ¬ (docid : ℤ) < 0 := by omega
  rw [getRow, if_neg hneg, Int.toNat_natCast] at hrow₀
  exact ⟨rfl, (List.getElem?_eq_some_iff.mp hrow₀).1⟩

theorem addNewField_rows (t : Table) (info : FieldInfo) :
    (t.addNewField info).schema = t.schema ∧ (t.addNewField info).rows = t.rows ∧
      (t.addNewField info).phantoms = t.phantoms := by
  rw [addNewField]
  split
  · exact ⟨rfl, rfl, rfl⟩
  · split <;> exact ⟨rfl, rfl, rfl⟩

/-- A step that does not update the document leaves it. -/
theorem Shelf.Still.step {s s' s'' : Shelf} {docid : ℕ} {row : Row} {m : DocidFieldsMgr} {op : ShelfOp}
    (h : s.Still docid row m s') (hop : ∀ doc, op ≠ .update doc docid)
    (hstep : Shelf.step op s' = some s'') :
    s.Still docid row m s'' := by
  have hlt : docid < s'.table.rows.length := (List.getElem?_eq_some_iff.mp h.row).1
  cases op with
  | addField info =>
    rw [Shelf.step] at hstep
    split at hstep
    · cases hstep
      exact h
    cases hstep
    obtain ⟨hschema, hrows, -⟩ := addNewField_rows s'.table info
    dsimp only [DocidFieldsMgr.addField]
    refine ⟨hschema.trans h.schema, (congrArg (·[docid]?) hrows).trans h.row, ?_, ?_, ?_⟩
    · intro name c hc
      have hold := h.fields name c hc
      by_cases hin : s'.columns.containField info.name = true
      · rw [if_pos hin]
        exact hold
      · rw [if_neg hin]
        by_cases hname : name = info.name
        · subst hname
          rw [DocidFieldsMgr.containField, hold] at hin
          exact absurd rfl hin
        · dsimp only
          rw [Function.update_of_ne hname]
          exact hold
    · split <;> exact h.entry
    · split <;> exact h.values
  | add doc =>
    obtain ⟨r, hr, rfl⟩ := Option.map_eq_some_iff.mp hstep
    obtain ⟨hfields, hentries, hvalues⟩ := Shelf.storeNew_columns hr
    refine ⟨h.schema, (List.getElem?_append_left hlt).trans h.row, fun name c hc => ?_,
      (hentries docid hlt.ne).trans h.entry, h.values.trans hvalues⟩
    dsimp only
    rw [hfields]
    exact h.fields name c hc
  | update doc docid' =>
    obtain ⟨r, hr, rfl⟩ := Option.map_eq_some_iff.mp hstep
    have hne : docid' ≠ docid := by
      rintro rfl
      exact hop doc rfl
    have hcolumns := (Shelf.storeUpdate_columns hr).1
    refine ⟨h.schema, (List.getElem?_set_ne hne).trans h.row, ?_, ?_, ?_⟩ <;> dsimp only <;>
      rw [hcolumns]
    · exact h.fields
    · exact h.entry
    · exact h.values

/-- **A run** without updates of the document leaves it. -/
theorem Shelf.Still.run {s s' s'' : Shelf} {docid : ℕ} {row : Row} {m : DocidFieldsMgr}
    {ops : List ShelfOp} (h : s.Still docid row m s') (hops : ∀ doc, ShelfOp.update doc docid ∉ ops)
    (hrun : runOps Shelf.step ops s' = some s'') : s.Still docid row m s'' := by
  induction ops generalizing s' with
  | nil =>
    cases hrun
    exact h
  | cons op ops ih =>
    obtain ⟨s₁, hstep, hrest⟩ := Option.bind_eq_some_iff.mp hrun
    refine ih (h.step (fun doc heq => hops doc (heq ▸ List.mem_cons_self)) hstep)
      (fun doc hmem => hops doc (List.mem_cons_of_mem op hmem)) hrest

/-- The document that was just stored. -/
theorem Shelf.still_add {s s₁ : Shelf} {doc : Doc} (h : Shelf.step (.add doc) s = some s₁) :
    ∃ row m, s.storeNew doc s.table.rows.length = some (row, m) ∧
      s.Still s.table.rows.length row m s₁ := by
  obtain ⟨⟨row, m⟩, hr, rfl⟩ := Option.map_eq_some_iff.mp h
  refine ⟨row, m, hr, rfl, List.getElem?_concat_length, fun name c hc => ?_, rfl,
    DocidFieldsMgr.Extends.refl _⟩
  dsimp only
  rw [(Shelf.storeNew_columns hr).1]
  exact hc

theorem Shelf.still_update {s s₁ : Shelf} {doc : Doc} {docid : ℕ}
    (h : Shelf.step (.update doc docid) s = some s₁) :
    ∃ row m, s.storeUpdate doc docid = some (row, m) ∧ s.Still docid row m s₁ := by
  obtain ⟨⟨row, m⟩, hr, rfl⟩ := Option.map_eq_some_iff.mp h
  obtain ⟨hcolumns, hlt⟩ := Shelf.storeUpdate_columns hr
  refine ⟨row, m, hr, rfl, List.getElem?_set_self hlt, fun name c hc => ?_, rfl,
    DocidFieldsMgr.Extends.refl _⟩
  change m.fields name = some c
  change m = s.columns at hcolumns
  rw [hcolumns]
  exact hc

/-! ### Every table of a server -/

/-- What the server keeps true of a table: only the fields of the schema have an offset, the rows have
the sizes of the schema, and the columns have ids of their own. -/
structure Shelf.Good (s : Shelf) : Prop where
  phantoms : s.table.phantoms = []
  shaped : ∀ row ∈ s.table.rows, s.table.schema.Shaped row
  ids : s.columns.Distinct
  below : ∀ name c, s.columns.fields name = some c → c.id < s.fieldNum
  bound : s.fieldNum < 2 ^ 8
  columns : ∀ name, s.table.containField name = s.columns.containField name

/-- A document as a client sends it: no field twice, and each with its value. -/
structure Sent (s : Shelf) (doc : Doc) (sent : Field → String × Value) : Prop where
  nodup : (doc.tableFields.map Field.name).Nodup
  sent : ∀ g ∈ doc.tableFields, SentAs s (sent g) g

/-- What the server is asked for: fields while there are fewer than 255 of them, and documents that a
client sent. -/
def ServerStep (op : ShelfOp) (s : Shelf) : Prop :=
  match op with
  | .addField _ => s.fieldNum + 1 < 2 ^ 8
  | .add doc => ∃ sent, Sent s doc sent
  | .update doc _ => ∃ sent, Sent s doc sent

theorem Shelf.good_create {schema : Schema} (h : schema.attrs.length < 2 ^ 8) :
    (Shelf.create schema).Good where
  phantoms := rfl
  shaped := fun _ hrow => nomatch hrow
  ids := fun _ _ _ _ ha => nomatch ha
  below := fun _ _ hc => nomatch hc
  bound := h
  columns := fun _ => rfl

/-- The row of a new document. -/
theorem Shelf.Good.batchRow {s : Shelf} (h : s.Good) {doc : Doc} {sent : Field → String × Value}
    (hsent : Sent s doc sent) {row : Row} (hrow : s.table.batchRow doc = some row) :
    s.table.schema.Shaped row := by
  rw [Table.batchRow] at hrow
  have hfields : ∀ f ∈ doc.tableFields.filter fun f => s.table.hasOffset f.name,
      ∃ i, RowField s.table.schema f i := by
    intro f hf
    obtain ⟨hmem, hoffset⟩ := List.mem_filter.mp hf
    have hname : f.name ∈ s.table.schema.names := by
      rw [hasOffset, h.phantoms] at hoffset
      simpa using hoffset
    have hidx : s.table.schema.attrIdx f.name = some (s.table.schema.names.idxOf f.name) := by
      rw [Schema.attrIdx, if_pos hname]
    exact ⟨_, (hsent.sent f hmem).rowField hidx⟩
  have hfresh := s.table.schema.shaped_freshRow
  generalize doc.tableFields.filter (fun f => s.table.hasOffset f.name) = fields at hrow hfields
  generalize s.table.schema.freshRow = row₀ at hrow hfresh
  induction fields generalizing row₀ with
  | nil =>
    cases hrow
    exact hfresh
  | cons f fields ih =>
    obtain ⟨row₁, hfirst, hrest⟩ := Option.bind_eq_some_iff.mp hrow
    obtain ⟨i, hf⟩ := hfields f List.mem_cons_self
    exact ih (fun g hg => hfields g (List.mem_cons_of_mem f hg)) row₁ hrest (hf.storeField hfresh hfirst)

/-- The row of an update. -/
theorem Shelf.Good.updateRow {s : Shelf} {doc : Doc} {sent : Field → String × Value}
    (hsent : Sent s doc sent) {row row' : Row} (hrow : s.table.schema.Shaped row)
    (hrun : runOps s.table.schema.updateField doc.tableFields row = some row') :
    s.table.schema.Shaped row' := by
  have hfields : ∀ f ∈ doc.tableFields, UpdateField s.table.schema f := by
    intro f hf
    cases hidx : s.table.schema.attrIdx f.name with
    | none => exact .inl hidx
    | some i => exact .inr ⟨i, (hsent.sent f hf).rowField hidx⟩
  generalize doc.tableFields = fields at hrun hfields
  induction fields generalizing row with
  | nil =>
    cases hrun
    exact hrow
  | cons f fields ih =>
    obtain ⟨row₁, hfirst, hrest⟩ := Option.bind_eq_some_iff.mp hrun
    refine ih ?_ hrest fun g hg => hfields g (List.mem_cons_of_mem f hg)
    rcases hfields f List.mem_cons_self with hnone | ⟨i, hf⟩
    · rw [Schema.updateField, hnone] at hfirst
      cases hfirst
      exact hrow
    · exact (hf.updateField hrow hfirst).2

/-- A field that is added gets an id of its own. -/
theorem Shelf.Good.addField {s : Shelf} (h : s.Good) {info : FieldInfo} (hnum : s.fieldNum + 1 < 2 ^ 8)
    (hnot : info.name ∉ s.table.schema.names) :
    Shelf.Good ⟨s.table.addNewField info, s.columns.addField info (s.fieldNum % 2 ^ 8),
      s.fieldNum + 1⟩ := by
  obtain ⟨hschema, hrows, hphantoms⟩ := addNewField_rows s.table info
  have hshaped : ∀ row ∈ (s.table.addNewField info).rows,
      (s.table.addNewField info).schema.Shaped row := by
    rw [hschema, hrows]
    exact h.shaped
  by_cases hin : s.columns.containField info.name = true
  · have htable : s.table.addNewField info = s.table := by
      rw [addNewField, if_neg hnot, if_pos ((h.columns info.name).trans hin)]
    rw [htable, DocidFieldsMgr.addField, if_pos hin]
    exact ⟨h.phantoms, h.shaped, h.ids, fun name c hc => (h.below name c hc).trans (Nat.lt_succ_self _),
      hnum, h.columns⟩
  · have hid : s.fieldNum % 2 ^ 8 = s.fieldNum := Nat.mod_eq_of_lt h.bound
    rw [DocidFieldsMgr.addField, if_neg hin, hid]
    have hcases : ∀ name c,
        Function.update s.columns.fields info.name (some ⟨s.fieldNum, info.dataType⟩) name = some c →
        name = info.name ∧ c.id = s.fieldNum ∨ s.columns.fields name = some c ∧ c.id < s.fieldNum := by
      intro name c hc
      obtain ⟨hname, hcolumn⟩ | ⟨-, hold⟩ := of_update_eq hc
      · cases hcolumn
        exact .inl ⟨hname, rfl⟩
      · exact .inr ⟨hold, h.below name c hold⟩
    refine ⟨hphantoms.trans h.phantoms, hshaped, fun a b ca cb ha hb hab => ?_, fun name c hc => ?_, hnum,
      fun name => ?_⟩
    · rcases hcases a ca ha with ⟨rfl, hca⟩ | ⟨ha, hca⟩
      · rcases hcases b cb hb with ⟨rfl, -⟩ | ⟨-, hcb⟩
        · rfl
        · omega
      · rcases hcases b cb hb with ⟨-, hcb⟩ | ⟨hb, -⟩
        · omega
        · exact h.ids a b ca cb ha hb hab
    · rcases hcases name c hc with ⟨-, hid⟩ | ⟨-, hid⟩
      · exact hid ▸ Nat.lt_succ_self _
      · exact hid.trans (Nat.lt_succ_self _)
    · have hnew : s.table.containField info.name ≠ true := by rwa [h.columns]
      rw [addNewField, if_neg hnot, if_neg hnew, containField, List.any_append]
      have hold := h.columns name
      rw [containField] at hold
      rw [hold, DocidFieldsMgr.containField, DocidFieldsMgr.containField]
      by_cases hname : name = info.name
      · subst hname
        simp
      · have hne : ¬ info.name = name := fun heq => hname heq.symm
        simp [Function.update_of_ne hname, hne]

/-- **One step.** -/
theorem Shelf.Good.step {s s' : Shelf} (h : s.Good) {op : ShelfOp} (hop : ServerStep op s)
    (hstep : Shelf.step op s = some s') : s'.Good := by
  cases op with
  | addField info =>
    rw [Shelf.step] at hstep
    split at hstep
    · cases hstep
      exact h
    · rename_i hnot
      cases hstep
      exact h.addField hop hnot
  | add doc =>
    obtain ⟨sent, hsent⟩ := hop
    obtain ⟨r, hr, rfl⟩ := Option.map_eq_some_iff.mp hstep
    obtain ⟨hfields, -, -⟩ := Shelf.storeNew_columns hr
    have hshaped : s.table.schema.Shaped r.1 := by
      obtain ⟨row, hrow, hrest⟩ := Option.bind_eq_some_iff.mp hr
      split at hrest
      · cases hrest
        exact h.batchRow hsent hrow
      · obtain ⟨m, -, rfl⟩ := Option.map_eq_some_iff.mp hrest
        exact h.batchRow hsent hrow
    refine ⟨h.phantoms, fun row hrow => ?_, fun a b ca cb ha hb => ?_, fun name c hc => ?_, h.bound,
      fun name => ?_⟩
    · rcases List.mem_append.mp hrow with hrow | hrow
      · exact h.shaped row hrow
      · cases List.mem_singleton.mp hrow
        exact hshaped
    · exact h.ids a b ca cb (hfields ▸ ha) (hfields ▸ hb)
    · exact h.below name c (hfields ▸ hc)
    · rw [DocidFieldsMgr.containField, hfields]
      exact h.columns name
  | update doc docid =>
    obtain ⟨sent, hsent⟩ := hop
    obtain ⟨r, hr, rfl⟩ := Option.map_eq_some_iff.mp hstep
    have hcolumns := (Shelf.storeUpdate_columns hr).1
    obtain ⟨row₀, hrow₀, hrest⟩ := Option.bind_eq_some_iff.mp hr
    obtain ⟨row, hrun, rfl⟩ := Option.map_eq_some_iff.mp hrest
    have hshaped := Shelf.Good.updateRow hsent (h.shaped row₀ (mem_of_getRow hrow₀)) hrun
    refine ⟨h.phantoms, fun row' hrow' => ?_, h.ids, h.below, h.bound, h.columns⟩
    rcases List.mem_or_eq_of_mem_set hrow' with hold | rfl
    · exact h.shaped row' hold
    · exact hshaped

/-- **A run** of the server. -/
theorem Shelf.Good.run {s s' : Shelf} (h : s.Good) {ops : List ShelfOp}
    (hsteps : EachStep Shelf.step ServerStep ops s) (hrun : runOps Shelf.step ops s = some s') :
    s'.Good :=
  (always_of_guard (fun _ _ _ hgood hop => hgood.step hop) h hsteps).last hrun

end AwaDB.Awa
