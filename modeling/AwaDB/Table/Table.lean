import AwaDB.Lib.Lists
import AwaDB.Table.Row
import Mathlib.Data.Int.Notation
import Mathlib.Logic.Function.Basic
import Mathlib.Data.Set.Function

/-!
# The table (`table/table.cc`)

`Table` maps keys to document ids and stores one row a document. The storage of rows and strings is
taken as an array: `Add` appends, `Get` and `Update` address by document id. Keys are looked up by
a 64-bit number, an MD5 of the key or its first eight bytes, so that all functions that touch a key
take the function `keyId`.

The three writers differ: `Add` wants as many fields as the schema has and knows no dynamic
columns, `BatchAdd` never fails, and both of them append the row whatever document id they are given;
`Update` rewrites the row of the document id.
-/

namespace AwaDB

/-- `Doc`, with its fields split into those of the table and the vectors. -/
structure Doc where
  key : Bytes
  tableFields : List Field
  vectorFields : List Field
deriving DecidableEq, Repr

/-- `BatchResult`: a code and a message for each document. -/
abbrev BatchResult := List (ℤ × String)

/-- `BatchResult::SetResult`. -/
def BatchResult.setResult (r : BatchResult) (i : ℕ) (code : ℤ) (msg : String) : BatchResult :=
  r.set i (code, msg)

/-- A call that changes `DocidFieldsMgr`, the store of the columns added after the table was
created. -/
inductive ColumnOp where
  | addField (info : FieldInfo)
  | put (docid : ℕ) (fields : List Field)
deriving DecidableEq, Repr

/-- `Table`. `phantoms` are the names that `operator[]` has entered into `attr_offset_map_`, and
`columns` is the history of the dynamic columns. -/
structure Table where
  schema : Schema
  phantoms : List String
  itemToDocid : ℤ → Option ℕ
  rows : List Row
  lastDocid : ℤ
  columns : List ColumnOp

namespace Table

/-- A table just created. -/
def create (schema : Schema) : Table where
  schema := schema
  phantoms := []
  itemToDocid := fun _ => none
  rows := []
  lastDocid := -1
  columns := []

/-- `DocidFieldsMgr::ContainField`. -/
def containField (t : Table) (name : String) : Bool :=
  t.columns.any fun op =>
    match op with
    | .addField info => info.name = name
    | .put _ _ => false

/-- Whether `attr_offset_map_` has the name. -/
def hasOffset (t : Table) (name : String) : Bool :=
  name ∈ t.schema.names || name ∈ t.phantoms

/-- `Table::AddNewField`: a column that is not part of the rows. -/
def addNewField (t : Table) (info : FieldInfo) : Table :=
  if info.name ∈ t.schema.names then t
  else if t.containField info.name then t
  else { t with columns := t.columns ++ [.addField info] }

/-- `item_to_docid_.insert`: a key that is already there keeps its document. -/
def insertKey (k : ℤ) (docid : ℕ) (m : ℤ → Option ℕ) : ℤ → Option ℕ :=
  if m k = none then Function.update m k (some docid) else m

/-- `storage_mgr_->Get`. -/
def getRow (t : Table) (docid : ℤ) : Option Row :=
  if docid < 0 then none else t.rows[docid.toNat]?

section Keys

variable (keyId : Bytes → ℤ)

/-- `Table::GetDocIDByKey`. -/
def getDocIDByKey (t : Table) (key : Bytes) : Option ℕ := t.itemToDocid (keyId key)

/-! ### Adding -/

/-- `Table::Add`. -/
def add (t : Table) (key : Bytes) (fields : List Field) (docid : ℕ) : Option (ℤ × Table) :=
  if fields.length ≠ t.schema.attrs.length then some (-2, t)
  else if key = [] then some (-3, t)
  else
    (Lib.runOps t.schema.storeField fields t.schema.freshRow).map fun row =>
      (0, { t with
        phantoms := t.phantoms ++ (fields.map Field.name).filter (· ∉ t.schema.names)
        itemToDocid := insertKey (keyId key) docid t.itemToDocid
        rows := t.rows ++ [row]
        lastDocid := docid })

/-- The first loop of `BatchAdd`: enter the keys. The code is set at the position within the
batch. -/
def insertKeys : List Doc → ℕ → ℕ → (ℤ → Option ℕ) → BatchResult →
    (ℤ → Option ℕ) × BatchResult
  | [], _, _, m, result => (m, result)
  | doc :: docs, i, docid, m, result =>
    if doc.key = [] then
      insertKeys docs (i + 1) docid m (result.setResult i (-1) "Add item error : _id is null!")
    else insertKeys docs (i + 1) docid (insertKey (keyId doc.key) (docid + i) m) result

end Keys

/-- A document without fields is given its key as the only one. -/
def withKeyField (t : Table) (doc : Doc) : Doc :=
  if doc.tableFields = [] then
    { doc with
      tableFields := [⟨"_id", doc.key, if t.schema.idIsString then .string else .long⟩] }
  else doc

/-- The row that `BatchAdd` stores: fields without an offset are left out. -/
def batchRow (t : Table) (doc : Doc) : Option Row :=
  Lib.runOps t.schema.storeField (doc.tableFields.filter fun f => t.hasOffset f.name)
    t.schema.freshRow

/-- `new_column_fields`: the fields that go to the dynamic columns. -/
def newColumnFields (t : Table) (doc : Doc) : List Field :=
  doc.tableFields.filter fun f => !t.hasOffset f.name && t.containField f.name

/-- One round of the second loop of `BatchAdd`. -/
def addRow (t : Table) (doc : Doc) (docid : ℕ) : Option Table :=
  (t.batchRow doc).map fun row =>
    { t with
      rows := t.rows ++ [row]
      columns :=
        if t.newColumnFields doc = [] then t.columns
        else t.columns ++ [.put docid (t.newColumnFields doc)] }

/-- The second loop of `BatchAdd`. -/
def addRows : List Doc → ℕ → Table → Option Table
  | [], _, t => some t
  | doc :: docs, docid, t => (t.addRow doc docid).bind (addRows docs (docid + 1))

/-- `Table::BatchAdd`: the table, the documents with the key fields it adds, and the result. -/
def batchAdd (keyId : Bytes → ℤ) (t : Table) (docs : List Doc) (docid : ℕ) (result : BatchResult) :
    Option (Table × List Doc × BatchResult) :=
  let entered := insertKeys keyId docs 0 docid t.itemToDocid result
  let docs := docs.map t.withKeyField
  (addRows docs docid { t with itemToDocid := entered.1 }).map fun t =>
    ({ t with lastDocid := docid + docs.length }, docs, entered.2)

/-! ### Updating, deleting, reading -/

/-- `Table::Update`; without a row the `memcpy` reads a null pointer. -/
def update (t : Table) (fields : List Field) (docid : ℤ) : Option Table :=
  if fields = [] then some t
  else
    (t.getRow docid).bind fun row =>
      (Lib.runOps t.schema.updateField fields row).map fun row =>
        { t with rows := t.rows.set docid.toNat row }

/-- `Table::Delete`: only the key is removed. -/
def delete (keyId : Bytes → ℤ) (t : Table) (key : Bytes) : Table :=
  { t with itemToDocid := Function.update t.itemToDocid (keyId key) none }

/-- `Table::GetFieldRawValue`. -/
def getFieldRawValue (t : Table) (docid : ℤ) (fieldId : ℕ) : Option Cell :=
  (t.getRow docid).bind fun row => row[fieldId]?

/-- What `GetDocInfo` reads for a document: the cells of the fields, and the history that
`DocidFieldsMgr` answers from. Empty strings are left out. -/
structure DocInfo where
  fields : List (FieldInfo × Cell)
  columns : List ColumnOp
deriving DecidableEq, Repr

/-- `Table::GetDocInfo` for all fields, which are visited in the order of their names. -/
def getDocInfo (t : Table) (docid : ℕ) : Option DocInfo :=
  if (docid : ℤ) > t.lastDocid then none
  else
    (t.getRow docid).map fun row =>
      { fields := ((t.schema.attrs.zip row).mergeSort fun a b => a.1.name ≤ b.1.name).filter
          fun p => p.2 ≠ .str (some [])
        columns := t.columns }

/-! ### Reading rows -/

theorem getRow_congr {t t' : Table} {d : ℕ} (hrow : t'.rows[d]? = t.rows[d]?) :
    t'.getRow d = t.getRow d := by
  have hneg : ¬ (d : ℤ) < 0 := by omega
  rw [getRow, getRow, if_neg hneg, if_neg hneg, Int.toNat_natCast, hrow]

theorem getFieldRawValue_congr {t t' : Table} {d : ℕ} (hrow : t'.rows[d]? = t.rows[d]?) :
    t'.getFieldRawValue d = t.getFieldRawValue d := by
  funext i
  rw [getFieldRawValue, getFieldRawValue, getRow_congr hrow]

/-! ### Entering keys -/

theorem insertKey_apply (k : ℤ) (docid : ℕ) (m : ℤ → Option ℕ) (k' : ℤ) :
    insertKey k docid m k' = if k' = k ∧ m k = none then some docid else m k' := by
  by_cases hm : m k = none
  · by_cases hk : k' = k
    · subst hk
      simp [insertKey, hm]
    · simp [insertKey, hm, hk]
  · simp [insertKey, hm]

/-- Which keys have a document once a new key was entered. -/
theorem insertKey_cases {k k' : ℤ} {docid d : ℕ} {m : ℤ → Option ℕ} (hnew : m k = none)
    (h : insertKey k docid m k' = some d) : k' = k ∧ d = docid ∨ k' ≠ k ∧ m k' = some d := by
  rw [insertKey_apply] at h
  by_cases hk : k' = k
  · rw [if_pos ⟨hk, hnew⟩] at h
    exact .inl ⟨hk, (Option.some.inj h).symm⟩
  · rw [if_neg fun hcond => hk hcond.1] at h
    exact .inr ⟨hk, h⟩

/-- Different keys keep different documents when one gets a new document. -/
theorem insertKey_inj {k : ℤ} {docid : ℕ} {m : ℤ → Option ℕ} (hnew : m k = none)
    (hlt : ∀ k d, m k = some d → d < docid)
    (hinj : ∀ k k' d, m k = some d → m k' = some d → k = k') {k₁ k₂ : ℤ} {d : ℕ}
    (h₁ : insertKey k docid m k₁ = some d) (h₂ : insertKey k docid m k₂ = some d) : k₁ = k₂ := by
  obtain ⟨hk₁, hd₁⟩ | ⟨-, hold₁⟩ := insertKey_cases hnew h₁
  · obtain ⟨hk₂, -⟩ | ⟨-, hold₂⟩ := insertKey_cases hnew h₂
    · rw [hk₁, hk₂]
    · exact absurd (hd₁ ▸ hlt k₂ d hold₂) (Nat.lt_irrefl _)
  · obtain ⟨-, hd₂⟩ | ⟨-, hold₂⟩ := insertKey_cases hnew h₂
    · exact absurd (hd₂ ▸ hlt k₁ d hold₁) (Nat.lt_irrefl _)
    · exact hinj k₁ k₂ d hold₁ hold₂

/-- A key that has a document keeps it. -/
theorem insertKey_of_some {k k' : ℤ} {docid d : ℕ} {m : ℤ → Option ℕ} (h : m k' = some d) :
    insertKey k docid m k' = some d := by
  rw [insertKey_apply]
  by_cases hk : k' = k ∧ m k = none
  · obtain ⟨rfl, hnone⟩ := hk
    rw [h] at hnone
    cases hnone
  · rw [if_neg hk, h]

/-- A key without a document is not the one that was entered. -/
theorem insertKey_eq_none {k k' : ℤ} {docid : ℕ} {m : ℤ → Option ℕ}
    (h : insertKey k docid m k' = none) : k' ≠ k ∧ m k' = none := by
  rw [insertKey_apply] at h
  split at h
  · cases h
  · rename_i hcond
    exact ⟨fun heq => hcond ⟨heq, heq ▸ h⟩, h⟩

/-- Entering keys leaves no new document ids but the one given. -/
theorem insertKey_eq_some {k k' : ℤ} {docid d : ℕ} {m : ℤ → Option ℕ}
    (h : insertKey k docid m k' = some d) : d = docid ∨ m k' = some d := by
  rw [insertKey_apply] at h
  split at h
  · exact .inl (Option.some.inj h).symm
  · exact .inr h

/-- A key that has a document after a deletion had it before. -/
theorem itemToDocid_of_delete {keyId : Bytes → ℤ} {t : Table} {key : Bytes} {k : ℤ} {d : ℕ}
    (h : (t.delete keyId key).itemToDocid k = some d) : t.itemToDocid k = some d :=
  Lib.of_update_none h

/-! ### Complete documents -/

/-- The document gives each field of the schema once. -/
def Complete (s : Schema) (doc : Doc) : Prop := (doc.tableFields.map Field.name).Perm s.names

theorem Complete.mem_names {s : Schema} {doc : Doc} (h : Complete s doc) {f : Field}
    (hf : f ∈ doc.tableFields) : f.name ∈ s.names :=
  h.mem_iff.mp (List.mem_map_of_mem hf)

theorem Complete.length_eq {s : Schema} {doc : Doc} (h : Complete s doc) :
    doc.tableFields.length = s.attrs.length := by
  have hlen := List.Perm.length_eq h
  simpa [Schema.names] using hlen

theorem Complete.withKeyField_eq {t : Table} {doc : Doc} (h : Complete t.schema doc) :
    t.withKeyField doc = doc := by
  have hne : doc.tableFields ≠ [] := by
    intro hnil
    have hmem := h.mem_iff.mpr t.schema.key_mem
    rw [hnil] at hmem
    cases hmem
  rw [withKeyField, if_neg hne]

/-- The row that a complete document gets. -/
def rowOf (s : Schema) (doc : Doc) : Option Row :=
  Lib.runOps s.storeField doc.tableFields s.freshRow

theorem Complete.addRow_eq {t : Table} {doc : Doc} (h : Complete t.schema doc) (docid : ℕ) :
    t.addRow doc docid = (rowOf t.schema doc).map fun row => { t with rows := t.rows ++ [row] } := by
  have hknown : ∀ f ∈ doc.tableFields, t.hasOffset f.name = true := by
    intro f hf
    simp [hasOffset, h.mem_names hf]
  have hrow : t.batchRow doc = rowOf t.schema doc := by
    rw [batchRow, List.filter_eq_self.mpr hknown, rowOf]
  have hnew : t.newColumnFields doc = [] := by
    refine List.filter_eq_nil_iff.mpr fun f hf => ?_
    simp [hknown f hf]
  simp [addRow, hrow, hnew]

section Runs

variable (keyId : Bytes → ℤ)

/-- **`Table::Add` of a complete document** appends its row under the next document id. -/
theorem Complete.add_eq {t : Table} {doc : Doc} (h : Complete t.schema doc) (hkey : doc.key ≠ [])
    (docid : ℕ) :
    t.add keyId doc.key doc.tableFields docid = (rowOf t.schema doc).map fun row =>
      (0, { t with
        itemToDocid := insertKey (keyId doc.key) docid t.itemToDocid
        rows := t.rows ++ [row]
        lastDocid := docid }) := by
  have hphantoms : (doc.tableFields.map Field.name).filter (· ∉ t.schema.names) = [] := by
    refine List.filter_eq_nil_iff.mpr fun name hname => ?_
    simpa using h.mem_iff.mp hname
  rw [add, if_neg (not_not.mpr h.length_eq), if_neg hkey, hphantoms, List.append_nil, rowOf]

/-- The keys of a run, entered one after the other. -/
def enterKeys : List Doc → ℕ → (ℤ → Option ℕ) → ℤ → Option ℕ
  | [], _, m => m
  | doc :: docs, docid, m => enterKeys docs (docid + 1) (insertKey (keyId doc.key) docid m)

theorem enterKeys_append (docs : List Doc) (doc : Doc) (docid : ℕ) (m : ℤ → Option ℕ) :
    enterKeys keyId (docs ++ [doc]) docid m =
      insertKey (keyId doc.key) (docid + docs.length) (enterKeys keyId docs docid m) := by
  induction docs generalizing docid m with
  | nil => rfl
  | cons d docs ih =>
    rw [List.cons_append, enterKeys, ih, enterKeys, List.length_cons]
    congr 1
    omega

theorem enterKeys_of_some {k : ℤ} {d : ℕ} (docs : List Doc) (docid : ℕ) {m : ℤ → Option ℕ}
    (h : m k = some d) : enterKeys keyId docs docid m k = some d := by
  induction docs generalizing docid m with
  | nil => exact h
  | cons doc docs ih => exact ih (docid + 1) (insertKey_of_some h)

theorem enterKeys_eq_none {k : ℤ} {docs : List Doc} (docid : ℕ) {m : ℤ → Option ℕ}
    (h : m k = none) (hdocs : ∀ doc ∈ docs, keyId doc.key ≠ k) :
    enterKeys keyId docs docid m k = none := by
  induction docs generalizing docid m with
  | nil => exact h
  | cons doc docs ih =>
    have hne : ¬ (k = keyId doc.key ∧ m (keyId doc.key) = none) :=
      fun hk => hdocs doc List.mem_cons_self hk.1.symm
    refine ih (docid + 1) ?_ fun d hd => hdocs d (List.mem_cons_of_mem doc hd)
    rw [insertKey_apply, if_neg hne, h]

theorem insertKeys_eq {docs : List Doc} (hkeys : ∀ doc ∈ docs, doc.key ≠ []) (i docid : ℕ)
    (m : ℤ → Option ℕ) (result : BatchResult) :
    insertKeys keyId docs i docid m result = (enterKeys keyId docs (docid + i) m, result) := by
  induction docs generalizing i m with
  | nil => rfl
  | cons doc docs ih =>
    rw [insertKeys, if_neg (hkeys doc List.mem_cons_self),
      ih fun d hd => hkeys d (List.mem_cons_of_mem doc hd)]
    rfl

theorem addRows_eq {docs : List Doc} {t : Table} (h : ∀ doc ∈ docs, Complete t.schema doc)
    (docid : ℕ) :
    addRows docs docid t = (docs.mapM (rowOf t.schema)).map fun rows =>
      { t with rows := t.rows ++ rows } := by
  induction docs generalizing docid t with
  | nil => simp [addRows]
  | cons doc docs ih =>
    rw [addRows, (h doc List.mem_cons_self).addRow_eq, List.mapM_cons]
    cases hrow : rowOf t.schema doc with
    | none => rfl
    | some row =>
      have hrest : ∀ d ∈ docs, Complete t.schema d := fun d hd => h d (List.mem_cons_of_mem doc hd)
      have hih := ih (t := { t with rows := t.rows ++ [row] }) hrest (docid + 1)
      rw [Option.map_some, Option.bind_some, hih]
      cases hrows : docs.mapM (rowOf t.schema) <;> simp [List.append_assoc]

/-- **`Table::BatchAdd` of complete documents** appends their rows under the document ids from the
given one on. -/
theorem batchAdd_eq {docs : List Doc} {t : Table} (h : ∀ doc ∈ docs, Complete t.schema doc)
    (hkeys : ∀ doc ∈ docs, doc.key ≠ []) (docid : ℕ) (result : BatchResult) :
    t.batchAdd keyId docs docid result = (docs.mapM (rowOf t.schema)).map fun rows =>
      ({ t with
        itemToDocid := enterKeys keyId docs docid t.itemToDocid
        rows := t.rows ++ rows
        lastDocid := docid + docs.length }, docs, result) := by
  have hfields : docs.map t.withKeyField = docs := by
    rw [List.map_congr_left fun d hd => (h d hd).withKeyField_eq, List.map_id'']
    exact fun _ => rfl
  have hrows := addRows_eq (t := { t with itemToDocid := enterKeys keyId docs docid t.itemToDocid })
    h docid
  rw [batchAdd, insertKeys_eq keyId hkeys, hfields, Nat.add_zero]
  simp only
  rw [hrows]
  cases docs.mapM (rowOf t.schema) <;> rfl

end Runs

end Table

end AwaDB
