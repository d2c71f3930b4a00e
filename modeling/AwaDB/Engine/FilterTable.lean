import AwaDB.Table.FieldIds
import AwaDB.Table.IndexWorker

/-!
# A table and its range index (`MultiFieldsRangeIndex`, `GammaEngine::Load`)

The constructor of `MultiFieldsRangeIndex` makes as many places in `fields_` as the table has fields,
and `AddNewField` adds places for the fields that come later. A document is entered at the places of
the fields it gives. After a restart the table has the fields of the schema only, and `Load` enters each
document at each of their places.

* `getElem?_addFields`: what a new document does at one place;
* `getElem?_load` and `load_isSome`: the index of a field after `Load` is `built` from the rows alone,
  and `Load` is defined where this is.
-/

namespace AwaDB

open Lib

/-- `FieldInfo`, with the name as the bytes that `DocidFieldsMgr` writes. -/
structure FieldSpec where
  name : Bytes
  dataType : DataType
  isIndex : Bool
deriving DecidableEq, Repr

/-- `Field`, with the type that the table has for it. -/
structure DocField where
  name : Bytes
  value : Bytes
  mulStrValue : List Bytes
  datatype : DataType
deriving DecidableEq, Repr

/-- What `GetColFieldRawValue` returns of a field that was put. -/
def DocField.values (field : DocField) : List Bytes :=
  if field.datatype = .multiString then field.mulStrValue else [field.value]

namespace FieldSpec

/-- The cell that `Table::BatchAdd` writes, with `CheckStrLen`. -/
def cellOf (info : FieldSpec) (value : Bytes) : Cell :=
  if info.dataType = .string then
    let len := value.length % 2 ^ 16
    let len := if len > strMaxIndexLen ∧ info.isIndex then strMaxIndexLen else len
    .str (some (value.take (min len maxStringLen)))
  else .fixed (readMem value (fTypeSize info.dataType))

/-- A cell that was never written. -/
def freshCell (info : FieldSpec) : Cell :=
  if info.dataType = .string then .str none
  else .fixed (List.replicate (fTypeSize info.dataType) none)

/-- The place of the field in `fields_`. -/
def newIndex (info : FieldSpec) : Option FieldRangeIndex :=
  if info.isIndex then some (FieldRangeIndex.create info.dataType) else none

end FieldSpec

/-- The table, its `DocidFieldsMgr`, and the `MultiFieldsRangeIndex` over them: `infos` is the schema,
`columns` has the values of the added fields with their document and field, and `fields` is
`fields_`. Everything in `field_operate_q_` is processed. -/
structure FilterTable where
  infos : List FieldSpec
  ids : TableFields
  rows : List Row
  columns : List (ℕ × ℕ × List Bytes)
  fields : List (Option FieldRangeIndex)

/-- `GammaEngine::AddNewField`, where a new column may fail to be made, and `AddOrUpdateDocs` with a
new document. -/
inductive FilterOp where
  | addNewField (info : FieldSpec) (made : Bool)
  | add (doc : List DocField)
deriving DecidableEq, Repr

namespace FilterTable

/-- The constructor of `MultiFieldsRangeIndex`, and `AddNumIndexFields`. -/
def newFields (infos : List FieldSpec) : List (Option FieldRangeIndex) :=
  infos.map FieldSpec.newIndex

/-- `GammaEngine::CreateTable`. -/
def create (infos : List FieldSpec) : Option FilterTable :=
  (TableFields.create (infos.map FieldSpec.name)).map fun ids =>
    { infos, ids, rows := [], columns := [], fields := newFields infos }

/-- `MultiFieldsRangeIndex::AddNewField`. -/
def addNewIndex (fid : ℕ) (info : FieldSpec) (fields : List (Option FieldRangeIndex)) :
    List (Option FieldRangeIndex) :=
  if fid < fields.length then fields
  else
    fields ++ List.replicate (fid - fields.length) none ++
      [some (FieldRangeIndex.create info.dataType)]

/-- `GammaEngine::AddNewField`. -/
def addNewField (info : FieldSpec) (made : Bool) (s : FilterTable) : FilterTable :=
  if (s.ids.attrIdx info.name).isSome then s
  else
    let ids := s.ids.addNewField info.name made
    if (s.ids.nameId info.name).isNone ∧ ¬ made then { s with ids }
    else if info.isIndex then { s with ids, fields := addNewIndex s.ids.fieldNum info s.fields }
    else { s with ids }

/-- The row of a document in `Table::BatchAdd`. -/
def rowOf (s : FilterTable) (doc : List DocField) : Row :=
  doc.foldl (fun row field =>
    match (s.ids.attrIdx field.name).bind fun i => s.infos[i]?.map fun info => (i, info) with
    | none => row
    | some (i, info) => row.set i (info.cellOf field.value)) (s.infos.map FieldSpec.freshCell)

/-- What `DocidFieldsMgr::Put` gets of a document. -/
def columnsOf (s : FilterTable) (docid : ℕ) (doc : List DocField) : List (ℕ × ℕ × List Bytes) :=
  doc.filterMap fun field =>
    if (s.ids.attrIdx field.name).isSome then none
    else (s.ids.nameId field.name).map fun fid => (docid, fid, field.values)

/-- `Table::GetFieldRawValue` of a field of the schema; memory that was never written is undefined. -/
def rawValue (rows : List Row) (docid field : ℕ) : Option Bytes :=
  (rows[docid]?.bind fun row => row[field]?).bind Cell.bytes?

/-- `Table::GetColFieldRawValue`. -/
def colValues (s : FilterTable) (docid fid : ℕ) : List Bytes :=
  match (s.ids.idName fid).bind s.ids.nameId with
  | none => []
  | some id =>
    match s.columns.find? fun column => column.1 = docid ∧ column.2.1 = id with
    | none => []
    | some column => column.2.2

/-- The values that `AddDoc` reads. -/
def valuesOf (s : FilterTable) (docid field : ℕ) : Option (List Bytes) :=
  if field < s.ids.fieldNum ∧ field < s.infos.length then
    (rawValue s.rows docid field).map fun value => [value]
  else some (s.colValues docid field)

/-- `MultiFieldsRangeIndex::Add` and `AddDoc`. A field without a place is read behind `fields_`. -/
def addDoc (docid field : ℕ) (s : FilterTable) : Option FilterTable :=
  match s.fields[field]? with
  | none => none
  | some none => some s
  | some (some index) =>
    (s.valuesOf docid field).bind fun values =>
      (runOps (fun value index => index.add value docid) values index).map fun index =>
        { s with fields := s.fields.set field (some index) }

/-- The loop of `AddOrUpdateDocs` over the fields of a document. -/
def addFieldOf (docid : ℕ) (field : DocField) (s : FilterTable) : Option FilterTable :=
  match s.ids.getAttrIdx field.name with
  | none => some s
  | some fid => s.addDoc docid fid

/-- `AddOrUpdateDocs` with one document. -/
def add (doc : List DocField) (s : FilterTable) : Option FilterTable :=
  runOps (addFieldOf s.rows.length) doc { s with
    rows := s.rows ++ [s.rowOf doc]
    columns := s.columns ++ s.columnsOf s.rows.length doc }

/-- One call. -/
def step : FilterOp → FilterTable → Option FilterTable
  | .addNewField info made, s => some (s.addNewField info made)
  | .add doc, s => s.add doc

/-- `Dump`, and `Load` in a new process. The table is created again from its schema, and the columns
come with the file of `DocidFieldsMgr`. -/
def reload (s : FilterTable) : Option FilterTable :=
  ((s.ids.dump true).restart).bind fun ids =>
    runOps (fun i => runOps (addDoc i) (List.range s.infos.length)) (List.range s.rows.length)
      { s with
        ids
        columns := if ids.file = .absent then [] else s.columns
        fields := newFields s.infos }

/-! ### The index of one field -/

/-- `AddDoc` at one place of `fields_`. -/
def addCell (rows : List Row) (docid j : ℕ) :
    Option FieldRangeIndex → Option (Option FieldRangeIndex)
  | none => some none
  | some index => (rawValue rows docid j).bind fun value => (index.add value docid).map some

/-- The place of field `j` after the first documents were entered. -/
def built (rows : List Row) (j num : ℕ) (index : Option FieldRangeIndex) :
    Option (Option FieldRangeIndex) :=
  runOps (fun docid => addCell rows docid j) (List.range num) index

theorem built_succ (rows : List Row) (j num : ℕ) (index : Option FieldRangeIndex) :
    built rows j (num + 1) index = (built rows j num index).bind (addCell rows num j) := by
  rw [built, List.range_succ, runOps_append]
  apply congrArg
  funext index
  rw [runOps_cons]
  cases addCell rows num j index with
  | none => rfl
  | some index => rfl

theorem built_none (rows : List Row) (j num : ℕ) : built rows j num none = some none := by
  induction num with
  | zero => rfl
  | succ num ih =>
    rw [built_succ, ih]
    rfl

/-- An index stays one of its kind. -/
theorem addCell_some {rows : List Row} {docid j : ℕ} {index : FieldRangeIndex}
    {after : Option FieldRangeIndex} (h : addCell rows docid j (some index) = some after) :
    ∃ i, after = some i ∧ i.isNumeric = index.isNumeric := by
  obtain ⟨value, -, hadd⟩ := Option.bind_eq_some_iff.mp h
  obtain ⟨i, hi, rfl⟩ := Option.map_eq_some_iff.mp hadd
  obtain ⟨keys, -, htree⟩ := Option.bind_eq_some_iff.mp hi
  obtain ⟨tree, -, rfl⟩ := Option.map_eq_some_iff.mp htree
  exact ⟨_, rfl, rfl⟩

theorem built_some {rows : List Row} {j num : ℕ} {index : FieldRangeIndex}
    {after : Option FieldRangeIndex} (h : built rows j num (some index) = some after) :
    ∃ i, after = some i ∧ i.isNumeric = index.isNumeric := by
  induction num generalizing after with
  | zero =>
    cases h
    exact ⟨index, rfl, rfl⟩
  | succ num ih =>
    rw [built_succ] at h
    obtain ⟨before, hbefore, hlast⟩ := Option.bind_eq_some_iff.mp h
    obtain ⟨i, rfl, hi⟩ := ih hbefore
    obtain ⟨i', rfl, hi'⟩ := addCell_some hlast
    exact ⟨i', rfl, hi'.trans hi⟩

/-- Rows that come later do not count. -/
theorem rawValue_append {rows : List Row} {docid : ℕ} (hdocid : docid < rows.length) (row : Row)
    (j : ℕ) : rawValue (rows ++ [row]) docid j = rawValue rows docid j := by
  rw [rawValue, List.getElem?_append_left hdocid, rawValue]

theorem built_append (rows : List Row) (row : Row) (j : ℕ) {num : ℕ} (hnum : num ≤ rows.length)
    (index : Option FieldRangeIndex) : built (rows ++ [row]) j num index = built rows j num index := by
  induction num with
  | zero => rfl
  | succ num ih =>
    rw [built_succ, built_succ, ih (by omega)]
    apply congrArg
    funext index
    cases index with
    | none => rfl
    | some index => rw [addCell, addCell, rawValue_append (by omega)]

/-! ### Entering documents -/

/-- The ids of a table: the fields of the schema have their positions, and the fields that were added
come behind them. -/
structure Numbers (infos : List FieldSpec) (ids : TableFields) : Prop where
  schema : ∀ name fid, ids.attrIdx name = some fid ↔ (infos.map FieldSpec.name)[fid]? = some name
  added : ∀ name fid, ids.nameId name = some fid → infos.length ≤ fid
  fieldNum : infos.length ≤ ids.fieldNum

section Enter

variable {infos : List FieldSpec} {s s' : FilterTable} {docid j : ℕ} {info : FieldSpec}

theorem Numbers.lt {ids : TableFields} (h : Numbers infos ids) {name : Bytes} {fid : ℕ}
    (hname : ids.attrIdx name = some fid) : fid < infos.length := by
  obtain ⟨hlt, -⟩ := List.getElem?_eq_some_iff.mp ((h.schema name fid).mp hname)
  rwa [List.length_map] at hlt

theorem Numbers.attrIdx_iff {ids : TableFields} (h : Numbers infos ids) (hj : infos[j]? = some info)
    (name : Bytes) : ids.attrIdx name = some j ↔ name = info.name := by
  rw [h.schema, List.getElem?_map, hj, Option.map_some, Option.some_inj]
  exact eq_comm

/-- The id of a field of the schema is not that of another field. -/
theorem Numbers.getAttrIdx_iff {ids : TableFields} (h : Numbers infos ids)
    (hj : infos[j]? = some info) (name : Bytes) : ids.getAttrIdx name = some j ↔ name = info.name := by
  constructor
  · intro hname
    cases TableFields.getAttrIdx_eq_some hname with
    | inl hattr => exact (h.attrIdx_iff hj name).mp hattr
    | inr hadded =>
      obtain ⟨hlt, -⟩ := List.getElem?_eq_some_iff.mp hj
      exact absurd (h.added name j hadded) (by omega)
  · intro heq
    rw [TableFields.getAttrIdx, (h.attrIdx_iff hj name).mpr heq, Option.some_or]

/-- All but the indexes is the same. -/
structure Same (s s' : FilterTable) : Prop where
  infos : s'.infos = s.infos
  ids : s'.ids = s.ids
  rows : s'.rows = s.rows
  length : s'.fields.length = s.fields.length

theorem Same.refl (s : FilterTable) : Same s s := ⟨rfl, rfl, rfl, rfl⟩

theorem Same.trans {t : FilterTable} (h : Same s t) (h' : Same t s') : Same s s' :=
  ⟨h'.infos.trans h.infos, h'.ids.trans h.ids, h'.rows.trans h.rows, h'.length.trans h.length⟩

theorem same_addDoc {fid : ℕ} (h : s.addDoc docid fid = some s') : Same s s' := by
  rw [addDoc] at h
  split at h
  · cases h
  · cases h
    exact .refl s
  · obtain ⟨values, -, hadd⟩ := Option.bind_eq_some_iff.mp h
    obtain ⟨index, -, rfl⟩ := Option.map_eq_some_iff.mp hadd
    exact ⟨rfl, rfl, rfl, List.length_set⟩

theorem same_addFieldOf {field : DocField} (h : addFieldOf docid field s = some s') : Same s s' := by
  rw [addFieldOf] at h
  split at h
  · cases h
    exact .refl s
  · exact same_addDoc h

theorem valuesOf_schema (hids : Numbers infos s.ids) (hinfos : s.infos = infos)
    (hj : j < infos.length) :
    s.valuesOf docid j = (rawValue s.rows docid j).map fun value => [value] := by
  rw [valuesOf, if_pos]
  rw [hinfos]
  exact ⟨Nat.lt_of_lt_of_le hj hids.fieldNum, hj⟩

/-- **`AddDoc`** at the place of a field of the schema. -/
theorem getElem?_addDoc (hids : Numbers infos s.ids) (hinfos : s.infos = infos)
    (hj : j < infos.length) {fid : ℕ} (h : s.addDoc docid fid = some s') :
    s'.fields[j]? = if fid = j then s.fields[j]?.bind (addCell s.rows docid j) else s.fields[j]? := by
  rw [addDoc] at h
  split at h
  · cases h
  · rename_i hplace
    cases h
    split
    · rename_i heq
      rw [← heq, hplace]
      rfl
    · rfl
  · rename_i index hplace
    obtain ⟨values, hvalues, hadd⟩ := Option.bind_eq_some_iff.mp h
    obtain ⟨after, hafter, rfl⟩ := Option.map_eq_some_iff.mp hadd
    obtain ⟨hlt, -⟩ := List.getElem?_eq_some_iff.mp hplace
    split
    · rename_i heq
      subst heq
      rw [valuesOf_schema hids hinfos hj] at hvalues
      obtain ⟨value, hvalue, rfl⟩ := Option.map_eq_some_iff.mp hvalues
      rw [runOps_cons] at hafter
      obtain ⟨i, hi, hlast⟩ := Option.bind_eq_some_iff.mp hafter
      cases hlast
      rw [List.getElem?_set_self hlt, hplace, Option.bind_some, addCell, hvalue, Option.bind_some, hi,
        Option.map_some]
    · rename_i hne
      exact List.getElem?_set_ne hne

/-- `AddDoc` at a place of the schema is defined where `addCell` is. -/
theorem addDoc_isSome (hids : Numbers infos s.ids) (hinfos : s.infos = infos) (hj : j < infos.length)
    {index : Option FieldRangeIndex} (hplace : s.fields[j]? = some index)
    (hdefined : (addCell s.rows docid j index).isSome) : ∃ s', s.addDoc docid j = some s' := by
  rw [addDoc, hplace]
  cases index with
  | none => exact ⟨s, rfl⟩
  | some index =>
    obtain ⟨after, hafter⟩ := Option.isSome_iff_exists.mp hdefined
    obtain ⟨value, hvalue, hadd⟩ := Option.bind_eq_some_iff.mp hafter
    obtain ⟨i, hi, -⟩ := Option.map_eq_some_iff.mp hadd
    refine ⟨{ s with fields := s.fields.set j (some i) }, ?_⟩
    dsimp only
    rw [valuesOf_schema hids hinfos hj, hvalue]
    show ((index.add value docid).bind some).map _ = _
    rw [hi]
    rfl

theorem same_runOps {ι : Type} {f : ι → FilterTable → Option FilterTable}
    (hsame : ∀ o t t', f o t = some t' → Same t t') {os : List ι} (hrun : runOps f os s = some s') :
    Same s s' :=
  runOps_invariant (fun o t t' ht hstep => ht.trans (hsame o t t' hstep)) (.refl s) hrun

/-- **A run of `AddDoc`** for one document, which comes to the place of field `j` at most once. -/
theorem getElem?_runOps {ι : Type} {f : ι → FilterTable → Option FilterTable} {key : ι → Bool}
    (hsame : ∀ o t t', f o t = some t' → Same t t')
    (hstep : ∀ o t t', Same s t → f o t = some t' →
      t'.fields[j]? = if key o then t.fields[j]?.bind (addCell s.rows docid j) else t.fields[j]?)
    {os : List ι} (hone : os.countP key ≤ 1) (hrun : runOps f os s = some s') :
    s'.fields[j]? = if os.any key then s.fields[j]?.bind (addCell s.rows docid j) else s.fields[j]? := by
  obtain ⟨t₀, hfrom, heq⟩ : ∃ t₀, Same s t₀ ∧ t₀ = s := ⟨s, .refl s, rfl⟩
  rw [← heq] at hrun
  rw [show s.fields[j]? = t₀.fields[j]? by rw [heq]]
  clear heq
  induction os generalizing t₀ with
  | nil =>
    cases hrun
    rfl
  | cons o os ih =>
    obtain ⟨t, ht, hrest⟩ := Option.bind_eq_some_iff.mp hrun
    rw [List.countP_cons] at hone
    rw [ih (by omega) t hrest (hfrom.trans (hsame o t₀ t ht)), hstep o t₀ t hfrom ht, List.any_cons]
    cases hkey : key o with
    | false => simp
    | true =>
      rw [hkey] at hone
      have hnone : os.any key = false := by
        rw [List.any_eq_false]
        intro o' hmem
        exact List.countP_eq_zero.mp (by simpa using hone) o' hmem
      simp [hnone]

/-- **The fields of a document** are entered at their places. -/
theorem getElem?_addFields (hids : Numbers infos s.ids) (hinfos : s.infos = infos)
    (hj : infos[j]? = some info) {doc : List DocField} (hnodup : (doc.map DocField.name).Nodup)
    (hrun : runOps (addFieldOf docid) doc s = some s') :
    s'.fields[j]? =
      if info.name ∈ doc.map DocField.name then s.fields[j]?.bind (addCell s.rows docid j)
      else s.fields[j]? := by
  obtain ⟨hlt, -⟩ := List.getElem?_eq_some_iff.mp hj
  have hone : doc.countP (fun field => decide (field.name = info.name)) ≤ 1 := by
    have hcount := List.nodup_iff_count_le_one.mp hnodup info.name
    rw [List.count, List.countP_map] at hcount
    refine le_trans (le_of_eq (List.countP_congr fun field _ => ?_)) hcount
    simp
  have hsteps : ∀ field t t', Same s t → addFieldOf docid field t = some t' →
      t'.fields[j]? = if decide (field.name = info.name) then
        t.fields[j]?.bind (addCell s.rows docid j) else t.fields[j]? := by
    intro field t t' ht hstep
    have hiff : t.ids.getAttrIdx field.name = some j ↔ field.name = info.name := by
      rw [ht.ids]
      exact hids.getAttrIdx_iff hj field.name
    rw [addFieldOf] at hstep
    split at hstep
    · rename_i hnone
      cases hstep
      rw [if_neg]
      intro hname
      rw [hiff.mpr (of_decide_eq_true hname)] at hnone
      cases hnone
    · rename_i fid hfid
      rw [getElem?_addDoc (by rw [ht.ids]; exact hids) (by rw [ht.infos, hinfos]) hlt hstep, ht.rows]
      congr 1
      rw [decide_eq_true_eq, ← hiff, hfid, Option.some_inj]
  rw [getElem?_runOps (fun _ _ _ => same_addFieldOf) hsteps hone hrun]
  congr 1
  simp

/-! ### `Load` -/

/-- One round of the loop in `Load`. -/
theorem getElem?_loadRow (hids : Numbers infos s.ids) (hinfos : s.infos = infos)
    (hj : j < infos.length) (hrun : runOps (addDoc docid) (List.range infos.length) s = some s') :
    s'.fields[j]? = s.fields[j]?.bind (addCell s.rows docid j) := by
  have hone : (List.range infos.length).countP (fun i => decide (i = j)) ≤ 1 := by
    have hcount := List.nodup_iff_count_le_one.mp (List.nodup_range (n := infos.length)) j
    rw [List.count] at hcount
    refine le_trans (le_of_eq (List.countP_congr fun i _ => ?_)) hcount
    simp
  have hsteps : ∀ i t t', Same s t → addDoc docid i t = some t' → t'.fields[j]? =
      if decide (i = j) then t.fields[j]?.bind (addCell s.rows docid j)
        else t.fields[j]? := by
    intro i t t' ht hstep
    rw [getElem?_addDoc (by rw [ht.ids]; exact hids) (by rw [ht.infos, hinfos]) hj hstep, ht.rows]
    congr 1
    simp
  rw [getElem?_runOps (fun _ _ _ => same_addDoc) hsteps hone hrun, if_pos]
  simp [hj]

theorem loadRow_isSome (hids : Numbers infos s.ids) (hinfos : s.infos = infos) {is : List ℕ}
    (hnodup : is.Nodup) (his : ∀ i ∈ is, ∃ index, s.fields[i]? = some index ∧ i < infos.length ∧
      (addCell s.rows docid i index).isSome) : ∃ s', runOps (addDoc docid) is s = some s' := by
  induction is generalizing s with
  | nil => exact ⟨s, rfl⟩
  | cons i is ih =>
    obtain ⟨index, hplace, hi, hdefined⟩ := his i List.mem_cons_self
    obtain ⟨t, ht⟩ := addDoc_isSome hids hinfos hi hplace hdefined
    have hsame := same_addDoc ht
    rw [List.nodup_cons] at hnodup
    obtain ⟨s', hs'⟩ := ih (s := t) (by rw [hsame.ids]; exact hids) (by rw [hsame.infos, hinfos]) hnodup.2
      fun i' hi' => by
        obtain ⟨index', hplace', hlt', hdefined'⟩ := his i' (List.mem_cons_of_mem i hi')
        refine ⟨index', ?_, hlt', by rw [hsame.rows]; exact hdefined'⟩
        have hne : i ≠ i' := fun heq => hnodup.1 (heq ▸ hi')
        rw [getElem?_addDoc hids hinfos hlt' ht, if_neg hne, hplace']
    exact ⟨s', by rw [runOps_cons, ht, Option.bind_some, hs']⟩

/-- **The loop in `Load`** builds the index of each field from the rows. -/
theorem getElem?_load (hids : Numbers infos s.ids) (hinfos : s.infos = infos) {num : ℕ}
    (hrun : runOps (fun i => runOps (addDoc i) (List.range infos.length)) (List.range num) s =
      some s') :
    Same s s' ∧ ∀ j < infos.length, s'.fields[j]? = s.fields[j]?.bind (built s.rows j num) := by
  induction num generalizing s' with
  | zero =>
    cases hrun
    refine ⟨.refl s, fun j _ => ?_⟩
    cases s.fields[j]? <;> rfl
  | succ num ih =>
    rw [List.range_succ, runOps_append] at hrun
    obtain ⟨t, ht, hlast⟩ := Option.bind_eq_some_iff.mp hrun
    obtain ⟨t', ht', hend⟩ := Option.bind_eq_some_iff.mp hlast
    cases hend
    obtain ⟨hsame, hplaces⟩ := ih ht
    have hids' : Numbers infos t.ids := by
      rw [hsame.ids]
      exact hids
    have hinfos' : t.infos = infos := hsame.infos.trans hinfos
    refine ⟨hsame.trans (same_runOps (fun _ _ _ => same_addDoc) ht'), fun j hj => ?_⟩
    rw [getElem?_loadRow hids' hinfos' hj ht', hplaces j hj, hsame.rows, Option.bind_assoc]
    apply congrArg
    funext index
    exact (built_succ s.rows j num index).symm

theorem load_isSome (hids : Numbers infos s.ids) (hinfos : s.infos = infos) {num : ℕ}
    (hbuilt : ∀ j < infos.length, ∃ index, s.fields[j]?.bind (built s.rows j num) = some index) :
    ∃ s', runOps (fun i => runOps (addDoc i) (List.range infos.length)) (List.range num) s =
      some s' := by
  induction num with
  | zero => exact ⟨s, rfl⟩
  | succ num ih =>
    have hsplit : ∀ j < infos.length, ∃ before index, s.fields[j]?.bind (built s.rows j num) =
        some before ∧ addCell s.rows num j before = some index := by
      intro j hj
      obtain ⟨index, hindex⟩ := hbuilt j hj
      obtain ⟨first, hfirst, hall⟩ := Option.bind_eq_some_iff.mp hindex
      rw [built_succ] at hall
      obtain ⟨before, hbefore, hlast⟩ := Option.bind_eq_some_iff.mp hall
      exact ⟨before, index, by rw [hfirst, Option.bind_some, hbefore], hlast⟩
    obtain ⟨t, ht⟩ := ih fun j hj => by
      obtain ⟨before, -, hbefore, -⟩ := hsplit j hj
      exact ⟨before, hbefore⟩
    obtain ⟨hsame, hplaces⟩ := getElem?_load hids hinfos ht
    have hids' : Numbers infos t.ids := by
      rw [hsame.ids]
      exact hids
    have hrow : ∀ j ∈ List.range infos.length, ∃ index, t.fields[j]? = some index ∧
        j < infos.length ∧ (addCell t.rows num j index).isSome := by
      intro j hj
      have hlt := List.mem_range.mp hj
      obtain ⟨before, index, hbefore, hindex⟩ := hsplit j hlt
      refine ⟨before, ?_, hlt, ?_⟩
      · rw [hplaces j hlt, hbefore]
      · rw [hsame.rows, hindex]
        rfl
    obtain ⟨s', hs'⟩ := loadRow_isSome hids' (hsame.infos.trans hinfos) List.nodup_range hrow
    refine ⟨s', ?_⟩
    rw [List.range_succ, runOps_append, ht, Option.bind_some, runOps_cons, hs']
    rfl

end Enter

end FilterTable

end AwaDB
