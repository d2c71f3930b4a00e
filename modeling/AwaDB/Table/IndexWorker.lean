import AwaDB.Lib.Settles
import AwaDB.Table.Exact
import AwaDB.Table.IndexContent

/-!
# The worker of the range index (`FieldOperateWorker` in `table/field_range_index.cc`)

`MultiFieldsRangeIndex::Add` and `Delete` push an operation, and a thread pops and processes it. A
`Delete` takes the value along that it reads when it is called, and waits until the queue is empty;
an `Add` reads the value when it is processed. The engine's calls are split into the steps that the
thread can get between: the writes of the table, the calls of `Add` and `Delete`, and the push after
the wait.

Here is what the steps do, and, for one document and one field, the events for the copy in the index
that are still to come: `waiting` in the queue, and `pending` in all.

Vectors and dynamic columns are left out, but for the outcome of `AddToStore`.
-/

namespace AwaDB

/-- `FieldOperate`. -/
inductive QueuedOp where
  | add (docid fieldId : ℕ)
  | delete (docid fieldId : ℕ) (value : Bytes)
deriving DecidableEq, Repr

/-- The steps of the engine's calls. `indexDelete` ends with the value read, and `pushDelete` is the
wait and the push. -/
inductive EngineStep where
  | tableAdd (doc : Doc) (docid : ℕ)
  | tableBatchAdd (docs : List Doc) (docid : ℕ)
  | tableUpdate (fields : List Field) (docid : ℕ)
  | indexAdd (docid : ℕ) (name : String)
  | indexDelete (docid : ℕ) (name : String)
  | pushDelete (docid fieldId : ℕ) (value : Bytes)
  | advance (num : ℕ)
deriving DecidableEq, Repr

/-- The engine and the thread: `fields` is `fields_`, `queue` is `field_operate_q_`, `popped` is the
`field_op` of the thread, and `todo` is what is left of the engine's call. -/
structure IndexWorker where
  table : Table
  maxDocid : ℕ
  fields : ℕ → Option FieldRangeIndex
  queue : List QueuedOp
  popped : Option QueuedOp
  todo : List EngineStep

/-- The bytes of a cell, as far as they were written. -/
def Cell.bytes? : Cell → Option Bytes
  | .fixed bytes => bytes.mapM id
  | .str text => text

namespace IndexWorker

/-- After `CreateTable`: an index for each indexed field. -/
def create (schema : Schema) : IndexWorker where
  table := Table.create schema
  maxDocid := 0
  fields := fun i => schema.attrs[i]?.bind fun info =>
    if info.isIndex then some (FieldRangeIndex.create info.dataType) else none
  queue := []
  popped := none
  todo := []

/-! ### The engine's steps -/

/-- `MultiFieldsRangeIndex::Add`. -/
def indexAdd (docid : ℕ) (name : String) (s : IndexWorker) : IndexWorker :=
  match s.table.schema.attrIdx name with
  | none => s
  | some i =>
    match s.fields i with
    | none => s
    | some _ => { s with queue := s.queue ++ [.add docid i] }

/-- `MultiFieldsRangeIndex::Delete` up to the wait. A document without a row has the empty value,
and an unknown field reads before the vector `fields_`. -/
def indexDelete (docid : ℕ) (name : String) (s : IndexWorker) : Option IndexWorker :=
  (s.table.schema.attrIdx name).bind fun i =>
    match s.fields i with
    | none => some s
    | some _ =>
      (match s.table.getFieldRawValue docid i with
        | none => some []
        | some cell => cell.bytes?).map fun value =>
          { s with todo := .pushDelete docid i value :: s.todo }

/-- One step of a call, which is not in `todo` any more. A document that `Table::Add` refuses ends
the call. -/
def runStep (keyId : Bytes → ℤ) : EngineStep → IndexWorker → Option IndexWorker
  | .tableAdd doc docid, s =>
    (s.table.add keyId doc.key doc.tableFields docid).map fun (r : ℤ × Table) =>
      { s with table := r.2, todo := if r.1 ≠ 0 then [] else s.todo }
  | .tableBatchAdd docs docid, s =>
    (s.table.batchAdd keyId docs docid []).map fun r => { s with table := r.1 }
  | .tableUpdate fields docid, s =>
    (s.table.update fields docid).map fun table => { s with table := table }
  | .indexAdd docid name, s => some (s.indexAdd docid name)
  | .indexDelete docid name, s => s.indexDelete docid name
  | .pushDelete docid i value, s =>
    if s.queue = [] then some { s with queue := [.delete docid i value] }
    else some { s with todo := .pushDelete docid i value :: s.todo }
  | .advance num, s => some { s with maxDocid := s.maxDocid + num }

/-! ### The thread's steps -/

/-- `MultiFieldsRangeIndex::AddDoc`. -/
def addDoc (docid i : ℕ) (s : IndexWorker) : Option IndexWorker :=
  match s.fields i, s.table.getFieldRawValue docid i with
  | some index, some cell =>
    cell.bytes?.bind fun key => (index.add key docid).map fun index =>
      { s with fields := Function.update s.fields i (some index) }
  | _, _ => some s

/-- `MultiFieldsRangeIndex::DeleteDoc`. -/
def deleteDoc (docid i : ℕ) (key : Bytes) (s : IndexWorker) : Option IndexWorker :=
  match s.fields i with
  | none => some s
  | some index =>
    if key = [] then some s
    else (index.delete key docid).map fun index =>
      { s with fields := Function.update s.fields i (some index) }

/-- The operation that was popped. -/
def runOp : QueuedOp → IndexWorker → Option IndexWorker
  | .add docid i, s => s.addDoc docid i
  | .delete docid i value, s => s.deleteDoc docid i value

/-! ### Runs -/

/-- The calls: a document with a new key, which `AddToStore` takes or not; a run of them; the fields
of an update that `VectorManager::Update` let pass. -/
inductive Call where
  | add (doc : Doc) (stored : Bool)
  | batchAdd (docs : List Doc)
  | update (docid : ℕ) (fields : List Field)

/-- The steps of a call. -/
def script (s : IndexWorker) : Call → List EngineStep
  | .add doc stored =>
    .tableAdd doc s.maxDocid ::
      (doc.tableFields.map fun field => .indexAdd s.maxDocid field.name) ++
        if stored then [.advance 1] else []
  | .batchAdd docs =>
    if docs = [] then []
    else
      .tableBatchAdd docs s.maxDocid ::
        (((docs.map s.table.withKeyField).zipIdx s.maxDocid).flatMap fun p =>
          p.1.tableFields.map fun field => .indexAdd p.2 field.name) ++ [.advance docs.length]
  | .update docid fields =>
    (fields.map fun field => .indexDelete docid field.name) ++
      .tableUpdate fields docid :: fields.map fun field => .indexAdd docid field.name

/-- A call starts, the engine takes a step, the thread pops an operation, or processes it. -/
inductive Event where
  | call (c : Call)
  | engine
  | pop
  | process

/-- One event. Calls come one after the other; a thread that finds nothing tries again. -/
def step (keyId : Bytes → ℤ) : Event → IndexWorker → Option IndexWorker
  | .call c, s => if s.todo = [] then some { s with todo := s.script c } else none
  | .engine, s =>
    match s.todo with
    | [] => some s
    | st :: todo => runStep keyId st { s with todo := todo }
  | .pop, s =>
    match s.popped, s.queue with
    | none, op :: queue => some { s with queue := queue, popped := some op }
    | _, _ => some s
  | .process, s =>
    match s.popped with
    | none => some s
    | some op => (runOp op s).map fun s => { s with popped := none }

/-- The value of a field in the table. -/
def value (s : IndexWorker) (d i : ℕ) : Option Bytes :=
  (s.table.getFieldRawValue d i).bind Cell.bytes?

/-- When all is done, each index holds the documents under the keys of their values, and under no
others. -/
def Agrees (s : IndexWorker) : Prop :=
  s.todo = [] → s.queue = [] → s.popped = none → ∀ i index, s.fields i = some index →
    ∀ key d, index.tree.Holds key d ↔
      ∃ v keys, s.value d i = some v ∧ index.keys? v = some keys ∧ key ∈ keys

end IndexWorker

/-! ### Values that fit -/

namespace Schema

/-- Whether the index of field `i` is numeric, if it has one. -/
def indexKind (s : Schema) (i : ℕ) : Option Bool :=
  s.attrs[i]?.bind fun info =>
    if info.isIndex then some (FieldRangeIndex.create info.dataType).isNumeric else none

/-- The index of field `i`, if there is one, finds each key once in the value. -/
def Indexable (s : Schema) (i : ℕ) (v : Bytes) : Prop :=
  ∀ numeric, s.indexKind i = some numeric → FieldRangeIndex.Valid ⟨numeric, ∅⟩ v

/-- The fields have the sizes of the schema, and values that their indexes take. -/
def FitsIndex (s : Schema) (fields : List Field) : Prop :=
  ∀ f ∈ fields, s.ExactField f ∧ s.Indexable (s.idx f) f.value

end Schema

namespace IndexWorker

open Table Schema

/-- A document that can be added. -/
structure DocFits (schema : Schema) (doc : Doc) : Prop where
  complete : Complete schema doc
  key : doc.key ≠ []
  fits : schema.FitsIndex doc.tableFields

/-- The condition on an event: a document that is added is complete, its vectors are taken, and the
ids stay below the limit; an update has a document and names no field twice; and it writes no value
for which the thread holds an `Add` that it has popped, unless it is the one that is there. -/
def guard : Event → IndexWorker → Prop
  | .call (.add doc stored), s =>
    s.todo = [] ∧ stored = true ∧ DocFits s.table.schema doc ∧ s.maxDocid + 1 ≤ docLimit
  | .call (.batchAdd docs), s =>
    s.todo = [] ∧ (∀ doc ∈ docs, DocFits s.table.schema doc) ∧
      s.maxDocid + docs.length ≤ docLimit
  | .call (.update docid fields), s =>
    s.todo = [] ∧ docid < s.maxDocid ∧ (fields.map Field.name).Nodup ∧
      s.table.schema.FitsIndex fields ∧ ∀ f ∈ fields, s.table.schema.SameStringType f
  | .engine, s => ∀ fields docid, s.todo.head? = some (.tableUpdate fields docid) → ∀ f ∈ fields,
      s.popped = some (.add docid (s.table.schema.idx f)) →
        s.value docid (s.table.schema.idx f) = some f.value
  | .pop, _ => True
  | .process, _ => True

/-! ### Cells and values -/

theorem bytes?_cellOf (schema : Schema) (f : Field) : (schema.cellOf f).bytes? = some f.value := by
  unfold Schema.cellOf
  split
  · rfl
  · exact Lib.mapM_id_map_some f.value

/-- The value that the fields give to field `i`. -/
def given (schema : Schema) (i : ℕ) (fields : List Field) : Option Bytes :=
  (fields.find? fun f => schema.idx f = i).map Field.value

theorem given_eq_some {schema : Schema} {i : ℕ} {fields : List Field} {v : Bytes}
    (h : given schema i fields = some v) : ∃ f ∈ fields, schema.idx f = i ∧ f.value = v := by
  obtain ⟨f, hf, hv⟩ := Option.map_eq_some_iff.mp h
  exact ⟨f, List.mem_of_find?_eq_some hf, by simpa using List.find?_some hf, hv⟩

theorem given_eq_none {schema : Schema} {i : ℕ} {fields : List Field}
    (h : given schema i fields = none) : i ∉ fields.map schema.idx := by
  intro hmem
  obtain ⟨f, hf, hi⟩ := List.mem_map.mp hmem
  have hnone := List.find?_eq_none.mp (Option.map_eq_none_iff.mp h) f hf
  exact hnone (by simpa using hi)

/-- A complete document gives a value to every field. -/
theorem Complete.given {schema : Schema} {doc : Doc} (h : Complete schema doc) {i : ℕ}
    (hi : i < schema.attrs.length) : ∃ v, given schema i doc.tableFields = some v := by
  cases hgiven : IndexWorker.given schema i doc.tableFields with
  | some v => exact ⟨v, rfl⟩
  | none =>
    have hlt : i < schema.names.length := by rwa [names, List.length_map]
    obtain ⟨f, hf, hname⟩ := List.mem_map.mp (h.mem_iff.mpr (List.getElem_mem hlt))
    have hidx : schema.idx f = i := by
      rw [idx, hname]
      exact schema.names_nodup.idxOf_getElem i hlt
    exact absurd (List.mem_map.mpr ⟨f, hf, hidx⟩) (given_eq_none hgiven)

/-- The value in cell `i` of a row. -/
def rowValue (row : Row) (i : ℕ) : Option Bytes := row[i]?.bind Cell.bytes?

/-- A row whose values can be read and indexed. -/
structure RowFits (schema : Schema) (row : Row) : Prop where
  solid : schema.Solid row
  values : ∀ i, i < schema.attrs.length → ∃ v, rowValue row i = some v ∧ schema.Indexable i v

theorem value_eq (s : IndexWorker) (d i : ℕ) :
    s.value d i = s.table.rows[d]?.bind fun row => rowValue row i := by
  have hneg : ¬ (d : ℤ) < 0 := by omega
  unfold value getFieldRawValue getRow
  rw [if_neg hneg, Int.toNat_natCast, Option.bind_assoc]
  rfl

/-- The row of a document that fits. -/
theorem rowFits_rowOf {schema : Schema} {doc : Doc} (hdoc : Complete schema doc)
    (hfits : schema.FitsIndex doc.tableFields) : ∃ row, rowOf schema doc = some row ∧
      RowFits schema row ∧
        ∀ i, i < schema.attrs.length → rowValue row i = given schema i doc.tableFields := by
  obtain ⟨row, hrow, hsolid, hcells⟩ := rowOf_exact hdoc fun f hf => (hfits f hf).1
  have hvalue : ∀ i, i < schema.attrs.length → rowValue row i = given schema i doc.tableFields ∧
      ∃ v, given schema i doc.tableFields = some v ∧ schema.Indexable i v := by
    intro i hi
    obtain ⟨v, hv⟩ := Complete.given hdoc hi
    obtain ⟨f, hf, rfl, rfl⟩ := given_eq_some hv
    refine ⟨?_, f.value, hv, (hfits f hf).2⟩
    rw [rowValue, hcells f hf, hv, Option.bind_some, bytes?_cellOf]
  refine ⟨row, hrow, ⟨hsolid, fun i hi => ?_⟩, fun i hi => (hvalue i hi).1⟩
  obtain ⟨heq, v, hv, hindex⟩ := hvalue i hi
  exact ⟨v, heq.trans hv, hindex⟩

/-- The row that an update leaves. -/
theorem rowFits_update {t : Table} {fields : List Field} {d : ℕ} {row : Row}
    (hrow : t.rows[d]? = some row) (hold : RowFits t.schema row)
    (hnodup : (fields.map Field.name).Nodup) (hfits : t.schema.FitsIndex fields)
    (htype : ∀ f ∈ fields, t.schema.SameStringType f) :
    ∃ row', t.update fields d = some { t with rows := t.rows.set d row' } ∧
      RowFits t.schema row' ∧
        ∀ i, rowValue row' i = (given t.schema i fields).or (rowValue row i) := by
  obtain ⟨row', hupdate, hsolid, hcells, hother⟩ := update_exact hrow hold.solid hnodup
    (fun f hf => (hfits f hf).1) htype
  have hvalue : ∀ i, rowValue row' i = (given t.schema i fields).or (rowValue row i) := by
    intro i
    cases hgiven : given t.schema i fields with
    | none =>
      rw [Option.none_or, rowValue, hother i (given_eq_none hgiven)]
      rfl
    | some v =>
      obtain ⟨f, hf, rfl, rfl⟩ := given_eq_some hgiven
      rw [Option.some_or, rowValue, hcells f hf, Option.bind_some, bytes?_cellOf]
  refine ⟨row', hupdate, ⟨hsolid, fun i hi => ?_⟩, hvalue⟩
  rw [hvalue]
  cases hgiven : given t.schema i fields with
  | none => exact hold.values i hi
  | some v =>
    obtain ⟨f, hf, rfl, rfl⟩ := given_eq_some hgiven
    exact ⟨f.value, rfl, (hfits f hf).2⟩

/-! ### What is pending for one document and one field -/

section Events

open Lib

/-- The event of an operation. -/
def opEvents (d i : ℕ) : QueuedOp → List (CopyEvent Bytes)
  | .add docid i' => if docid = d ∧ i' = i then [.take] else []
  | .delete docid i' v => if docid = d ∧ i' = i then [.drop v] else []

/-- The events of the rows that are appended from `docid` on. -/
def appendEvents (schema : Schema) (d i : ℕ) (docs : List Doc) (docid : ℕ) :
    List (CopyEvent Bytes) :=
  if docid ≤ d then
    (docs[d - docid]?.bind fun doc => given schema i doc.tableFields).toList.map .write
  else []

/-- The event of a call of `Add` or `Delete`. -/
def nameEvent (schema : Schema) (d i docid : ℕ) (name : String) (e : CopyEvent Bytes) :
    List (CopyEvent Bytes) :=
  if docid = d ∧ schema.attrIdx name = some i then [e] else []

/-- The events of a step. -/
def stepEvents (schema : Schema) (d i : ℕ) : EngineStep → List (CopyEvent Bytes)
  | .tableAdd doc docid => appendEvents schema d i [doc] docid
  | .tableBatchAdd docs docid => appendEvents schema d i docs docid
  | .tableUpdate fields docid => if docid = d then (given schema i fields).toList.map .write else []
  | .indexAdd docid name => nameEvent schema d i docid name .take
  | .indexDelete docid name => nameEvent schema d i docid name .dropCurrent
  | .pushDelete docid i' v => if docid = d ∧ i' = i then [.drop v] else []
  | .advance _ => []

/-- The events that wait: of the operation that was popped, and of the queue. -/
def waiting (s : IndexWorker) (d i : ℕ) : List (CopyEvent Bytes) :=
  (s.popped.toList ++ s.queue).flatMap (opEvents d i)

/-- All the events to come, if the engine starts no other call. -/
def pending (s : IndexWorker) (d i : ℕ) : List (CopyEvent Bytes) :=
  s.waiting d i ++ s.todo.flatMap (stepEvents s.table.schema d i)

theorem queued_opEvents {d i : ℕ} {op : QueuedOp} {e : CopyEvent Bytes} (h : e ∈ opEvents d i op) :
    e.Queued := by
  cases op with
  | add docid i' =>
    rw [opEvents] at h
    split at h
    · rw [List.mem_singleton.mp h]
      trivial
    · cases h
  | delete docid i' v =>
    rw [opEvents] at h
    split at h
    · rw [List.mem_singleton.mp h]
      trivial
    · cases h

theorem queued_waiting (s : IndexWorker) (d i : ℕ) : ∀ e ∈ s.waiting d i, e.Queued := by
  intro e he
  obtain ⟨op, -, hop⟩ := List.mem_flatMap.mp he
  exact queued_opEvents hop

/-- A `take` that waits comes from an `Add`. -/
theorem take_mem_waiting {s : IndexWorker} {d i : ℕ} (h : .take ∈ s.waiting d i) :
    s.popped = some (.add d i) ∨ .add d i ∈ s.queue := by
  obtain ⟨op, hop, htake⟩ := List.mem_flatMap.mp h
  have hadd : op = .add d i := by
    cases op with
    | add docid i' =>
      rw [opEvents] at htake
      split at htake
      next heq => rw [heq.1, heq.2]
      · cases htake
    | delete docid i' v =>
      rw [opEvents] at htake
      split at htake
      · cases List.mem_singleton.mp htake
      · cases htake
  cases List.mem_append.mp hop with
  | inl hpopped => exact .inl ((Option.mem_toList.mp hpopped).trans (congrArg some hadd))
  | inr hqueue => exact .inr (hadd ▸ hqueue)

/-- The events of the fields of a document: one, if field `i` is among them. -/
theorem flatMap_nameEvent {schema : Schema} {d i : ℕ} (e : CopyEvent Bytes) {fields : List Field}
    (hnodup : (fields.map Field.name).Nodup) (hmem : ∀ f ∈ fields, f.name ∈ schema.names) :
    (fields.flatMap fun f => nameEvent schema d i d f.name e) =
      if (given schema i fields).isSome then [e] else [] := by
  induction fields with
  | nil => rfl
  | cons f fields ih =>
    rw [List.map_cons, List.nodup_cons] at hnodup
    have hrest := ih hnodup.2 fun f' hf' => hmem f' (List.mem_cons_of_mem f hf')
    have hattr := attrIdx_eq (hmem f List.mem_cons_self)
    rw [List.flatMap_cons, hrest, nameEvent, hattr]
    by_cases hi : schema.idx f = i
    · have hnone : given schema i fields = none := by
        cases hgiven : given schema i fields with
        | none => rfl
        | some v =>
          obtain ⟨f', hf', hidx, -⟩ := given_eq_some hgiven
          have hname : f'.name = f.name := (List.idxOf_inj
            (hmem f' (List.mem_cons_of_mem f hf'))).mp (hidx.trans hi.symm)
          exact absurd (List.mem_map.mpr ⟨f', hf', hname⟩) hnodup.1
      have hsome : given schema i (f :: fields) = some f.value := by
        rw [given, List.find?_cons_of_pos (by simpa using hi)]
        rfl
      rw [hnone, hsome, if_pos ⟨rfl, congrArg some hi⟩]
      rfl
    · have hsame : given schema i (f :: fields) = given schema i fields := by
        rw [given, List.find?_cons_of_neg (by simpa using hi)]
        rfl
      rw [hsame, if_neg fun hcond => hi (Option.some.inj hcond.2), List.nil_append]

/-- The calls for another document. -/
theorem flatMap_nameEvent_ne {schema : Schema} {d i docid : ℕ} (hne : docid ≠ d)
    (e : CopyEvent Bytes) (fields : List Field) :
    (fields.flatMap fun f => nameEvent schema d i docid f.name e) = [] := by
  refine List.flatMap_eq_nil_iff.mpr fun f _ => ?_
  exact if_neg fun hcond => hne hcond.1

end Events

end IndexWorker

end AwaDB
