import AwaDB.Table.Table
import AwaDB.Util.BitmapManager
import AwaDB.Vector.VectorManager

/-!
# The engine (`search/gamma_engine.cc`)

`GammaEngine` keeps three counters that its writers advance one after the other: the rows of the
table, the vectors of each field, and `max_docid_`, the document id the next new document gets.

* `addOrUpdate` adds a document or updates the one its key is mapped to;
* `addOrUpdateDocs` collects runs of new keys, which it adds with `Table::BatchAdd`, and flushes a
  run at every key that exists or was seen before;
* `delete`, `delDocByQuery` and `delDocByFilter` set bits in the bitmap of deleted documents.

A function returns `none` where the source has no defined behaviour. The background threads and
the retrieval index are left out; the calls into the range index are kept in `fieldOps`.
-/

namespace AwaDB

/-- A call of `MultiFieldsRangeIndex::Add` or `Delete`. The value of a `Delete` is the one read
from the table when it is called. -/
inductive FieldOperate where
  | add (docid : ℤ) (name : String)
  | delete (docid : ℤ) (name : String) (value : Option Cell)
deriving DecidableEq, Repr

/-- `GammaEngine`. -/
structure GammaEngine where
  table : Table
  vecManager : VectorManager
  docidsBitmap : BitmapManager
  maxDocid : ℕ
  deleteNum : ℕ
  fieldOps : List FieldOperate

namespace GammaEngine

/-- `init_bitmap_size`. -/
def initBitmapSize : ℕ := 5000 * 10000

/-- An engine after `Setup` and `CreateTable` in a new directory. -/
def create (schema : Schema) (infos : List VectorInfo) : GammaEngine where
  table := Table.create schema
  vecManager := VectorManager.create infos
  docidsBitmap := (BitmapManager.init initBitmapSize).dump
  maxDocid := 0
  deleteNum := 0
  fieldOps := []

/-! ### The range index -/

/-- `field_range_index_->Add` for each of the fields. -/
def addToRangeIndex (e : GammaEngine) (docid : ℤ) (fields : List Field) : GammaEngine :=
  { e with fieldOps := e.fieldOps ++ fields.map fun field => .add docid field.name }

/-- The call that `field_range_index_->Delete` makes for a field; for a name that neither the
schema nor the dynamic columns know, it reads before the vector `fields_`. -/
def deleteOp (e : GammaEngine) (docid : ℤ) (name : String) : Option FieldOperate :=
  match e.table.schema.attrIdx name with
  | some i => some (.delete docid name (e.table.getFieldRawValue docid i))
  | none => if e.table.containField name then some (.delete docid name none) else none

/-- `field_range_index_->Delete` for each of the names. -/
def deleteFromRangeIndex (e : GammaEngine) (docid : ℤ) (names : List String) :
    Option GammaEngine :=
  (names.mapM (e.deleteOp docid)).map fun ops => { e with fieldOps := e.fieldOps ++ ops }

/-! ### Updating a document -/

/-- `GammaEngine::Update`. -/
def update (e : GammaEngine) (docid : ℤ) (doc : Doc) : Option (ℤ × GammaEngine) :=
  (e.vecManager.update docid doc.vectorFields).bind fun r =>
    let e := { e with vecManager := r.2 }
    if r.1 ≠ 0 then some (r.1, e)
    else
      (e.deleteFromRangeIndex docid (doc.tableFields.map Field.name)).bind fun e =>
        (e.table.update doc.tableFields docid).map fun table =>
          (0, { e with table := table }.addToRangeIndex docid doc.tableFields)

section Keys

variable (keyId : Bytes → ℤ)

/-- `GammaEngine::AddOrUpdate`. -/
def addOrUpdate (e : GammaEngine) (doc : Doc) : Option (ℤ × GammaEngine) :=
  match e.table.getDocIDByKey keyId doc.key with
  | some docid =>
    (e.update docid doc).map fun r => (if r.1 ≠ 0 then -3 else 0, r.2)
  | none =>
    (e.table.add keyId doc.key doc.tableFields e.maxDocid).map fun r =>
      if r.1 ≠ 0 then (-2, { e with table := r.2 })
      else
        let e := { e with table := r.2 }.addToRangeIndex e.maxDocid doc.tableFields
        let stored := VectorManager.addToStore doc.vectorFields e.vecManager
        let e := { e with vecManager := stored.2 }
        if stored.1 ≠ 0 then (-4, e)
        else
          (0, { e with
            maxDocid := e.maxDocid + 1
            docidsBitmap := e.docidsBitmap.setMaxID (e.maxDocid + 1) })

/-! ### Batches -/

/-- What `batchAdd` changes: the engine and the result. `accepted` records the documents of the
list that were stored or updated without an error, in order. -/
structure RunState where
  engine : GammaEngine
  result : BatchResult
  accepted : List Doc

/-- The loop of `batchAdd` over the documents whose rows it has added: `docid` and `i` are the
document id and the position in the list of the first of them. -/
def storeDocs : List Doc → ℕ → ℕ → RunState → RunState
  | [], _, _, r => r
  | doc :: docs, docid, i, r =>
    let e := r.engine.addToRangeIndex docid doc.tableFields
    let stored := VectorManager.addToStore doc.vectorFields e.vecManager
    storeDocs docs (docid + 1) (i + 1)
      { engine := { e with vecManager := stored.2 }
        result :=
          if stored.1 = 0 then r.result
          else r.result.setResult i (-1) "Add to vector manager error"
        accepted := if stored.1 = 0 then r.accepted ++ [doc] else r.accepted }

/-- `batchAdd`: add the documents of a run that starts at position `startId`. -/
def batchAdd (startId : ℕ) (docs : List Doc) (r : RunState) : Option RunState :=
  if docs = [] then some r
  else
    let docid := r.engine.maxDocid
    (r.engine.table.batchAdd keyId docs docid r.result).map fun added =>
      let r := storeDocs added.2.1 docid startId
        { r with engine := { r.engine with table := added.1 }, result := added.2.2 }
      { r with
        engine := { r.engine with
          maxDocid := docid + docs.length
          docidsBitmap := r.engine.docidsBitmap.setMaxID (docid + docs.length) } }

/-- The variables of the loop in `AddOrUpdateDocs`: the run is `pending` and starts at position
`startId`, and `seen` is `remove_dupliacte`. `updates` records, for each call of `Update`, its
document id and `max_docid_`. -/
structure BatchState extends RunState where
  seen : List Bytes
  startId : ℕ
  pending : List Doc
  updates : List (ℤ × ℕ)

/-- Add the run and start a new one behind it. -/
def flush (st : BatchState) : Option BatchState :=
  (batchAdd keyId st.startId st.pending st.toRunState).map fun r =>
    { st with
      toRunState := r
      startId := st.startId + st.pending.length
      pending := [] }

/-- `docids_bitmap_->Test(docid)`; a negative id is past the end of the bitmap. -/
def testDocid (e : GammaEngine) (docid : ℤ) : Bool :=
  decide (0 ≤ docid) && e.docidsBitmap.test docid.toNat

/-- What `AddOrUpdateDocs` does after a successful update: a deleted document is there again. -/
def undelete (e : GammaEngine) (docid : ℤ) : GammaEngine :=
  if e.testDocid docid then
    { e with docidsBitmap := (e.docidsBitmap.unset docid.toNat).dump docid.toNat 1 }
  else e

/-- The `int docid` of a lookup, which stays -1 when the key is not found. -/
def docidOf : Option ℕ → ℤ
  | none => -1
  | some d => d

/-- The second lookup of a key that was seen before, after the run was added. -/
def lookupAgain (st : BatchState) (key : Bytes) (found : Option ℕ) : Option ℕ :=
  if key ∈ st.seen then (st.engine.table.getDocIDByKey keyId key).or found else found

/-- The update in the loop of `AddOrUpdateDocs`. The overload with word lists has no `unset`. -/
def batchUpdate (unset : Bool) (doc : Doc) (docid : ℤ) (st : BatchState) : Option BatchState :=
  (st.engine.update docid doc).map fun (r : ℤ × GammaEngine) =>
    { st with
      engine := if r.1 = 0 ∧ unset then r.2.undelete docid else r.2
      accepted := if r.1 = 0 then st.accepted ++ [doc] else st.accepted
      seen := if doc.key ∈ st.seen then st.seen else doc.key :: st.seen
      startId := st.startId + 1
      updates := st.updates ++ [(docid, st.engine.maxDocid)] }

/-- One round of the loop in `AddOrUpdateDocs`. -/
def batchStep (unset : Bool) (doc : Doc) (st : BatchState) : Option BatchState :=
  let found := st.engine.table.getDocIDByKey keyId doc.key
  if found = none ∧ doc.key ∉ st.seen then
    some { st with seen := doc.key :: st.seen, pending := st.pending ++ [doc] }
  else
    (flush keyId st).bind fun st =>
      batchUpdate unset doc (docidOf (lookupAgain keyId st doc.key found)) st

/-- The start of `AddOrUpdateDocs`. -/
def batchInit (e : GammaEngine) (result : BatchResult) : BatchState where
  engine := e
  result := result
  accepted := []
  seen := []
  startId := 0
  pending := []
  updates := []

/-- The loop of `AddOrUpdateDocs`, and the last run. -/
def addDocs (unset : Bool) (e : GammaEngine) (docs : List Doc) (result : BatchResult) :
    Option BatchState :=
  (Lib.runOps (batchStep keyId unset) docs (batchInit e result)).bind (flush keyId)

/-- `GammaEngine::AddOrUpdateDocs(docs, result)`. -/
def addOrUpdateDocs (e : GammaEngine) (docs : List Doc) (result : BatchResult) :
    Option BatchState :=
  addDocs keyId true e docs result

/-- `GammaEngine::AddOrUpdateDocs(docs, result, words_in_docs)`, without the word lists. -/
def addOrUpdateDocsWithWords (e : GammaEngine) (docs : List Doc) (result : BatchResult) :
    Option BatchState :=
  addDocs keyId false e docs result

/-! ### Deleting -/

/-- The bit of a document is set and dumped, and the deletion counted. -/
def markDeleted (e : GammaEngine) (docid : ℕ) : GammaEngine :=
  { e with
    deleteNum := e.deleteNum + 1
    docidsBitmap := (e.docidsBitmap.set docid).dump docid 1 }

/-- `GammaEngine::Delete`. The codes of an unknown and of a deleted key are positive. -/
def delete (e : GammaEngine) (key : Bytes) : Option (ℤ × GammaEngine) :=
  match e.table.getDocIDByKey keyId key with
  | none => some (1, e)
  | some docid =>
    if e.docidsBitmap.test docid then some (2, e)
    else
      ((e.markDeleted docid).deleteFromRangeIndex docid e.table.schema.fieldMap).map fun e =>
        (0, { e with table := e.table.delete keyId key })

/-- `GammaEngine::DelDocByQuery` on the documents its search has found. The keys stay. -/
def delDocByQuery (e : GammaEngine) (docids : List ℕ) : GammaEngine :=
  docids.foldl (fun e docid => if e.docidsBitmap.test docid then e else e.markDeleted docid) e

/-- `Table::GetKeyByDocid`: `none` when the key leads to another document. The key of a row whose
key field was never written is not defined, and neither is `check_docid` for a key that is not
found; both count as another document. -/
def getKeyByDocid (e : GammaEngine) (docid : ℕ) : Option Bytes :=
  if (docid : ℤ) > e.table.lastDocid then none
  else
    ((e.table.schema.attrIdx "_id").bind (e.table.getFieldRawValue docid)).bind fun cell =>
      (match cell with
        | .fixed bytes => bytes.mapM id
        | .str text => text).bind fun key =>
          if e.table.getDocIDByKey keyId key = some docid then some key else none

/-- One round of the loop in `DelDocByFilter`. -/
def deleteFound (docid : ℕ) (e : GammaEngine) : Option GammaEngine :=
  match e.getKeyByDocid keyId docid with
  | none => some e
  | some key =>
    if e.docidsBitmap.test docid then some e
    else
      ((e.markDeleted docid).deleteFromRangeIndex docid e.table.schema.fieldMap).map fun e =>
        { e with table := e.table.delete keyId key }

/-- `GammaEngine::DelDocByFilter` on the documents its search has found. -/
def delDocByFilter (e : GammaEngine) (docids : List ℕ) : Option GammaEngine :=
  Lib.runOps (deleteFound keyId) (docids.filter (· < e.maxDocid)) e

/-! ### Reading -/

/-- `GammaEngine::GetDoc` of a document id: the row and the vectors. -/
def getDocByDocid (e : GammaEngine) (docid : ℕ) :
    Option (Table.DocInfo × List (String × Bytes)) :=
  if e.docidsBitmap.test docid then none
  else
    (e.table.getDocInfo docid).bind fun info =>
      (e.vecManager.getVectors docid).map fun vecs => (info, vecs)

/-- `GammaEngine::GetDoc` of a key. -/
def getDoc (e : GammaEngine) (key : Bytes) : Option (Table.DocInfo × List (String × Bytes)) :=
  (e.table.getDocIDByKey keyId key).bind e.getDocByDocid

end Keys

end GammaEngine

end AwaDB
