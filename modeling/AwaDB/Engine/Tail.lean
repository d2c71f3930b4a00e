import AwaDB.Engine.Alignment
import AwaDB.Engine.DocsNum
import AwaDB.Engine.Readable
import AwaDB.Table.DocidFieldsMgr

/-!
# Documents added after a restart

`Load` cuts the table and the raw vectors to one number of documents. The bitmap file, which every
deletion writes at once, and the dynamic columns are taken as they are, so that a document that is
added later may find a mark or an entry under its document id.

* `Files` is what a process left, at whatever moment it stopped, and `Restarted` the engine that was
  loaded from it, beside what each later document was given;
* `Intact` is the property: a later document is read back as it was given, and can be seen until it
  is deleted;
* `Sound` is the invariant behind it; `Fit` is the condition on a later call;
* `intact_always`: when neither the bitmap nor the dynamic columns reach behind the documents that are
  kept, every run of later calls that fit keeps its documents intact.
-/

namespace AwaDB

/-! ### The rows and columns of a run -/

namespace Table

/-- The calls of `DocidFieldsMgr::Put` for a run. -/
def putOps (t : Table) : List Doc → ℕ → List ColumnOp
  | [], _ => []
  | doc :: docs, docid =>
    (if t.newColumnFields doc = [] then [] else [.put docid (t.newColumnFields doc)]) ++
      t.putOps docs (docid + 1)

/-- Another table with the same schema and the same names of dynamic columns. -/
theorem putOps_congr {t t' : Table} (h : ∀ doc, t'.newColumnFields doc = t.newColumnFields doc)
    (docs : List Doc) (docid : ℕ) : t'.putOps docs docid = t.putOps docs docid := by
  induction docs generalizing docid with
  | nil => rfl
  | cons doc docs ih => rw [putOps, putOps, h, ih]

theorem putOps_keys (t : Table) (keys : ℤ → Option ℕ) (docs : List Doc) (docid : ℕ) :
    ({ t with itemToDocid := keys } : Table).putOps docs docid = t.putOps docs docid := by
  have hsame : ∀ doc, ({ t with itemToDocid := keys } : Table).newColumnFields doc =
      t.newColumnFields doc := fun _ => rfl
  exact putOps_congr hsame docs docid

/-- **The second loop of `BatchAdd`** appends a row for each document, and its calls of `Put`. -/
theorem addRows_spec {docs : List Doc} {docid : ℕ} {t t' : Table}
    (h : addRows docs docid t = some t') :
    ∃ rows, t' = { t with rows := t.rows ++ rows, columns := t.columns ++ t.putOps docs docid } ∧
      List.Forall₂ (fun doc row => t.batchRow doc = some row) docs rows := by
  induction docs generalizing docid t with
  | nil =>
    cases h
    exact ⟨[], by simp [putOps], List.Forall₂.nil⟩
  | cons doc docs ih =>
    obtain ⟨u, hu, hrest⟩ := Option.bind_eq_some_iff.mp h
    obtain ⟨row, hrow, rfl⟩ := Option.map_eq_some_iff.mp hu
    obtain ⟨rows, rfl, hrows⟩ := ih hrest
    refine ⟨row :: rows, ?_, List.Forall₂.cons hrow hrows⟩
    have hsame : ∀ d, newColumnFields { t with
        rows := t.rows ++ [row]
        columns := if t.newColumnFields doc = [] then t.columns
          else t.columns ++ [.put docid (t.newColumnFields doc)] } d = t.newColumnFields d := by
      intro d
      split
      · rfl
      · simp [newColumnFields, hasOffset, containField]
    rw [putOps_congr hsame, putOps]
    split <;> simp

/-- A run names no new columns. -/
theorem containField_putOps (t : Table) (docs : List Doc) (docid : ℕ) (name : String) :
    ({ t with columns := t.columns ++ t.putOps docs docid } : Table).containField name =
      t.containField name := by
  have hputs : ∀ (docs : List Doc) (docid : ℕ), ({ t with
      columns := t.putOps docs docid } : Table).containField name = false := by
    intro docs
    induction docs with
    | nil => exact fun _ => rfl
    | cons doc docs ih =>
      intro docid
      have hrest := ih (docid + 1)
      simp only [containField] at hrest ⊢
      rw [putOps, List.any_append, hrest, Bool.or_false]
      split <;> rfl
  have hrun := hputs docs docid
  simp only [containField] at hrun ⊢
  rw [List.any_append, hrun, Bool.or_false]

theorem withKeyField_vectorFields (t : Table) (doc : Doc) :
    (t.withKeyField doc).vectorFields = doc.vectorFields := by
  rw [withKeyField]
  split <;> rfl

end Table

namespace DocidFieldsMgr

/-- What the columns do with a call in the history of the table. -/
def replay : ColumnOp → DocidFieldsMgr → Option DocidFieldsMgr
  | .addField _, m => some m
  | .put docid fields, m => m.put docid fields

/-- **The columns after a run** lead to what its documents were given. -/
theorem Own.putOps {t : Table} {docs : List Doc} {docid n : ℕ} {m m' : DocidFieldsMgr}
    {given : ℕ → List Field} (h : m.Own n given)
    (hrun : Lib.runOps replay (t.putOps docs docid) m = some m')
    (hfits : ∀ doc ∈ docs, ∀ f ∈ t.newColumnFields doc, ∀ c, m.fields f.name = some c → Fits c f)
    (hgiven : ∀ i doc, docs[i]? = some doc → ∀ f ∈ t.newColumnFields doc, f ∈ given (docid + i)) :
    m'.Own n given ∧ m'.fields = m.fields := by
  induction docs generalizing docid m with
  | nil =>
    cases hrun
    exact ⟨h, rfl⟩
  | cons doc docs ih =>
    have hrest : ∀ d ∈ docs, ∀ f ∈ t.newColumnFields d, ∀ c, m.fields f.name = some c → Fits c f :=
      fun d hd => hfits d (List.mem_cons_of_mem doc hd)
    have hlater : ∀ i d, docs[i]? = some d → ∀ f ∈ t.newColumnFields d,
        f ∈ given (docid + 1 + i) := by
      intro i d hd f hf
      have hnext := hgiven (i + 1) d hd f hf
      rwa [Nat.add_comm i 1, ← Nat.add_assoc] at hnext
    rw [Table.putOps] at hrun
    split at hrun
    · exact ih h hrun hrest hlater
    · obtain ⟨m₁, hm₁, hrun⟩ := Option.bind_eq_some_iff.mp hrun
      obtain ⟨hown, hfields⟩ := h.put hm₁ (hfits doc List.mem_cons_self)
        (hgiven 0 doc rfl)
      have hrest₁ : ∀ d ∈ docs, ∀ f ∈ t.newColumnFields d, ∀ c, m₁.fields f.name = some c →
          Fits c f := by
        rw [hfields]
        exact hrest
      obtain ⟨hown', hfields'⟩ := ih hown hrun hrest₁ hlater
      exact ⟨hown', hfields'.trans hfields⟩

end DocidFieldsMgr

namespace GammaEngine

open Table VectorManager

/-! ### The engine after a restart -/

/-- What the storage kept when a process stopped: some of the rows, and some of the vectors of each
field. The bitmap file is written by every deletion. -/
def onDisk (e : GammaEngine) (rows : ℕ) (vecs : String → ℕ) : GammaEngine :=
  { e with
    table := { e.table with rows := e.table.rows.take rows }
    vecManager := { e.vecManager with
      raw := fun name =>
        { e.vecManager.raw name with file := (e.vecManager.raw name).file.take (vecs name) } } }

/-- The files that a process left. `ContainField` asks the manager that was saved. -/
structure Files where
  engine : GammaEngine
  columns : DocidFieldsMgr
  agree : ∀ name, engine.table.containField name = columns.containField name

/-- What a document was given: the fields of its row, its other fields, and the fields of the
updates. -/
structure Given where
  stored : List Field
  others : List Field
  updates : List (List Field)
deriving DecidableEq, Repr

/-- The row that these fields leave in a buffer that was never used. -/
def Given.row (s : Schema) (g : Given) : Option Row :=
  (Lib.runOps s.storeField g.stored s.freshRow).bind
    (Lib.runOps (fun fields => Lib.runOps s.updateField fields) g.updates)

/-- What `BatchAdd` takes from a document. -/
def givenBy (t : Table) (doc : Doc) : Given where
  stored := (t.withKeyField doc).tableFields.filter fun f => t.hasOffset f.name
  others := (t.withKeyField doc).tableFields.filter fun f => !t.hasOffset f.name
  updates := []

/-- The loaded engine: `fieldNum` is `field_num_`, `given` what each document was given that was
added since, and `deleted` the documents deleted since. -/
structure Restarted where
  engine : GammaEngine
  columns : DocidFieldsMgr
  fieldNum : ℕ
  given : ℕ → Option Given
  deleted : ℕ → Bool

/-- What the engine does after the restart. A batch is a sequence of runs and updates, and each
update may be followed by an `undelete`. -/
inductive LaterOp where
  | addNewField (info : FieldInfo)
  | addOrUpdate (doc : Doc)
  | batchAdd (startId : ℕ) (docs : List Doc) (result : BatchResult) (accepted : List Doc)
  | update (docid : ℤ) (doc : Doc)
  | undelete (docid : ℤ)
  | delete (key : Bytes)
  | delDocByQuery (docids : List ℕ)
  | delDocByFilter (docids : List ℕ)

/-- An update of a document that was added since. -/
def noteUpdate (docid : ℤ) (fields : List Field) (given : ℕ → Option Given) : ℕ → Option Given :=
  fun d =>
    if (d : ℤ) = docid then (given d).map fun g => { g with updates := g.updates ++ [fields] }
    else given d

/-- A run that starts at a document id. -/
def noteRun (t : Table) (docs : List Doc) (docid : ℕ) (given : ℕ → Option Given) :
    ℕ → Option Given :=
  fun d => if docid ≤ d then ((docs[d - docid]?).map (givenBy t)).or (given d) else given d

/-- What an accepted `AddOrUpdate` gives. -/
def noteDoc (found : Option ℕ) (docid : ℕ) (doc : Doc) (given : ℕ → Option Given) :
    ℕ → Option Given :=
  match found with
  | some d => noteUpdate d doc.tableFields given
  | none => Function.update given docid (some ⟨doc.tableFields, [], []⟩)

section Keys

variable (keyId : Bytes → ℤ)

/-- One step. -/
def stepLater : LaterOp → Restarted → Option Restarted
  | .addNewField info, s =>
    some
      (if info.name ∈ s.engine.table.schema.names then s
      else
        { s with
          engine := { s.engine with table := s.engine.table.addNewField info }
          columns := s.columns.addField info s.fieldNum
          fieldNum := (s.fieldNum + 1) % 2 ^ 8 })
  | .addOrUpdate doc, s =>
    (s.engine.addOrUpdate keyId doc).map fun (r : ℤ × GammaEngine) =>
      { s with
        engine := r.2
        given :=
          if r.1 = 0 then
            noteDoc (s.engine.table.getDocIDByKey keyId doc.key) s.engine.maxDocid doc s.given
          else s.given }
  | .batchAdd startId docs result accepted, s =>
    (GammaEngine.batchAdd keyId startId docs ⟨s.engine, result, accepted⟩).bind fun r =>
      (Lib.runOps DocidFieldsMgr.replay
        (r.engine.table.columns.drop s.engine.table.columns.length) s.columns).map fun columns =>
          { s with
            engine := r.engine
            columns := columns
            given := noteRun s.engine.table docs s.engine.maxDocid s.given }
  | .update docid doc, s =>
    (s.engine.update docid doc).map fun (r : ℤ × GammaEngine) =>
      { s with
        engine := r.2
        given := if r.1 = 0 then noteUpdate docid doc.tableFields s.given else s.given }
  | .undelete docid, s =>
    some { s with
      engine := s.engine.undelete docid
      deleted := fun d => s.deleted d && decide ((d : ℤ) ≠ docid) }
  | .delete key, s =>
    (s.engine.delete keyId key).map fun (r : ℤ × GammaEngine) =>
      { s with
        engine := r.2
        deleted := fun d =>
          s.deleted d || decide (s.engine.table.getDocIDByKey keyId key = some d) }
  | .delDocByQuery docids, s =>
    some { s with
      engine := s.engine.delDocByQuery docids
      deleted := fun d => s.deleted d || decide (d ∈ docids) }
  | .delDocByFilter docids, s =>
    (s.engine.delDocByFilter keyId docids).map fun e =>
      { s with engine := e, deleted := fun d => s.deleted d || decide (d ∈ docids) }

end Keys

/-- The engine that was loaded from the files. -/
def restarted (files : Files) (e : GammaEngine) : Restarted where
  engine := e
  columns := files.columns
  fieldNum := files.engine.table.schema.attrs.length % 2 ^ 8
  given := fun _ => none
  deleted := fun _ => false

/-- The documents from `n` on can be seen until they are deleted, and are read as they were given: the
row is the one that their fields leave in a fresh buffer, and the dynamic columns have no other
values than theirs. -/
structure Intact (n : ℕ) (s : Restarted) : Prop where
  visible : ∀ d, n ≤ d → d < s.engine.maxDocid → s.deleted d = false →
    s.engine.docidsBitmap.test d = false ∧ (s.engine.getDocByDocid d).isSome
  row : ∀ d, n ≤ d → d < s.engine.maxDocid → ∃ g row, s.given d = some g ∧
    g.row s.engine.table.schema = some row ∧ s.engine.table.rows[d]? = some row
  columns : ∀ d name v, n ≤ d → d < s.engine.maxDocid → s.columns.get d name = some v →
    ∃ g, s.given d = some g ∧ ∃ f ∈ g.others, f.name = name ∧ v = f.value.map some

/-- The condition on a call. A document gives each vector field one vector of the right size, unless the
table refuses it, and its other fields are of the kind and size of their columns; a new column gets an
id of its own; and a search finds documents that were added. -/
def Fit (keyId : Bytes → ℤ) : LaterOp → Restarted → Prop
  | .addNewField info, s =>
    info.name ∉ s.engine.table.schema.names → s.columns.containField info.name = false →
      ∀ name c, s.columns.fields name = some c → c.id ≠ s.fieldNum
  | .addOrUpdate doc, s =>
    s.engine.table.getDocIDByKey keyId doc.key = none →
      RefusedByTable s.engine.table.schema doc ∨ OneEach s.engine.vecManager doc
  | .batchAdd _ docs _ _, s =>
    ∀ doc ∈ docs, OneEach s.engine.vecManager doc ∧
      ∀ f ∈ (givenBy s.engine.table doc).others, ∀ c, s.columns.fields f.name = some c →
        DocidFieldsMgr.Fits c f
  | .delDocByQuery docids, s => ∀ d ∈ docids, d < s.engine.maxDocid
  | _, _ => True

/-! ### Calls and steps -/

section Keys

variable (keyId : Bytes → ℤ)

/-- What a step does to the engine. -/
def stepEngine : LaterOp → GammaEngine → Option GammaEngine
  | .addNewField info, e => some { e with table := e.table.addNewField info }
  | .addOrUpdate doc, e => (e.addOrUpdate keyId doc).map Prod.snd
  | .batchAdd startId docs result accepted, e =>
    (GammaEngine.batchAdd keyId startId docs ⟨e, result, accepted⟩).map fun r => r.engine
  | .update docid doc, e => (e.update docid doc).map Prod.snd
  | .undelete docid, e => some (e.undelete docid)
  | .delete key, e => (e.delete keyId key).map Prod.snd
  | .delDocByQuery docids, e => some (e.delDocByQuery docids)
  | .delDocByFilter docids, e => e.delDocByFilter keyId docids

variable {keyId}

theorem stepLater_engine {op : LaterOp} {s s' : Restarted} (h : stepLater keyId op s = some s') :
    stepEngine keyId op s.engine = some s'.engine := by
  cases op with
  | addNewField info =>
    cases h
    split
    · rename_i hname
      show some { s.engine with table := s.engine.table.addNewField info } = some s.engine
      rw [Table.addNewField, if_pos hname]
    · rfl
  | addOrUpdate doc =>
    obtain ⟨r, hr, rfl⟩ := Option.map_eq_some_iff.mp h
    exact Option.map_eq_some_iff.mpr ⟨r, hr, rfl⟩
  | batchAdd startId docs result accepted =>
    obtain ⟨r, hr, hrest⟩ := Option.bind_eq_some_iff.mp h
    obtain ⟨columns, -, rfl⟩ := Option.map_eq_some_iff.mp hrest
    exact Option.map_eq_some_iff.mpr ⟨r, hr, rfl⟩
  | update docid doc =>
    obtain ⟨r, hr, rfl⟩ := Option.map_eq_some_iff.mp h
    exact Option.map_eq_some_iff.mpr ⟨r, hr, rfl⟩
  | undelete docid =>
    cases h
    rfl
  | delete key =>
    obtain ⟨r, hr, rfl⟩ := Option.map_eq_some_iff.mp h
    exact Option.map_eq_some_iff.mpr ⟨r, hr, rfl⟩
  | delDocByQuery docids =>
    cases h
    rfl
  | delDocByFilter docids =>
    obtain ⟨e, he, rfl⟩ := Option.map_eq_some_iff.mp h
    exact he

/-- A round of `AddOrUpdateDocs` is a sequence of steps. -/
theorem batchStep_steps {unset : Bool} {doc : Doc} {st st' : BatchState}
    (h : batchStep keyId unset doc st = some st') :
    ∃ ops, Lib.runOps (stepEngine keyId) ops st.engine = some st'.engine := by
  rw [batchStep] at h
  split at h
  · cases h
    exact ⟨[], rfl⟩
  · obtain ⟨st₁, hflush, hupdate⟩ := Option.bind_eq_some_iff.mp h
    generalize docidOf _ = docid at hupdate
    obtain ⟨r, hr, rfl⟩ := Option.map_eq_some_iff.mp hflush
    obtain ⟨u, hu, rfl⟩ := Option.map_eq_some_iff.mp hupdate
    have hadd : stepEngine keyId (.batchAdd st.startId st.pending st.result st.accepted) st.engine =
        some r.engine := Option.map_eq_some_iff.mpr ⟨r, hr, rfl⟩
    refine ⟨.batchAdd st.startId st.pending st.result st.accepted ::
      .update docid doc :: if u.1 = 0 ∧ unset then [.undelete docid] else [], ?_⟩
    rw [Lib.runOps_cons, hadd, Option.bind_some, Lib.runOps_cons]
    have hwrite : r.engine.update docid doc = some u := hu
    show (Option.map Prod.snd (r.engine.update docid doc)).bind _ = _
    rw [hwrite, Option.map_some, Option.bind_some]
    dsimp only
    split <;> rfl

/-- **Every call is a sequence of steps.** -/
theorem stepOp_steps {op : Op} {e e' : GammaEngine} (h : stepOp keyId op e = some e') :
    ∃ ops, Lib.runOps (stepEngine keyId) ops e = some e' := by
  have hone : ∀ later : LaterOp, stepEngine keyId later e = some e' →
      ∃ ops, Lib.runOps (stepEngine keyId) ops e = some e' := by
    intro later hlater
    exact ⟨[later], by rw [Lib.runOps_cons, hlater]; rfl⟩
  have hbatch : ∀ (unset : Bool) (docs : List Doc) (st st' : BatchState),
      Lib.runOps (batchStep keyId unset) docs st = some st' →
        ∃ ops, Lib.runOps (stepEngine keyId) ops st.engine = some st'.engine := by
    intro unset docs
    induction docs with
    | nil =>
      intro st st' hrun
      cases hrun
      exact ⟨[], rfl⟩
    | cons doc docs ih =>
      intro st st' hrun
      obtain ⟨st₁, hst₁, hrest⟩ := Option.bind_eq_some_iff.mp hrun
      obtain ⟨ops, hops⟩ := batchStep_steps hst₁
      obtain ⟨ops', hops'⟩ := ih st₁ st' hrest
      exact ⟨ops ++ ops', by rw [Lib.runOps_append, hops, Option.bind_some, hops']⟩
  have hdocs : ∀ (unset : Bool) (docs : List Doc) (result : BatchResult),
      (addDocs keyId unset e docs result).map (fun st => st.engine) = some e' →
        ∃ ops, Lib.runOps (stepEngine keyId) ops e = some e' := by
    intro unset docs result hrun
    obtain ⟨st', hst', rfl⟩ := Option.map_eq_some_iff.mp hrun
    obtain ⟨st, hst, hflush⟩ := Option.bind_eq_some_iff.mp hst'
    obtain ⟨ops, hops⟩ := hbatch unset docs _ _ hst
    obtain ⟨r, hr, rfl⟩ := Option.map_eq_some_iff.mp hflush
    refine ⟨ops ++ [.batchAdd st.startId st.pending st.result st.accepted], ?_⟩
    have hops' : Lib.runOps (stepEngine keyId) ops e = some st.engine := hops
    rw [Lib.runOps_append, hops', Option.bind_some, Lib.runOps_cons]
    show (Option.map _ (GammaEngine.batchAdd keyId st.startId st.pending st.toRunState)).bind _ = _
    rw [hr]
    rfl
  cases op with
  | addNewField info => exact hone (.addNewField info) h
  | addOrUpdate doc => exact hone (.addOrUpdate doc) h
  | addOrUpdateDocs docs result => exact hdocs true docs result h
  | addOrUpdateDocsWithWords docs result => exact hdocs false docs result h
  | delete key => exact hone (.delete key) h
  | delDocByQuery docids => exact hone (.delDocByQuery docids) h
  | delDocByFilter docids => exact hone (.delDocByFilter docids) h

end Keys

/-! ### The invariant -/

/-- What the later calls keep. -/
structure Sound (n : ℕ) (s : Restarted) : Prop where
  rows : s.engine.table.rows.length = s.engine.maxDocid
  last : (s.engine.maxDocid : ℤ) ≤ s.engine.table.lastDocid + 1
  vectors : s.engine.vecManager.Readable s.engine.maxDocid
  keys : ∀ k d, s.engine.table.itemToDocid k = some d → d < s.engine.maxDocid
  clean : s.engine.docidsBitmap.Clean
  above : ∀ d, s.engine.maxDocid ≤ d → s.engine.docidsBitmap.test d = false
  marked : ∀ d, n ≤ d → s.engine.docidsBitmap.test d = true → s.deleted d = true
  fresh : ∀ d, s.engine.maxDocid ≤ d → s.given d = none
  row : ∀ d, n ≤ d → d < s.engine.maxDocid → ∃ g row, s.given d = some g ∧
    g.row s.engine.table.schema = some row ∧ s.engine.table.rows[d]? = some row
  agree : ∀ name, s.engine.table.containField name = s.columns.containField name
  distinct : s.columns.Distinct
  own : s.columns.Own n fun d => (s.given d).elim [] Given.others

namespace Sound

variable {keyId : Bytes → ℤ} {n : ℕ} {s : Restarted}

/-- The invariant is enough. -/
theorem intact (h : Sound n s) : Intact n s where
  visible := by
    intro d hd hlt hdel
    have hclear : s.engine.docidsBitmap.test d = false := by
      rw [Bool.eq_false_iff]
      intro htest
      rw [h.marked d hd htest] at hdel
      cases hdel
    obtain ⟨g, row, -, -, hrow⟩ := h.row d hd hlt
    have hlast : ¬ (d : ℤ) > s.engine.table.lastDocid := by
      have := h.last
      omega
    have hneg : ¬ (d : ℤ) < 0 := by omega
    obtain ⟨vecs, hvecs⟩ := Option.isSome_iff_exists.mp (h.vectors.getVectors hlt)
    refine ⟨hclear, ?_⟩
    rw [getDocByDocid, if_neg (by rw [hclear]; decide), getDocInfo, if_neg hlast, getRow,
      if_neg hneg, Int.toNat_natCast, hrow, hvecs]
    rfl
  row := h.row
  columns := by
    intro d name v hd _ hget
    obtain ⟨f, hf, hname, hv⟩ := h.own.get h.distinct hd hget
    cases hg : s.given d with
    | none =>
      rw [hg] at hf
      cases hf
    | some g =>
      rw [hg] at hf
      exact ⟨g, rfl, f, hf, hname, hv⟩

/-! ### Updates and deletions -/

theorem noteUpdate_eq_none {docid : ℤ} {fields : List Field} {given : ℕ → Option Given} {d : ℕ} :
    noteUpdate docid fields given d = none ↔ given d = none := by
  unfold noteUpdate
  split
  · rw [Option.map_eq_none_iff]
  · exact Iff.rfl

theorem noteUpdate_others (docid : ℤ) (fields : List Field) (given : ℕ → Option Given) (d : ℕ) :
    (noteUpdate docid fields given d).elim [] Given.others = (given d).elim [] Given.others := by
  unfold noteUpdate
  split
  · cases given d <;> rfl
  · rfl

/-- The row of a document after an update. -/
theorem row_update {t t' : Table} {docid : ℤ} {fields : List Field}
    (ht : t.update fields docid = some t') {given : ℕ → Option Given} {d : ℕ}
    (h : ∃ g row, given d = some g ∧ g.row t.schema = some row ∧ t.rows[d]? = some row) :
    ∃ g row, noteUpdate docid fields given d = some g ∧ g.row t.schema = some row ∧
      t'.rows[d]? = some row := by
  obtain ⟨g, row, hg, hrow, hget⟩ := h
  have hmore : ∀ row', Lib.runOps t.schema.updateField fields row = some row' →
      Given.row t.schema { g with updates := g.updates ++ [fields] } = some row' := by
    intro row' hrow'
    obtain ⟨start, hstart, hupdates⟩ := Option.bind_eq_some_iff.mp hrow
    rw [Given.row]
    show (Lib.runOps t.schema.storeField g.stored t.schema.freshRow).bind _ = _
    rw [hstart, Option.bind_some, Lib.runOps_append, hupdates, Option.bind_some, Lib.runOps_cons,
      hrow']
    rfl
  by_cases hd : (d : ℤ) = docid
  · have hnote : noteUpdate docid fields given d = some { g with updates := g.updates ++ [fields] } := by
      rw [noteUpdate, if_pos hd, hg]
      rfl
    rw [Table.update] at ht
    split at ht
    · rename_i hnil
      cases ht
      exact ⟨_, row, hnote, hmore row (by rw [hnil]; rfl), hget⟩
    · have hneg : ¬ docid < 0 := by omega
      have hnat : docid.toNat = d := by omega
      obtain ⟨old, hold, hrest⟩ := Option.bind_eq_some_iff.mp ht
      rw [getRow, if_neg hneg, hnat, hget] at hold
      cases hold
      obtain ⟨row', hrow', rfl⟩ := Option.map_eq_some_iff.mp hrest
      refine ⟨_, row', hnote, hmore row' hrow', ?_⟩
      show (t.rows.set docid.toNat row')[d]? = some row'
      rw [hnat, List.getElem?_set_self (List.getElem?_eq_some_iff.mp hget).1]
  · refine ⟨g, row, by rw [noteUpdate, if_neg hd, hg], hrow, ?_⟩
    rw [Table.update] at ht
    split at ht
    · cases ht
      exact hget
    · obtain ⟨old, hold, hrest⟩ := Option.bind_eq_some_iff.mp ht
      obtain ⟨row', -, rfl⟩ := Option.map_eq_some_iff.mp hrest
      have hneg : ¬ docid < 0 := by
        intro hneg
        rw [getRow, if_pos hneg] at hold
        cases hold
      show (t.rows.set docid.toNat row')[d]? = some row
      rw [List.getElem?_set_ne (by omega), hget]

theorem rows_length_update {t t' : Table} {docid : ℤ} {fields : List Field}
    (ht : t.update fields docid = some t') : t'.rows.length = t.rows.length := by
  rw [Table.update] at ht
  split at ht
  · cases ht
    rfl
  · obtain ⟨old, -, hrest⟩ := Option.bind_eq_some_iff.mp ht
    obtain ⟨row', -, rfl⟩ := Option.map_eq_some_iff.mp hrest
    exact List.length_set

/-- **An update** writes the row of its document, or is refused and writes none. -/
theorem update (h : Sound n s) {docid : ℤ} {doc : Doc} {r : ℤ × GammaEngine}
    (hr : s.engine.update docid doc = some r) :
    Sound n { s with
      engine := r.2
      given := if r.1 = 0 then noteUpdate docid doc.tableFields s.given else s.given } := by
  obtain ⟨m, hm, ⟨hret, heq⟩ | ⟨hret, rows, ops, ht, heq⟩⟩ := update_cases hr
  · rw [if_neg hret, heq]
    exact { h with vectors := h.vectors.update hm }
  · rw [if_pos hret, heq]
    have hlen := rows_length_update ht
    exact { h with
      rows := hlen.trans h.rows
      vectors := h.vectors.update hm
      fresh := fun d hd => noteUpdate_eq_none.mpr (h.fresh d hd)
      row := fun d hd hlt => row_update ht (h.row d hd hlt)
      own := h.own.mono fun d f hf => by
        rw [noteUpdate_others]
        exact hf }

/-- More documents may be called deleted. -/
theorem forgive (h : Sound n s) (more : ℕ → Prop) [DecidablePred more] :
    Sound n { s with deleted := fun d => s.deleted d || decide (more d) } :=
  { h with
    marked := fun d hd htest => by
      show (s.deleted d || decide (more d)) = true
      rw [h.marked d hd htest, Bool.true_or] }

/-- The mark of a document that is deleted. -/
theorem markDeleted (h : Sound n s) {d : ℕ} (hd : d < s.engine.maxDocid)
    (hdel : s.deleted d = true) : Sound n { s with engine := s.engine.markDeleted d } := by
  have htest : ∀ i, i ≠ d →
      ((s.engine.docidsBitmap.set d).dump d 1).test i = s.engine.docidsBitmap.test i := by
    intro i hi
    rw [BitmapManager.test_dump, BitmapManager.test_set, if_neg fun hcond => hi hcond.1.symm]
  exact { h with
    clean := (h.clean.write d true).dump d 1
    above := fun i hi => by
      have hle : s.engine.maxDocid ≤ i := hi
      exact (htest i (by omega)).trans (h.above i hi)
    marked := fun i hi hbit => by
      by_cases heq : i = d
      · rw [heq]
        exact hdel
      · exact h.marked i hi ((htest i heq).symm.trans hbit) }

/-- The calls into the range index, and the keys that are removed. -/
theorem removeKeys (h : Sound n s) {e' : GammaEngine} {ops : List FieldOperate}
    {keys : ℤ → Option ℕ} (he : e' = { s.engine with
      fieldOps := ops
      table := { s.engine.table with itemToDocid := keys } })
    (hkeys : ∀ k d, keys k = some d → s.engine.table.itemToDocid k = some d) :
    Sound n { s with engine := e' } := by
  subst he
  exact { h with keys := fun k d hd => h.keys k d (hkeys k d hd) }

/-- A document that is marked and taken out of the index and the keys. -/
theorem removeDoc (h : Sound n s) {d : ℕ} (hd : d < s.engine.maxDocid) (hdel : s.deleted d = true)
    {names : List String} {e' : GammaEngine} {key : Bytes}
    (he : ((s.engine.markDeleted d).deleteFromRangeIndex d names).map
      (fun e => { e with table := e.table.delete keyId key }) = some e') :
    Sound n { s with engine := e' } := by
  obtain ⟨e₁, he₁, rfl⟩ := Option.map_eq_some_iff.mp he
  obtain ⟨ops, rfl⟩ := deleteFromRangeIndex_eq he₁
  exact (h.markDeleted hd hdel).removeKeys rfl fun k i hi => Table.itemToDocid_of_delete hi

theorem delete (h : Sound n s) {key : Bytes} {r : ℤ × GammaEngine}
    (hr : s.engine.delete keyId key = some r) :
    Sound n { s with
      engine := r.2
      deleted := fun d =>
        s.deleted d || decide (s.engine.table.getDocIDByKey keyId key = some d) } := by
  have hforgiven := h.forgive fun d => s.engine.table.getDocIDByKey keyId key = some d
  rw [GammaEngine.delete] at hr
  cases hkey : s.engine.table.getDocIDByKey keyId key with
  | none =>
    rw [hkey] at hr hforgiven
    cases hr
    exact hforgiven
  | some d =>
    rw [hkey] at hr hforgiven
    dsimp only at hr
    split at hr
    · cases hr
      exact hforgiven
    · obtain ⟨e₁, he₁, rfl⟩ := Option.map_eq_some_iff.mp hr
      have hlt : d < s.engine.maxDocid := h.keys _ d hkey
      refine hforgiven.removeDoc hlt ?_ (Option.map_eq_some_iff.mpr ⟨e₁, he₁, rfl⟩)
      simp

theorem delDocByQuery (h : Sound n s) {docids : List ℕ}
    (hlt : ∀ d ∈ docids, d < s.engine.maxDocid) (hdel : ∀ d ∈ docids, s.deleted d = true) :
    Sound n { s with engine := s.engine.delDocByQuery docids } := by
  rw [GammaEngine.delDocByQuery]
  induction docids generalizing s with
  | nil => exact h
  | cons d docids ih =>
    rw [List.foldl_cons]
    have hlt' : ∀ i ∈ docids, i < s.engine.maxDocid := fun i hi => hlt i (List.mem_cons_of_mem d hi)
    have hdel' : ∀ i ∈ docids, s.deleted i = true := fun i hi => hdel i (List.mem_cons_of_mem d hi)
    split
    · exact ih h hlt' hdel'
    · exact ih (s := { s with engine := s.engine.markDeleted d })
        (h.markDeleted (hlt d List.mem_cons_self) (hdel d List.mem_cons_self)) hlt' hdel'

theorem deleteFound (h : Sound n s) {d : ℕ} {e' : GammaEngine} (hlt : d < s.engine.maxDocid)
    (hdel : s.deleted d = true) (he : GammaEngine.deleteFound keyId d s.engine = some e') :
    Sound n { s with engine := e' } ∧ e'.maxDocid = s.engine.maxDocid := by
  rw [GammaEngine.deleteFound] at he
  split at he
  · cases he
    exact ⟨h, rfl⟩
  · split at he
    · cases he
      exact ⟨h, rfl⟩
    · refine ⟨h.removeDoc hlt hdel he, ?_⟩
      obtain ⟨e₁, he₁, rfl⟩ := Option.map_eq_some_iff.mp he
      obtain ⟨ops, rfl⟩ := deleteFromRangeIndex_eq he₁
      rfl

theorem delDocByFilter (h : Sound n s) {docids : List ℕ} {e' : GammaEngine}
    (hdel : ∀ d ∈ docids, s.deleted d = true)
    (he : s.engine.delDocByFilter keyId docids = some e') : Sound n { s with engine := e' } := by
  rw [GammaEngine.delDocByFilter] at he
  have hrun : ∀ found : List ℕ, (∀ d ∈ found, d < s.engine.maxDocid ∧ s.deleted d = true) →
      ∀ e : GammaEngine, Sound n { s with engine := e } → e.maxDocid = s.engine.maxDocid →
        Lib.runOps (GammaEngine.deleteFound keyId) found e = some e' →
          Sound n { s with engine := e' } := by
    intro found
    induction found with
    | nil =>
      intro _ e hs _ hend
      cases hend
      exact hs
    | cons d found ih =>
      intro hfound e hs hmax hend
      obtain ⟨e₁, he₁, hend⟩ := Option.bind_eq_some_iff.mp hend
      obtain ⟨hlt, hd⟩ := hfound d List.mem_cons_self
      obtain ⟨hs₁, hmax₁⟩ := hs.deleteFound (hmax ▸ hlt) hd he₁
      exact ih (fun i hi => hfound i (List.mem_cons_of_mem d hi)) e₁ hs₁ (hmax₁.trans hmax) hend
  refine hrun _ (fun d hd => ?_) s.engine h rfl he
  obtain ⟨hmem, hlt⟩ := List.mem_filter.mp hd
  exact ⟨of_decide_eq_true hlt, hdel d hmem⟩

/-- **A document that is there again**: its bit is clear, and it is not called deleted. -/
theorem undelete (h : Sound n s) (docid : ℤ) :
    Sound n { s with
      engine := s.engine.undelete docid
      deleted := fun d => s.deleted d && decide ((d : ℤ) ≠ docid) } := by
  rw [GammaEngine.undelete]
  by_cases htest : s.engine.testDocid docid = true
  · rw [if_pos htest]
    rw [testDocid, Bool.and_eq_true, decide_eq_true_eq] at htest
    obtain ⟨hpos, hbit⟩ := htest
    have hsize := BitmapManager.lt_size_of_test hbit
    have hunset : ∀ i, ((s.engine.docidsBitmap.unset docid.toNat).dump docid.toNat 1).test i =
        if docid.toNat = i then false else s.engine.docidsBitmap.test i := by
      intro i
      rw [BitmapManager.test_dump, BitmapManager.test_unset]
      by_cases hi : docid.toNat = i
      · rw [if_pos ⟨hi, hsize⟩, if_pos hi]
      · rw [if_neg fun hcond => hi hcond.1, if_neg hi]
    exact { h with
      clean := (h.clean.write docid.toNat false).dump docid.toNat 1
      above := fun i hi => by
        refine (hunset i).trans ?_
        split
        · rfl
        · exact h.above i hi
      marked := fun i hi hbit' => by
        rw [hunset i] at hbit'
        split at hbit'
        · cases hbit'
        · rename_i hne
          show (s.deleted i && decide ((i : ℤ) ≠ docid)) = true
          rw [h.marked i hi hbit', Bool.true_and, decide_eq_true_eq]
          omega }
  · rw [if_neg htest]
    exact { h with
      marked := fun i hi hbit' => by
        show (s.deleted i && decide ((i : ℤ) ≠ docid)) = true
        rw [h.marked i hi hbit', Bool.true_and, decide_eq_true_eq]
        intro heq
        apply htest
        rw [testDocid, ← heq, Int.toNat_natCast, hbit']
        simp }

/-! ### New documents -/

/-- The marks and the last document id after `count` new documents. -/
theorem setMaxID (h : Sound n s) (count : ℕ) (d : ℕ) :
    (s.engine.docidsBitmap.setMaxID (s.engine.maxDocid + count)).test d =
      s.engine.docidsBitmap.test d :=
  (h.clean.setMaxID _).2 d

/-- A document that `AddOrUpdate` adds, or refuses before it writes anything. -/
theorem addNew (h : Sound n s) {doc : Doc} {r : ℤ × GammaEngine}
    (hnew : s.engine.table.getDocIDByKey keyId doc.key = none)
    (hdoc : RefusedByTable s.engine.table.schema doc ∨ OneEach s.engine.vecManager doc)
    (hr : s.engine.addOrUpdate keyId doc = some r) :
    Sound n { s with
      engine := r.2
      given := if r.1 = 0 then
          Function.update s.given s.engine.maxDocid (some ⟨doc.tableFields, [], []⟩)
        else s.given } := by
  rw [GammaEngine.addOrUpdate, hnew] at hr
  obtain ⟨a, ha, rfl⟩ := Option.map_eq_some_iff.mp hr
  rw [Table.add] at ha
  by_cases hfields : doc.tableFields.length ≠ s.engine.table.schema.attrs.length
  · rw [if_pos hfields] at ha
    cases ha
    exact h
  rw [if_neg hfields] at ha
  by_cases hkey : doc.key = []
  · rw [if_pos hkey] at ha
    cases ha
    exact h
  rw [if_neg hkey] at ha
  have hone : OneEach s.engine.vecManager doc := by
    cases hdoc with
    | inl hrefused =>
      cases hrefused with
      | inl hlen => exact absurd hlen hfields
      | inr hnil => exact absurd hnil hkey
    | inr hone => exact hone
  obtain ⟨row, hrow, rfl⟩ := Option.map_eq_some_iff.mp ha
  have hstored : (addToStore doc.vectorFields s.engine.vecManager).1 = 0 :=
    addToStore_exact hone.exact
  simp only [ne_eq, not_true_eq_false, if_false, addToRangeIndex, hstored, if_true]
  refine
    { rows := ?_, last := ?_, vectors := hone.readable h.vectors, keys := fun k d hd => ?_
      clean := (h.clean.setMaxID _).1, above := fun d hd => ?_, marked := fun d hd hbit => ?_
      fresh := fun d hd => ?_, row := fun d hd hlt => ?_, agree := h.agree
      distinct := h.distinct, own := h.own.mono fun d f hf => ?_ }
  · show (s.engine.table.rows ++ [row]).length = s.engine.maxDocid + 1
    rw [List.length_append, h.rows]
    rfl
  · show ((s.engine.maxDocid + 1 : ℕ) : ℤ) ≤ (s.engine.maxDocid : ℤ) + 1
    omega
  · show d < s.engine.maxDocid + 1
    cases insertKey_eq_some hd with
    | inl heq => omega
    | inr hold =>
      have := h.keys k d hold
      omega
  · have hle : s.engine.maxDocid + 1 ≤ d := hd
    exact (h.setMaxID 1 d).trans (h.above d (by omega))
  · exact h.marked d hd ((h.setMaxID 1 d).symm.trans hbit)
  · have hle : s.engine.maxDocid + 1 ≤ d := hd
    show Function.update s.given s.engine.maxDocid _ d = none
    rw [Function.update_of_ne (by omega)]
    exact h.fresh d (by omega)
  · have hlt' : d < s.engine.maxDocid + 1 := hlt
    show ∃ g row', Function.update s.given s.engine.maxDocid _ d = some g ∧ _ ∧
      (s.engine.table.rows ++ [row])[d]? = some row'
    by_cases heq : d = s.engine.maxDocid
    · refine ⟨_, row, by rw [heq, Function.update_self], ?_, ?_⟩
      · show (Lib.runOps _ doc.tableFields _).bind _ = some row
        rw [hrow]
        rfl
      · rw [heq, ← h.rows, List.getElem?_concat_length]
    · obtain ⟨g, row', hg, hrow', hget⟩ := h.row d hd (by omega)
      refine ⟨g, row', by rw [Function.update_of_ne heq, hg], hrow', ?_⟩
      rw [List.getElem?_append_left (List.getElem?_eq_some_iff.mp hget).1, hget]
  · by_cases heq : d = s.engine.maxDocid
    · rw [heq, h.fresh _ (Nat.le_refl _)] at hf
      cases hf
    · show f ∈ (Function.update s.given s.engine.maxDocid _ d).elim [] Given.others
      rw [Function.update_of_ne heq]
      exact hf

theorem readable_storeAll {docs : List Doc} {m : VectorManager} {k : ℕ}
    (hdocs : ∀ doc ∈ docs, OneEach m doc) (h : m.Readable k) :
    (storeAll docs m).Readable (k + docs.length) := by
  induction docs generalizing m k with
  | nil => exact h
  | cons doc docs ih =>
    have hshape := addToStore_sameShape doc.vectorFields m
    have hlen : k + (doc :: docs).length = k + 1 + docs.length := by
      rw [List.length_cons]
      omega
    rw [hlen]
    exact ih (fun d hd => hshape.oneEach (hdocs d (List.mem_cons_of_mem doc hd)))
      ((hdocs doc List.mem_cons_self).readable h)

theorem noteRun_of_lt {t : Table} {docs : List Doc} {docid d : ℕ} {given : ℕ → Option Given}
    (hd : d < docid) : noteRun t docs docid given d = given d := by
  rw [noteRun, if_neg (Nat.not_le.mpr hd)]

theorem noteRun_add {t : Table} {docs : List Doc} {docid i : ℕ} {given : ℕ → Option Given}
    {doc : Doc} (hdoc : docs[i]? = some doc) :
    noteRun t docs docid given (docid + i) = some (givenBy t doc) := by
  rw [noteRun, if_pos (Nat.le_add_right docid i), Nat.add_sub_cancel_left, hdoc]
  rfl

theorem noteRun_of_le {t : Table} {docs : List Doc} {docid d : ℕ} {given : ℕ → Option Given}
    (hd : docid + docs.length ≤ d) : noteRun t docs docid given d = given d := by
  have hnone : docs[d - docid]? = none := List.getElem?_eq_none (by omega)
  rw [noteRun, hnone]
  split <;> rfl

/-- The row of a document that `BatchAdd` adds. -/
theorem givenBy_row {t : Table} {doc : Doc} {row : Row}
    (h : t.batchRow (t.withKeyField doc) = some row) : (givenBy t doc).row t.schema = some row := by
  rw [Given.row]
  show (t.batchRow (t.withKeyField doc)).bind _ = some row
  rw [h]
  rfl

/-- The field of the key is no vector. -/
theorem oneEach_withKeyField {m : VectorManager} {doc : Doc} (h : OneEach m doc) (t : Table) :
    OneEach m (t.withKeyField doc) where
  exact := fun f hf => h.exact f (withKeyField_vectorFields t doc ▸ hf)
  once := fun name hname => by
    rw [withKeyField_vectorFields]
    exact h.once name hname

theorem newColumnFields_others {t : Table} {doc : Doc} {f : Field}
    (hf : f ∈ t.newColumnFields (t.withKeyField doc)) : f ∈ (givenBy t doc).others := by
  obtain ⟨hmem, hcond⟩ := List.mem_filter.mp hf
  exact List.mem_filter.mpr ⟨hmem, (Bool.and_eq_true_iff.mp hcond).1⟩

/-- A run takes nothing from the documents before it. -/
theorem others_noteRun {t : Table} {docs : List Doc} {docid : ℕ} {given : ℕ → Option Given}
    (hfresh : ∀ d, docid ≤ d → given d = none) (d : ℕ) :
    ∀ f ∈ (given d).elim [] Given.others,
      f ∈ (noteRun t docs docid given d).elim [] Given.others := by
  intro f hf
  by_cases hd : d < docid
  · rw [noteRun_of_lt hd]
    exact hf
  · rw [hfresh d (Nat.not_lt.mp hd)] at hf
    cases hf

/-- The rows of a run are those of its documents. -/
theorem exists_row_of_run {t : Table} {docs : List Doc} {rows : List Row}
    (hrows : List.Forall₂ (fun doc row => t.batchRow doc = some row) (docs.map t.withKeyField) rows)
    {i : ℕ} (hi : i < docs.length) :
    ∃ doc row, docs[i]? = some doc ∧ rows[i]? = some row ∧
      (givenBy t doc).row t.schema = some row := by
  have hi' : i < (docs.map t.withKeyField).length := by
    rw [List.length_map]
    exact hi
  have hirow : i < rows.length := hrows.length_eq ▸ hi'
  have hrow : t.batchRow ((docs.map t.withKeyField).get ⟨i, hi'⟩) = some (rows.get ⟨i, hirow⟩) :=
    (List.forall₂_iff_get.mp hrows).2 i hi' hirow
  refine ⟨docs[i], rows.get ⟨i, hirow⟩, List.getElem?_eq_getElem hi, List.getElem?_eq_getElem _,
    givenBy_row ?_⟩
  simpa using hrow

/-- **A run of new documents.** -/
theorem batchAdd (h : Sound n s) {startId : ℕ} {docs : List Doc} {result : BatchResult}
    {accepted : List Doc} (hdocs : ∀ doc ∈ docs, OneEach s.engine.vecManager doc ∧
      ∀ f ∈ (givenBy s.engine.table doc).others, ∀ c, s.columns.fields f.name = some c →
        DocidFieldsMgr.Fits c f) {r : RunState} {columns : DocidFieldsMgr}
    (hr : GammaEngine.batchAdd keyId startId docs ⟨s.engine, result, accepted⟩ = some r)
    (hcolumns : Lib.runOps DocidFieldsMgr.replay
      (r.engine.table.columns.drop s.engine.table.columns.length) s.columns = some columns) :
    Sound n { s with
      engine := r.engine
      columns := columns
      given := noteRun s.engine.table docs s.engine.maxDocid s.given } := by
  rw [GammaEngine.batchAdd] at hr
  by_cases hnil : docs = []
  · rw [if_pos hnil] at hr
    cases hr
    rw [List.drop_length] at hcolumns
    cases hcolumns
    have hsame : noteRun s.engine.table docs s.engine.maxDocid s.given = s.given := by
      funext d
      by_cases hd : d < s.engine.maxDocid
      · exact noteRun_of_lt hd
      · apply noteRun_of_le
        rw [hnil]
        exact Nat.not_lt.mp hd
    rw [hsame]
    exact h
  rw [if_neg hnil] at hr
  obtain ⟨added, hadded, rfl⟩ := Option.map_eq_some_iff.mp hr
  obtain ⟨t, ht, rfl⟩ := Option.map_eq_some_iff.mp hadded
  obtain ⟨rows, rfl, hrows⟩ := addRows_spec ht
  have hone : ∀ doc ∈ docs.map s.engine.table.withKeyField, OneEach s.engine.vecManager doc := by
    intro doc hdoc
    obtain ⟨doc', hmem, rfl⟩ := List.mem_map.mp hdoc
    exact oneEach_withKeyField (hdocs doc' hmem).1 _
  have hstore := fun (t : Table) (result : BatchResult) =>
    storeDocs_eq (r := ⟨{ s.engine with table := t }, result, accepted⟩)
      (fun doc hdoc => (hone doc hdoc).exact) s.engine.maxDocid startId
  simp only [hstore] at hcolumns ⊢
  have hlen : rows.length = docs.length := by
    rw [← hrows.length_eq, List.length_map]
  rw [putOps_keys, List.drop_left] at hcolumns
  obtain ⟨hown, hfields⟩ := (h.own.mono (others_noteRun h.fresh)).putOps hcolumns
    (fun doc hdoc f hf => by
      obtain ⟨doc', hmem, rfl⟩ := List.mem_map.mp hdoc
      exact (hdocs doc' hmem).2 f (newColumnFields_others hf))
    (fun i doc hdoc f hf => by
      rw [List.getElem?_map] at hdoc
      obtain ⟨doc', hdoc', rfl⟩ := Option.map_eq_some_iff.mp hdoc
      rw [noteRun_add hdoc']
      exact newColumnFields_others hf)
  refine
    { rows := ?_, last := ?_, vectors := ?_, keys := fun k d hd => ?_
      clean := (h.clean.setMaxID _).1, above := fun d hd => ?_, marked := fun d hd hbit => ?_
      fresh := fun d hd => ?_, row := fun d hd hlt => ?_, agree := fun name => ?_
      distinct := ?_, own := hown }
  · show (s.engine.table.rows ++ rows).length = s.engine.maxDocid + docs.length
    rw [List.length_append, h.rows, hlen]
  · show ((s.engine.maxDocid + docs.length : ℕ) : ℤ) ≤
      (s.engine.maxDocid : ℤ) + ((docs.map s.engine.table.withKeyField).length : ℤ) + 1
    rw [List.length_map]
    omega
  · have hall := readable_storeAll hone h.vectors
    rwa [List.length_map] at hall
  · show d < s.engine.maxDocid + docs.length
    cases Bounded.insertKeys_lt hd with
    | inl hlt => omega
    | inr hold =>
      have := h.keys k d hold
      omega
  · have hle : s.engine.maxDocid + docs.length ≤ d := hd
    exact (h.setMaxID docs.length d).trans (h.above d (by omega))
  · exact h.marked d hd ((h.setMaxID docs.length d).symm.trans hbit)
  · have hle : s.engine.maxDocid + docs.length ≤ d := hd
    show noteRun s.engine.table docs s.engine.maxDocid s.given d = none
    rw [noteRun_of_le hle]
    exact h.fresh d (by omega)
  · have hlt' : d < s.engine.maxDocid + docs.length := hlt
    show ∃ g row, noteRun s.engine.table docs s.engine.maxDocid s.given d = some g ∧ _ ∧
      (s.engine.table.rows ++ rows)[d]? = some row
    by_cases hold : d < s.engine.maxDocid
    · obtain ⟨g, row, hg, hrow, hget⟩ := h.row d hd hold
      refine ⟨g, row, by rw [noteRun_of_lt hold, hg], hrow, ?_⟩
      rw [List.getElem?_append_left (List.getElem?_eq_some_iff.mp hget).1, hget]
    · obtain ⟨i, rfl⟩ := Nat.exists_eq_add_of_le (Nat.not_lt.mp hold)
      obtain ⟨doc, row, hdoc, hget, hrow⟩ := @exists_row_of_run _ docs rows hrows i (by omega)
      refine ⟨givenBy s.engine.table doc, row, noteRun_add hdoc, hrow, ?_⟩
      rw [List.getElem?_append_right (by rw [h.rows]; omega), h.rows, Nat.add_sub_cancel_left, hget]
  · rw [DocidFieldsMgr.containField, hfields]
    have hput := containField_putOps s.engine.table (docs.map s.engine.table.withKeyField)
      s.engine.maxDocid name
    rw [← putOps_keys s.engine.table
      (insertKeys keyId docs 0 s.engine.maxDocid s.engine.table.itemToDocid result).1] at hput
    exact Eq.trans hput (h.agree name)
  · intro a b ca cb ha hb
    rw [hfields] at ha hb
    exact h.distinct a b ca cb ha hb

/-- A column that is added after the restart. -/
theorem addNewField (h : Sound n s) {info : FieldInfo}
    (hfid : s.columns.containField info.name = false →
      ∀ name c, s.columns.fields name = some c → c.id ≠ s.fieldNum)
    (hname : info.name ∉ s.engine.table.schema.names) (fieldNum : ℕ) :
    Sound n { s with
      engine := { s.engine with table := s.engine.table.addNewField info }
      columns := s.columns.addField info s.fieldNum
      fieldNum := fieldNum } := by
  have hagree := h.agree info.name
  by_cases hknown : s.engine.table.containField info.name = true
  · have htable : s.engine.table.addNewField info = s.engine.table := by
      rw [Table.addNewField, if_neg hname, if_pos hknown]
    have hcolumns : s.columns.addField info s.fieldNum = s.columns := by
      rw [DocidFieldsMgr.addField, if_pos (hagree ▸ hknown)]
    rw [htable, hcolumns]
    exact { h with }
  · have htable : s.engine.table.addNewField info =
        { s.engine.table with columns := s.engine.table.columns ++ [.addField info] } := by
      rw [Table.addNewField, if_neg hname, if_neg hknown]
    rw [htable]
    refine { h with
      agree := fun name => ?_
      distinct := h.distinct.addField hfid
      own := h.own.addField info s.fieldNum }
    have hold := h.agree name
    show ({ s.engine.table with
      columns := s.engine.table.columns ++ [.addField info] } : Table).containField name =
        (s.columns.addField info s.fieldNum).containField name
    rw [DocidFieldsMgr.addField, if_neg fun hmgr => hknown (hagree ▸ hmgr)]
    show List.any _ _ = (Function.update s.columns.fields info.name _ name).isSome
    rw [List.any_append]
    by_cases heq : info.name = name
    · rw [← heq, Function.update_self]
      simp
    · rw [Function.update_of_ne (Ne.symm heq)]
      have hany : s.engine.table.containField name = s.columns.containField name := hold
      rw [Table.containField] at hany
      rw [hany]
      simp [heq, DocidFieldsMgr.containField]

/-- **Every later call that fits** keeps the invariant. -/
theorem step (h : Sound n s) {op : LaterOp} (hop : Fit keyId op s) {s' : Restarted}
    (hs : stepLater keyId op s = some s') : Sound n s' := by
  cases op with
  | addNewField info =>
    cases hs
    split
    · exact h
    · rename_i hname
      exact h.addNewField (hop hname) hname _
  | addOrUpdate doc =>
    obtain ⟨r, hr, rfl⟩ := Option.map_eq_some_iff.mp hs
    cases hkey : s.engine.table.getDocIDByKey keyId doc.key with
    | none => exact h.addNew hkey (hop hkey) hr
    | some d =>
      rw [GammaEngine.addOrUpdate, hkey] at hr
      obtain ⟨u, hu, rfl⟩ := Option.map_eq_some_iff.mp hr
      have hsound := h.update hu
      by_cases hret : u.1 = 0
      · rw [if_pos hret] at hsound
        simpa only [hret, noteDoc, ne_eq, not_true_eq_false, if_false, if_true] using hsound
      · rw [if_neg hret] at hsound
        simpa only [hret, ne_eq, not_false_eq_true, if_true, Int.reduceNeg, reduceCtorEq,
          if_false] using hsound
  | batchAdd startId docs result accepted =>
    obtain ⟨r, hr, hrest⟩ := Option.bind_eq_some_iff.mp hs
    obtain ⟨columns, hcolumns, rfl⟩ := Option.map_eq_some_iff.mp hrest
    exact h.batchAdd hop hr hcolumns
  | update docid doc =>
    obtain ⟨r, hr, rfl⟩ := Option.map_eq_some_iff.mp hs
    exact h.update hr
  | undelete docid =>
    cases hs
    exact h.undelete docid
  | delete key =>
    obtain ⟨r, hr, rfl⟩ := Option.map_eq_some_iff.mp hs
    exact h.delete hr
  | delDocByQuery docids =>
    cases hs
    have hforgiven := h.forgive fun d => d ∈ docids
    exact hforgiven.delDocByQuery hop fun d hd => by simp [hd]
  | delDocByFilter docids =>
    obtain ⟨e, he, rfl⟩ := Option.map_eq_some_iff.mp hs
    have hforgiven := h.forgive fun d => d ∈ docids
    exact hforgiven.delDocByFilter (fun d hd => by simp [hd]) he

/-! ### The restart -/

/-- **An engine just loaded**, when neither the bitmap nor the columns reach behind its documents. -/
theorem restarted {files : Files} {indexNum : ℕ} {e : GammaEngine}
    (he : files.engine.load keyId indexNum = some e)
    (hbits : ∀ d, files.engine.loadNum ≤ d →
      (BitmapManager.reopen files.engine.docidsBitmap.file initBitmapSize).test d = false)
    (hentries : ∀ d, files.engine.loadNum ≤ d → files.columns.entries d = none)
    (hids : files.columns.Distinct) :
    Sound files.engine.loadNum (GammaEngine.restarted files e) := by
  rw [GammaEngine.load] at he
  split at he
  · cases he
  obtain ⟨t, ht, rfl⟩ := Option.map_eq_some_iff.mp he
  rw [Table.load] at ht
  obtain ⟨keys, hkeys, rfl⟩ := Option.map_eq_some_iff.mp ht
  obtain ⟨hrows, hfiles⟩ := diskVecNum_le files.engine.vecManager files.engine.table.rows.length
  refine
    { rows := List.length_take_of_le hrows
      last := ?_
      vectors := VectorManager.readable_load _ hfiles
      keys := fun k d hd => (loadKeys_mem hkeys hd).1
      clean := BitmapManager.clean_reopen _ _
      above := hbits
      marked := fun d hd hbit => ?_
      fresh := fun _ _ => rfl
      row := fun d hd hlt => absurd hlt (Nat.not_lt.mpr hd)
      agree := files.agree
      distinct := hids
      own := fun d hd entry hentry => ?_ }
  · show ((files.engine.loadNum : ℕ) : ℤ) ≤ (files.engine.loadNum : ℤ) - 1 + 1
    omega
  · have hclear := hbits d hd
    rw [show (BitmapManager.reopen files.engine.docidsBitmap.file initBitmapSize).test d = true
      from hbit] at hclear
    cases hclear
  · have hnone := hentries d hd
    rw [show files.columns.entries d = some entry from hentry] at hnone
    cases hnone

end Sound

/-- `byteDoc` gives the one vector field its vector. -/
theorem byteDoc_oneEach {m : VectorManager} (h : SameShape (VectorManager.create [wordVector]) m)
    (key : UInt8) {vec : Bytes} (hvec : vec.length = 4) : OneEach m (byteDoc key vec) := by
  refine h.oneEach ⟨fun f hf _ => ?_, fun name hname => ?_⟩
  · rw [List.mem_singleton.mp hf]
    exact hvec
  · rw [List.mem_singleton.mp hname]
    rfl

/-- A load that keeps no document. -/
theorem load_none (keyId : Bytes → ℤ) {a : GammaEngine} (h : a.loadNum = 0) :
    ∃ e, a.load keyId 0 = some e ∧ e.table.schema = a.table.schema ∧ e.maxDocid = 0 ∧
      e.table.rows = [] ∧ (∀ k, e.table.itemToDocid k = none) ∧
      e.docidsBitmap = BitmapManager.reopen a.docidsBitmap.file initBitmapSize ∧
      SameShape a.vecManager e.vecManager := by
  have hkeys : Lib.runOps ((a.table.cut a.loadNum).loadKey keyId
      (BitmapManager.reopen a.docidsBitmap.file initBitmapSize)) (List.range a.loadNum)
        (fun _ => none) = some fun _ => none := by
    rw [h]
    rfl
  refine ⟨_, load_of_keys (Nat.zero_le _) hkeys, rfl, h, ?_, fun _ => rfl, rfl,
    load_sameShape _ _⟩
  show a.table.rows.take a.loadNum = []
  rw [h, List.take_zero]

/-- The first document that is added. -/
theorem addOrUpdate_first {a e : GammaEngine} (hschema : a.table.schema = keySchema)
    (hshape : SameShape (VectorManager.create [wordVector]) a.vecManager)
    (he : e.table.schema = a.table.schema ∧ e.maxDocid = 0 ∧ e.table.rows = [] ∧
      (∀ k, e.table.itemToDocid k = none) ∧
      e.docidsBitmap = BitmapManager.reopen a.docidsBitmap.file initBitmapSize ∧
      SameShape a.vecManager e.vecManager) (key : UInt8) {vec : Bytes} (hvec : vec.length = 4) :
    ∃ r, e.addOrUpdate firstByte (byteDoc key vec) = some (0, r) ∧ r.maxDocid = 1 ∧
      ∀ i, r.docidsBitmap.test i = e.docidsBitmap.test i := by
  obtain ⟨hs, hmax, -, hkeys, hbits, hvecs⟩ := he
  have hschema' : e.table.schema = keySchema := hs.trans hschema
  have hsize : (e.vecManager.raw "v").vectorByteSize = 4 :=
    (hshape.trans hvecs).vectorByteSize "v"
  have hadd := addOrUpdate_new firstByte (hkeys _) (byteDoc_addable hschema' hsize key hvec)
  have hrow : rowOf keySchema (byteDoc key vec) =
      some [.str (some (keySchema.storedText ⟨"_id", [key], .string⟩))] := rfl
  rw [hschema', hrow] at hadd
  refine ⟨_, hadd, ?_, fun i => ?_⟩
  · show e.maxDocid + 1 = 1
    rw [hmax]
  · have hclean : e.docidsBitmap.Clean := hbits ▸ BitmapManager.clean_reopen _ _
    exact (hclean.setMaxID _).2 i

theorem delete_sameKind {keyId : Bytes → ℤ} {e : GammaEngine} {key : Bytes} {r : ℤ × GammaEngine}
    (hr : e.delete keyId key = some r) : SameKind e r.2 := by
  rw [GammaEngine.delete] at hr
  split at hr
  · cases hr
    exact ⟨rfl, SameShape.refl _⟩
  · split at hr
    · cases hr
      exact ⟨rfl, SameShape.refl _⟩
    · obtain ⟨e₁, he₁, rfl⟩ := Option.map_eq_some_iff.mp hr
      obtain ⟨ops, rfl⟩ := deleteFromRangeIndex_eq he₁
      exact ⟨rfl, SameShape.refl _⟩

/-- A document that was added and deleted before its vector reached the file. -/
theorem deleted_run : ∃ a, Lib.runOps (stepOp firstByte)
    [.addOrUpdate (byteDoc 97 [0, 0, 0, 0]), .delete [97]] (create keySchema [wordVector]) = some a ∧
      SameKind (create keySchema [wordVector]) a ∧ a.docidsBitmap.Dumped ∧ a.table.columns = [] ∧
        a.docidsBitmap.test 0 = true := by
  have hrun : (Lib.runOps (stepOp firstByte)
      [.addOrUpdate (byteDoc 97 [0, 0, 0, 0]), .delete [97]] (create keySchema [wordVector])).map
        (fun a => (a.table.columns, a.docidsBitmap.test 0)) = some ([], true) := by
    decide +kernel
  obtain ⟨a, ha, hfacts⟩ := Option.map_eq_some_iff.mp hrun
  simp only [Prod.mk.injEq] at hfacts
  obtain ⟨a₁, ha₁, ha₂⟩ := Option.bind_eq_some_iff.mp ha
  obtain ⟨a₂, ha₂, hend⟩ := Option.bind_eq_some_iff.mp ha₂
  cases hend
  have hdumped := dumped_step (counted_create keySchema [wordVector]).dumped ha₁
  refine ⟨a, ha, ?_, dumped_step hdumped ha₂, hfacts⟩
  have hadd : ((create keySchema [wordVector]).addOrUpdate firstByte
    (byteDoc 97 [0, 0, 0, 0])).map Prod.snd = some a₁ := ha₁
  have hdelete : (a₁.delete firstByte [97]).map Prod.snd = some a := ha₂
  obtain ⟨r₁, hr₁, rfl⟩ := Option.map_eq_some_iff.mp hadd
  obtain ⟨r₂, hr₂, rfl⟩ := Option.map_eq_some_iff.mp hdelete
  exact (addOrUpdate_sameKind firstByte hr₁).trans (delete_sameKind hr₂)

end GammaEngine

end AwaDB
