import AwaDB.Engine.GammaEngine

/-!
# Batches and single adds

The two ways of adding documents, brought to one form. `added docs rows e` is the engine after a
run of new, complete documents, up to two things that the paths treat differently: `last_docid_`
and the bitmap, which `withMarks` replaces.

* `addOrUpdate_new` and `batchAdd_eq` give both paths as `added`;
* `Sim` relates the loop of `AddOrUpdateDocs`, with its pending run, to the engine that has added
  the same documents one by one, and `sim_step` carries it over one more document.
-/

namespace AwaDB.GammaEngine

open Table VectorManager

/-- The engine with another `last_docid_` and another bitmap. -/
def withMarks (e : GammaEngine) (last : ℤ) (bits : BitmapManager) : GammaEngine :=
  { e with table := { e.table with lastDocid := last }, docidsBitmap := bits }

/-- The document gives every field of the schema once, a key, and vectors of the right size. -/
structure Addable (e : GammaEngine) (doc : Doc) : Prop where
  complete : Complete e.table.schema doc
  key : doc.key ≠ []
  exact : Exact e.vecManager doc

/-- Engines with the same schema and vector fields take the same documents. -/
structure SameKind (e e' : GammaEngine) : Prop where
  schema : e'.table.schema = e.table.schema
  vectors : SameShape e.vecManager e'.vecManager

theorem SameKind.addable {e e' : GammaEngine} (h : SameKind e e') {doc : Doc}
    (hdoc : Addable e doc) : Addable e' doc :=
  ⟨h.schema ▸ hdoc.complete, hdoc.key, h.vectors.exact hdoc.exact⟩

theorem SameKind.symm {e e' : GammaEngine} (h : SameKind e e') : SameKind e' e :=
  ⟨h.schema.symm, h.vectors.symm⟩

theorem SameKind.trans {e₁ e₂ e₃ : GammaEngine} (h : SameKind e₁ e₂) (h' : SameKind e₂ e₃) :
    SameKind e₁ e₃ :=
  ⟨h'.schema.trans h.schema, h.vectors.trans h'.vectors⟩

/-! ### Updates do not see the marks -/

theorem deleteFromRangeIndex_withMarks (e : GammaEngine) (last : ℤ) (bits : BitmapManager)
    (docid : ℤ) (names : List String) :
    (e.withMarks last bits).deleteFromRangeIndex docid names =
      (e.deleteFromRangeIndex docid names).map fun e' => e'.withMarks last bits := by
  have hop : (e.withMarks last bits).deleteOp docid = e.deleteOp docid := rfl
  rw [deleteFromRangeIndex, deleteFromRangeIndex, hop, Option.map_map]
  rfl

theorem table_update_withMarks (e : GammaEngine) (last : ℤ) (bits : BitmapManager)
    (fields : List Field) (docid : ℤ) :
    (e.withMarks last bits).table.update fields docid =
      (e.table.update fields docid).map fun t => { t with lastDocid := last } := by
  have hrow : (e.withMarks last bits).table.getRow docid = e.table.getRow docid := rfl
  have hschema : (e.withMarks last bits).table.schema = e.table.schema := rfl
  unfold Table.update
  rw [hrow, hschema]
  split
  · rfl
  · cases e.table.getRow docid with
    | none => rfl
    | some row =>
      simp only [Option.bind_some, Option.map_map]
      rfl

/-- `Update` is the same call with other marks. -/
theorem update_withMarks (e : GammaEngine) (last : ℤ) (bits : BitmapManager) (docid : ℤ)
    (doc : Doc) :
    (e.withMarks last bits).update docid doc =
      (e.update docid doc).map fun r => (r.1, r.2.withMarks last bits) := by
  have hvec : (e.withMarks last bits).vecManager = e.vecManager := rfl
  unfold update
  rw [hvec]
  cases VectorManager.update docid doc.vectorFields e.vecManager with
  | none => rfl
  | some r =>
    simp only [Option.bind_some]
    by_cases hret : r.1 = 0
    · have hdel := deleteFromRangeIndex_withMarks { e with vecManager := r.2 } last bits docid
        (doc.tableFields.map Field.name)
      simp only [hret, ne_eq, not_true_eq_false, if_false]
      change Option.bind (({ e with vecManager := r.2 } : GammaEngine).withMarks last bits
        |>.deleteFromRangeIndex docid _) _ = _
      rw [hdel]
      cases ({ e with vecManager := r.2 } : GammaEngine).deleteFromRangeIndex docid
          (doc.tableFields.map Field.name) with
      | none => rfl
      | some e' =>
        simp only [Option.map_some, Option.bind_some, table_update_withMarks, Option.map_map]
        rfl
    · simp only [hret, ne_eq, not_false_eq_true, if_true, Option.map_some]
      rfl

/-- What `Update` does not touch. -/
structure UpdateFrame (e e' : GammaEngine) : Prop where
  itemToDocid : e'.table.itemToDocid = e.table.itemToDocid
  schema : e'.table.schema = e.table.schema
  lastDocid : e'.table.lastDocid = e.table.lastDocid
  docidsBitmap : e'.docidsBitmap = e.docidsBitmap
  maxDocid : e'.maxDocid = e.maxDocid
  vectors : SameShape e.vecManager e'.vecManager

theorem deleteFromRangeIndex_eq {e e' : GammaEngine} {docid : ℤ} {names : List String}
    (h : e.deleteFromRangeIndex docid names = some e') :
    ∃ ops, e' = { e with fieldOps := e.fieldOps ++ ops } := by
  obtain ⟨ops, -, rfl⟩ := Option.map_eq_some_iff.mp h
  exact ⟨ops, rfl⟩

theorem table_update_eq {t t' : Table} {fields : List Field} {docid : ℤ}
    (h : t.update fields docid = some t') : ∃ rows, t' = { t with rows := rows } := by
  unfold Table.update at h
  split at h
  · cases h
    exact ⟨t.rows, rfl⟩
  · obtain ⟨row, -, hrow⟩ := Option.bind_eq_some_iff.mp h
    obtain ⟨row', -, rfl⟩ := Option.map_eq_some_iff.mp hrow
    exact ⟨_, rfl⟩

/-- The code of `Update` is that of the vector store, and a refused update stops there. -/
theorem update_cases {e : GammaEngine} {docid : ℤ} {doc : Doc} {r : ℤ × GammaEngine}
    (h : e.update docid doc = some r) :
    ∃ m, VectorManager.update docid doc.vectorFields e.vecManager = some (r.1, m) ∧
      (r.1 ≠ 0 ∧ r.2 = { e with vecManager := m } ∨
        r.1 = 0 ∧ ∃ rows ops, e.table.update doc.tableFields docid =
            some { e.table with rows := rows } ∧
          r.2 = { e with
            vecManager := m
            table := { e.table with rows := rows }
            fieldOps := e.fieldOps ++ ops }) := by
  unfold update at h
  obtain ⟨vec, hvec, hrest⟩ := Option.bind_eq_some_iff.mp h
  by_cases hret : vec.1 = 0
  · simp only [hret, ne_eq, not_true_eq_false, if_false] at hrest
    obtain ⟨e₁, he₁, htab⟩ := Option.bind_eq_some_iff.mp hrest
    obtain ⟨ops, rfl⟩ := deleteFromRangeIndex_eq he₁
    obtain ⟨t, ht, rfl⟩ := Option.map_eq_some_iff.mp htab
    obtain ⟨rows, rfl⟩ := table_update_eq ht
    refine ⟨vec.2, by rw [hvec, ← hret], .inr ⟨rfl, rows,
      ops ++ doc.tableFields.map fun field => .add docid field.name, ht, ?_⟩⟩
    simp only [addToRangeIndex, List.append_assoc]
  · simp only [hret, ne_eq, not_false_eq_true, if_true] at hrest
    cases hrest
    exact ⟨vec.2, hvec, .inl ⟨hret, rfl⟩⟩

theorem update_frame {e : GammaEngine} {docid : ℤ} {doc : Doc} {r : ℤ × GammaEngine}
    (h : e.update docid doc = some r) : UpdateFrame e r.2 := by
  obtain ⟨m, hvec, ⟨-, heq⟩ | ⟨-, rows, ops, -, heq⟩⟩ := update_cases h <;>
  · rw [heq]
    exact ⟨rfl, rfl, rfl, rfl, rfl, VectorManager.update_sameShape hvec⟩

/-! ### A run of new documents -/

/-- The stores after the vectors of a run. -/
def storeAll (docs : List Doc) (m : VectorManager) : VectorManager :=
  docs.foldl (fun m doc => (addToStore doc.vectorFields m).2) m

/-- The calls into the range index for a run. -/
def addOps (docs : List Doc) (docid : ℕ) : List FieldOperate :=
  (docs.zipIdx docid).flatMap fun p =>
    p.1.tableFields.map fun field => .add (p.2 : ℤ) field.name

section Keys

variable (keyId : Bytes → ℤ)

/-- The engine after a run of new documents with these rows. -/
def added (docs : List Doc) (rows : List Row) (e : GammaEngine) : GammaEngine :=
  { e with
    table := { e.table with
      itemToDocid := enterKeys keyId docs e.maxDocid e.table.itemToDocid
      rows := e.table.rows ++ rows }
    vecManager := storeAll docs e.vecManager
    fieldOps := e.fieldOps ++ addOps docs e.maxDocid
    maxDocid := e.maxDocid + docs.length }

theorem added_nil (e : GammaEngine) : added keyId [] [] e = e := by
  simp [added, enterKeys, storeAll, addOps]

theorem added_withMarks (docs : List Doc) (rows : List Row) (e : GammaEngine) (last : ℤ)
    (bits : BitmapManager) :
    added keyId docs rows (e.withMarks last bits) = (added keyId docs rows e).withMarks last bits :=
  rfl

/-- A run that is one document longer. -/
theorem added_append (docs : List Doc) (rows : List Row) (doc : Doc) (row : Row)
    (e : GammaEngine) :
    added keyId (docs ++ [doc]) (rows ++ [row]) e = added keyId [doc] [row] (added keyId docs rows e) := by
  simp [added, enterKeys_append, enterKeys, storeAll, addOps, List.zipIdx_append, Nat.add_assoc]

theorem storeAll_sameShape (docs : List Doc) (m : VectorManager) :
    SameShape m (storeAll docs m) := by
  induction docs generalizing m with
  | nil => exact SameShape.refl m
  | cons doc docs ih => exact (addToStore_sameShape doc.vectorFields m).trans (ih _)

theorem added_sameKind (docs : List Doc) (rows : List Row) (e : GammaEngine) :
    SameKind e (added keyId docs rows e) :=
  ⟨rfl, storeAll_sameShape docs e.vecManager⟩

/-- **A new document, added alone.** -/
theorem addOrUpdate_new {e : GammaEngine} {doc : Doc}
    (hnew : e.table.getDocIDByKey keyId doc.key = none) (hdoc : Addable e doc) :
    e.addOrUpdate keyId doc = (rowOf e.table.schema doc).map fun row =>
      (0, (added keyId [doc] [row] e).withMarks e.maxDocid
        (e.docidsBitmap.setMaxID (e.maxDocid + 1))) := by
  have hstored : (addToStore doc.vectorFields e.vecManager).1 = 0 := addToStore_exact hdoc.exact
  rw [addOrUpdate, hnew, hdoc.complete.add_eq keyId hdoc.key]
  cases rowOf e.table.schema doc with
  | none => rfl
  | some row =>
    simp [addToRangeIndex, hstored, added, withMarks, enterKeys, storeAll, addOps]

/-- Adding or updating changes neither the schema nor the vector fields. -/
theorem addOrUpdate_sameKind {e : GammaEngine} {doc : Doc} {r : ℤ × GammaEngine}
    (hr : e.addOrUpdate keyId doc = some r) : SameKind e r.2 := by
  unfold addOrUpdate at hr
  split at hr
  · obtain ⟨u, hu, rfl⟩ := Option.map_eq_some_iff.mp hr
    exact ⟨(update_frame hu).schema, (update_frame hu).vectors⟩
  · obtain ⟨a, ha, rfl⟩ := Option.map_eq_some_iff.mp hr
    have hschema : a.2.schema = e.table.schema := by
      unfold Table.add at ha
      split at ha
      · cases ha
        rfl
      · split at ha
        · cases ha
          rfl
        · obtain ⟨row, -, rfl⟩ := Option.map_eq_some_iff.mp ha
          rfl
    split
    · exact ⟨hschema, SameShape.refl _⟩
    · dsimp only
      split <;> exact ⟨hschema, addToStore_sameShape _ _⟩

theorem storeDocs_eq {docs : List Doc} {r : RunState}
    (h : ∀ doc ∈ docs, Exact r.engine.vecManager doc) (docid i : ℕ) :
    storeDocs docs docid i r =
      { engine := { r.engine with
          vecManager := storeAll docs r.engine.vecManager
          fieldOps := r.engine.fieldOps ++ addOps docs docid }
        result := r.result
        accepted := r.accepted ++ docs } := by
  induction docs generalizing docid i r with
  | nil => simp [storeDocs, storeAll, addOps]
  | cons doc docs ih =>
    have hstored : (addToStore doc.vectorFields r.engine.vecManager).1 = 0 :=
      addToStore_exact (h doc List.mem_cons_self)
    have hrest : ∀ d ∈ docs, Exact (addToStore doc.vectorFields r.engine.vecManager).2 d :=
      fun d hd => (addToStore_sameShape _ _).exact (h d (List.mem_cons_of_mem doc hd))
    rw [storeDocs]
    simp only [addToRangeIndex, hstored, if_true]
    rw [ih hrest]
    simp [storeAll, addOps]

/-- `last_docid_` after a run. -/
def runLast (docs : List Doc) (e : GammaEngine) : ℤ :=
  if docs = [] then e.table.lastDocid else e.maxDocid + docs.length

/-- The bitmap after a run. -/
def runBits (docs : List Doc) (e : GammaEngine) : BitmapManager :=
  if docs = [] then e.docidsBitmap else e.docidsBitmap.setMaxID (e.maxDocid + docs.length)

theorem grows_runBits (docs : List Doc) (e : GammaEngine) :
    e.docidsBitmap.Grows (runBits docs e) := by
  unfold runBits
  split
  · exact .refl _
  · exact .setMaxID _ _

/-- **A run of new documents, added together.** -/
theorem batchAdd_eq {docs : List Doc} {r : RunState} (h : ∀ doc ∈ docs, Addable r.engine doc)
    (startId : ℕ) :
    batchAdd keyId startId docs r = (docs.mapM (rowOf r.engine.table.schema)).map fun rows =>
      { engine := (added keyId docs rows r.engine).withMarks (runLast docs r.engine)
          (runBits docs r.engine)
        result := r.result
        accepted := r.accepted ++ docs } := by
  by_cases hdocs : docs = []
  · subst hdocs
    simp [batchAdd, added_nil, runLast, runBits, withMarks]
  · simp only [batchAdd, if_neg hdocs]
    rw [Table.batchAdd_eq keyId (fun d hd => (h d hd).complete) (fun d hd => (h d hd).key)]
    cases docs.mapM (rowOf r.engine.table.schema) with
    | none => rfl
    | some rows =>
      have hstore := fun t : Table =>
        storeDocs_eq (r := { r with engine := { r.engine with table := t } })
          (fun d hd => (h d hd).exact) r.engine.maxDocid startId
      simp only [Option.map_some, hstore]
      simp [added, withMarks, runLast, runBits, hdocs]

/-! ### The simulation -/

/-- `AddOrUpdateDocs` in the middle of its loop, and the engine that was given the same documents
one by one and accepted `acc`: they differ by the pending run and the marks. -/
structure Sim (K : Set Bytes) (st : BatchState) (e : GammaEngine) (acc : List Doc) : Prop where
  pending_addable : ∀ doc ∈ st.pending, Addable st.engine doc
  pending_seen : ∀ doc ∈ st.pending, doc.key ∈ st.seen
  seen_keys : ∀ key ∈ st.seen, key ∈ K
  seen_found : ∀ key ∈ st.seen, e.table.getDocIDByKey keyId key ≠ none
  accepted : st.accepted ++ st.pending = acc
  run : ∃ rows last bits, st.pending.mapM (rowOf st.engine.table.schema) = some rows ∧
    e = (added keyId st.pending rows st.engine).withMarks last bits

variable {keyId}

theorem sim_init (K : Set Bytes) (e : GammaEngine) (result : BatchResult) :
    Sim keyId K (batchInit e result) e [] where
  pending_addable := fun _ h => nomatch h
  pending_seen := fun _ h => nomatch h
  seen_keys := fun _ h => nomatch h
  seen_found := fun _ h => nomatch h
  accepted := rfl
  run := ⟨[], e.table.lastDocid, e.docidsBitmap, rfl, by rw [batchInit, added_nil]; rfl⟩

namespace Sim

variable {K : Set Bytes} {st : BatchState} {e : GammaEngine} {acc : List Doc}

theorem sameKind (h : Sim keyId K st e acc) : SameKind st.engine e := by
  obtain ⟨rows, last, bits, -, rfl⟩ := h.run
  exact ⟨rfl, (added_sameKind keyId st.pending rows st.engine).vectors⟩

/-- A key that had a document before the run still has it. -/
theorem found_of_found (h : Sim keyId K st e acc) {key : Bytes} {d : ℕ}
    (hd : st.engine.table.getDocIDByKey keyId key = some d) :
    e.table.getDocIDByKey keyId key = some d := by
  obtain ⟨rows, last, bits, -, rfl⟩ := h.run
  exact enterKeys_of_some keyId st.pending st.engine.maxDocid hd

/-- A key without a document that was not seen has none after the run either. -/
theorem not_found (h : Sim keyId K st e acc) (hinj : Set.InjOn keyId K) {key : Bytes}
    (hkey : key ∈ K) (hnone : st.engine.table.getDocIDByKey keyId key = none)
    (hseen : key ∉ st.seen) : e.table.getDocIDByKey keyId key = none := by
  obtain ⟨rows, last, bits, -, rfl⟩ := h.run
  refine enterKeys_eq_none keyId st.engine.maxDocid hnone fun doc hdoc heq => ?_
  have hmem := h.pending_seen doc hdoc
  have hsame : doc.key = key := hinj (h.seen_keys _ hmem) hkey heq
  exact hseen (hsame ▸ hmem)

/-- Flushing the run reaches the other engine, up to the marks. -/
theorem flush_eq (h : Sim keyId K st e acc) : ∃ last,
    flush keyId st = some { st with
      engine := e.withMarks last (runBits st.pending st.engine)
      accepted := acc
      startId := st.startId + st.pending.length
      pending := [] } := by
  obtain ⟨rows, last, bits, hrows, rfl⟩ := h.run
  refine ⟨runLast st.pending st.engine, ?_⟩
  rw [flush, batchAdd_eq keyId h.pending_addable, hrows, Option.map_some, Option.map_some,
    h.accepted]
  rfl

/-- **A new document** joins the run. -/
theorem step_new (h : Sim keyId K st e acc) {doc : Doc} {r : ℤ × GammaEngine} (unset : Bool)
    (hkey : doc.key ∈ K) (hnew : e.table.getDocIDByKey keyId doc.key = none)
    (hdoc : Addable e doc) (hr : e.addOrUpdate keyId doc = some r) :
    r.1 = 0 ∧ r.2.docidsBitmap = e.docidsBitmap.setMaxID (e.maxDocid + 1) ∧
      batchStep keyId unset doc st =
        some { st with seen := doc.key :: st.seen, pending := st.pending ++ [doc] } ∧
      Sim keyId K { st with seen := doc.key :: st.seen, pending := st.pending ++ [doc] } r.2
        (acc ++ [doc]) := by
  have hseen : doc.key ∉ st.seen := fun hmem => h.seen_found _ hmem hnew
  have hnone : st.engine.table.getDocIDByKey keyId doc.key = none := by
    cases hfound : st.engine.table.getDocIDByKey keyId doc.key with
    | none => rfl
    | some d =>
      rw [h.found_of_found hfound] at hnew
      cases hnew
  have hkind := h.sameKind
  rw [addOrUpdate_new keyId hnew hdoc] at hr
  obtain ⟨row, hrow, rfl⟩ := Option.map_eq_some_iff.mp hr
  obtain ⟨rows, last, bits, hrows, he⟩ := h.run
  refine ⟨rfl, rfl, ?_, ?_⟩
  · rw [batchStep]
    exact if_pos ⟨hnone, hseen⟩
  · constructor
    · intro d hd
      cases List.mem_append.mp hd with
      | inl hd => exact h.pending_addable d hd
      | inr hd =>
        rw [List.mem_singleton.mp hd]
        exact hkind.symm.addable hdoc
    · intro d hd
      cases List.mem_append.mp hd with
      | inl hd => exact List.mem_cons_of_mem _ (h.pending_seen d hd)
      | inr hd =>
        rw [List.mem_singleton.mp hd]
        exact List.mem_cons_self
    · intro k hk
      cases List.mem_cons.mp hk with
      | inl heq => rw [heq]; exact hkey
      | inr hk => exact h.seen_keys k hk
    · intro k hk hnot
      obtain ⟨hne, hold⟩ := insertKey_eq_none (m := e.table.itemToDocid) hnot
      cases List.mem_cons.mp hk with
      | inl heq => exact absurd (congrArg keyId heq) hne
      | inr hk => exact absurd hold (h.seen_found k hk)
    · rw [← List.append_assoc, h.accepted]
    · refine ⟨rows ++ [row], e.maxDocid, e.docidsBitmap.setMaxID (e.maxDocid + 1), ?_, ?_⟩
      · have hrow' : rowOf st.engine.table.schema doc = some row := by
          rw [← hrow, hkind.schema]
        simp [hrows, hrow']
      · have hone : added keyId [doc] [row] e =
            (added keyId (st.pending ++ [doc]) (rows ++ [row]) st.engine).withMarks last bits := by
          rw [added_append, he, added_withMarks]
        rw [hone]
        rfl

/-- A key with a document had it before the run, or it was seen. -/
theorem found_or_seen (h : Sim keyId K st e acc) (hinj : Set.InjOn keyId K) {key : Bytes} (hkey : key ∈ K)
    {d : ℕ} (hd : e.table.getDocIDByKey keyId key = some d) :
    ¬ (st.engine.table.getDocIDByKey keyId key = none ∧ key ∉ st.seen) := by
  intro hnew
  rw [h.not_found hinj hkey hnew.1 hnew.2] at hd
  cases hd

/-- Once the run is entered, such a key leads to its document. -/
theorem lookupAgain_eq (h : Sim keyId K st e acc) (hinj : Set.InjOn keyId K) {key : Bytes} (hkey : key ∈ K)
    {d : ℕ} (hd : e.table.getDocIDByKey keyId key = some d) {st' : BatchState}
    (hseen : st'.seen = st.seen) (hmap : st'.engine.table.itemToDocid = e.table.itemToDocid) :
    lookupAgain keyId st' key (st.engine.table.getDocIDByKey keyId key) = some d := by
  have hagain : st'.engine.table.getDocIDByKey keyId key = some d := by
    rw [getDocIDByKey, hmap, ← hd, getDocIDByKey]
  rw [lookupAgain, hseen, hagain]
  by_cases hmem : key ∈ st.seen
  · rw [if_pos hmem]
    rfl
  · rw [if_neg hmem]
    cases hold : st.engine.table.getDocIDByKey keyId key with
    | none => exact absurd ⟨hold, hmem⟩ (h.found_or_seen hinj hkey hd)
    | some d' => rw [← hd, h.found_of_found hold]

/-- **A document whose key exists** flushes the run and updates. -/
theorem step_existing (h : Sim keyId K st e acc) (hinj : Set.InjOn keyId K) {doc : Doc}
    {r : ℤ × GammaEngine} {d : ℕ} (unset : Bool) (hkey : doc.key ∈ K)
    (hd : e.table.getDocIDByKey keyId doc.key = some d) (hr : e.update d doc = some r) :
    ∃ last st', batchStep keyId unset doc st = some st' ∧
      st'.engine = (if r.1 = 0 ∧ unset then
        (r.2.withMarks last (runBits st.pending st.engine)).undelete d
        else r.2.withMarks last (runBits st.pending st.engine)) ∧
      st'.updates = st.updates ++ [((d : ℤ), e.maxDocid)] ∧
      Sim keyId K st' r.2 (if r.1 = 0 then acc ++ [doc] else acc) := by
  obtain ⟨last, hflush⟩ := h.flush_eq
  have hmarks : ∃ b, (if r.1 = 0 ∧ unset then
      (r.2.withMarks last (runBits st.pending st.engine)).undelete d
      else r.2.withMarks last (runBits st.pending st.engine)) = r.2.withMarks last b := by
    unfold undelete
    split
    · split
      · exact ⟨_, rfl⟩
      · exact ⟨_, rfl⟩
    · exact ⟨_, rfl⟩
  have hkeys : r.2.table.itemToDocid = e.table.itemToDocid := (update_frame hr).itemToDocid
  have hupdate := update_withMarks e last (runBits st.pending st.engine) d doc
  rw [hr, Option.map_some] at hupdate
  refine ⟨last, {
    engine := if r.1 = 0 ∧ unset then
        (r.2.withMarks last (runBits st.pending st.engine)).undelete d
      else r.2.withMarks last (runBits st.pending st.engine)
    result := st.result
    accepted := if r.1 = 0 then acc ++ [doc] else acc
    seen := if doc.key ∈ st.seen then st.seen else doc.key :: st.seen
    startId := st.startId + st.pending.length + 1
    pending := []
    updates := st.updates ++ [((d : ℤ), e.maxDocid)] }, ?_, rfl, rfl, ?_⟩
  · have hagain : lookupAgain keyId { st with
        engine := e.withMarks last (runBits st.pending st.engine)
        accepted := acc
        startId := st.startId + st.pending.length
        pending := [] } doc.key (st.engine.table.getDocIDByKey keyId doc.key) = some d :=
      h.lookupAgain_eq hinj hkey hd rfl rfl
    rw [batchStep, if_neg (h.found_or_seen hinj hkey hd), hflush, Option.bind_some, hagain, batchUpdate]
    simp only [docidOf]
    rw [hupdate]
    rfl
  · obtain ⟨b, hb⟩ := hmarks
    constructor
    · exact fun _ hmem => absurd hmem List.not_mem_nil
    · exact fun _ hmem => absurd hmem List.not_mem_nil
    · intro k hk
      by_cases hseen : doc.key ∈ st.seen
      · rw [if_pos hseen] at hk
        exact h.seen_keys k hk
      · rw [if_neg hseen] at hk
        cases List.mem_cons.mp hk with
        | inl heq => rw [heq]; exact hkey
        | inr hk => exact h.seen_keys k hk
    · intro k hk
      have hsame : r.2.table.getDocIDByKey keyId k = e.table.getDocIDByKey keyId k := by
        rw [getDocIDByKey, hkeys, getDocIDByKey]
      rw [hsame]
      by_cases hseen : doc.key ∈ st.seen
      · rw [if_pos hseen] at hk
        exact h.seen_found k hk
      · rw [if_neg hseen] at hk
        cases List.mem_cons.mp hk with
        | inl heq => simp [heq, hd]
        | inr hk => exact h.seen_found k hk
    · exact List.append_nil _
    · refine ⟨[], r.2.table.lastDocid, r.2.docidsBitmap, rfl, ?_⟩
      simp only [hb, added_nil]
      rfl

end Sim

end Keys

/-! ### A small engine -/

/-- A table with the key field only. -/
def keySchema : Schema where
  attrs := [⟨"_id", .string, true⟩]
  names_nodup := by decide
  key_mem := by decide

theorem wordSize_pos : 0 < 4 * 1 := by decide

/-- Vectors of four bytes. -/
def wordVector : VectorInfo := ⟨"v", 1, 4, .mmap, true, wordSize_pos⟩

/-- A document with a key of one byte. -/
def byteDoc (key : UInt8) (vec : Bytes) : Doc where
  key := [key]
  tableFields := [⟨"_id", [key], .string⟩]
  vectorFields := [⟨"v", vec, .vector⟩]

/-- A key function that tells keys of one byte apart. -/
def firstByte (key : Bytes) : ℤ := (key.headD 0).toNat

/-- `byteDoc` gives what a table with the key field and one vector field wants. -/
theorem byteDoc_addable {e : GammaEngine} (hschema : e.table.schema = keySchema)
    (hsize : (e.vecManager.raw "v").vectorByteSize = 4) (key : UInt8) {vec : Bytes}
    (hvec : vec.length = 4) : Addable e (byteDoc key vec) where
  complete := by
    rw [hschema]
    exact List.Perm.refl _
  key := List.cons_ne_nil _ _
  exact := by
    intro field hf _
    rw [List.mem_singleton.mp hf]
    exact hvec.trans hsize.symm

theorem firstByte_injOn : Set.InjOn firstByte { key | key.length = 1 } := by
  intro key hkey key' hkey' heq
  obtain ⟨a, rfl⟩ := List.length_eq_one_iff.mp hkey
  obtain ⟨b, rfl⟩ := List.length_eq_one_iff.mp hkey'
  exact congrArg (fun x => [x]) (UInt8.toNat_inj.mp (Int.ofNat_inj.mp heq))

end AwaDB.GammaEngine
