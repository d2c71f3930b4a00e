import AwaDB.Engine.Batch

/-!
# Engine states that can be reached

`Op` lists the calls that change an engine, and `Bounded` is what holds after any sequence of them,
whatever the documents: no key leads past `max_docid_` or `last_docid_`, the vector stores are
well formed, and the bitmap has no stray bits. A key can lead *to* `max_docid_`: a document whose
vectors are refused leaves its key and its row behind.
-/

namespace AwaDB.GammaEngine

open Table

/-- The calls that change an engine. -/
inductive Op where
  | addNewField (info : FieldInfo)
  | addOrUpdate (doc : Doc)
  | addOrUpdateDocs (docs : List Doc) (result : BatchResult)
  | addOrUpdateDocsWithWords (docs : List Doc) (result : BatchResult)
  | delete (key : Bytes)
  | delDocByQuery (docids : List ℕ)
  | delDocByFilter (docids : List ℕ)

section Keys

variable (keyId : Bytes → ℤ)

/-- The engine after a call. -/
def stepOp : Op → GammaEngine → Option GammaEngine
  | .addNewField info, e => some { e with table := e.table.addNewField info }
  | .addOrUpdate doc, e => (e.addOrUpdate keyId doc).map Prod.snd
  | .addOrUpdateDocs docs result, e =>
    (e.addOrUpdateDocs keyId docs result).map fun st => st.engine
  | .addOrUpdateDocsWithWords docs result, e =>
    (e.addOrUpdateDocsWithWords keyId docs result).map fun st => st.engine
  | .delete key, e => (e.delete keyId key).map Prod.snd
  | .delDocByQuery docids, e => some (e.delDocByQuery docids)
  | .delDocByFilter docids, e => e.delDocByFilter keyId docids

end Keys

/-- Keys lead to documents that were added, and the vector stores and the bitmap are sound. -/
structure Bounded (e : GammaEngine) : Prop where
  vectors : e.vecManager.WellFormed
  keys : ∀ k d, e.table.itemToDocid k = some d → d ≤ e.maxDocid ∧ (d : ℤ) ≤ e.table.lastDocid
  clean : e.docidsBitmap.Clean

namespace Bounded

variable {keyId : Bytes → ℤ} {e : GammaEngine}

theorem create (schema : Schema) (infos : List VectorInfo) :
    (GammaEngine.create schema infos).Bounded where
  vectors := VectorManager.wellFormed_create infos
  keys := fun _ _ h => nomatch h
  clean := (BitmapManager.clean_init initBitmapSize).dump 0 0

/-- Steps that touch neither the keys nor their bounds. -/
theorem congr (h : e.Bounded) {e' : GammaEngine}
    (hkeys : e'.table.itemToDocid = e.table.itemToDocid)
    (hlast : e'.table.lastDocid = e.table.lastDocid) (hmax : e'.maxDocid = e.maxDocid)
    (hvec : e'.vecManager.WellFormed) (hclean : e'.docidsBitmap.Clean) : e'.Bounded where
  vectors := hvec
  keys := by
    rw [hkeys, hlast, hmax]
    exact h.keys
  clean := hclean

theorem update (h : e.Bounded) {docid : ℤ} {doc : Doc} {r : ℤ × GammaEngine}
    (hr : e.update docid doc = some r) : r.2.Bounded := by
  have hframe := update_frame hr
  refine h.congr hframe.itemToDocid hframe.lastDocid hframe.maxDocid ?_ ?_
  · obtain ⟨m, hm, ⟨-, heq⟩ | ⟨-, rows, ops, -, heq⟩⟩ := update_cases hr <;>
    · rw [heq]
      exact h.vectors.update hm
  · rw [hframe.docidsBitmap]
    exact h.clean

theorem markDeleted (h : e.Bounded) (docid : ℕ) : (e.markDeleted docid).Bounded :=
  h.congr rfl rfl rfl h.vectors ((h.clean.write docid true).dump docid 1)

theorem undelete (h : e.Bounded) (docid : ℤ) : (e.undelete docid).Bounded := by
  unfold GammaEngine.undelete
  split
  · exact h.congr rfl rfl rfl h.vectors ((h.clean.write docid.toNat false).dump docid.toNat 1)
  · exact h

/-- A key entered for the next document, by `Table::Add`. -/
theorem addOrUpdate (h : e.Bounded) {doc : Doc} {r : ℤ × GammaEngine}
    (hr : e.addOrUpdate keyId doc = some r) : r.2.Bounded := by
  unfold GammaEngine.addOrUpdate at hr
  split at hr
  · obtain ⟨u, hu, rfl⟩ := Option.map_eq_some_iff.mp hr
    have hbound := h.update hu
    exact hbound
  · obtain ⟨a, ha, rfl⟩ := Option.map_eq_some_iff.mp hr
    unfold Table.add at ha
    split at ha
    · cases ha
      exact h
    · split at ha
      · cases ha
        exact h
      · obtain ⟨row, -, rfl⟩ := Option.map_eq_some_iff.mp ha
        have hkeys : ∀ k d, insertKey (keyId doc.key) e.maxDocid e.table.itemToDocid k = some d →
            d ≤ e.maxDocid := by
          intro k d hd
          cases insertKey_eq_some hd with
          | inl heq => exact Nat.le_of_eq heq
          | inr hold => exact (h.keys k d hold).1
        simp only [ne_eq, not_true_eq_false, if_false]
        split
        · exact ⟨h.vectors.addToStore _,
            fun k d hd => ⟨hkeys k d hd, Int.ofNat_le.mpr (hkeys k d hd)⟩, h.clean⟩
        · exact ⟨h.vectors.addToStore _, fun k d hd => ⟨Nat.le_succ_of_le (hkeys k d hd),
            Int.ofNat_le.mpr (hkeys k d hd)⟩, (h.clean.setMaxID _).1⟩

theorem addNewField_frame (t : Table) (info : FieldInfo) :
    (t.addNewField info).itemToDocid = t.itemToDocid ∧
      (t.addNewField info).lastDocid = t.lastDocid := by
  unfold addNewField
  split
  · exact ⟨rfl, rfl⟩
  · split <;> exact ⟨rfl, rfl⟩

theorem insertKeys_lt {docs : List Doc} {i docid : ℕ} {m : ℤ → Option ℕ} {result : BatchResult}
    {k : ℤ} {d : ℕ} (h : (insertKeys keyId docs i docid m result).1 k = some d) :
    d < docid + i + docs.length ∨ m k = some d := by
  induction docs generalizing i m result with
  | nil => exact .inr h
  | cons doc docs ih =>
    rw [insertKeys] at h
    rw [List.length_cons]
    split at h
    · cases ih h with
      | inl hlt => exact .inl (by omega)
      | inr hold => exact .inr hold
    · cases ih h with
      | inl hlt => exact .inl (by omega)
      | inr hold =>
        cases insertKey_eq_some hold with
        | inl heq => exact .inl (by omega)
        | inr hold => exact .inr hold

theorem addRows_keys {docs : List Doc} {docid : ℕ} {t t' : Table}
    (h : addRows docs docid t = some t') : t'.itemToDocid = t.itemToDocid := by
  induction docs generalizing docid t with
  | nil =>
    cases h
    rfl
  | cons doc docs ih =>
    obtain ⟨u, hu, hrest⟩ := Option.bind_eq_some_iff.mp h
    obtain ⟨row, -, rfl⟩ := Option.map_eq_some_iff.mp hu
    rw [ih hrest]

theorem storeDocs_frame (docs : List Doc) (docid i : ℕ) (r : RunState) :
    (storeDocs docs docid i r).engine.table = r.engine.table ∧
      (storeDocs docs docid i r).engine.docidsBitmap = r.engine.docidsBitmap := by
  induction docs generalizing docid i r with
  | nil => exact ⟨rfl, rfl⟩
  | cons doc docs ih => exact ih _ _ _

theorem storeDocs_vectors (docs : List Doc) (docid i : ℕ) {r : RunState}
    (h : r.engine.vecManager.WellFormed) :
    (storeDocs docs docid i r).engine.vecManager.WellFormed := by
  induction docs generalizing docid i r with
  | nil => exact h
  | cons doc docs ih => exact ih _ _ (h.addToStore doc.vectorFields)

theorem batchAdd {r r' : RunState} (h : r.engine.Bounded) {startId : ℕ} {docs : List Doc}
    (hr : GammaEngine.batchAdd keyId startId docs r = some r') : r'.engine.Bounded := by
  unfold GammaEngine.batchAdd at hr
  split at hr
  · cases hr
    exact h
  · obtain ⟨added, hadded, rfl⟩ := Option.map_eq_some_iff.mp hr
    obtain ⟨t, ht, rfl⟩ := Option.map_eq_some_iff.mp hadded
    have hkeys := addRows_keys ht
    constructor
    · exact storeDocs_vectors _ _ _ h.vectors
    · intro k d hd
      simp only [(storeDocs_frame _ _ _ _).1] at hd ⊢
      rw [hkeys] at hd
      simp only [List.length_map]
      cases insertKeys_lt hd with
      | inl hlt => omega
      | inr hold =>
        have := h.keys k d hold
        omega
    · simp only [(storeDocs_frame _ _ _ _).2]
      exact (h.clean.setMaxID _).1

theorem flush {st st' : BatchState} (h : st.engine.Bounded)
    (hst : GammaEngine.flush keyId st = some st') : st'.engine.Bounded := by
  obtain ⟨r, hr, rfl⟩ := Option.map_eq_some_iff.mp hst
  exact h.batchAdd hr

theorem batchStep {unset : Bool} {doc : Doc} {st st' : BatchState} (h : st.engine.Bounded)
    (hst : GammaEngine.batchStep keyId unset doc st = some st') : st'.engine.Bounded := by
  unfold GammaEngine.batchStep at hst
  simp only at hst
  split at hst
  · cases hst
    exact h
  · obtain ⟨f, hf, hu⟩ := Option.bind_eq_some_iff.mp hst
    obtain ⟨r, hr, rfl⟩ := Option.map_eq_some_iff.mp hu
    have hr' := (h.flush hf).update hr
    show (if _ then _ else _ : GammaEngine).Bounded
    split
    · exact hr'.undelete _
    · exact hr'

theorem addDocs (h : e.Bounded) {unset : Bool} {docs : List Doc} {result : BatchResult}
    {st : BatchState} (hst : GammaEngine.addDocs keyId unset e docs result = some st) :
    st.engine.Bounded := by
  obtain ⟨st', hst', hflush⟩ := Option.bind_eq_some_iff.mp hst
  have hloop : st'.engine.Bounded :=
    Lib.runOps_invariant (P := fun st : BatchState => st.engine.Bounded)
      (fun _ _ _ hs hstep => hs.batchStep hstep) h hst'
  exact hloop.flush hflush

theorem deleteFromRangeIndex (h : e.Bounded) {docid : ℤ} {names : List String} {e' : GammaEngine}
    (he : e.deleteFromRangeIndex docid names = some e') : e'.Bounded := by
  obtain ⟨ops, rfl⟩ := deleteFromRangeIndex_eq he
  exact h.congr rfl rfl rfl h.vectors h.clean

theorem deleteKey (h : e.Bounded) (key : Bytes) :
    ({ e with table := e.table.delete keyId key } : GammaEngine).Bounded where
  vectors := h.vectors
  keys := by
    intro k d hd
    exact h.keys k d (Table.itemToDocid_of_delete hd)
  clean := h.clean

theorem delete (h : e.Bounded) {key : Bytes} {r : ℤ × GammaEngine}
    (hr : e.delete keyId key = some r) : r.2.Bounded := by
  unfold GammaEngine.delete at hr
  split at hr
  · cases hr
    exact h
  · split at hr
    · cases hr
      exact h
    · obtain ⟨e', he', rfl⟩ := Option.map_eq_some_iff.mp hr
      exact ((h.markDeleted _).deleteFromRangeIndex he').deleteKey key

theorem delDocByQuery (h : e.Bounded) (docids : List ℕ) : (e.delDocByQuery docids).Bounded := by
  unfold GammaEngine.delDocByQuery
  induction docids generalizing e with
  | nil => exact h
  | cons docid docids ih =>
    rw [List.foldl_cons]
    split
    · exact ih h
    · exact ih (h.markDeleted docid)

theorem deleteFound (h : e.Bounded) {docid : ℕ} {e' : GammaEngine}
    (he : GammaEngine.deleteFound keyId docid e = some e') : e'.Bounded := by
  unfold GammaEngine.deleteFound at he
  split at he
  · cases he
    exact h
  · split at he
    · cases he
      exact h
    · obtain ⟨e₁, he₁, rfl⟩ := Option.map_eq_some_iff.mp he
      exact ((h.markDeleted docid).deleteFromRangeIndex he₁).deleteKey _

/-- Every call keeps the bounds. -/
theorem step (h : e.Bounded) {op : Op} {e' : GammaEngine} (he : stepOp keyId op e = some e') :
    e'.Bounded := by
  cases op with
  | addNewField info =>
    cases he
    exact h.congr (addNewField_frame _ info).1 (addNewField_frame _ info).2 rfl h.vectors
      h.clean
  | addOrUpdate doc =>
    obtain ⟨r, hr, rfl⟩ := Option.map_eq_some_iff.mp he
    exact h.addOrUpdate hr
  | addOrUpdateDocs docs result =>
    obtain ⟨st, hst, rfl⟩ := Option.map_eq_some_iff.mp he
    exact h.addDocs hst
  | addOrUpdateDocsWithWords docs result =>
    obtain ⟨st, hst, rfl⟩ := Option.map_eq_some_iff.mp he
    exact h.addDocs hst
  | delete key =>
    obtain ⟨r, hr, rfl⟩ := Option.map_eq_some_iff.mp he
    exact h.delete hr
  | delDocByQuery docids =>
    cases he
    exact h.delDocByQuery docids
  | delDocByFilter docids =>
    exact Lib.runOps_invariant (fun _ _ _ hs hstep => hs.deleteFound hstep) h he

end Bounded

/-- **The bounds hold in every reachable state.** -/
theorem bounded_of_run {keyId : Bytes → ℤ} {schema : Schema} {infos : List VectorInfo}
    {ops : List Op} {e : GammaEngine}
    (hrun : Lib.runOps (stepOp keyId) ops (create schema infos) = some e) : e.Bounded :=
  Lib.runOps_invariant (fun _ _ _ hs hstep => hs.step hstep) (Bounded.create schema infos) hrun

end AwaDB.GammaEngine
