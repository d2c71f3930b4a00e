import AwaDB.Engine.Restart
import Mathlib.Data.Finset.Card
import Mathlib.Data.Finset.Range

/-!
# The number of documents (`GammaEngine::GetDocsNum`)

`delete_num_` is kept beside the bitmap of deleted documents: each path that sets a bit counts it,
and `Load` counts the bits again. Clearing a bit is not counted.

* `Quiet` relates an engine to a later one whose bits are the same and whose new keys lead to new
  documents: all calls but the deletions;
* `CountsRight` is the condition on a call, and `docsNum_always` the theorem about runs.
-/

namespace AwaDB.GammaEngine

/-- The documents that are deleted. -/
def deletedDocids (e : GammaEngine) : Finset ℕ :=
  (Finset.range e.maxDocid).filter fun d => e.docidsBitmap.test d = true

/-- The documents that are not. -/
def liveDocids (e : GammaEngine) : Finset ℕ :=
  (Finset.range e.maxDocid).filter fun d => e.docidsBitmap.test d = false

/-- `GetDocsNum` is the number of documents whose bit is clear. -/
def DocsNumExact (e : GammaEngine) : Prop := e.getDocsNum = e.liveDocids.card

theorem card_liveDocids (e : GammaEngine) :
    e.liveDocids.card + e.deletedDocids.card = e.maxDocid := by
  have hsplit := Finset.card_filter_add_card_filter_not (s := Finset.range e.maxDocid)
    (fun d => e.docidsBitmap.test d = true)
  simp only [Bool.not_eq_true, Finset.card_range] at hsplit
  rw [liveDocids, deletedDocids, Nat.add_comm, hsplit]

/-- The counter is right, and so are the bitmap and its file. -/
structure Counted (e : GammaEngine) : Prop where
  deleteNum : e.deleteNum = e.deletedDocids.card
  clear_above : ∀ d, e.maxDocid ≤ d → e.docidsBitmap.test d = false
  clean : e.docidsBitmap.Clean
  dumped : e.docidsBitmap.Dumped

theorem Counted.docsNumExact {e : GammaEngine} (h : e.Counted) : e.DocsNumExact := by
  have hsplit := e.card_liveDocids
  rw [DocsNumExact, getDocsNum, h.deleteNum]
  omega

theorem counted_create (schema : Schema) (infos : List VectorInfo) :
    (create schema infos).Counted where
  deleteNum := rfl
  clear_above := fun d _ => by
    rw [create, BitmapManager.test_dump, BitmapManager.test_init]
  clean := (BitmapManager.clean_init initBitmapSize).dump 0 0
  dumped := by
    show (BitmapManager.init initBitmapSize).dump.Dumped
    exact BitmapManager.dumped_init (by decide) (by decide)

/-! ### Calls that delete nothing -/

/-- Nothing is deleted or made visible, and the keys that are new lead to new documents. -/
structure Quiet (e e' : GammaEngine) : Prop where
  deleteNum : e'.deleteNum = e.deleteNum
  maxDocid : e.maxDocid ≤ e'.maxDocid
  bitmap : e.docidsBitmap.Grows e'.docidsBitmap
  keys : ∀ k d, e'.table.itemToDocid k = some d →
    e.table.itemToDocid k = some d ∨ e.maxDocid ≤ d

namespace Quiet

theorem refl (e : GammaEngine) : Quiet e e :=
  ⟨rfl, Nat.le_refl _, .refl _, fun _ _ h => .inl h⟩

theorem trans {e₁ e₂ e₃ : GammaEngine} (h : Quiet e₁ e₂) (h' : Quiet e₂ e₃) : Quiet e₁ e₃ where
  deleteNum := h'.deleteNum.trans h.deleteNum
  maxDocid := Nat.le_trans h.maxDocid h'.maxDocid
  bitmap := h.bitmap.trans h'.bitmap
  keys := by
    intro k d hd
    cases h'.keys k d hd with
    | inl hd => exact h.keys k d hd
    | inr hle => exact .inr (Nat.le_trans h.maxDocid hle)

theorem counted {e e' : GammaEngine} (h : Quiet e e') (hc : e.Counted) : e'.Counted := by
  have htest := h.bitmap.test hc.clean
  have hset : e'.deletedDocids = e.deletedDocids := by
    ext d
    simp only [deletedDocids, Finset.mem_filter, Finset.mem_range, htest]
    refine and_congr_left fun hbit => ⟨fun _ => ?_, fun hlt => Nat.lt_of_lt_of_le hlt h.maxDocid⟩
    by_contra hge
    rw [hc.clear_above d (by omega)] at hbit
    cases hbit
  refine ⟨?_, fun d hd => ?_, h.bitmap.clean hc.clean, h.bitmap.dumped hc.dumped⟩
  · rw [h.deleteNum, hset, hc.deleteNum]
  · rw [htest]
    exact hc.clear_above d (Nat.le_trans h.maxDocid hd)

theorem update {e : GammaEngine} {docid : ℤ} {doc : Doc} {r : ℤ × GammaEngine}
    (hr : e.update docid doc = some r) : Quiet e r.2 := by
  obtain ⟨m, -, ⟨-, heq⟩ | ⟨-, rows, ops, -, heq⟩⟩ := update_cases hr <;>
  · rw [heq]
    exact ⟨rfl, Nat.le_refl _, .refl _, fun _ _ h => .inl h⟩

variable {keyId : Bytes → ℤ}

theorem addOrUpdate {e : GammaEngine} {doc : Doc} {r : ℤ × GammaEngine}
    (hr : e.addOrUpdate keyId doc = some r) : Quiet e r.2 := by
  unfold GammaEngine.addOrUpdate at hr
  split at hr
  · obtain ⟨u, hu, rfl⟩ := Option.map_eq_some_iff.mp hr
    have hquiet := update hu
    exact hquiet
  · obtain ⟨a, ha, rfl⟩ := Option.map_eq_some_iff.mp hr
    unfold Table.add at ha
    split at ha
    · cases ha
      exact refl e
    · split at ha
      · cases ha
        exact refl e
      · obtain ⟨row, -, rfl⟩ := Option.map_eq_some_iff.mp ha
        have hkeys : ∀ k d, Table.insertKey (keyId doc.key) e.maxDocid e.table.itemToDocid k =
            some d → e.table.itemToDocid k = some d ∨ e.maxDocid ≤ d := by
          intro k d hd
          cases Table.insertKey_eq_some hd with
          | inl heq => exact .inr (Nat.le_of_eq heq.symm)
          | inr hold => exact .inl hold
        simp only [ne_eq, not_true_eq_false, if_false]
        split
        · exact ⟨rfl, Nat.le_refl _, .refl _, hkeys⟩
        · exact ⟨rfl, Nat.le_succ _, .setMaxID _ _, hkeys⟩

theorem storeDocs_deleteNum (docs : List Doc) (docid i : ℕ) (r : RunState) :
    (storeDocs docs docid i r).engine.deleteNum = r.engine.deleteNum := by
  induction docs generalizing docid i r with
  | nil => rfl
  | cons doc docs ih => exact ih _ _ _

theorem insertKeys_ge {docs : List Doc} {i docid : ℕ} {m : ℤ → Option ℕ} {result : BatchResult}
    {k : ℤ} {d : ℕ} (h : (Table.insertKeys keyId docs i docid m result).1 k = some d) :
    m k = some d ∨ docid ≤ d := by
  induction docs generalizing i m result with
  | nil => exact .inl h
  | cons doc docs ih =>
    rw [Table.insertKeys] at h
    split at h
    · exact ih h
    · cases ih h with
      | inl hold =>
        cases Table.insertKey_eq_some hold with
        | inl heq => exact .inr (by omega)
        | inr hold => exact .inl hold
      | inr hle => exact .inr hle

theorem batchAdd {r r' : RunState} {startId : ℕ} {docs : List Doc}
    (hr : GammaEngine.batchAdd keyId startId docs r = some r') : Quiet r.engine r'.engine := by
  unfold GammaEngine.batchAdd at hr
  split at hr
  · cases hr
    exact refl _
  · obtain ⟨added, hadded, rfl⟩ := Option.map_eq_some_iff.mp hr
    obtain ⟨t, ht, rfl⟩ := Option.map_eq_some_iff.mp hadded
    refine ⟨?_, Nat.le_add_right _ _, ?_, fun k d hd => ?_⟩
    · exact storeDocs_deleteNum _ _ _ _
    · simp only [(Bounded.storeDocs_frame _ _ _ _).2]
      exact .setMaxID _ _
    · simp only [(Bounded.storeDocs_frame _ _ _ _).1] at hd
      rw [Bounded.addRows_keys ht] at hd
      exact insertKeys_ge hd

theorem flush {st st' : BatchState} (hst : GammaEngine.flush keyId st = some st') :
    Quiet st.engine st'.engine := by
  obtain ⟨r, hr, rfl⟩ := Option.map_eq_some_iff.mp hst
  exact batchAdd hr

/-- The key of a document leads to no deleted one. -/
def NotDeleted (keyId : Bytes → ℤ) (e : GammaEngine) (doc : Doc) : Prop :=
  ∀ d, e.table.getDocIDByKey keyId doc.key = some d → e.docidsBitmap.test d = false

/-- No bit that an update in a batch could clear is set. -/
theorem clear_of_found {e e' : GammaEngine} (h : Quiet e e') (hc : e.Counted) {doc : Doc}
    (hdoc : NotDeleted keyId e doc) {d : ℕ}
    (hd : e'.table.getDocIDByKey keyId doc.key = some d) : e'.docidsBitmap.test d = false := by
  rw [h.bitmap.test hc.clean]
  cases h.keys _ d hd with
  | inl hold => exact hdoc d hold
  | inr hle => exact hc.clear_above d hle

/-- A bit that is clear is not cleared again. -/
theorem undelete_of_clear {e : GammaEngine} {docid : ℤ}
    (h : ∀ d : ℕ, docid = d → e.docidsBitmap.test d = false) : e.undelete docid = e := by
  unfold GammaEngine.undelete testDocid
  by_cases hneg : 0 ≤ docid
  · have hclear := h docid.toNat (Int.toNat_of_nonneg hneg).symm
    rw [hclear, Bool.and_false]
    rfl
  · rw [decide_eq_false hneg, Bool.false_and]
    rfl

/-- One document of a batch. -/
theorem batchStep {e : GammaEngine} {unset : Bool} {doc : Doc} {st st' : BatchState}
    (h : Quiet e st.engine) (hc : e.Counted) (hdoc : unset = true → NotDeleted keyId e doc)
    (hst : GammaEngine.batchStep keyId unset doc st = some st') : Quiet e st'.engine := by
  unfold GammaEngine.batchStep at hst
  simp only at hst
  split at hst
  · cases hst
    exact h
  · obtain ⟨f, hf, hu⟩ := Option.bind_eq_some_iff.mp hst
    obtain ⟨r, hr, rfl⟩ := Option.map_eq_some_iff.mp hu
    have hflush := h.trans (flush hf)
    have hr' := hflush.trans (update hr)
    have hclear : unset = true → ∀ d : ℕ, docidOf (lookupAgain keyId f doc.key
        (st.engine.table.getDocIDByKey keyId doc.key)) = d → r.2.docidsBitmap.test d = false := by
      intro hunset d hd
      have hfound : lookupAgain keyId f doc.key (st.engine.table.getDocIDByKey keyId doc.key) =
          some d := by
        cases hlook : lookupAgain keyId f doc.key
            (st.engine.table.getDocIDByKey keyId doc.key) with
        | none =>
          rw [hlook] at hd
          exact absurd hd (by rw [docidOf]; omega)
        | some d' =>
          rw [hlook] at hd
          exact congrArg some (Int.ofNat_inj.mp hd)
      have hsame : ∀ d : ℕ, r.2.docidsBitmap.test d = e.docidsBitmap.test d :=
        hr'.bitmap.test hc.clean
      rw [hsame d]
      have hst' : st.engine.table.getDocIDByKey keyId doc.key = some d →
          st.engine.docidsBitmap.test d = false := h.clear_of_found hc (hdoc hunset)
      have hf' : f.engine.table.getDocIDByKey keyId doc.key = some d →
          f.engine.docidsBitmap.test d = false := hflush.clear_of_found hc (hdoc hunset)
      rw [h.bitmap.test hc.clean] at hst'
      rw [hflush.bitmap.test hc.clean] at hf'
      unfold lookupAgain at hfound
      split at hfound
      · cases Option.or_eq_some_iff.mp hfound with
        | inl hagain => exact hf' hagain
        | inr hfirst => exact hst' hfirst.2
      · exact hst' hfound
    show Quiet e (if _ then _ else _ : GammaEngine)
    split
    · rename_i haccepted
      rw [undelete_of_clear (hclear haccepted.2)]
      exact hr'
    · exact hr'

/-- **A batch** that names no deleted document. -/
theorem addDocs {e : GammaEngine} (hc : e.Counted) {unset : Bool} {docs : List Doc}
    {result : BatchResult} {st : BatchState}
    (hdocs : ∀ doc ∈ docs, unset = true → NotDeleted keyId e doc)
    (hst : GammaEngine.addDocs keyId unset e docs result = some st) : Quiet e st.engine := by
  obtain ⟨st', hst', hflush⟩ := Option.bind_eq_some_iff.mp hst
  have hloop : Quiet e st'.engine := by
    have hrun : ∀ {docs : List Doc} {s : BatchState},
        (∀ doc ∈ docs, unset = true → NotDeleted keyId e doc) → Quiet e s.engine →
        Lib.runOps (GammaEngine.batchStep keyId unset) docs s = some st' →
          Quiet e st'.engine := by
      intro docs
      induction docs with
      | nil =>
        intro s _ hs h
        cases h
        exact hs
      | cons doc docs ih =>
        intro s hdocs hs h
        obtain ⟨s', hs', hrest⟩ := Option.bind_eq_some_iff.mp h
        exact ih (fun d hd => hdocs d (List.mem_cons_of_mem doc hd))
          (hs.batchStep hc (hdocs doc List.mem_cons_self) hs') hrest
    exact hrun hdocs (refl e) hst'
  exact hloop.trans (flush hflush)

/-- A key is removed, and its document taken out of the range index. -/
theorem removeKey {e e' : GammaEngine} {docid : ℤ} {names : List String} (key : Bytes)
    (he : e.deleteFromRangeIndex docid names = some e') :
    Quiet e { e' with table := e'.table.delete keyId key } := by
  obtain ⟨ops, rfl⟩ := deleteFromRangeIndex_eq he
  refine ⟨rfl, Nat.le_refl _, .refl _, fun k d hd => .inl ?_⟩
  exact Table.itemToDocid_of_delete hd

end Quiet

/-! ### Deletions -/

/-- The bit of the document is set already, or the bitmap has one for it. -/
def Deletable (e : GammaEngine) (d : ℕ) : Prop :=
  e.docidsBitmap.test d = true ∨ d < e.maxDocid ∧ d < e.docidsBitmap.size

theorem test_markDeleted {e : GammaEngine} {d : ℕ} (hd : d < e.docidsBitmap.size) (i : ℕ) :
    (e.markDeleted d).docidsBitmap.test i = if d = i then true else e.docidsBitmap.test i := by
  show ((e.docidsBitmap.set d).dump d 1).test i = _
  rw [BitmapManager.test_dump, BitmapManager.test_set]
  by_cases hi : d = i
  · rw [if_pos ⟨hi, hd⟩, if_pos hi]
  · rw [if_neg fun hcond => hi hcond.1, if_neg hi]

theorem deletedDocids_markDeleted {e : GammaEngine} {d : ℕ} (hmax : d < e.maxDocid)
    (hsize : d < e.docidsBitmap.size) :
    (e.markDeleted d).deletedDocids = insert d e.deletedDocids := by
  ext i
  have hmax' : (e.markDeleted d).maxDocid = e.maxDocid := rfl
  simp only [deletedDocids, Finset.mem_filter, Finset.mem_range, Finset.mem_insert, hmax',
    test_markDeleted hsize]
  by_cases hi : d = i
  · subst hi
    simp [hmax]
  · simp [hi, Ne.symm hi]

/-- A document that was there is marked. -/
theorem Counted.markDeleted {e : GammaEngine} (h : e.Counted) {d : ℕ} (hmax : d < e.maxDocid)
    (hsize : d < e.docidsBitmap.size) (hclear : e.docidsBitmap.test d = false) :
    (e.markDeleted d).Counted := by
  have hmem : d ∉ e.deletedDocids := fun hmem => by
    rw [(Finset.mem_filter.mp hmem).2] at hclear
    cases hclear
  refine ⟨?_, fun i hi => ?_, (h.clean.write d true).dump d 1, h.dumped.write d true⟩
  · show e.deleteNum + 1 = _
    rw [deletedDocids_markDeleted hmax hsize, Finset.card_insert_of_notMem hmem, h.deleteNum]
  · have hle : e.maxDocid ≤ i := hi
    have hne : ¬ d = i := by omega
    rw [test_markDeleted hsize, if_neg hne]
    exact h.clear_above i hle

variable {keyId : Bytes → ℤ}

theorem Counted.delete {e : GammaEngine} (h : e.Counted) {key : Bytes} {r : ℤ × GammaEngine}
    (hdel : ∀ d, e.table.getDocIDByKey keyId key = some d → e.Deletable d)
    (hr : e.delete keyId key = some r) : r.2.Counted := by
  unfold GammaEngine.delete at hr
  split at hr
  · cases hr
    exact h
  · rename_i d hd
    split at hr
    · cases hr
      exact h
    · rename_i hclear
      obtain ⟨e', he', rfl⟩ := Option.map_eq_some_iff.mp hr
      obtain ⟨hmax, hsize⟩ := (hdel d hd).resolve_left hclear
      exact (Quiet.removeKey key he').counted
        (h.markDeleted hmax hsize (Bool.eq_false_iff.mpr hclear))

/-- What is marked can be marked again, and the bitmap keeps its size. -/
theorem Deletable.markDeleted {e : GammaEngine} {d i : ℕ} (h : e.Deletable i) :
    (e.markDeleted d).Deletable i := by
  cases h with
  | inl hbit =>
    refine .inl ?_
    show ((e.docidsBitmap.set d).dump d 1).test i = true
    rw [BitmapManager.test_dump]
    exact BitmapManager.test_set_of_test d hbit
  | inr hlt =>
    refine .inr ⟨hlt.1, ?_⟩
    show i < ((e.docidsBitmap.set d).dump d 1).size
    rw [BitmapManager.size_dump, BitmapManager.size_set]
    exact hlt.2

theorem Counted.delDocByQuery {e : GammaEngine} (h : e.Counted) {docids : List ℕ}
    (hdel : ∀ d ∈ docids, e.Deletable d) : (e.delDocByQuery docids).Counted := by
  unfold GammaEngine.delDocByQuery
  induction docids generalizing e with
  | nil => exact h
  | cons d docids ih =>
    rw [List.foldl_cons]
    split
    · exact ih h fun i hi => hdel i (List.mem_cons_of_mem d hi)
    · rename_i hclear
      obtain ⟨hmax, hsize⟩ := (hdel d List.mem_cons_self).resolve_left hclear
      exact ih (h.markDeleted hmax hsize (Bool.eq_false_iff.mpr hclear)) fun i hi =>
        (hdel i (List.mem_cons_of_mem d hi)).markDeleted

theorem Counted.deleteFound {e e' : GammaEngine} (h : e.Counted) {d : ℕ} (hdel : e.Deletable d)
    (he : GammaEngine.deleteFound keyId d e = some e') :
    e'.Counted ∧ ∀ i, e.Deletable i → e'.Deletable i := by
  unfold GammaEngine.deleteFound at he
  split at he
  · cases he
    exact ⟨h, fun _ hi => hi⟩
  · split at he
    · cases he
      exact ⟨h, fun _ hi => hi⟩
    · rename_i key hkey hclear
      obtain ⟨e₁, he₁, rfl⟩ := Option.map_eq_some_iff.mp he
      obtain ⟨hmax, hsize⟩ := hdel.resolve_left hclear
      obtain ⟨ops, rfl⟩ := deleteFromRangeIndex_eq he₁
      exact ⟨(Quiet.removeKey key he₁).counted
        (h.markDeleted hmax hsize (Bool.eq_false_iff.mpr hclear)), fun i hi => hi.markDeleted⟩

theorem Counted.delDocByFilter {e e' : GammaEngine} (h : e.Counted) {docids : List ℕ}
    (hdel : ∀ d ∈ docids, d < e.maxDocid → e.Deletable d)
    (he : e.delDocByFilter keyId docids = some e') : e'.Counted := by
  unfold GammaEngine.delDocByFilter at he
  have hall : ∀ d ∈ docids.filter (· < e.maxDocid), e.Deletable d := by
    intro d hd
    obtain ⟨hmem, hlt⟩ := List.mem_filter.mp hd
    exact hdel d hmem (of_decide_eq_true hlt)
  clear hdel
  generalize docids.filter (· < e.maxDocid) = found at he hall
  induction found generalizing e with
  | nil =>
    cases he
    exact h
  | cons d found ih =>
    obtain ⟨e₁, he₁, hrest⟩ := Option.bind_eq_some_iff.mp he
    obtain ⟨h₁, hkeep⟩ := h.deleteFound (hall d List.mem_cons_self) he₁
    exact ih h₁ hrest fun i hi => hkeep i (hall i (List.mem_cons_of_mem d hi))

/-! ### The file of the bitmap -/

theorem dumped_markDeleted {e : GammaEngine} (h : e.docidsBitmap.Dumped) (d : ℕ) :
    (e.markDeleted d).docidsBitmap.Dumped := h.write d true

theorem dumped_batchStep {unset : Bool} {doc : Doc} {st st' : BatchState}
    (h : st.engine.docidsBitmap.Dumped)
    (hst : GammaEngine.batchStep keyId unset doc st = some st') :
    st'.engine.docidsBitmap.Dumped := by
  unfold GammaEngine.batchStep at hst
  simp only at hst
  split at hst
  · cases hst
    exact h
  · obtain ⟨f, hf, hu⟩ := Option.bind_eq_some_iff.mp hst
    obtain ⟨r, hr, rfl⟩ := Option.map_eq_some_iff.mp hu
    have hr' := ((Quiet.flush hf).trans (Quiet.update hr)).bitmap.dumped h
    show (if _ then _ else _ : GammaEngine).docidsBitmap.Dumped
    split
    · unfold undelete
      split
      · exact hr'.write _ false
      · exact hr'
    · exact hr'

theorem dumped_addDocs {e : GammaEngine} (h : e.docidsBitmap.Dumped) {unset : Bool}
    {docs : List Doc} {result : BatchResult} {st : BatchState}
    (hst : GammaEngine.addDocs keyId unset e docs result = some st) :
    st.engine.docidsBitmap.Dumped := by
  obtain ⟨st', hst', hflush⟩ := Option.bind_eq_some_iff.mp hst
  have hloop : st'.engine.docidsBitmap.Dumped :=
    Lib.runOps_invariant (P := fun st : BatchState => st.engine.docidsBitmap.Dumped)
      (fun _ _ _ hs hstep => dumped_batchStep hs hstep) h hst'
  exact (Quiet.flush hflush).bitmap.dumped hloop

theorem dumped_deleteFound {e e' : GammaEngine} (h : e.docidsBitmap.Dumped) {d : ℕ}
    (he : GammaEngine.deleteFound keyId d e = some e') : e'.docidsBitmap.Dumped := by
  unfold GammaEngine.deleteFound at he
  split at he
  · cases he
    exact h
  · split at he
    · cases he
      exact h
    · obtain ⟨e₁, he₁, rfl⟩ := Option.map_eq_some_iff.mp he
      obtain ⟨ops, rfl⟩ := deleteFromRangeIndex_eq he₁
      exact dumped_markDeleted h d

/-- **Every call dumps what it does to the bitmap.** -/
theorem dumped_step {e e' : GammaEngine} (h : e.docidsBitmap.Dumped) {op : Op}
    (he : stepOp keyId op e = some e') : e'.docidsBitmap.Dumped := by
  cases op with
  | addNewField info =>
    cases he
    exact h
  | addOrUpdate doc =>
    obtain ⟨r, hr, rfl⟩ := Option.map_eq_some_iff.mp he
    exact (Quiet.addOrUpdate hr).bitmap.dumped h
  | addOrUpdateDocs docs result =>
    obtain ⟨st, hst, rfl⟩ := Option.map_eq_some_iff.mp he
    exact dumped_addDocs h hst
  | addOrUpdateDocsWithWords docs result =>
    obtain ⟨st, hst, rfl⟩ := Option.map_eq_some_iff.mp he
    exact dumped_addDocs h hst
  | delete key =>
    obtain ⟨r, hr, rfl⟩ := Option.map_eq_some_iff.mp he
    unfold GammaEngine.delete at hr
    split at hr
    · cases hr
      exact h
    · split at hr
      · cases hr
        exact h
      · obtain ⟨e₁, he₁, rfl⟩ := Option.map_eq_some_iff.mp hr
        obtain ⟨ops, rfl⟩ := deleteFromRangeIndex_eq he₁
        exact dumped_markDeleted h _
  | delDocByQuery docids =>
    cases he
    unfold GammaEngine.delDocByQuery
    induction docids generalizing e with
    | nil => exact h
    | cons d docids ih =>
      rw [List.foldl_cons]
      split
      · exact ih h
      · exact ih (dumped_markDeleted h d)
  | delDocByFilter docids =>
    exact Lib.runOps_invariant (P := fun e : GammaEngine => e.docidsBitmap.Dumped)
      (fun _ _ _ hs hstep => dumped_deleteFound hs hstep) h he

/-! ### Restarts -/

theorem length_filter_range (n : ℕ) (p : ℕ → Bool) :
    ((List.range n).filter p).length = ((Finset.range n).filter fun d => p d = true).card := by
  rw [← List.toFinset_card_of_nodup (List.nodup_range.filter p)]
  congr 1
  ext d
  simp only [List.mem_toFinset, List.mem_filter, List.mem_range, Finset.mem_filter,
    Finset.mem_range]

/-- A restart that leaves no bit behind the documents it keeps. -/
theorem Counted.load {e e' : GammaEngine} (h : e.Counted) {indexNum : ℕ}
    (hclear : ∀ d, e.loadNum ≤ d → e.docidsBitmap.test d = false)
    (he : e.load keyId indexNum = some e') : e'.Counted := by
  unfold GammaEngine.load at he
  simp only at he
  split at he
  · cases he
  · obtain ⟨t, -, rfl⟩ := Option.map_eq_some_iff.mp he
    obtain ⟨hclean, hdumped⟩ := BitmapManager.reopen_sound h.dumped initBitmapSize
    refine ⟨?_, fun d hd => ?_, hclean, hdumped⟩
    · exact length_filter_range _ _
    · exact (BitmapManager.test_reopen h.dumped initBitmapSize d).trans (hclear d hd)

/-! ### Runs -/

/-- The condition on a call: no document of a batch has the key of a deleted one, unless word lists
come with it; a document that is to be deleted was added, and the bitmap reaches it; a restart keeps
all documents whose bit is set. -/
def CountsRight (keyId : Bytes → ℤ) : RestartOp → GammaEngine → Prop
  | .call (.addOrUpdateDocs docs _), e => ∀ doc ∈ docs, Quiet.NotDeleted keyId e doc
  | .call (.addOrUpdateDocsWithWords _ _), _ => True
  | .call (.delete key), e => ∀ d, e.table.getDocIDByKey keyId key = some d → e.Deletable d
  | .call (.delDocByQuery docids), e => ∀ d ∈ docids, e.Deletable d
  | .call (.delDocByFilter docids), e => ∀ d ∈ docids, d < e.maxDocid → e.Deletable d
  | .call (.addNewField _), _ => True
  | .call (.addOrUpdate _), _ => True
  | .restart _, e => ∀ d, e.loadNum ≤ d → e.docidsBitmap.test d = false

theorem Counted.step {e e' : GammaEngine} (h : e.Counted) {op : RestartOp}
    (hop : CountsRight keyId op e) (he : stepRestart keyId op e = some e') : e'.Counted := by
  cases op with
  | restart indexNum => exact h.load hop he
  | call op =>
    cases op with
    | addNewField info =>
      cases he
      have hquiet : Quiet e { e with table := e.table.addNewField info } := by
        refine ⟨rfl, Nat.le_refl _, .refl _, fun k d hd => .inl ?_⟩
        rwa [(Bounded.addNewField_frame e.table info).1] at hd
      exact hquiet.counted h
    | addOrUpdate doc =>
      obtain ⟨r, hr, rfl⟩ := Option.map_eq_some_iff.mp he
      exact (Quiet.addOrUpdate hr).counted h
    | addOrUpdateDocs docs result =>
      obtain ⟨st, hst, rfl⟩ := Option.map_eq_some_iff.mp he
      exact (Quiet.addDocs h (fun doc hdoc _ => hop doc hdoc) hst).counted h
    | addOrUpdateDocsWithWords docs result =>
      obtain ⟨st, hst, rfl⟩ := Option.map_eq_some_iff.mp he
      exact (Quiet.addDocs h (fun _ _ hunset => absurd hunset (by decide)) hst).counted h
    | delete key =>
      obtain ⟨r, hr, rfl⟩ := Option.map_eq_some_iff.mp he
      exact h.delete hop hr
    | delDocByQuery docids =>
      cases he
      exact h.delDocByQuery hop
    | delDocByFilter docids => exact h.delDocByFilter hop he

/-- **The number of documents.** In a run of calls and restarts whose steps all meet the condition,
`GetDocsNum` is the number of documents whose bit is clear in every state reached. -/
theorem docsNum_always {schema : Schema} {infos : List VectorInfo} {ops : List RestartOp}
    (hops : Lib.EachStep (stepRestart keyId) (CountsRight keyId) ops (create schema infos)) :
    Lib.Always (stepRestart keyId) DocsNumExact ops (create schema infos) :=
  (Lib.always_of_guard (fun _ _ _ h hop he => Counted.step h hop he)
    (counted_create schema infos) hops).imp fun _ h => h.docsNumExact

theorem docsNum_always_deleted :
    Lib.Always (stepRestart firstByte) DocsNumExact
      [.call (.addOrUpdateDocs [byteDoc 97 [0, 0, 0, 0]] [(0, "")]), .call (.delete [97])]
      (create keySchema [wordVector]) := by
  refine docsNum_always fun e he => ⟨fun doc _ d hd => ?_, fun _ _ => ⟨fun d hd => ?_, trivial⟩⟩
  · cases hd
  · have hfacts : (stepRestart firstByte (.call (.addOrUpdateDocs [byteDoc 97 [0, 0, 0, 0]] [(0, "")]))
        (create keySchema [wordVector])).map (fun e =>
          (e.table.getDocIDByKey firstByte [97], e.maxDocid, e.docidsBitmap.size)) =
        some (some 0, 1, initBitmapSize) := by decide +kernel
    rw [he, Option.map_some, Option.some.injEq, Prod.mk.injEq, Prod.mk.injEq] at hfacts
    obtain ⟨hkey, hmax, hsize⟩ := hfacts
    rw [hkey] at hd
    cases hd
    exact .inr ⟨by rw [hmax]; decide, by rw [hsize]; decide⟩

/-- **A deletion that is undone stays counted.** `DelDocByQuery` leaves the key of the document, so
that the batch updates it and clears its bit. -/
theorem undeleted_counted :
    ¬ ∀ ops : List RestartOp,
      Lib.Always (stepRestart firstByte) DocsNumExact ops (create keySchema [wordVector]) := by
  intro hall
  have hrun : ((Lib.runOps (stepRestart firstByte)
      [.call (.addOrUpdate (byteDoc 97 [0, 0, 0, 0])), .call (.delDocByQuery [0]),
        .call (.addOrUpdateDocs [byteDoc 97 [1, 0, 0, 0]] [(0, "")])]
      (create keySchema [wordVector])).map fun e =>
        (e.getDocsNum, e.maxDocid, e.docidsBitmap.test 0)) = some (0, 1, false) := by
    decide +kernel
  obtain ⟨e, he, hfacts⟩ := Option.map_eq_some_iff.mp hrun
  simp only [Prod.mk.injEq] at hfacts
  obtain ⟨hnum, hmax, hbit⟩ := hfacts
  have hexact : e.DocsNumExact := (hall _).last he
  have hlive : e.liveDocids = {0} := by
    rw [liveDocids, hmax]
    ext d
    simp only [Finset.mem_filter, Finset.mem_range, Finset.mem_singleton, Nat.lt_one_iff]
    refine ⟨fun h => h.1, fun h => ⟨h, h ▸ hbit⟩⟩
  rw [DocsNumExact, hnum, hlive] at hexact
  cases hexact

end AwaDB.GammaEngine
