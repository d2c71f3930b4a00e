import AwaDB.Engine.KeyMap
import AwaDB.Search.AwadbRetrieval

/-!
# Searching by page text

`AddOrUpdateDocs` with word lists enters a document into the retrieval index when it is added and its
vectors are stored. Nothing is entered when a document is updated, nothing is ever removed, and `Load`
leaves the index empty.

* `Indexed` says that the index holds the words of the documents that are not deleted;
* `pageText_always`: a search finds the current text as long as no update changes the words of such
  a document, and none has words at a restart.
-/

namespace AwaDB.GammaEngine

open Table

/-- The engine with its retrieval index. `listOf` records the word list that was accepted last for
each document. -/
structure TextEngine where
  engine : GammaEngine
  retrieval : AwadbRetrieval
  listOf : ℕ → List Bytes

/-- The loop of `AddOrUpdateDocs`: `words` are the word lists of the pending documents. -/
structure TextBatch where
  batch : BatchState
  words : List (List Bytes)
  retrieval : AwadbRetrieval
  listOf : ℕ → List Bytes

section Keys

variable (keyId : Bytes → ℤ)

/-- The calls of `AddDoc` in `batchAdd`, from document id `docid` on. A document whose vectors are
refused is not entered. -/
def storeWords : List (Doc × List Bytes) → ℕ → VectorManager →
    AwadbRetrieval × (ℕ → List Bytes) → AwadbRetrieval × (ℕ → List Bytes)
  | [], _, _, s => s
  | (doc, words) :: docs, docid, m, s =>
    let stored := VectorManager.addToStore doc.vectorFields m
    storeWords docs (docid + 1) stored.2
      (if stored.1 = 0 then (s.1.addDoc docid words, Function.update s.2 docid words) else s)

/-- `flush`, with the word lists. -/
def flushWords (st : TextBatch) : Option TextBatch :=
  (flush keyId st.batch).map fun batch =>
    let stored := storeWords (st.batch.pending.zip st.words) st.batch.engine.maxDocid
      st.batch.engine.vecManager (st.retrieval, st.listOf)
    { batch := batch, words := [], retrieval := stored.1, listOf := stored.2 }

/-- The word list of an update is the accepted one when the update returns 0. -/
def recordWords (st : TextBatch) (docid : ℤ) (doc : Doc) (words : List Bytes) (d : ℕ) :
    List Bytes :=
  if (d : ℤ) = docid ∧ (st.batch.engine.update docid doc).map Prod.fst = some 0 then words
  else st.listOf d

/-- The document id that `Update` gets for a document. -/
def updateDocid (st st' : BatchState) (doc : Doc) : ℤ :=
  docidOf (lookupAgain keyId st' doc.key (st.engine.table.getDocIDByKey keyId doc.key))

/-- `batchStep`, with the word lists. An update leaves the retrieval index alone. -/
def batchStepWords (p : Doc × List Bytes) (st : TextBatch) : Option TextBatch :=
  if st.batch.engine.table.getDocIDByKey keyId p.1.key = none ∧ p.1.key ∉ st.batch.seen then
    some { st with
      batch := { st.batch with
        seen := p.1.key :: st.batch.seen
        pending := st.batch.pending ++ [p.1] }
      words := st.words ++ [p.2] }
  else
    (flushWords keyId st).bind fun st' =>
      let docid := updateDocid keyId st.batch st'.batch p.1
      (batchUpdate false p.1 docid st'.batch).map fun batch =>
        { st' with batch := batch, listOf := recordWords st' docid p.1 p.2 }

/-- The start of `AddOrUpdateDocs`. -/
def textInit (s : TextEngine) (result : BatchResult) : TextBatch where
  batch := batchInit s.engine result
  words := []
  retrieval := s.retrieval
  listOf := s.listOf

/-- The calls, and a clean restart. -/
inductive TextOp where
  | addOrUpdateDocs (docs : List (Doc × List Bytes)) (result : BatchResult)
  | delete (key : Bytes)
  | delDocByQuery (docids : List ℕ)
  | delDocByFilter (docids : List ℕ)
  | restart (indexNum : ℕ)

/-- The engine after a call or a restart. `Load` does not fill the retrieval index. -/
def stepText : TextOp → TextEngine → Option TextEngine
  | .addOrUpdateDocs docs result, s =>
    ((Lib.runOps (batchStepWords keyId) docs (textInit s result)).bind (flushWords keyId)).map
      fun st => ⟨st.batch.engine, st.retrieval, st.listOf⟩
  | .delete key, s => (s.engine.delete keyId key).map fun r => { s with engine := r.2 }
  | .delDocByQuery docids, s => some { s with engine := s.engine.delDocByQuery docids }
  | .delDocByFilter docids, s =>
    (s.engine.delDocByFilter keyId docids).map fun e => { s with engine := e }
  | .restart indexNum, s =>
    (s.engine.load keyId indexNum).map fun e =>
      { engine := e
        retrieval := fun _ => []
        listOf := fun d => if d < e.maxDocid then s.listOf d else [] }

/-- A request with only the page-text filter `query` can return the document. -/
def TextEngine.admits (s : TextEngine) (query : List Bytes) (docid : ℕ) : Bool :=
  let docids := s.retrieval.retrieve query
  decide (docids ≠ []) && AwadbRetrieval.textHasDoc docids docid &&
    decide (docid < s.engine.maxDocid) && !s.engine.docidsBitmap.test docid

/-- A new engine. -/
def TextEngine.create (schema : Schema) (infos : List VectorInfo) : TextEngine where
  engine := GammaEngine.create schema infos
  retrieval := fun _ => []
  listOf := fun _ => []

end Keys

/-- A search by text returns the documents that are not deleted and whose words include the query. -/
def TextExact (s : TextEngine) : Prop :=
  ∀ query : List Bytes, query ≠ [] → query.Nodup → ∀ d, s.admits query d = true ↔
    (d < s.engine.maxDocid ∧ s.engine.docidsBitmap.test d = false) ∧
      ∀ word ∈ query, word ∈ s.listOf d

/-! ### The index -/

/-- The lists are sorted lists of documents below `n`, and hold the words of those whose bit is
clear. -/
structure Indexed (bits : BitmapManager) (n : ℕ) (m : AwadbRetrieval) (listOf : ℕ → List Bytes) :
    Prop where
  sorted : ∀ word, (m word).Pairwise (· ≤ ·)
  below : ∀ word, ∀ d ∈ m word, d < n
  exact : ∀ d < n, bits.test d = false → ∀ word, d ∈ m word ↔ word ∈ listOf d
  fresh : ∀ d, n ≤ d → listOf d = []

namespace Indexed

variable {bits bits' : BitmapManager} {n n' : ℕ} {m : AwadbRetrieval} {listOf : ℕ → List Bytes}

/-- Further documents without words. -/
theorem mono (h : Indexed bits n m listOf) (hn : n ≤ n') : Indexed bits n' m listOf where
  sorted := h.sorted
  below := fun word d hd => Nat.lt_of_lt_of_le (h.below word d hd) hn
  exact := by
    intro d _ hbit word
    by_cases hlt : d < n
    · exact h.exact d hlt hbit word
    · have hnone : listOf d = [] := h.fresh d (Nat.le_of_not_lt hlt)
      rw [hnone]
      exact ⟨fun hd => absurd (h.below word d hd) hlt, fun hd => absurd hd List.not_mem_nil⟩
  fresh := fun d hd => h.fresh d (Nat.le_trans hn hd)

/-- Further deletions. -/
theorem delete (h : Indexed bits n m listOf)
    (hbits : ∀ d, bits.test d = true → bits'.test d = true) : Indexed bits' n m listOf where
  sorted := h.sorted
  below := h.below
  exact := by
    intro d hlt hbit
    refine h.exact d hlt (Bool.eq_false_iff.mpr fun hset => ?_)
    rw [hbits d hset] at hbit
    cases hbit
  fresh := h.fresh

/-- The lists after `AddDoc`: the document comes last, once for each time its word is given. -/
theorem addDoc_apply (m : AwadbRetrieval) (docid : ℕ) (words : List Bytes) (word : Bytes) :
    m.addDoc docid words word = m word ++ List.replicate (words.count word) docid := by
  unfold AwadbRetrieval.addDoc
  induction words generalizing m with
  | nil => simp
  | cons w words ih =>
    rw [List.foldl_cons, ih]
    by_cases hw : w = word
    · subst hw
      rw [Function.update_self, List.count_cons_self, List.append_assoc]
      rfl
    · rw [Function.update_of_ne (Ne.symm hw), List.count_cons_of_ne hw]

/-- **The next document** is entered with its words. -/
theorem addDoc (h : Indexed bits n m listOf) (words : List Bytes) :
    Indexed bits (n + 1) (m.addDoc n words) (Function.update listOf n words) where
  sorted := by
    intro word
    rw [addDoc_apply]
    refine List.pairwise_append.mpr ⟨h.sorted word, List.pairwise_replicate.mpr (.inr (Nat.le_refl n)),
      fun d hd x hx => ?_⟩
    rw [List.eq_of_mem_replicate hx]
    exact Nat.le_of_lt (h.below word d hd)
  below := by
    intro word d hd
    rw [addDoc_apply] at hd
    cases List.mem_append.mp hd with
    | inl hd => exact Nat.lt_succ_of_lt (h.below word d hd)
    | inr hd =>
      rw [List.eq_of_mem_replicate hd]
      exact Nat.lt_succ_self n
  exact := by
    intro d hlt hbit word
    rw [addDoc_apply, List.mem_append, List.mem_replicate]
    by_cases hd : d = n
    · subst hd
      have hnot : d ∉ m word := fun hmem => Nat.lt_irrefl d (h.below word d hmem)
      have hpos : words.count word ≠ 0 ↔ word ∈ words := List.count_pos_iff.symm.trans
        Nat.pos_iff_ne_zero |>.symm
      rw [Function.update_self]
      exact ⟨fun hor => hpos.mp (hor.resolve_left hnot).1, fun hmem => .inr ⟨hpos.mpr hmem, rfl⟩⟩
    · rw [Function.update_of_ne hd, ← h.exact d (by omega) hbit word]
      exact ⟨fun hor => hor.resolve_right fun hcond => hd hcond.2, .inl⟩
  fresh := by
    intro d hd
    rw [Function.update_of_ne (by omega)]
    exact h.fresh d (by omega)

/-- **A run of new documents.** -/
theorem storeWords (docs : List (Doc × List Bytes)) {n : ℕ} (vectors : VectorManager)
    {m : AwadbRetrieval} {listOf : ℕ → List Bytes} (h : Indexed bits n m listOf) :
    Indexed bits (n + docs.length) (GammaEngine.storeWords docs n vectors (m, listOf)).1
      (GammaEngine.storeWords docs n vectors (m, listOf)).2 := by
  induction docs generalizing n vectors m listOf with
  | nil => exact h
  | cons p docs ih =>
    obtain ⟨doc, words⟩ := p
    have hlen : n + ((doc, words) :: docs).length = n + 1 + docs.length := by
      rw [List.length_cons]
      omega
    rw [hlen, GammaEngine.storeWords]
    dsimp only
    split
    · exact ih _ (h.addDoc words)
    · exact ih _ (h.mono (Nat.le_succ n))

/-- Another record of a document with the same words, or of one whose bit is set. -/
theorem record (h : Indexed bits n m listOf) {listOf' : ℕ → List Bytes}
    (hsame : ∀ d < n, bits.test d = false → ∀ word, word ∈ listOf' d ↔ word ∈ listOf d)
    (hfresh : ∀ d, n ≤ d → listOf' d = listOf d) : Indexed bits n m listOf' where
  sorted := h.sorted
  below := h.below
  exact := fun d hlt hbit word => (h.exact d hlt hbit word).trans (hsame d hlt hbit word).symm
  fresh := fun d hd => (hfresh d hd).trans (h.fresh d hd)

/-- An empty index. -/
theorem empty (bits : BitmapManager) {n : ℕ} {listOf : ℕ → List Bytes}
    (hlive : ∀ d < n, bits.test d = false → listOf d = []) (hfresh : ∀ d, n ≤ d → listOf d = []) :
    Indexed bits n (fun _ => []) listOf where
  sorted := fun _ => List.Pairwise.nil
  below := fun _ _ hd => absurd hd List.not_mem_nil
  exact := by
    intro d hlt hbit word
    rw [hlive d hlt hbit]
    exact ⟨fun hd => absurd hd List.not_mem_nil, fun hd => absurd hd List.not_mem_nil⟩
  fresh := hfresh

/-- **Searching an index that is right.** -/
theorem textExact {s : TextEngine}
    (h : Indexed s.engine.docidsBitmap s.engine.maxDocid s.retrieval s.listOf) : TextExact s := by
  intro query hquery _ d
  have hresult := AwadbRetrieval.retrieve_result h.sorted hquery
  have hmem := AwadbRetrieval.mem_retrieve h.sorted hquery d
  have hadmits : s.admits query d = true ↔ d ∈ s.retrieval.retrieve query ∧
      (d < s.engine.maxDocid ∧ s.engine.docidsBitmap.test d = false) := by
    unfold TextEngine.admits
    dsimp only
    rw [Bool.and_eq_true, Bool.and_eq_true, Bool.and_eq_true, decide_eq_true_iff,
      decide_eq_true_iff, AwadbRetrieval.textHasDoc_iff hresult.sorted, Bool.not_eq_true']
    exact ⟨fun hall => ⟨hall.1.1.2, hall.1.2, hall.2⟩,
      fun hall => ⟨⟨⟨List.ne_nil_of_mem hall.1, hall.1⟩, hall.2.1⟩, hall.2.2⟩⟩
  rw [hadmits, hmem, and_comm]
  refine and_congr_right fun hlive => forall₂_congr fun word _ => ?_
  exact h.exact d hlive.1 hlive.2 word

end Indexed

/-! ### Batches -/

/-- What the calls keep. -/
structure TextKept (e : GammaEngine) (m : AwadbRetrieval) (listOf : ℕ → List Bytes) : Prop where
  indexed : Indexed e.docidsBitmap e.maxDocid m listOf
  keys : ∀ k d, e.table.itemToDocid k = some d → d < e.maxDocid
  clean : e.docidsBitmap.Clean
  dumped : e.docidsBitmap.Dumped

/-- An update of a document that is not deleted, and whose vectors are accepted, gives the words it
has. -/
def SameWords (keyId : Bytes → ℤ) (p : Doc × List Bytes) (st : TextBatch) : Prop :=
  ∀ st', flushWords keyId st = some st' →
    ¬ (st.batch.engine.table.getDocIDByKey keyId p.1.key = none ∧ p.1.key ∉ st.batch.seen) →
      ∀ d : ℕ, updateDocid keyId st.batch st'.batch p.1 = d →
        st'.batch.engine.docidsBitmap.test d = false →
          (st'.batch.engine.update d p.1).map Prod.fst = some 0 →
            ∀ word, word ∈ p.2 ↔ word ∈ st'.listOf d

section Keys

variable {keyId : Bytes → ℤ}

/-- The counter and the keys after a run. -/
theorem batchAdd_maxDocid {r r' : RunState} {startId : ℕ} {docs : List Doc}
    (hr : batchAdd keyId startId docs r = some r') :
    r'.engine.maxDocid = r.engine.maxDocid + docs.length ∧
      ∀ k d, r'.engine.table.itemToDocid k = some d →
        d < r'.engine.maxDocid ∨ r.engine.table.itemToDocid k = some d := by
  unfold batchAdd at hr
  split at hr
  · rename_i hdocs
    cases hr
    rw [hdocs]
    exact ⟨rfl, fun _ _ => .inr⟩
  · obtain ⟨added, hadded, rfl⟩ := Option.map_eq_some_iff.mp hr
    obtain ⟨t, ht, rfl⟩ := Option.map_eq_some_iff.mp hadded
    refine ⟨rfl, fun k d hd => ?_⟩
    simp only [(Bounded.storeDocs_frame _ _ _ _).1] at hd
    rw [Bounded.addRows_keys ht] at hd
    cases Bounded.insertKeys_lt hd with
    | inl hlt => exact .inl (by simpa using hlt)
    | inr hold => exact .inr hold

namespace TextKept

theorem flush {st st' : TextBatch} (h : TextKept st.batch.engine st.retrieval st.listOf)
    (hst : flushWords keyId st = some st') :
    TextKept st'.batch.engine st'.retrieval st'.listOf := by
  obtain ⟨b, hb, rfl⟩ := Option.map_eq_some_iff.mp hst
  obtain ⟨r, hr, rfl⟩ := Option.map_eq_some_iff.mp hb
  have hquiet := Quiet.batchAdd hr
  obtain ⟨hmax, hkeys⟩ := batchAdd_maxDocid hr
  have hlen : (st.batch.pending.zip st.words).length ≤ st.batch.pending.length := by
    rw [List.length_zip]
    exact Nat.min_le_left _ _
  have hindexed := h.indexed.storeWords (st.batch.pending.zip st.words) st.batch.engine.vecManager
  refine ⟨?_, fun k d hd => ?_, hquiet.bitmap.clean h.clean, hquiet.bitmap.dumped h.dumped⟩
  · have hbits : ∀ d, st.batch.engine.docidsBitmap.test d = true →
        r.engine.docidsBitmap.test d = true := by
      intro d hd
      rw [hquiet.bitmap.test h.clean, hd]
    have hle : st.batch.engine.maxDocid + (st.batch.pending.zip st.words).length ≤
        r.engine.maxDocid := by omega
    exact (hindexed.mono hle).delete hbits
  · cases hkeys k d hd with
    | inl hlt => exact hlt
    | inr hold => exact Nat.lt_of_lt_of_le (h.keys k d hold) hquiet.maxDocid

/-- A lookup in a batch leads below the counter. -/
theorem updateDocid_lt {st st' : TextBatch} (h : TextKept st.batch.engine st.retrieval st.listOf)
    (hst : flushWords keyId st = some st') {doc : Doc} {d : ℕ}
    (hd : updateDocid keyId st.batch st'.batch doc = d) : d < st'.batch.engine.maxDocid := by
  have h' := h.flush hst
  obtain ⟨b, hb, rfl⟩ := Option.map_eq_some_iff.mp hst
  have hmax := (Quiet.flush hb).maxDocid
  have hfirst : st.batch.engine.table.getDocIDByKey keyId doc.key = some d →
      d < b.engine.maxDocid := fun hfound => Nat.lt_of_lt_of_le (h.keys _ d hfound) hmax
  have hagain : b.engine.table.getDocIDByKey keyId doc.key = some d → d < b.engine.maxDocid :=
    h'.keys _ d
  unfold updateDocid at hd
  cases hlook : lookupAgain keyId b doc.key
      (st.batch.engine.table.getDocIDByKey keyId doc.key) with
  | none =>
    rw [hlook] at hd
    exact absurd hd (by rw [docidOf]; omega)
  | some d' =>
    rw [hlook] at hd
    obtain rfl : d' = d := Int.ofNat_inj.mp hd
    unfold lookupAgain at hlook
    split at hlook
    · cases Option.or_eq_some_iff.mp hlook with
      | inl hfound => exact hagain hfound
      | inr hfound => exact hfirst hfound.2
    · exact hfirst hlook

/-- One document of a batch. -/
theorem batchStep {p : Doc × List Bytes} {st st' : TextBatch}
    (h : TextKept st.batch.engine st.retrieval st.listOf) (hsame : SameWords keyId p st)
    (hst : batchStepWords keyId p st = some st') :
    TextKept st'.batch.engine st'.retrieval st'.listOf := by
  unfold batchStepWords at hst
  split at hst
  · cases hst
    exact h
  · rename_i hbranch
    obtain ⟨f, hf, hu⟩ := Option.bind_eq_some_iff.mp hst
    obtain ⟨b, hb, rfl⟩ := Option.map_eq_some_iff.mp hu
    obtain ⟨r, hr, rfl⟩ := Option.map_eq_some_iff.mp hb
    have hkept := h.flush hf
    have hframe := update_frame hr
    have hrecord : Indexed f.batch.engine.docidsBitmap f.batch.engine.maxDocid f.retrieval
        (recordWords f (updateDocid keyId st.batch f.batch p.1) p.1 p.2) := by
      refine hkept.indexed.record (fun d hlt hbit word => ?_) fun d hge => ?_
      · unfold recordWords
        split
        · rename_i hcond
          refine hsame f hf hbranch d hcond.1.symm hbit ?_ word
          rw [hcond.1]
          exact hcond.2
        · exact Iff.rfl
      · unfold recordWords
        rw [if_neg]
        exact fun hcond => absurd (h.updateDocid_lt hf hcond.1.symm) (Nat.not_lt.mpr hge)
    have hafter : TextKept r.2 f.retrieval
        (recordWords f (updateDocid keyId st.batch f.batch p.1) p.1 p.2) := by
      refine ⟨?_, ?_, ?_, ?_⟩
      · rw [hframe.docidsBitmap, hframe.maxDocid]
        exact hrecord
      · rw [hframe.itemToDocid, hframe.maxDocid]
        exact hkept.keys
      · rw [hframe.docidsBitmap]
        exact hkept.clean
      · rw [hframe.docidsBitmap]
        exact hkept.dumped
    simpa using hafter

/-- **A batch** whose updates change no words. -/
theorem addDocs {docs : List (Doc × List Bytes)} {st st' : TextBatch}
    (h : TextKept st.batch.engine st.retrieval st.listOf)
    (hsame : Lib.EachStep (batchStepWords keyId) (SameWords keyId) docs st)
    (hst : (Lib.runOps (batchStepWords keyId) docs st).bind (flushWords keyId) = some st') :
    TextKept st'.batch.engine st'.retrieval st'.listOf := by
  obtain ⟨f, hf, hflush⟩ := Option.bind_eq_some_iff.mp hst
  have hloop := Lib.always_of_guard
    (P := fun st : TextBatch => TextKept st.batch.engine st.retrieval st.listOf)
    (fun _ _ _ hs hg hstep => hs.batchStep hg hstep) h hsame
  exact (hloop.last hf).flush hflush

/-! ### Deletions -/

/-- Documents may be deleted and keys removed, and nothing else. -/
structure Fewer (e e' : GammaEngine) : Prop where
  maxDocid : e'.maxDocid = e.maxDocid
  bits : ∀ d, e.docidsBitmap.test d = true → e'.docidsBitmap.test d = true
  keys : ∀ k d, e'.table.itemToDocid k = some d → e.table.itemToDocid k = some d
  clean : e.docidsBitmap.Clean → e'.docidsBitmap.Clean
  dumped : e.docidsBitmap.Dumped → e'.docidsBitmap.Dumped

namespace Fewer

theorem refl (e : GammaEngine) : Fewer e e := ⟨rfl, fun _ => id, fun _ _ => id, id, id⟩

theorem trans {e₁ e₂ e₃ : GammaEngine} (h : Fewer e₁ e₂) (h' : Fewer e₂ e₃) : Fewer e₁ e₃ :=
  ⟨h'.maxDocid.trans h.maxDocid, fun d hd => h'.bits d (h.bits d hd),
    fun k d hd => h.keys k d (h'.keys k d hd), fun hc => h'.clean (h.clean hc),
    fun hd => h'.dumped (h.dumped hd)⟩

theorem markDeleted (e : GammaEngine) (d : ℕ) : Fewer e (e.markDeleted d) where
  maxDocid := rfl
  bits := by
    intro i hi
    show ((e.docidsBitmap.set d).dump d 1).test i = true
    rw [BitmapManager.test_dump]
    exact BitmapManager.test_set_of_test d hi
  keys := fun _ _ => id
  clean := fun hc => (hc.write d true).dump d 1
  dumped := fun hd => hd.write d true

/-- The index operations and the key of a deleted document. -/
theorem removeKey {e e' : GammaEngine} {docid : ℤ} {names : List String} (key : Bytes)
    (he : e.deleteFromRangeIndex docid names = some e') :
    Fewer e { e' with table := e'.table.delete keyId key } := by
  obtain ⟨ops, rfl⟩ := deleteFromRangeIndex_eq he
  exact ⟨rfl, fun _ => id, fun k d hd => Table.itemToDocid_of_delete hd, id, id⟩

theorem delete {e : GammaEngine} {key : Bytes} {r : ℤ × GammaEngine}
    (hr : e.delete keyId key = some r) : Fewer e r.2 := by
  unfold GammaEngine.delete at hr
  split at hr
  · cases hr
    exact refl e
  · split at hr
    · cases hr
      exact refl e
    · obtain ⟨e', he', rfl⟩ := Option.map_eq_some_iff.mp hr
      exact (markDeleted e _).trans (removeKey key he')

theorem delDocByQuery (e : GammaEngine) (docids : List ℕ) : Fewer e (e.delDocByQuery docids) := by
  unfold GammaEngine.delDocByQuery
  induction docids generalizing e with
  | nil => exact refl e
  | cons d docids ih =>
    rw [List.foldl_cons]
    split
    · exact ih e
    · exact (markDeleted e d).trans (ih _)

theorem deleteFound {e e' : GammaEngine} {d : ℕ}
    (he : GammaEngine.deleteFound keyId d e = some e') : Fewer e e' := by
  unfold GammaEngine.deleteFound at he
  split at he
  · cases he
    exact refl e
  · rename_i key hkey
    split at he
    · cases he
      exact refl e
    · obtain ⟨e₁, he₁, rfl⟩ := Option.map_eq_some_iff.mp he
      exact (markDeleted e d).trans (removeKey key he₁)

theorem delDocByFilter {e e' : GammaEngine} {docids : List ℕ}
    (he : e.delDocByFilter keyId docids = some e') : Fewer e e' :=
  Lib.runOps_invariant (P := fun e' => Fewer e e')
    (fun _ _ _ hs hstep => hs.trans (deleteFound hstep)) (refl e) he

end Fewer

theorem fewer {e e' : GammaEngine} {m : AwadbRetrieval} {listOf : ℕ → List Bytes}
    (h : TextKept e m listOf) (hfewer : Fewer e e') : TextKept e' m listOf where
  indexed := by
    rw [hfewer.maxDocid]
    exact h.indexed.delete hfewer.bits
  keys := by
    intro k d hd
    rw [hfewer.maxDocid]
    exact h.keys k d (hfewer.keys k d hd)
  clean := hfewer.clean h.clean
  dumped := hfewer.dumped h.dumped

/-! ### Restarts -/

/-- A restart over documents without words. -/
theorem load {e e' : GammaEngine} {m : AwadbRetrieval} {listOf : ℕ → List Bytes}
    (h : TextKept e m listOf) {indexNum : ℕ}
    (hnone : ∀ d < e.loadNum, e.docidsBitmap.test d = false → listOf d = [])
    (he : e.load keyId indexNum = some e') :
    TextKept e' (fun _ => []) fun d => if d < e'.maxDocid then listOf d else [] := by
  unfold GammaEngine.load at he
  simp only at he
  split at he
  · cases he
  · obtain ⟨t, ht, rfl⟩ := Option.map_eq_some_iff.mp he
    obtain ⟨keys, hkeys, rfl⟩ := Option.map_eq_some_iff.mp ht
    have htest := BitmapManager.test_reopen h.dumped initBitmapSize
    obtain ⟨hclean, hdumped⟩ := BitmapManager.reopen_sound h.dumped initBitmapSize
    refine ⟨Indexed.empty _ (fun d hlt hbit => ?_) fun d hge => if_neg (Nat.not_lt.mpr hge),
      fun k d hd => (loadKeys_mem hkeys hd).1, hclean, hdumped⟩
    rw [htest] at hbit
    exact (if_pos hlt).trans (hnone d hlt hbit)

theorem create (schema : Schema) (infos : List VectorInfo) :
    TextKept (GammaEngine.create schema infos) (fun _ => []) (fun _ => []) where
  indexed := Indexed.empty _ (fun _ _ _ => rfl) fun _ _ => rfl
  keys := fun _ _ hd => nomatch hd
  clean := (counted_create schema infos).clean
  dumped := (counted_create schema infos).dumped

end TextKept

/-! ### Runs -/

/-- The condition on a call: the updates of a batch leave the words of the documents that are not
deleted as they are, and at a restart these documents have no words. -/
def KeepsText (keyId : Bytes → ℤ) : TextOp → TextEngine → Prop
  | .addOrUpdateDocs docs result, s =>
    Lib.EachStep (batchStepWords keyId) (SameWords keyId) docs (textInit s result)
  | .restart _, s => ∀ d < s.engine.loadNum, s.engine.docidsBitmap.test d = false → s.listOf d = []
  | _, _ => True

theorem TextKept.step {s s' : TextEngine} (h : TextKept s.engine s.retrieval s.listOf) {op : TextOp}
    (hop : KeepsText keyId op s) (hs : stepText keyId op s = some s') :
    TextKept s'.engine s'.retrieval s'.listOf := by
  cases op with
  | addOrUpdateDocs docs result =>
    obtain ⟨st, hst, rfl⟩ := Option.map_eq_some_iff.mp hs
    have hinit : TextKept (textInit s result).batch.engine (textInit s result).retrieval
        (textInit s result).listOf := h
    exact hinit.addDocs hop hst
  | delete key =>
    obtain ⟨r, hr, rfl⟩ := Option.map_eq_some_iff.mp hs
    exact h.fewer (Fewer.delete hr)
  | delDocByQuery docids =>
    cases hs
    exact h.fewer (Fewer.delDocByQuery s.engine docids)
  | delDocByFilter docids =>
    obtain ⟨e, he, rfl⟩ := Option.map_eq_some_iff.mp hs
    exact h.fewer (Fewer.delDocByFilter he)
  | restart indexNum =>
    obtain ⟨e, he, rfl⟩ := Option.map_eq_some_iff.mp hs
    exact h.load hop he

/-- A document whose words the index does not have is not found. -/
theorem admits_of_not_indexed {s : TextEngine} {word : Bytes} (hnone : s.retrieval word = [])
    (d : ℕ) : s.admits [word] d = false := by
  have hretrieve : s.retrieval.retrieve [word] = [] :=
    if_pos (List.mem_singleton.mpr hnone.symm)
  unfold TextEngine.admits
  rw [hretrieve]
  rfl

/-- **After a restart** nothing is found, which is right exactly when no document that is not deleted
has words. -/
theorem restart_textExact_iff {s s' : TextEngine} {indexNum : ℕ}
    (hs : stepText keyId (.restart indexNum) s = some s') :
    TextExact s' ↔ ∀ d < s'.engine.maxDocid, s'.engine.docidsBitmap.test d = false →
      s'.listOf d = [] := by
  obtain ⟨e, he, rfl⟩ := Option.map_eq_some_iff.mp hs
  constructor
  · intro hexact d hlt hbit
    refine List.eq_nil_iff_forall_not_mem.mpr fun word hword => ?_
    have hadmits := (hexact [word] (List.cons_ne_nil _ _) (List.nodup_singleton _) d).mpr
      ⟨⟨hlt, hbit⟩, fun w hw => by rw [List.mem_singleton.mp hw]; exact hword⟩
    rw [admits_of_not_indexed rfl] at hadmits
    cases hadmits
  · intro hnone
    refine Indexed.textExact (Indexed.empty _ hnone fun d hge => ?_)
    exact if_neg (Nat.not_lt.mpr hge)

/-- **Searching by page text.** In a run of calls and restarts whose steps all meet the condition, a
search by text returns exactly the documents that are not deleted and whose words include the query,
in every state reached. -/
theorem pageText_always {schema : Schema} {infos : List VectorInfo} {ops : List TextOp}
    (hops : Lib.EachStep (stepText keyId) (KeepsText keyId) ops (TextEngine.create schema infos)) :
    Lib.Always (stepText keyId) TextExact ops (TextEngine.create schema infos) :=
  (Lib.always_of_guard
    (P := fun s : TextEngine => TextKept s.engine s.retrieval s.listOf)
    (fun _ _ _ h hop hs => h.step hop hs) (TextKept.create schema infos) hops).imp
      fun _ h => h.indexed.textExact

end Keys

/-! ### A small engine -/

/-- A document is added with the word `120`, and updated with the words `ws`. -/
def rewrite (ws : List Bytes) : List TextOp :=
  [.addOrUpdateDocs [(byteDoc 97 [0, 0, 0, 0], [[120]])] [(0, "")],
    .addOrUpdateDocs [(byteDoc 97 [1, 0, 0, 0], ws)] [(0, "")]]

theorem pageText_always_same_words :
    Lib.Always (stepText firstByte) TextExact (rewrite [[120]])
      (TextEngine.create keySchema [wordVector]) := by
  refine pageText_always fun s hs =>
    ⟨fun _ _ => ⟨?_, trivial⟩, fun _ _ => ⟨fun _ _ => ⟨?_, trivial⟩, trivial⟩⟩
  · exact fun _ _ hbranch => absurd ⟨rfl, List.not_mem_nil⟩ hbranch
  · have hfacts : (stepText firstByte
        (.addOrUpdateDocs [(byteDoc 97 [0, 0, 0, 0], [[120]])] [(0, "")])
        (TextEngine.create keySchema [wordVector])).map (fun s =>
          (s.engine.table.getDocIDByKey firstByte [97], s.listOf 0)) =
        some (some 0, [[120]]) := by decide +kernel
    rw [hs, Option.map_some, Option.some.injEq, Prod.mk.injEq] at hfacts
    obtain ⟨hkey, hlist⟩ := hfacts
    intro st' hst' _ d hd _ _ word
    cases hst'
    have hdocid : updateDocid firstByte (textInit s [(0, "")]).batch
        (textInit s [(0, "")]).batch (byteDoc 97 [1, 0, 0, 0]) = 0 := by
      show docidOf (s.engine.table.getDocIDByKey firstByte [97]) = 0
      rw [hkey]
      rfl
    obtain rfl : d = 0 := Int.ofNat_inj.mp (hd.symm.trans hdocid)
    show word ∈ [[120]] ↔ word ∈ s.listOf 0
    rw [hlist]

/-- **An update does not change what a search finds**: the document is not found by its new word. -/
theorem updated_words_missed :
    ¬ ∀ ops : List TextOp,
      Lib.Always (stepText firstByte) TextExact ops (TextEngine.create keySchema [wordVector]) := by
  intro hall
  have hrun : ((Lib.runOps (stepText firstByte) (rewrite [[121]])
      (TextEngine.create keySchema [wordVector])).map fun s =>
        (s.retrieval [121], s.listOf 0, s.engine.maxDocid, s.engine.docidsBitmap.test 0)) =
      some ([], [[121]], 1, false) := by
    decide +kernel
  obtain ⟨s, hs, hfacts⟩ := Option.map_eq_some_iff.mp hrun
  simp only [Prod.mk.injEq] at hfacts
  obtain ⟨hnone, hlist, hmax, hbit⟩ := hfacts
  have hexact : TextExact s := (hall _).last hs
  have hadmits := (hexact [[121]] (List.cons_ne_nil _ _) (List.nodup_singleton _) 0).mpr
    ⟨⟨by rw [hmax]; exact Nat.one_pos, hbit⟩, fun word hword => hlist ▸ hword⟩
  rw [admits_of_not_indexed hnone] at hadmits
  cases hadmits

end AwaDB.GammaEngine
