import AwaDB.Engine.Batch
import AwaDB.Lib.Lists

/-!
# The codes of a batch (`AddOrUpdateDocs`, `Table::BatchAdd`, `BatchResult`)

A batch is processed in runs of new documents. A refused vector is reported at the position of its
document in the list, an empty key at the position of its document in the run; a failed update, and a
document whose 64-bit id another key of its run has taken, are not reported.

* `Outcome`: what became of a document, and what was reported for it;
* `markDocs`: the loop, with the outcomes;
* `codes_iff`: the codes name the documents that were not stored or updated exactly when there are no
  failures without a report and no empty key behind the first run, up to one coincidence;
* `unreported`: an update that is refused.
-/

namespace AwaDB.GammaEngine

open Lib Table

/-- What became of a document. An empty key is reported at `pos`; `refused` is whether the vectors
were refused too. -/
inductive Outcome where
  | stored
  | refused
  | silent
  | noKey (pos : ℕ) (refused : Bool)
deriving DecidableEq, Repr

namespace Outcome

/-- The positions that `SetResult` is called with for the document at position `i`. -/
def reported (i : ℕ) : Outcome → List ℕ
  | stored => []
  | refused => [i]
  | silent => []
  | noKey pos false => [pos]
  | noKey pos true => [pos, i]

/-- The positions that `SetResult` is called with for the documents from position `i` on. -/
def written : ℕ → List Outcome → List ℕ
  | _, [] => []
  | i, o :: os => o.reported i ++ written (i + 1) os

theorem written_append (i : ℕ) (os os' : List Outcome) :
    written i (os ++ os') = written i os ++ written (i + os.length) os' := by
  induction os generalizing i with
  | nil => rfl
  | cons o os ih =>
    have hlen : i + 1 + os.length = i + (o :: os).length := by
      rw [List.length_cons]
      omega
    rw [List.cons_append, written, written, ih, hlen, List.append_assoc]

end Outcome

/-- A document of the list has a code that is not zero. -/
def Coded (r : BatchResult) (j : ℕ) : Prop := (r.getD j (0, "")).1 ≠ 0

/-- `BatchResult::BatchResult`. -/
def newResult (size : ℕ) : BatchResult := List.replicate size (0, "")

section Keys

variable (keyId : Bytes → ℤ)

/-- What becomes of a document at position `pos` of its run, with the keys and the vectors before it. -/
def outcomeOf (pos : ℕ) (keys : ℤ → Option ℕ) (m : VectorManager) (doc : Doc) : Outcome :=
  let refused := decide ((VectorManager.addToStore doc.vectorFields m).1 ≠ 0)
  if doc.key = [] then .noKey pos refused
  else if refused then .refused
  else if keys (keyId doc.key) = none then .stored
  else .silent

/-- What becomes of the documents of a run. -/
def runOutcomes : List Doc → ℕ → ℕ → (ℤ → Option ℕ) → VectorManager → List Outcome
  | [], _, _, _, _ => []
  | doc :: docs, pos, docid, keys, m =>
    outcomeOf keyId pos keys m doc ::
      runOutcomes docs (pos + 1) docid
        (if doc.key = [] then keys else insertKey (keyId doc.key) (docid + pos) keys)
        (VectorManager.addToStore doc.vectorFields m).2

/-- The loop with the outcomes of the documents before the run. -/
abbrev Marked := BatchState × List Outcome

/-- `batchAdd` of the run. -/
def markFlush (s : Marked) : Option Marked :=
  (flush keyId s.1).map fun st =>
    (st, s.2 ++ runOutcomes keyId s.1.pending 0 s.1.engine.maxDocid s.1.engine.table.itemToDocid
      s.1.engine.vecManager)

/-- `Update` of a document that was found. -/
def markUpdate (unset : Bool) (doc : Doc) (docid : ℤ) (s : Marked) : Option Marked :=
  (s.1.engine.update docid doc).bind fun r =>
    (batchUpdate unset doc docid s.1).map fun st =>
      (st, s.2 ++ [if r.1 = 0 then .stored else .silent])

/-- One round of the loop. -/
def markStep (unset : Bool) (doc : Doc) (s : Marked) : Option Marked :=
  let found := s.1.engine.table.getDocIDByKey keyId doc.key
  if found = none ∧ doc.key ∉ s.1.seen then
    some ({ s.1 with seen := doc.key :: s.1.seen, pending := s.1.pending ++ [doc] }, s.2)
  else
    (markFlush keyId s).bind fun s =>
      markUpdate unset doc (docidOf (lookupAgain keyId s.1 doc.key found)) s

/-- `AddOrUpdateDocs` with a result of the list's size. -/
def markDocs (unset : Bool) (e : GammaEngine) (docs : List Doc) : Option Marked :=
  (runOps (markStep keyId unset) docs (batchInit e (newResult docs.length), [])).bind
    (markFlush keyId)

/-! ### The same loop -/

variable {keyId}

theorem fst_markFlush (s : Marked) : (markFlush keyId s).map Prod.fst = flush keyId s.1 := by
  rw [markFlush, Option.map_map]
  exact Option.map_id'

theorem fst_markStep (unset : Bool) (doc : Doc) (s : Marked) :
    (markStep keyId unset doc s).map Prod.fst = batchStep keyId unset doc s.1 := by
  rw [markStep, batchStep]
  dsimp only
  split
  · rfl
  · rw [← fst_markFlush]
    cases markFlush keyId s with
    | none => rfl
    | some s' =>
      rw [Option.bind_some, Option.map_some, Option.bind_some, markUpdate, batchUpdate]
      cases s'.1.engine.update (docidOf (lookupAgain keyId s'.1 doc.key
        (s.1.engine.table.getDocIDByKey keyId doc.key))) doc with
      | none => rfl
      | some r => rfl

/-- The outcomes are marked beside the loop and do not change it. -/
theorem fst_markDocs (unset : Bool) (e : GammaEngine) (docs : List Doc) :
    (markDocs keyId unset e docs).map Prod.fst = addDocs keyId unset e docs (newResult docs.length) := by
  have hrun : ∀ (docs : List Doc) (s : Marked), (runOps (markStep keyId unset) docs s).map Prod.fst =
      runOps (batchStep keyId unset) docs s.1 := by
    intro docs
    induction docs with
    | nil => exact fun s => rfl
    | cons doc docs ih =>
      intro s
      rw [runOps_cons, runOps_cons, ← fst_markStep]
      cases markStep keyId unset doc s with
      | none => rfl
      | some s' => exact ih s'
  rw [markDocs, addDocs, ← hrun docs (batchInit e (newResult docs.length), [])]
  cases runOps (markStep keyId unset) docs (batchInit e (newResult docs.length), []) with
  | none => rfl
  | some s => exact fst_markFlush s

/-! ### What is written -/

theorem coded_setResult {r : BatchResult} {i : ℕ} (hi : i < r.length) (msg : String) (j : ℕ) :
    Coded (r.setResult i (-1) msg) j ↔ j = i ∨ Coded r j := by
  rw [Coded, Coded, BatchResult.setResult, List.getD_eq_getElem?_getD, List.getElem?_set]
  by_cases hij : i = j
  · subst hij
    rw [if_pos rfl, if_pos hi]
    exact iff_of_true (show (-1 : ℤ) ≠ 0 by decide) (.inl rfl)
  · rw [if_neg hij, List.getD_eq_getElem?_getD]
    exact ⟨.inr, fun h => h.resolve_left (Ne.symm hij)⟩

/-- The positions of the empty keys. -/
def emptyAt : ℕ → List Doc → List ℕ
  | _, [] => []
  | i, doc :: docs => if doc.key = [] then i :: emptyAt (i + 1) docs else emptyAt (i + 1) docs

/-- The positions of the refused vectors. -/
def refusedAt : ℕ → List Doc → VectorManager → List ℕ
  | _, [], _ => []
  | i, doc :: docs, m =>
    let stored := VectorManager.addToStore doc.vectorFields m
    if stored.1 = 0 then refusedAt (i + 1) docs stored.2 else i :: refusedAt (i + 1) docs stored.2

theorem coded_insertKeys {docs : List Doc} {i : ℕ} {r : BatchResult} (hlen : i + docs.length ≤ r.length)
    (docid : ℕ) (m : ℤ → Option ℕ) :
    (insertKeys keyId docs i docid m r).2.length = r.length ∧
      ∀ j, Coded (insertKeys keyId docs i docid m r).2 j ↔ j ∈ emptyAt i docs ∨ Coded r j := by
  induction docs generalizing i m r with
  | nil => exact ⟨rfl, fun j => by simp [insertKeys, emptyAt]⟩
  | cons doc docs ih =>
    rw [List.length_cons] at hlen
    rw [insertKeys, emptyAt]
    split
    · have hset : (r.setResult i (-1) "Add item error : _id is null!").length = r.length :=
        List.length_set
      obtain ⟨hlength, hcoded⟩ := ih (i := i + 1) (m := m) (by rw [hset]; omega)
      refine ⟨hlength.trans hset, fun j => ?_⟩
      rw [hcoded, coded_setResult (by omega), List.mem_cons]
      exact or_left_comm.trans or_assoc.symm
    · exact ih (by omega) _

theorem coded_storeDocs {docs : List Doc} {i : ℕ} {r : RunState}
    (hlen : i + docs.length ≤ r.result.length) (docid : ℕ) :
    (storeDocs docs docid i r).result.length = r.result.length ∧
      ∀ j, Coded (storeDocs docs docid i r).result j ↔
        j ∈ refusedAt i docs r.engine.vecManager ∨ Coded r.result j := by
  induction docs generalizing i docid r with
  | nil => exact ⟨rfl, fun j => by simp [storeDocs, refusedAt]⟩
  | cons doc docs ih =>
    rw [List.length_cons] at hlen
    rw [storeDocs, refusedAt]
    have hvec : (r.engine.addToRangeIndex docid doc.tableFields).vecManager = r.engine.vecManager := rfl
    rw [hvec]
    split
    · refine ih ?_ (docid + 1)
      show i + 1 + docs.length ≤ r.result.length
      omega
    · have hset : (r.result.setResult i (-1) "Add to vector manager error").length = r.result.length :=
        List.length_set
      obtain ⟨hlength, hcoded⟩ := ih (r := { r with
          engine := { (r.engine.addToRangeIndex docid doc.tableFields) with
            vecManager := (VectorManager.addToStore doc.vectorFields r.engine.vecManager).2 }
          result := r.result.setResult i (-1) "Add to vector manager error" })
        (show i + 1 + docs.length ≤ _ by rw [hset]; omega) (docid + 1)
      refine ⟨hlength.trans hset, fun j => ?_⟩
      rw [hcoded, coded_setResult (by omega), List.mem_cons]
      exact or_left_comm.trans or_assoc.symm

theorem mem_written_runOutcomes {docs : List Doc} {i pos docid : ℕ} {keys : ℤ → Option ℕ}
    {m : VectorManager} {j : ℕ} :
    j ∈ Outcome.written i (runOutcomes keyId docs pos docid keys m) ↔
      j ∈ refusedAt i docs m ∨ j ∈ emptyAt pos docs := by
  induction docs generalizing i pos keys m with
  | nil => simp [runOutcomes, Outcome.written, refusedAt, emptyAt]
  | cons doc docs ih =>
    rw [runOutcomes, Outcome.written, List.mem_append, ih, outcomeOf, refusedAt, emptyAt]
    by_cases hkey : doc.key = []
    · by_cases hstored : (VectorManager.addToStore doc.vectorFields m).1 = 0
      · simp [hkey, hstored, Outcome.reported, or_left_comm]
      · simp [hkey, hstored, Outcome.reported, or_left_comm, or_assoc]
    · by_cases hstored : (VectorManager.addToStore doc.vectorFields m).1 = 0
      · have hnone : ∀ o : Outcome, o = .stored ∨ o = .silent → j ∉ o.reported i := by
          rintro o (rfl | rfl) <;> exact List.not_mem_nil
        rw [if_neg hkey, if_neg hkey, if_pos hstored]
        refine or_iff_right (hnone _ ?_)
        split
        · simp_all
        · split
          · exact .inl rfl
          · exact .inr rfl
      · simp [hkey, hstored, Outcome.reported, or_assoc]

theorem refusedAt_withKeyField (t : Table) (i : ℕ) (docs : List Doc) (m : VectorManager) :
    refusedAt i (docs.map t.withKeyField) m = refusedAt i docs m := by
  have hvec : ∀ doc, (t.withKeyField doc).vectorFields = doc.vectorFields := by
    intro doc
    rw [withKeyField]
    split <;> rfl
  induction docs generalizing i m with
  | nil => rfl
  | cons doc docs ih =>
    rw [List.map_cons, refusedAt, refusedAt, hvec, ih]

theorem length_runOutcomes (docs : List Doc) (pos docid : ℕ) (keys : ℤ → Option ℕ) (m : VectorManager) :
    (runOutcomes keyId docs pos docid keys m).length = docs.length := by
  induction docs generalizing pos keys m with
  | nil => rfl
  | cons doc docs ih => rw [runOutcomes, List.length_cons, List.length_cons, ih]

/-- The outcome of an empty key. -/
def Outcome.isNoKey : Outcome → Bool
  | noKey _ _ => true
  | _ => false

theorem isNoKey_outcomeOf (pos : ℕ) (keys : ℤ → Option ℕ) (m : VectorManager) (doc : Doc) :
    (outcomeOf keyId pos keys m doc).isNoKey = decide (doc.key = []) := by
  rw [outcomeOf]
  by_cases hkey : doc.key = []
  · simp [hkey, Outcome.isNoKey]
  · by_cases hrefused : (VectorManager.addToStore doc.vectorFields m).1 = 0 <;>
      by_cases hfree : keys (keyId doc.key) = none <;>
        simp [hkey, hrefused, hfree, Outcome.isNoKey]

theorem isNoKey_runOutcomes (docs : List Doc) (pos docid : ℕ) (keys : ℤ → Option ℕ) (m : VectorManager) :
    (runOutcomes keyId docs pos docid keys m).map Outcome.isNoKey =
      docs.map fun doc => decide (doc.key = []) := by
  induction docs generalizing pos keys m with
  | nil => rfl
  | cons doc docs ih => rw [runOutcomes, List.map_cons, List.map_cons, ih, isNoKey_outcomeOf]

/-- An empty key is reported at its position in the run. -/
theorem noKey_runOutcomes {docs : List Doc} {pos docid k p : ℕ} {keys : ℤ → Option ℕ} {m : VectorManager}
    {refused : Bool}
    (h : (runOutcomes keyId docs pos docid keys m)[k]? = some (.noKey p refused)) : p = pos + k := by
  induction docs generalizing pos k keys m with
  | nil => cases h
  | cons doc docs ih =>
    rw [runOutcomes] at h
    cases k with
    | zero =>
      have hout := Option.some.inj h
      rw [outcomeOf] at hout
      split at hout
      · cases hout
        rfl
      · split at hout
        · cases hout
        · split at hout <;> cases hout
    | succ k =>
      have hrest := ih h
      omega

/-! ### The loop -/

/-- **A run is added**: the codes are those of its outcomes. -/
theorem flush_coded {st st' : BatchState} (h : flush keyId st = some st')
    (hlen : st.startId + st.pending.length ≤ st.result.length) :
    st'.result.length = st.result.length ∧ st'.startId = st.startId + st.pending.length ∧
      st'.pending = [] ∧ st'.seen = st.seen ∧
      ∀ j, Coded st'.result j ↔ j ∈ Outcome.written st.startId (runOutcomes keyId st.pending 0
        st.engine.maxDocid st.engine.table.itemToDocid st.engine.vecManager) ∨ Coded st.result j := by
  obtain ⟨r, hr, rfl⟩ := Option.map_eq_some_iff.mp h
  rw [batchAdd] at hr
  split at hr
  · rename_i hnil
    cases hr
    refine ⟨rfl, rfl, rfl, rfl, fun j => ?_⟩
    rw [hnil]
    exact (or_iff_right List.not_mem_nil).symm
  · obtain ⟨added, hadded, rfl⟩ := Option.map_eq_some_iff.mp hr
    rw [Table.batchAdd] at hadded
    obtain ⟨t, -, rfl⟩ := Option.map_eq_some_iff.mp hadded
    have hempty : 0 + st.pending.length ≤ st.result.length := by omega
    obtain ⟨hlength, hkeys⟩ : (insertKeys keyId st.pending 0 st.engine.maxDocid
        st.engine.table.itemToDocid st.result).2.length = st.result.length ∧ _ :=
      coded_insertKeys hempty _ _
    have hfits : st.startId + (st.pending.map st.engine.table.withKeyField).length ≤
        (insertKeys keyId st.pending 0 st.engine.maxDocid st.engine.table.itemToDocid
          st.result).2.length := by
      rw [List.length_map, hlength]
      exact hlen
    refine ⟨(coded_storeDocs hfits _).1.trans hlength, rfl, rfl, rfl, fun j => ?_⟩
    refine ((coded_storeDocs hfits _).2 j).trans ?_
    rw [refusedAt_withKeyField, hkeys, mem_written_runOutcomes]
    exact or_assoc.symm

/-- Which of the documents so far have an empty key and went into a run. -/
def marks (s : Marked) : List Bool :=
  s.2.map Outcome.isNoKey ++ s.1.pending.map fun doc => decide (doc.key = [])

/-- The loop after `k` of the `n` documents. -/
structure MarkInv (n k : ℕ) (s : Marked) : Prop where
  length : s.1.result.length = n
  start : s.1.startId = s.2.length
  count : s.2.length + s.1.pending.length = k
  coded : ∀ j, Coded s.1.result j ↔ j ∈ Outcome.written 0 s.2
  pos : ∀ (i p : ℕ) (refused : Bool), s.2[i]? = some (Outcome.noKey p refused) → p ≤ i
  once : AtMostOne (· = true) (marks s)
  seen : true ∈ marks s → [] ∈ s.1.seen

variable {n k : ℕ} {s s' : Marked}

theorem markInv_init (e : GammaEngine) (n : ℕ) : MarkInv n 0 (batchInit e (newResult n), []) where
  length := List.length_replicate
  start := rfl
  count := rfl
  coded := by
    intro j
    refine iff_of_false (fun hcoded => hcoded ?_) List.not_mem_nil
    show ((newResult n).getD j (0, "")).1 = 0
    rw [newResult, List.getD_eq_getElem?_getD, List.getElem?_replicate]
    split <;> rfl
  pos := fun i p refused h => by cases h
  once := fun i j x y hi => by cases hi
  seen := fun h => absurd h List.not_mem_nil

/-- **A run is added.** -/
theorem MarkInv.flush (h : MarkInv n k s) (hk : k ≤ n) (hflush : markFlush keyId s = some s') :
    MarkInv n k s' ∧ s'.1.pending = [] ∧ s'.1.seen = s.1.seen := by
  obtain ⟨st, hst, rfl⟩ := Option.map_eq_some_iff.mp hflush
  have hlen := h.length
  have hcount := h.count
  have hstart := h.start
  obtain ⟨hlength, hstart', hpending, hseen, hcoded⟩ := flush_coded hst (by omega)
  have hmarks : marks (st, s.2 ++ runOutcomes keyId s.1.pending 0 s.1.engine.maxDocid
      s.1.engine.table.itemToDocid s.1.engine.vecManager) = marks s := by
    rw [marks, hpending, List.map_append, isNoKey_runOutcomes, List.map_nil, List.append_nil]
    rfl
  refine ⟨⟨hlength.trans hlen, ?_, ?_, fun j => ?_, fun i p refused hi => ?_, ?_, ?_⟩, hpending, hseen⟩
  · rw [hstart', List.length_append, length_runOutcomes, hstart]
  · rw [List.length_append, length_runOutcomes, hpending]
    exact hcount
  · rw [hcoded, h.coded, Outcome.written_append, List.mem_append, hstart, Nat.zero_add]
    exact or_comm
  · rw [List.getElem?_append] at hi
    split at hi
    · exact h.pos i p refused hi
    · have hpos := noKey_runOutcomes hi
      omega
  · rw [hmarks]
    exact h.once
  · rw [hmarks, hseen]
    exact h.seen

/-- **A document that was found.** -/
theorem MarkInv.update (h : MarkInv n k s) (hpending : s.1.pending = []) {unset : Bool} {doc : Doc}
    {docid : ℤ} (hup : markUpdate unset doc docid s = some s') : MarkInv n (k + 1) s' := by
  obtain ⟨r, -, hrest⟩ := Option.bind_eq_some_iff.mp hup
  obtain ⟨st, hst, rfl⟩ := Option.map_eq_some_iff.mp hrest
  obtain ⟨r', -, rfl⟩ := Option.map_eq_some_iff.mp hst
  have hcount := h.count
  rw [hpending, List.length_nil] at hcount
  -- the outcome of an update reports nothing
  obtain ⟨o, ho, hreported, hnoKey, hother⟩ : ∃ o : Outcome,
      (if r.1 = 0 then Outcome.stored else .silent) = o ∧ (∀ i, o.reported i = []) ∧
        o.isNoKey = false ∧ ∀ p refused, o ≠ .noKey p refused := by
    split
    · exact ⟨.stored, rfl, fun _ => rfl, rfl, fun _ _ h => by cases h⟩
    · exact ⟨.silent, rfl, fun _ => rfl, rfl, fun _ _ h => by cases h⟩
  rw [ho]
  have hmarks : ∀ st : BatchState, st.pending = [] → marks (st, s.2 ++ [o]) = marks s ++ [false] := by
    intro st hst
    rw [marks, marks, hst, hpending, List.map_append, List.map_singleton, hnoKey]
    simp
  refine ⟨h.length, ?_, ?_, fun j => ?_, fun i p refused hi => ?_, ?_, ?_⟩
  · rw [List.length_append, List.length_singleton, ← h.start]
  · dsimp only
    rw [hpending, List.length_append, List.length_singleton]
    exact congrArg (· + 1) hcount
  · rw [Outcome.written_append, Outcome.written, hreported]
    exact (h.coded j).trans (by simp [Outcome.written])
  · rw [List.getElem?_append] at hi
    split at hi
    · exact h.pos i p refused hi
    · exact absurd (List.mem_singleton.mp (List.mem_of_getElem? hi)).symm (hother p refused)
  · rw [hmarks _ (by exact hpending)]
    exact h.once.concat fun hfalse => absurd hfalse Bool.false_ne_true
  · rw [hmarks _ (by exact hpending)]
    intro hmem
    have hseen : [] ∈ s.1.seen := by
      cases List.mem_append.mp hmem with
      | inl hold => exact h.seen hold
      | inr hnew => cases List.mem_singleton.mp hnew
    dsimp only
    split
    · exact hseen
    · exact List.mem_cons_of_mem _ hseen

/-- **One round.** -/
theorem MarkInv.step (h : MarkInv n k s) (hk : k < n) {unset : Bool} {doc : Doc}
    (hstep : markStep keyId unset doc s = some s') : MarkInv n (k + 1) s' := by
  rw [markStep] at hstep
  dsimp only at hstep
  split at hstep
  · rename_i hnew
    cases hstep
    have hmarks : marks ({ s.1 with
        seen := doc.key :: s.1.seen
        pending := s.1.pending ++ [doc] }, s.2) = marks s ++ [decide (doc.key = [])] := by
      rw [marks, marks, List.map_append, List.map_singleton, List.append_assoc]
    refine ⟨h.length, h.start, ?_, h.coded, h.pos, ?_, ?_⟩
    · have hcount := h.count
      dsimp only
      rw [List.length_append, List.length_singleton]
      omega
    · rw [hmarks]
      refine h.once.concat fun hkey b hb hbtrue => hnew.2 ?_
      rw [of_decide_eq_true hkey]
      exact h.seen (hbtrue ▸ hb)
    · rw [hmarks]
      intro hmem
      cases List.mem_append.mp hmem with
      | inl hold => exact List.mem_cons_of_mem _ (h.seen hold)
      | inr hkey =>
        rw [of_decide_eq_true (List.mem_singleton.mp hkey).symm]
        exact List.mem_cons_self
  · obtain ⟨s₁, hflush, hup⟩ := Option.bind_eq_some_iff.mp hstep
    obtain ⟨hinv, hpending, -⟩ := h.flush hk.le hflush
    exact hinv.update hpending hup

theorem MarkInv.run {docs : List Doc} {unset : Bool} (h : MarkInv n k s) (hk : k + docs.length ≤ n)
    (hrun : runOps (markStep keyId unset) docs s = some s') : MarkInv n (k + docs.length) s' := by
  induction docs generalizing k s with
  | nil =>
    cases hrun
    exact h
  | cons doc docs ih =>
    rw [List.length_cons] at hk ⊢
    obtain ⟨s₁, hstep, hrest⟩ := Option.bind_eq_some_iff.mp hrun
    have hnext := ih (h.step (by omega) hstep) (by omega) hrest
    rwa [show k + (docs.length + 1) = k + 1 + docs.length by omega]

/-- **The whole call.** -/
theorem markInv_docs {unset : Bool} {e : GammaEngine} {docs : List Doc}
    (hrun : markDocs keyId unset e docs = some s) :
    MarkInv docs.length docs.length s ∧ s.2.length = docs.length := by
  obtain ⟨s₁, hloop, hflush⟩ := Option.bind_eq_some_iff.mp hrun
  have hinv := (markInv_init e docs.length).run (by omega) hloop
  rw [Nat.zero_add] at hinv
  obtain ⟨hfinal, hpending, -⟩ := hinv.flush (le_refl _) hflush
  have hcount := hfinal.count
  rw [hpending] at hcount
  exact ⟨hfinal, hcount⟩

/-! ### The codes -/

/-- **The codes name the right documents**: those that were not stored or updated, and no position
outside of the list is written. -/
def Named (n : ℕ) (s : Marked) : Prop :=
  (∀ j < n, Coded s.1.result j ↔ s.2[j]? ≠ some .stored) ∧ ∀ j ∈ Outcome.written 0 s.2, j < n

/-- No failure without a report, and an empty key only where the run starts with the list. -/
def AllReported (os : List Outcome) : Prop :=
  (∀ i : ℕ, os[i]? ≠ some .silent) ∧
    ∀ (i pos : ℕ) (refused : Bool), os[i]? = some (.noKey pos refused) → pos = i

/-- An empty key in a later run is reported for a document that failed, without a report of its own
maybe, and its own vectors are refused too. -/
def Coincides (os : List Outcome) : Prop :=
  ∃ i pos : ℕ, os[i]? = some (.noKey pos true) ∧ pos ≠ i ∧
    (∀ j : ℕ, os[j]? = some .silent → j = pos) ∧ os[pos]? ≠ some .stored

theorem mem_written {os : List Outcome} {i j : ℕ} : j ∈ Outcome.written i os ↔
    ∃ (k : ℕ) (o : Outcome), os[k]? = some o ∧ j ∈ o.reported (i + k) := by
  induction os generalizing i with
  | nil => exact iff_of_false List.not_mem_nil fun ⟨k, o, ho, _⟩ => by cases ho
  | cons o os ih =>
    rw [Outcome.written, List.mem_append, ih]
    constructor
    · rintro (hfirst | ⟨k, o', ho', hj⟩)
      · exact ⟨0, o, rfl, hfirst⟩
      · exact ⟨k + 1, o', ho', by rwa [show i + (k + 1) = i + 1 + k by omega]⟩
    · rintro ⟨k, o', ho', hj⟩
      cases k with
      | zero =>
        cases ho'
        exact .inl hj
      | succ k => exact .inr ⟨k, o', ho', by rwa [show i + 1 + k = i + (k + 1) by omega]⟩

/-- A position is reported for a refused vector that stands there, or for an empty key. -/
theorem mem_written_iff {os : List Outcome} {j : ℕ} : j ∈ Outcome.written 0 os ↔
    os[j]? = some .refused ∨ (∃ pos, os[j]? = some (.noKey pos true)) ∨
      ∃ (i : ℕ) (refused : Bool), os[i]? = some (.noKey j refused) := by
  rw [mem_written]
  constructor
  · rintro ⟨k, o, ho, hj⟩
    rw [Nat.zero_add] at hj
    cases o with
    | stored => cases hj
    | silent => cases hj
    | refused =>
      rw [List.mem_singleton.mp hj]
      exact .inl ho
    | noKey pos refused =>
      cases refused with
      | false =>
        rw [List.mem_singleton.mp hj]
        exact .inr (.inr ⟨k, false, ho⟩)
      | true =>
        cases List.mem_cons.mp hj with
        | inl hpos =>
          rw [hpos]
          exact .inr (.inr ⟨k, true, ho⟩)
        | inr hown =>
          rw [List.mem_singleton.mp hown]
          exact .inr (.inl ⟨pos, ho⟩)
  · rintro (ho | ⟨pos, ho⟩ | ⟨i, refused, ho⟩)
    · exact ⟨j, _, ho, by simp [Outcome.reported]⟩
    · exact ⟨j, _, ho, by simp [Outcome.reported]⟩
    · refine ⟨i, _, ho, ?_⟩
      cases refused <;> simp [Outcome.reported]

theorem MarkInv.noKey_unique (h : MarkInv n k s) {i i' pos pos' : ℕ} {refused refused' : Bool}
    (hi : s.2[i]? = some (.noKey pos refused)) (hi' : s.2[i']? = some (.noKey pos' refused')) :
    i = i' := by
  have hmark : ∀ {i pos : ℕ} {refused : Bool}, s.2[i]? = some (.noKey pos refused) →
      (s.2.map Outcome.isNoKey)[i]? = some true := by
    intro i pos refused hi
    rw [List.getElem?_map, hi]
    rfl
  exact h.once.append_left i i' true true (hmark hi) (hmark hi') rfl rfl

/-- If exactly the failures are reported, the condition holds. -/
theorem MarkInv.reported_or_coincides (h : MarkInv n k s)
    (hwritten : ∀ {j : ℕ} {o : Outcome}, s.2[j]? = some o → o ≠ .stored →
      j ∈ Outcome.written 0 s.2)
    (hstored : ∀ j ∈ Outcome.written 0 s.2, s.2[j]? ≠ some .stored) :
    AllReported s.2 ∨ Coincides s.2 := by
  have hreported : ∀ {j : ℕ} {o : Outcome}, s.2[j]? = some o → o ≠ .stored → o = .refused ∨
      (∃ pos, o = .noKey pos true) ∨ ∃ (i : ℕ) (refused : Bool), s.2[i]? = some (.noKey j refused) := by
    intro j o hj ho
    have hcases := mem_written_iff.mp (hwritten hj ho)
    rw [hj] at hcases
    exact hcases.imp Option.some.inj (Or.imp_left fun ⟨pos, hpos⟩ => ⟨pos, Option.some.inj hpos⟩)
  by_cases hkey : ∃ (i pos : ℕ) (refused : Bool), s.2[i]? = some (.noKey pos refused) ∧ pos ≠ i
  · -- the one empty key is reported elsewhere
    obtain ⟨i, pos, refused, hi, hne⟩ := hkey
    have honly : ∀ {i' pos' : ℕ} {refused' : Bool}, s.2[i']? = some (.noKey pos' refused') →
        pos' = pos := by
      intro i' pos' refused' hi'
      have hsame := h.noKey_unique hi hi'
      rw [← hsame, hi] at hi'
      cases hi'
      rfl
    have hrefused : refused = true := by
      rcases hreported hi nofun with ho | ⟨pos', ho⟩ | ⟨i', refused', ho⟩
      · cases ho
      · cases ho
        rfl
      · exact absurd (honly ho).symm hne
    subst hrefused
    refine .inr ⟨i, pos, hi, hne, fun j hj => ?_, ?_⟩
    · rcases hreported hj nofun with ho | ⟨pos', ho⟩ | ⟨i', refused', ho⟩
      · cases ho
      · cases ho
      · exact honly ho
    · exact hstored pos (mem_written_iff.mpr (.inr (.inr ⟨i, true, hi⟩)))
  · push Not at hkey
    refine .inl ⟨fun i hi => ?_, hkey⟩
    rcases hreported hi nofun with ho | ⟨pos', ho⟩ | ⟨i', refused', ho⟩
    · cases ho
    · cases ho
    · have hown := hkey i' i refused' ho
      rw [← hown, hi] at ho
      cases ho

/-- Under the condition exactly the failures are reported. -/
theorem MarkInv.mem_written_iff_failed (h : MarkInv n k s)
    (hcond : AllReported s.2 ∨ Coincides s.2) {j : ℕ} {o : Outcome} (ho : s.2[j]? = some o) :
    j ∈ Outcome.written 0 s.2 ↔ o ≠ .stored := by
  rw [mem_written_iff]
  cases o with
  | refused => exact iff_of_true (.inl ho) nofun
  | stored =>
    refine iff_of_false ?_ (not_not.mpr rfl)
    rintro (ho' | ⟨pos, ho'⟩ | ⟨i, refused, ho'⟩)
    · rw [ho] at ho'
      cases ho'
    · rw [ho] at ho'
      cases ho'
    · rcases hcond with hall | ⟨i', pos, hi', -, -, hfailed⟩
      · have hown := hall.2 i j refused ho'
        rw [← hown, ho] at ho'
        cases ho'
      · have hsame := h.noKey_unique ho' hi'
        rw [hsame, hi'] at ho'
        cases ho'
        exact hfailed ho
  | silent =>
    refine iff_of_true ?_ nofun
    rcases hcond with hall | ⟨i, pos, hi, -, hsilent, -⟩
    · exact absurd ho (hall.1 j)
    · rw [hsilent j ho]
      exact .inr (.inr ⟨i, true, hi⟩)
  | noKey pos refused =>
    refine iff_of_true ?_ nofun
    rcases hcond with hall | ⟨i, pos', hi, -, -, -⟩
    · have hown := hall.2 j pos refused ho
      rw [hown] at ho
      exact .inr (.inr ⟨j, refused, ho⟩)
    · have hsame := h.noKey_unique ho hi
      rw [← hsame] at hi
      exact .inr (.inl ⟨pos', hi⟩)

/-- **The condition is exact** for the outcomes of a call. -/
theorem MarkInv.named_iff (h : MarkInv n n s) (hlen : s.2.length = n) :
    Named n s ↔ AllReported s.2 ∨ Coincides s.2 := by
  have hlt : ∀ {j : ℕ} {o : Outcome}, s.2[j]? = some o → j < n := by
    intro j o hj
    rw [← hlen]
    exact (List.getElem?_eq_some_iff.mp hj).1
  have hinside : ∀ j ∈ Outcome.written 0 s.2, j < n := by
    intro j hj
    rcases mem_written_iff.mp hj with ho | ⟨pos, ho⟩ | ⟨i, refused, ho⟩
    · exact hlt ho
    · exact hlt ho
    · exact (h.pos i j refused ho).trans_lt (hlt ho)
  constructor
  · rintro ⟨hcodes, -⟩
    refine h.reported_or_coincides (fun {j o} hj ho => ?_) fun j hj => ?_
    · refine (h.coded j).mp ((hcodes j (hlt hj)).mpr ?_)
      rw [hj]
      exact fun heq => ho (Option.some.inj heq)
    · exact (hcodes j (hinside j hj)).mp ((h.coded j).mpr hj)
  · intro hcond
    refine ⟨fun j hj => ?_, hinside⟩
    obtain ⟨o, ho⟩ : ∃ o, s.2[j]? = some o := ⟨_, List.getElem?_eq_getElem (hlen.symm ▸ hj)⟩
    rw [h.coded j, h.mem_written_iff_failed hcond ho, ho]
    exact not_congr Option.some_inj.symm

/-- **The codes of `AddOrUpdateDocs` name the right documents** exactly when every failure is reported at
its own position, or the one empty key that is not is reported for another failure. -/
theorem codes_iff {unset : Bool} {e : GammaEngine} {docs : List Doc} {s : Marked}
    (hrun : markDocs keyId unset e docs = some s) :
    Named docs.length s ↔ AllReported s.2 ∨ Coincides s.2 :=
  (markInv_docs hrun).1.named_iff (markInv_docs hrun).2

end Keys

/-- A new document whose vector is refused, and another. -/
theorem codes_small : ∃ s, markDocs firstByte true (create keySchema [wordVector])
      [byteDoc 97 [0], byteDoc 98 [0, 0, 0, 0]] = some s ∧
    (Named 2 s ↔ AllReported s.2 ∨ Coincides s.2) := by
  have hrun : (markDocs firstByte true (create keySchema [wordVector])
      [byteDoc 97 [0], byteDoc 98 [0, 0, 0, 0]]).isSome = true := by decide +kernel
  obtain ⟨s, hs⟩ := Option.isSome_iff_exists.mp hrun
  exact ⟨s, hs, codes_iff hs⟩

/-- A document, an update of it, and a document with an empty key: the code of the first document says
that it failed, and that of the last that it was stored. -/
theorem misreported : ¬ ∀ (unset : Bool) (e : GammaEngine) (docs : List Doc) (s : Marked),
    markDocs firstByte unset e docs = some s → Named docs.length s := by
  intro h
  have hrun : (markDocs firstByte true (create keySchema [wordVector])
      [byteDoc 97 [0, 0, 0, 0], byteDoc 97 [1, 0, 0, 0],
        { byteDoc 98 [0, 0, 0, 0] with key := [] }]).map (fun s => (s.2, s.1.result.map Prod.fst)) =
      some ([.stored, .stored, .noKey 0 false], [-1, 0, 0]) := by decide +kernel
  obtain ⟨s, hs, hfacts⟩ := Option.map_eq_some_iff.mp hrun
  have houtcomes : s.2 = [.stored, .stored, .noKey 0 false] := congrArg Prod.fst hfacts
  have hcond := ((markInv_docs hs).1.named_iff (markInv_docs hs).2).mp (h _ _ _ s hs)
  rw [houtcomes] at hcond
  rcases hcond with hall | ⟨i, pos, hi, -⟩
  · have hpos := hall.2 2 0 false rfl
    omega
  · have hmem := List.mem_of_getElem? hi
    simp at hmem

end AwaDB.GammaEngine
