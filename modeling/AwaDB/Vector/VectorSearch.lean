import AwaDB.Vector.Merge

/-!
# Requests that are refused or stay in range (`VectorManager::Search`)

The number of queries of a field follows from the length of its value; the last field says for how many
queries the fields are merged, into results that were allocated for the number of the request.

* `gammaSearch`: the results, the fields and the merge, with `broken` for an access outside of an array, a
  negative length, a product that wraps, or a division by zero;
* `count_mul_le`: no value is read past its end;
* `safe_iff`: exactly which requests are refused or searched in range;
* `unsafe_two_vectors`: one field, with two vectors.
-/

namespace AwaDB.VectorSearch

open Lib Merge

/-- The index that a query names, with the metric of its parameters. `search` is what it finds for the value
of the query, when it does not fail. -/
structure SearchIndex where
  binary : Bool
  dataSize : ℤ
  dimension : ℤ
  isL2 : Bool
  vids : VIDMgr
  raw : VectorSources
  search : (n topn : ℤ) → Option (ℕ → ℤ × ℚ)

/-- `VectorQuery`, with the index of its name, if there is one, and the length of its value. -/
structure VectorQuery where
  index : Option SearchIndex
  size : ℕ
  boost : ℚ
  hasBoost : Bool

/-- The bytes of a vector, as a `size_t`. -/
def SearchIndex.divisor (ix : SearchIndex) : ℕ :=
  ((if ix.binary then ix.dimension else int32 (ix.dataSize * ix.dimension)) % 2 ^ 64).toNat

/-- `n` of a query. -/
def VectorQuery.count (q : VectorQuery) : ℤ := q.index.elim 0 fun ix => int32 (q.size / ix.divisor : ℕ)

/-- `VectorResult::init`, with what the index has found. -/
def initResult (n topn : ℕ) (answers : ℕ → ℤ × ℚ) : VectorResult where
  n := n
  topn := topn
  docids := (List.range (n * topn)).map fun p => (answers p).1
  dists := (List.range (n * topn)).map fun p => (answers p).2
  sources := List.replicate (n * topn) none
  sourceLens := List.replicate (n * topn) 0
  idx := List.replicate n (-1)
  limitValue := List.replicate n 0

/-- One round of the loop over the fields; with the metric that the condition has then. -/
def searchField (c : GammaSearchCondition) (q : VectorQuery) : Outcome ℤ (MergeField × Bool) :=
  match q.index with
  | none => .refused (-1)
  | some ix =>
    if ix.divisor = 0 then .broken
    else if q.count ≤ 0 then .refused (-1)
    -- an array of negative length
    else if int32 (q.count * c.topn) < 0 then .broken
    else
      match ix.search q.count c.topn with
      | none => .refused (-3)
      | some answers =>
        -- the index writes as many entries as the product is
        if int32 (q.count * c.topn) ≠ q.count * c.topn then .broken
        else do
          let r ← .ofOption (VectorResult.parseIndexSearchResult ix.vids ix.raw c.isL2 q.count.toNat
            c.topn.toNat (initResult q.count.toNat c.topn.toNat answers))
          return (⟨r, if q.hasBoost then q.boost else 1⟩, ix.isL2)

def searchFields (c : GammaSearchCondition) : List VectorQuery → Outcome ℤ (List (MergeField × Bool))
  | [] => .done []
  | q :: qs => do
    let f ← searchField c q
    let fs ← searchFields c qs
    return f :: fs

/-- `batch_req_num`: `n` of the last field. -/
def batchReqNum (fields : List (MergeField × Bool)) : ℕ :=
  (fields.getLast?.map fun f => f.1.result.n).getD 0

/-- The loop over the queries. -/
def mergeLoop (c : GammaSearchCondition) (metricL2 : Bool) (order : MapOrder) (fs : List MergeField)
    (n : ℕ) (results : List GammaResult) : Outcome ℤ (List GammaResult) :=
  (List.range n).foldlM (fun results i =>
    match results[i]? with
    | none => .broken
    | some g => do
      let g ← mergeResult c metricL2 order fs i g
      return results.set i g) results

/-- `VectorManager::Search`: `batch_req_num` and the results. -/
def search (c : GammaSearchCondition) (order : MapOrder) (queries : List VectorQuery)
    (results : List GammaResult) : Outcome ℤ (ℕ × List GammaResult) := do
  let fields ← searchFields c queries
  let metricL2 := (fields.getLast?.map Prod.snd).getD c.isL2
  let results ← mergeLoop c metricL2 order (fields.map Prod.fst) (batchReqNum fields) results
  return (batchReqNum fields, results)

/-- `GammaEngine::Search`, for its results and the vectors of a request. -/
def gammaSearch (docNum reqNum : ℤ) (c : GammaSearchCondition) (order : MapOrder)
    (queries : List VectorQuery) : Outcome ℤ (ℕ × List GammaResult) :=
  if reqNum ≤ 0 then .refused (-1)
  else search c order queries (List.replicate reqNum.toNat ⟨0, docNum, none⟩)

/-- `PackResults`, or `none` when it visits a result that is not there, or was not filled. -/
def packResults (r : ℕ × List GammaResult) : Option (List (ℤ × List VectorDoc)) :=
  (List.range r.1).mapM fun i => do
    let g ← r.2[i]?
    let docs ← g.docs
    return (g.total, docs)

/-- The request is refused, or searched and packed in range. -/
def Safe (docNum reqNum : ℤ) (c : GammaSearchCondition) (order : MapOrder) (queries : List VectorQuery) :
    Prop :=
  (gammaSearch docNum reqNum c order queries).Safe fun r => (packResults r).isSome

/-! ### The condition -/

/-- The query is refused: there is no index, its value is too short for a vector, or the index fails. -/
def Refuses (c : GammaSearchCondition) (q : VectorQuery) : Prop :=
  ∀ ix, q.index = some ix → q.count ≤ 0 ∨ ix.search q.count c.topn = none

/-- The arrays of the query can be allocated, and are as long as the index takes them to be. -/
def QuerySound (c : GammaSearchCondition) (q : VectorQuery) : Prop :=
  ∀ ix, q.index = some ix → ix.divisor ≠ 0 ∧ (0 < q.count → 0 ≤ int32 (q.count * c.topn) ∧
    (ix.search q.count c.topn = none ∨ int32 (q.count * c.topn) = q.count * c.topn))

/-- So it is for all queries up to the first one that is refused. -/
def AllSound (c : GammaSearchCondition) : List VectorQuery → Prop
  | [] => True
  | q :: qs => QuerySound c q ∧ (Refuses c q ∨ AllSound c qs)

/-- `n` of the last query. -/
def lastCount (queries : List VectorQuery) : ℤ := (queries.getLast?.map VectorQuery.count).getD 0

/-- The results and all fields have the queries of the last field. -/
def Fits (reqNum : ℤ) (c : GammaSearchCondition) (queries : List VectorQuery) : Prop :=
  if queries.length = 1 then lastCount queries ≤ reqNum
  else totalReturnResults c queries.length < 0 ∨ lastCount queries ≤ reqNum ∧
    (c.topn = 0 ∧ ¬Penalized c.multiVecAndOp c.isL2 ∨ ∀ q ∈ queries, lastCount queries ≤ q.count)

/-! ### The fields -/

/-- What is known of a field that was searched. -/
structure Searched (c : GammaSearchCondition) (q : VectorQuery) (f : MergeField × Bool) : Prop where
  sized : Sized f.1
  topn : (f.1.result.topn : ℤ) = c.topn
  count : (f.1.result.n : ℤ) = q.count
  pos : 0 < q.count
  parsed : ∃ ix answers, q.index = some ix ∧
    VectorResult.parseIndexSearchResult ix.vids ix.raw c.isL2 q.count.toNat c.topn.toNat
      (initResult q.count.toNat c.topn.toNat answers) = some f.1.result

variable {c : GammaSearchCondition} {q : VectorQuery} {queries : List VectorQuery} {order : MapOrder}
  {metricL2 : Bool} {fs : List MergeField} {n R : ℕ}

/-- The loops over the sections leave `n` and `topn` as they are. -/
theorem parse_sizes {m : VIDMgr} {raw : VectorSources} {isL2 : Bool} {k : ℕ} {r r' : VectorResult}
    (h : VectorResult.parseIndexSearchResult m raw isL2 n k r = some r') :
    r'.n = r.n ∧ r'.topn = r.topn := by
  have hfill : ∀ (ps : List ℕ) (i : ℕ) (s : VectorResult),
      (ps.foldl (VectorResult.fill k i) s).n = s.n ∧ (ps.foldl (VectorResult.fill k i) s).topn = s.topn := by
    intro ps
    induction ps with
    | nil => exact fun i s => ⟨rfl, rfl⟩
    | cons p ps ih => exact fun i s => ih i (VectorResult.fill k i s p)
  refine foldlM_keeps (fun s => s.n = r.n ∧ s.topn = r.topn) ⟨rfl, rfl⟩ (fun s s' i _ hs hinv => ?_) h
  obtain ⟨st, hst, hs'⟩ := Option.bind_eq_some_iff.mp hs
  have hloop : st.result.n = s.n ∧ st.result.topn = s.topn := by
    refine foldlM_keeps (fun t => t.result.n = s.n ∧ t.result.topn = s.topn) ⟨rfl, rfl⟩
      (fun t t' j _ ht hinv => ?_) hst
    obtain ⟨vid, -, ht⟩ := Option.bind_eq_some_iff.mp ht
    split at ht
    · cases ht
      exact hinv
    · dsimp only at ht
      split at ht
      · cases ht
        exact hinv
      · obtain ⟨dist, -, ht⟩ := Option.bind_eq_some_iff.mp ht
        obtain ⟨limit, -, ht⟩ := Option.bind_eq_some_iff.mp ht
        cases ht
        exact hinv
  cases hs'
  obtain ⟨hn, htopn⟩ := hfill (List.range' st.pos (k - st.pos)) i
    (if st.pos > 0 then { st.result with idx := st.result.idx.set i 0 } else st.result)
  rw [hn, htopn]
  split <;> exact ⟨hloop.1.trans hinv.1, hloop.2.trans hinv.2⟩

theorem allocated_initResult {n topn : ℕ} (h : n * topn < 2 ^ 31) (answers : ℕ → ℤ × ℚ) :
    (initResult n topn answers).Allocated n topn := by
  refine ⟨h, ?_, ?_, ?_, ?_, ?_⟩ <;> simp [initResult]

theorem int32_le {x : ℕ} : int32 x ≤ x := by
  unfold int32 Int.bmod
  dsimp only
  split <;> omega

/-- The index reads no more bytes than the value has. -/
theorem count_mul_le {ix : SearchIndex} (hix : q.index = some ix) :
    q.count * ix.divisor ≤ q.size := by
  have hle : q.count ≤ (q.size / ix.divisor : ℕ) := by
    unfold VectorQuery.count
    rw [hix, Option.elim_some]
    exact int32_le
  have hmul : q.size / ix.divisor * ix.divisor ≤ q.size := Nat.div_mul_le_self _ _
  calc q.count * ix.divisor ≤ (q.size / ix.divisor : ℕ) * (ix.divisor : ℤ) :=
        mul_le_mul_of_nonneg_right hle (Int.natCast_nonneg _)
    _ ≤ q.size := by exact_mod_cast hmul

/-- A query that is not sound breaks the search. -/
theorem searchField_broken (h : ¬QuerySound c q) : searchField c q = .broken := by
  unfold QuerySound at h
  push Not at h
  obtain ⟨ix, hix, h⟩ := h
  unfold searchField
  rw [hix]
  dsimp only
  by_cases hdivisor : ix.divisor = 0
  · rw [if_pos hdivisor]
  · obtain ⟨hcount, h⟩ := h hdivisor
    rw [if_neg hdivisor, if_neg (by omega)]
    by_cases hlength : 0 ≤ int32 (q.count * c.topn)
    · obtain ⟨hsearch, hwraps⟩ := h hlength
      obtain ⟨answers, hanswers⟩ := Option.ne_none_iff_exists'.mp hsearch
      rw [if_neg (by omega), hanswers]
      exact if_pos hwraps
    · rw [if_pos (by omega)]

theorem searchField_refused (h : QuerySound c q) (hrefuses : Refuses c q) :
    ∃ e, searchField c q = .refused e := by
  unfold searchField
  cases hix : q.index with
  | none => exact ⟨-1, rfl⟩
  | some ix =>
    obtain ⟨hdivisor, h⟩ := h ix hix
    dsimp only
    rw [if_neg hdivisor]
    by_cases hcount : q.count ≤ 0
    · exact ⟨-1, if_pos hcount⟩
    · have hsearch := (hrefuses ix hix).resolve_left hcount
      rw [if_neg hcount, if_neg (Int.not_lt.mpr (h (by omega)).1), hsearch]
      exact ⟨-3, rfl⟩

/-- **A query that is sound and not refused** is searched. -/
theorem searchField_done (h : QuerySound c q) (hrefuses : ¬Refuses c q) :
    ∃ f, searchField c q = .done f ∧ Searched c q f := by
  unfold Refuses at hrefuses
  push Not at hrefuses
  obtain ⟨ix, hix, hcount, hsearch⟩ := hrefuses
  obtain ⟨hdivisor, h⟩ := h ix hix
  obtain ⟨hlength, hexact⟩ := h hcount
  have hexact := hexact.resolve_left hsearch
  obtain ⟨answers, hanswers⟩ := Option.ne_none_iff_exists'.mp hsearch
  have htopn : 0 ≤ c.topn := by
    rw [hexact] at hlength
    exact nonneg_of_mul_nonneg_right hlength hcount
  have hfits : q.count.toNat * c.topn.toNat < 2 ^ 31 := by
    have hlt := (int32_eq_iff.mp hexact).2
    rw [← Int.toNat_of_nonneg (Int.le_of_lt hcount), ← Int.toNat_of_nonneg htopn] at hlt
    exact_mod_cast hlt
  have halloc := allocated_initResult hfits answers
  obtain ⟨r, hparse, hsized, -, -⟩ :=
    VectorResult.parse_run ix.vids ix.raw c.isL2 halloc (Nat.le_refl _)
  obtain ⟨hn, hk⟩ := parse_sizes hparse
  refine ⟨(⟨r, if q.hasBoost then q.boost else 1⟩, ix.isL2), ?_, ?_, ?_, ?_, hcount,
    ix, answers, hix, hparse⟩
  · unfold searchField
    rw [hix]
    dsimp only
    rw [if_neg hdivisor, if_neg (Int.not_le.mpr hcount), if_neg (Int.not_lt.mpr hlength), hanswers]
    dsimp only
    rw [if_neg (not_not.mpr hexact)]
    show Outcome.ofOption (VectorResult.parseIndexSearchResult _ _ _ _ _ _) >>= _ = _
    rw [show VectorResult.parseIndexSearchResult _ _ _ _ _ _ = some r from hparse]
    rfl
  · show r.Allocated r.n r.topn
    rw [hn, hk]
    exact hsized
  · show (r.topn : ℤ) = c.topn
    rw [hk]
    exact Int.toNat_of_nonneg htopn
  · show (r.n : ℤ) = q.count
    rw [hn]
    exact Int.toNat_of_nonneg (Int.le_of_lt hcount)

/-- What is known of a query that was searched. -/
theorem searched_of_done {f : MergeField × Bool} (h : searchField c q = .done f) : Searched c q f := by
  have hsound : QuerySound c q := by
    by_contra hnot
    rw [searchField_broken hnot] at h
    cases h
  have hrefuses : ¬Refuses c q := by
    intro hrefuses
    obtain ⟨e, he⟩ := searchField_refused hsound hrefuses
    rw [he] at h
    cases h
  obtain ⟨f', hf', hsearched⟩ := searchField_done hsound hrefuses
  rw [hf'] at h
  cases h
  exact hsearched

/-- The loop over the fields. -/
theorem searchFields_broken (h : ¬AllSound c queries) : searchFields c queries = .broken := by
  induction queries with
  | nil => exact absurd trivial h
  | cons q qs ih =>
    rw [searchFields]
    by_cases hq : QuerySound c q
    · have hrefuses : ¬Refuses c q := fun hr => h ⟨hq, .inl hr⟩
      obtain ⟨f, hf, -⟩ := searchField_done hq hrefuses
      rw [hf, ih fun hqs => h ⟨hq, .inr hqs⟩]
      rfl
    · rw [searchField_broken hq]
      rfl

theorem searchFields_refused (h : AllSound c queries) (hrefuses : ∃ q ∈ queries, Refuses c q) :
    ∃ e, searchFields c queries = .refused e := by
  induction queries with
  | nil =>
    obtain ⟨q, hq, -⟩ := hrefuses
    exact absurd hq List.not_mem_nil
  | cons q qs ih =>
    rw [searchFields]
    by_cases hq : Refuses c q
    · obtain ⟨e, he⟩ := searchField_refused h.1 hq
      rw [he]
      exact ⟨e, rfl⟩
    · obtain ⟨q', hmem, hq'⟩ := hrefuses
      have hmem : q' ∈ qs := by
        rcases List.mem_cons.mp hmem with rfl | hmem
        · exact absurd hq' hq
        · exact hmem
      obtain ⟨f, hf, -⟩ := searchField_done h.1 hq
      obtain ⟨e, he⟩ := ih (h.2.resolve_left hq) ⟨q', hmem, hq'⟩
      rw [hf, he]
      exact ⟨e, rfl⟩

theorem searchFields_done (h : AllSound c queries) (hrefuses : ∀ q ∈ queries, ¬Refuses c q) :
    ∃ fields, searchFields c queries = .done fields ∧ List.Forall₂ (Searched c) queries fields := by
  induction queries with
  | nil => exact ⟨[], rfl, .nil⟩
  | cons q qs ih =>
    have hq := hrefuses q List.mem_cons_self
    obtain ⟨f, hf, hsearched⟩ := searchField_done h.1 hq
    obtain ⟨fields, hfields, hrest⟩ :=
      ih (h.2.resolve_left hq) fun q' hq' => hrefuses q' (List.mem_cons_of_mem q hq')
    refine ⟨f :: fields, ?_, .cons hsearched hrest⟩
    rw [searchFields, hf, hfields]
    rfl

/-! ### The results -/

/-- All results up to a query are filled. -/
structure Filled (R i : ℕ) (results : List GammaResult) : Prop where
  length : results.length = R
  filled : ∀ k < i, ∃ g, results[k]? = some g ∧ g.docs.isSome

theorem Filled.packResults {results : List GammaResult} (h : Filled R n results) :
    (packResults (n, results)).isSome := by
  refine mapM_some fun i hi => ?_
  obtain ⟨g, hg, hdocs⟩ := h.filled i (List.mem_range.mp hi)
  obtain ⟨docs, hdocs⟩ := Option.isSome_iff_exists.mp hdocs
  show ((results[i]?).bind _).isSome
  rw [hg, Option.bind_some, hdocs]
  rfl

/-- One more result. -/
theorem Filled.set {results : List GammaResult} {i : ℕ} (h : Filled R i results) (hi : i < R)
    {g : GammaResult} (hg : g.docs.isSome) : Filled R (i + 1) (results.set i g) where
  length := by rw [List.length_set, h.length]
  filled k hk := by
    by_cases heq : i = k
    · subst heq
      exact ⟨g, List.getElem?_set_self (hi.trans_eq h.length.symm), hg⟩
    · rw [List.getElem?_set_ne heq]
      exact h.filled k (by omega)

/-- **The loop over the queries** is safe when there is a result for each of them, and each is merged in
range. -/
theorem mergeLoop_safe {C : ℕ → Prop} (g₀ : GammaResult)
    (hdone : ∀ i g, i < n → C i → ∃ g', mergeResult c metricL2 order fs i g = .done g' ∧ g'.docs.isSome)
    (hbroken : ∀ i g, i < n → ¬C i → mergeResult c metricL2 order fs i g = .broken) :
    (mergeLoop c metricL2 order fs n (List.replicate R g₀)).Safe
      (fun results => (packResults (n, results)).isSome) ↔ ∀ i < n, i < R ∧ C i := by
  refine Outcome.safe_range ⟨List.length_replicate, fun k hk => absurd hk (Nat.not_lt_zero k)⟩
    (fun results hresults => Filled.packResults hresults) (fun i results hi hinv hC => ?_)
    fun i results hi hinv hC => ?_
  · obtain ⟨g, hg⟩ : ∃ g, results[i]? = some g :=
      ⟨_, List.getElem?_eq_getElem (hC.1.trans_eq hinv.length.symm)⟩
    obtain ⟨g', hg', hdocs⟩ := hdone i g hi hC.2
    refine ⟨results.set i g', ?_, hinv.set hC.1 hdocs⟩
    rw [hg]
    dsimp only
    rw [hg']
    rfl
  · cases hg : results[i]? with
    | none => rfl
    | some g =>
      have hlt := (List.getElem?_eq_some_iff.mp hg).1
      rw [hinv.length] at hlt
      dsimp only
      rw [hbroken i g hi fun hCi => hC ⟨hlt, hCi⟩]
      rfl

/-- The first query of a request is refused. -/
theorem mergeLoop_refused {e : ℤ} {g₀ : GammaResult} (hR : 0 < R) (hn : 0 < n)
    (h : mergeResult c metricL2 order fs 0 g₀ = .refused e) :
    mergeLoop c metricL2 order fs n (List.replicate R g₀) = .refused e := by
  obtain ⟨k, rfl⟩ := Nat.exists_eq_succ_of_ne_zero (Nat.pos_iff_ne_zero.mp hn)
  unfold mergeLoop
  rw [List.range_succ_eq_map, List.foldlM_cons, List.getElem?_replicate_of_lt hR]
  dsimp only
  rw [h]
  rfl

theorem mergeResult_several (h : fs.length ≠ 1) {i : ℕ} {g : GammaResult} :
    mergeResult c metricL2 order fs i g = mergeRequest c metricL2 order fs i g := by
  unfold mergeResult
  split
  · exact absurd rfl h
  · rfl

/-! ### When a request is safe -/

section

variable {fields : List (MergeField × Bool)} (hfields : List.Forall₂ (Searched c) queries fields)
include hfields

theorem batchReqNum_eq : (batchReqNum fields : ℤ) = lastCount queries := by
  induction hfields with
  | nil => rfl
  | cons hfirst hrest ih =>
    cases hrest with
    | nil => exact hfirst.count
    | cons hnext hrest =>
      unfold batchReqNum lastCount at ih ⊢
      rw [List.getLast?_cons_cons, List.getLast?_cons_cons]
      exact ih

theorem batchReqNum_pos (hne : queries ≠ []) : 0 < batchReqNum fields := by
  have hpos : ∀ q ∈ queries, 0 < q.count := by
    intro q hq
    induction hfields with
    | nil => exact absurd hq List.not_mem_nil
    | cons hfirst _ ih =>
      rcases List.mem_cons.mp hq with rfl | hq
      · exact hfirst.pos
      · exact ih (List.ne_nil_of_mem hq) hq
  have hlast : lastCount queries = (queries.getLast hne).count := by
    unfold lastCount
    rw [List.getLast?_eq_some_getLast hne]
    rfl
  have heq := batchReqNum_eq hfields
  have hlt := hpos _ (List.getLast_mem hne)
  omega

theorem forall_count (a : ℤ) :
    (∀ f ∈ fields.map Prod.fst, a ≤ (f.result.n : ℤ)) ↔ ∀ q ∈ queries, a ≤ q.count := by
  induction hfields with
  | nil => simp
  | cons hfirst _ ih => rw [List.map_cons, List.forall_mem_cons, List.forall_mem_cons, ih, hfirst.count]

/-- The fields have a query exactly when they have as many. -/
theorem forall_hasQuery :
    (∀ i < n, ∀ f ∈ fields.map Prod.fst, HasQuery c.multiVecAndOp c.isL2 i f) ↔
      n = 0 ∨ c.topn = 0 ∧ ¬Penalized c.multiVecAndOp c.isL2 ∨ ∀ q ∈ queries, (n : ℤ) ≤ q.count := by
  have htopn : ∀ f ∈ fields.map Prod.fst, (f.result.topn : ℤ) = c.topn := by
    induction hfields with
    | nil => simp
    | cons hfirst _ ih =>
      rw [List.map_cons, List.forall_mem_cons]
      exact ⟨hfirst.topn, ih⟩
  rw [← forall_count hfields]
  constructor
  · intro h
    by_cases hzero : n = 0
    · exact .inl hzero
    · by_cases hnothing : c.topn = 0 ∧ ¬Penalized c.multiVecAndOp c.isL2
      · exact .inr (.inl hnothing)
      · refine .inr (.inr fun f hf => ?_)
        rcases h (n - 1) (by omega) f hf with hlt | ⟨hk, hnot⟩
        · omega
        · have hk' := htopn f hf
          exact absurd ⟨by omega, hnot⟩ hnothing
  · rintro (rfl | ⟨hzero, hnot⟩ | hall) i hi f hf
    · exact absurd hi (Nat.not_lt_zero i)
    · have hk := htopn f hf
      exact .inr ⟨by omega, hnot⟩
    · have hle := hall f hf
      exact .inl (by omega)

/-- **The merge is safe** when the results and the fields have the queries of the last field. -/
theorem merge_safe_iff {reqNum : ℤ} (hreq : 0 < reqNum) (g₀ : GammaResult) :
    (mergeLoop c metricL2 order (fields.map Prod.fst) (batchReqNum fields)
      (List.replicate reqNum.toNat g₀)).Safe
        (fun results => (packResults (batchReqNum fields, results)).isSome) ↔
      Fits reqNum c queries := by
  have hlast := batchReqNum_eq hfields
  have hsized : ∀ f ∈ fields.map Prod.fst, Sized f := by
    clear hlast
    induction hfields with
    | nil => simp
    | cons hfirst _ ih =>
      rw [List.map_cons, List.forall_mem_cons]
      exact ⟨hfirst.sized, ih⟩
  have hlength : (fields.map Prod.fst).length = queries.length := by
    rw [List.length_map, hfields.length_eq]
  unfold Fits
  by_cases hone : queries.length = 1
  · rw [if_pos hone]
    obtain ⟨q, rfl⟩ := List.length_eq_one_iff.mp hone
    cases hfields with
    | @cons _ f _ _ hfirst hrest =>
      cases hrest
      have htopn : 0 ≤ c.topn := by
        have hk := hfirst.topn
        omega
      have hloop : (mergeLoop c metricL2 order [f.1] f.1.result.n (List.replicate reqNum.toNat g₀)).Safe
          (fun results => (packResults (f.1.result.n, results)).isSome) ↔
            ∀ i < f.1.result.n, i < reqNum.toNat ∧ True :=
        mergeLoop_safe g₀ (fun i g hi _ => singleRequest_done hfirst.sized hi htopn)
          fun i g _ hnot => absurd trivial hnot
      refine hloop.trans ?_
      have hpos := hfirst.pos
      have hcount := hfirst.count
      rw [← hlast, show batchReqNum [f] = f.1.result.n from rfl]
      constructor
      · intro h
        have hlt := (h (f.1.result.n - 1) (by omega)).1
        omega
      · intro h i hi
        exact ⟨by omega, trivial⟩
  · rw [if_neg hone]
    have hseveral : (fields.map Prod.fst).length ≠ 1 := by rwa [hlength]
    by_cases hroom : totalReturnResults c queries.length < 0
    · refine iff_of_true ?_ (.inl hroom)
      rcases Nat.eq_zero_or_pos (batchReqNum fields) with hzero | hpos
      · rw [hzero]
        rfl
      · have hrefused : mergeResult c metricL2 order (fields.map Prod.fst) 0 g₀ = .refused (-4) := by
          rw [mergeResult_several hseveral, mergeRequest, hlength, if_pos hroom]
        rw [mergeLoop_refused (by omega) hpos hrefused]
        trivial
    · rw [or_iff_right hroom]
      have hroom' : 0 ≤ totalReturnResults c (fields.map Prod.fst).length := by
        rw [hlength]
        omega
      have hloop := @mergeLoop_safe c order metricL2 (fields.map Prod.fst) (batchReqNum fields)
        reqNum.toNat (fun i => ∀ f ∈ fields.map Prod.fst, HasQuery c.multiVecAndOp c.isL2 i f) g₀
        (fun i g _ hall => by
          rw [mergeResult_several hseveral]
          exact mergeRequest_done hsized hroom' hall)
        fun i g _ hnot => by
          rw [mergeResult_several hseveral]
          push Not at hnot
          exact mergeRequest_broken hsized hroom' hnot
      rw [hloop, forall₂_and, forall_hasQuery hfields, ← hlast]
      refine and_congr ⟨fun h => ?_, fun h i hi => by omega⟩ (or_iff_right_of_imp fun hzero => .inr ?_)
      · by_contra hlt
        have hfirst := h (batchReqNum fields - 1) (by omega)
        omega
      · have hnil : queries = [] := by
          by_contra hne
          exact absurd (batchReqNum_pos hfields hne) (by omega)
        rw [hnil]
        exact fun q hq => absurd hq List.not_mem_nil

end

/-- **When a request is refused or searched in range.** -/
theorem safe_iff (docNum reqNum : ℤ) (c : GammaSearchCondition) (order : MapOrder)
    (queries : List VectorQuery) :
    Safe docNum reqNum c order queries ↔ reqNum ≤ 0 ∨
      AllSound c queries ∧ ((∃ q ∈ queries, Refuses c q) ∨ Fits reqNum c queries) := by
  unfold Safe gammaSearch
  by_cases hreq : reqNum ≤ 0
  · rw [if_pos hreq]
    exact iff_of_true trivial (.inl hreq)
  · rw [if_neg hreq, or_iff_right hreq]
    unfold search
    rw [Outcome.safe_bind]
    by_cases hsound : AllSound c queries
    · by_cases hrefuses : ∃ q ∈ queries, Refuses c q
      · obtain ⟨e, he⟩ := searchFields_refused hsound hrefuses
        rw [he]
        exact iff_of_true trivial ⟨hsound, .inl hrefuses⟩
      · obtain ⟨fields, hdone, hfields⟩ :=
          searchFields_done hsound fun q hq hr => hrefuses ⟨q, hq, hr⟩
        rw [hdone, Outcome.safe_done, Outcome.safe_bind, and_iff_right hsound, or_iff_right hrefuses]
        exact merge_safe_iff hfields (Int.not_le.mp hreq) _
    · rw [searchFields_broken hsound]
      exact iff_of_false id fun h => hsound h.1

/-- An index of vectors of one byte that finds document 0. -/
def byteIndex : SearchIndex where
  binary := true
  dataSize := 1
  dimension := 1
  isL2 := true
  vids := ⟨false, [], []⟩
  raw := ⟨1, false, []⟩
  search := fun _ _ => some fun _ => (0, 0)

/-- `SearchCall` sets the number of queries to that of the fields, which is 1; the value has two vectors. -/
theorem unsafe_two_vectors :
    ¬Safe 1 1 ⟨1, true, false, true⟩ ⟨id, fun _ => .refl _⟩ [⟨some byteIndex, 2, 1, false⟩] := by
  have hbroken : gammaSearch 1 1 ⟨1, true, false, true⟩ ⟨id, fun _ => .refl _⟩
      [⟨some byteIndex, 2, 1, false⟩] = .broken := by rfl
  unfold Safe
  rw [hbroken]
  exact id

end AwaDB.VectorSearch
