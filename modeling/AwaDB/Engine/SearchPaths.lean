import AwaDB.Engine.DeleteByQuery
import AwaDB.Search.AwadbRetrieval

/-!
# The two paths of a search (`GammaEngine::Search`)

A request with vectors hands the result of its filters to the vector search, which asks
`GammaSearchCondition::IsValid` for each candidate. A request without vectors goes through the
documents itself, or through the keys that it takes the values of its term filters for.

* `samePaths_iff`: the two let the same documents through exactly if the filters decide, that is if
  there are some and the range query returns no negative number, or if what the second path finds
  without a decision happens to be all documents.
-/

namespace AwaDB

namespace VectorManager

/-- `VectorManager::GetVector`: the fields and documents of which it makes a text; `none` is the
code -1. A name that is no vector field is left out. -/
def getVector (v : VectorManager) (fieldsIds : List (String × ℕ)) : Option (List (String × ℕ)) :=
  let found := fieldsIds.filter fun pair => pair.1 ∈ v.names
  if found.all fun pair => pair.2 < (v.raw pair.1).size then some found else none

end VectorManager

namespace GammaEngine

/-- The filters of a `Request`, with its page texts. -/
structure SearchRequest extends Request where
  pageTexts : List Bytes
deriving DecidableEq, Repr

namespace SearchRequest

/-- `Search` calls `MultiRangeQuery`. -/
def Filtered (request : SearchRequest) : Prop :=
  request.rangeFilters ≠ [] ∨ request.termFilters ≠ [] ∨ request.pageTexts ≠ []

instance (request : SearchRequest) : Decidable request.Filtered :=
  inferInstanceAs (Decidable (_ ∨ _ ∨ _))

end SearchRequest

/-- What the filters leave to the search: the `MultiRangeQueryResults` with its `text_filter_ids_`,
and whether `condition->range_query_result` points to it. -/
structure FilterStage where
  results : MultiRangeQueryResults
  textFilterIds : List ℕ
  handed : Bool
deriving DecidableEq, Repr

/-- `MultiRangeQueryResults::Has`. -/
def FilterStage.has (st : FilterStage) (docid : ℕ) : Bool :=
  if st.results.allResults = [] then
    if st.textFilterIds ≠ [] then AwadbRetrieval.textHasDoc st.textFilterIds docid else false
  else st.results.allResults.all fun result =>
    result.has docid &&
      (st.textFilterIds = [] || AwadbRetrieval.textHasDoc st.textFilterIds docid)

section Paths

variable (index : MultiFieldsRangeIndex) (m : AwadbRetrieval) (request : SearchRequest)

/-- `PageTextFilter`. -/
def pageTextFilter (results : MultiRangeQueryResults) : FilterStage where
  results := results
  textFilterIds := if request.pageTexts ≠ [] then m.retrieve request.pageTexts else []
  handed := true

/-- `GammaEngine::MultiRangeQuery`, and its return value. -/
def multiRangeQuery : Option (ℤ × FilterStage) :=
  if request.infos index = [] then
    let st := pageTextFilter m request .clear
    some (st.textFilterIds.length, st)
  else
    (index.search (request.infos index)).map fun r =>
      if r.1 ≤ 0 then (r.1, ⟨r.2, [], false⟩) else (r.1, pageTextFilter m request r.2)

/-- `Search` up to where its paths part; the inner `none` is the return without a result. -/
def filterStage : Option (Option FilterStage) :=
  if request.Filtered then
    (multiRangeQuery index m request).map fun r => if r.1 = 0 then none else some r.2
  else some (some ⟨.clear, [], false⟩)

variable (keyId : Bytes → ℤ) (e : GammaEngine)

/-- `IsValid` of the documents of a vector search. -/
def vectorAdmits (docid : ℕ) : Option Bool :=
  (filterStage index m request).map fun
    | none => false
    | some st => !((st.handed && !st.has docid) || e.docidsBitmap.test docid)

/-- The document that is found when the values of the term filters are taken for keys. Each vector
needs a text, and where one is missing the loop reads behind the texts. -/
def keyDocs : Option (List ℕ) :=
  let fieldsIds := request.termFilters.filterMap fun filter =>
    (e.table.getDocIDByKey keyId filter.value).map fun docid => (filter.field, docid)
  match fieldsIds.getLast? with
  | none => some []
  | some last =>
    match e.vecManager.getVector fieldsIds with
    | none => some []
    | some vec => if vec.length < fieldsIds.length then none else some [last.2]

/-- The documents of a search without vectors, before they are cut to `topn`. `GetAllResult` is the
null pointer when there are no results. -/
def scalarDocs : Option (List ℕ) :=
  (filterStage index m request).bind fun
    | none => some []
    | some st =>
      if st.results.allResults = [] ∧ request.termFilters ≠ [] then keyDocs request keyId e
      else
        some ((List.range e.maxDocid).filter fun docid =>
          st.has docid && !e.docidsBitmap.test docid)

/-- The paths let the same documents through. -/
def SamePaths : Prop :=
  ∃ docs, scalarDocs index m request keyId e = some docs ∧
    ∀ d, d < e.maxDocid ∧ vectorAdmits index m request e d = some true ↔ d ∈ docs

/-- There are filters, and the range query returns no negative number. -/
def Decided : Prop :=
  request.Filtered ∧ ∃ r, multiRangeQuery index m request = some r ∧ 0 ≤ r.1

/-- Without a decision, the vector search takes all documents, and the other path finds them all as
well: those of the keys, if there are no results, or else those that pass the results. -/
def AllFound : Prop :=
  ∃ st, filterStage index m request = some (some st) ∧
    ((st.results.allResults = [] ∧
        ∃ docs, keyDocs request keyId e = some docs ∧ ∀ d, e.Live d ↔ d ∈ docs) ∨
      (st.results.allResults ≠ [] ∧ ∀ d, e.Live d → st.has d = true))

end Paths

end GammaEngine

/-! ### What the range query returns -/

namespace MultiFieldsRangeIndex

/-- A positive number comes with a result. -/
theorem search_pos {m : MultiFieldsRangeIndex} {filters : List FilterInfo}
    {r : ℤ × MultiRangeQueryResults} (h : m.search filters = some r) (hpos : 0 < r.1) :
    r.2.allResults ≠ [] := by
  have hadd : ∀ (out : MultiRangeQueryResults) (q : RangeQueryResult),
      (out.add q).allResults ≠ [] := fun out q => List.append_ne_nil_of_right_ne_nil _ (by simp)
  unfold search at h
  obtain ⟨pairs?, -, h⟩ := Option.bind_eq_some_iff.mp h
  split at h
  · cases h
    exact absurd hpos (by decide)
  next index filter =>
    obtain ⟨q, -, rfl⟩ := Option.map_eq_some_iff.mp h
    split
    · exact hadd _ _
    next hnot =>
      rw [if_neg hnot] at hpos
      change 0 < (if filter.isUnion = .not then -1 else q.1) at hpos
      split at hpos
      · exact absurd hpos (by decide)
      · exact absurd hpos hnot
  next pairs hne =>
    obtain ⟨g?, -, rfl⟩ := Option.map_eq_some_iff.mp h
    cases g? with
    | none => exact absurd hpos (by decide)
    | some g =>
      change (conclude g).2.allResults ≠ []
      change 0 < (conclude g).1 at hpos
      unfold conclude at hpos ⊢
      split
      next hnone =>
        rw [if_pos hnone] at hpos
        intro hempty
        change g.out.allResults = [] at hempty
        rw [if_pos hempty] at hpos
        exact absurd (show (0 : ℤ) < -1 from hpos) (by decide)
      next hsome =>
        rw [if_neg hsome] at hpos
        change (if 0 < (intersect g.results g.shortestIdx).1 then _ else g.out).allResults ≠ []
        rw [if_pos hpos]
        exact hadd _ _

end MultiFieldsRangeIndex

namespace GammaEngine

/-! ### The paths -/

section

variable {index : MultiFieldsRangeIndex} {m : AwadbRetrieval} {request : SearchRequest}
  {keyId : Bytes → ℤ} {e : GammaEngine} {st : FilterStage} {n : ℤ}

theorem infos_eq_nil : request.infos index = [] ↔
    request.rangeFilters = [] ∧ request.termFilters = [] := by
  simp only [Request.infos, Request.rangeInfos, List.append_eq_nil_iff, List.map_eq_nil_iff]

/-- A positive number is handed on with a result, or stands for page texts alone. -/
theorem multiRangeQuery_pos (h : multiRangeQuery index m request = some (n, st)) (hpos : 0 < n) :
    st.handed = true ∧ (st.results.allResults = [] → request.termFilters = []) := by
  rw [multiRangeQuery] at h
  split at h
  next hnil =>
    cases h
    exact ⟨rfl, fun _ => (infos_eq_nil.mp hnil).2⟩
  · obtain ⟨r, hr, h⟩ := Option.map_eq_some_iff.mp h
    split at h
    next hle =>
      cases h
      exact absurd hpos (Int.not_lt.mpr hle)
    · cases h
      exact ⟨rfl, fun hempty => absurd hempty (MultiFieldsRangeIndex.search_pos hr hpos)⟩

/-- A negative number is not handed on. -/
theorem multiRangeQuery_neg (h : multiRangeQuery index m request = some (n, st)) (hneg : n < 0) :
    st.handed = false ∧ st.textFilterIds = [] := by
  rw [multiRangeQuery] at h
  split at h
  · cases h
    exact absurd hneg (by simp)
  · obtain ⟨r, hr, h⟩ := Option.map_eq_some_iff.mp h
    split at h
    · cases h
      exact ⟨rfl, rfl⟩
    next hpos =>
      cases h
      exact absurd (Int.le_of_lt hneg) hpos

/-- The three ways through the filters. -/
theorem filterStage_cases {st? : Option FilterStage} (h : filterStage index m request = some st?) :
    (st? = none ∧ Decided index m request) ∨
    (∃ st, st? = some st ∧ Decided index m request ∧ st.handed = true ∧
      (st.results.allResults = [] → request.termFilters = [])) ∨
    (∃ st, st? = some st ∧ ¬ Decided index m request ∧ st.handed = false ∧
      st.textFilterIds = []) := by
  rw [filterStage] at h
  split at h
  next hfiltered =>
    obtain ⟨⟨n, st⟩, hr, h⟩ := Option.map_eq_some_iff.mp h
    obtain hneg | rfl | hpos := Int.lt_trichotomy n 0
    · rw [if_neg (Int.ne_of_lt hneg)] at h
      cases h
      refine .inr (.inr ⟨st, rfl, fun hdecided => ?_, multiRangeQuery_neg hr hneg⟩)
      obtain ⟨-, r, hr', hle⟩ := hdecided
      rw [hr] at hr'
      cases hr'
      exact absurd hneg (Int.not_lt.mpr hle)
    · rw [if_pos rfl] at h
      cases h
      exact .inl ⟨rfl, hfiltered, _, hr, Int.le_refl 0⟩
    · rw [if_neg (Int.ne_of_gt hpos)] at h
      cases h
      exact .inr (.inl ⟨st, rfl, ⟨hfiltered, _, hr, Int.le_of_lt hpos⟩, multiRangeQuery_pos hr hpos⟩)
  next hnone =>
    cases h
    exact .inr (.inr ⟨_, rfl, fun hdecided => hnone hdecided.1, rfl, rfl⟩)

theorem vectorAdmits_some (h : filterStage index m request = some (some st)) (d : ℕ) :
    vectorAdmits index m request e d = some true ↔
      (st.handed = true → st.has d = true) ∧ e.docidsBitmap.test d = false := by
  rw [vectorAdmits, h]
  change some (!((st.handed && !st.has d) || e.docidsBitmap.test d)) = some true ↔ _
  cases st.handed <;> cases st.has d <;> cases e.docidsBitmap.test d <;> simp

theorem mem_scan {d : ℕ} : d ∈ (List.range e.maxDocid).filter (fun docid =>
    st.has docid && !e.docidsBitmap.test docid) ↔ e.Live d ∧ st.has d = true := by
  simp only [List.mem_filter, List.mem_range, Bool.and_eq_true, Bool.not_eq_true', Live]
  exact ⟨fun h => ⟨⟨h.1, h.2.2⟩, h.2.1⟩, fun h => ⟨h.1.1, h.2, h.1.2⟩⟩

/-- Without results and page texts, there are only the documents of the keys. -/
theorem scalarDocs_empty (h : filterStage index m request = some (some st))
    (hempty : st.results.allResults = []) (htexts : st.textFilterIds = []) :
    scalarDocs index m request keyId e = keyDocs request keyId e := by
  have hhas : ∀ d, st.has d = false := by
    intro d
    rw [FilterStage.has, if_pos hempty, if_neg (not_not.mpr htexts)]
  rw [scalarDocs, h]
  change (if _ then _ else _) = _
  split
  · rfl
  next hterms =>
    have hnone : request.termFilters = [] := by
      by_contra hne
      exact hterms ⟨hempty, hne⟩
    have hkeys : keyDocs request keyId e = some [] := by
      rw [keyDocs, hnone]
      rfl
    rw [hkeys]
    refine congrArg some (List.filter_eq_nil_iff.mpr fun d _ => ?_)
    rw [hhas]
    exact Bool.false_ne_true

/-- With results, or without term filters, the documents are gone through. -/
theorem scalarDocs_scan (h : filterStage index m request = some (some st))
    (hscan : st.results.allResults = [] → request.termFilters = []) :
    scalarDocs index m request keyId e = some ((List.range e.maxDocid).filter fun docid =>
      st.has docid && !e.docidsBitmap.test docid) := by
  rw [scalarDocs, h]
  exact if_neg fun hboth => hboth.2 (hscan hboth.1)

/-- **When the two paths apply the same filter**: when the filters decide, or by accident. -/
theorem samePaths_iff (index : MultiFieldsRangeIndex) (m : AwadbRetrieval) (request : SearchRequest)
    (keyId : Bytes → ℤ) (e : GammaEngine) (hdefined : filterStage index m request ≠ none) :
    SamePaths index m request keyId e ↔
      Decided index m request ∨ AllFound index m request keyId e := by
  obtain ⟨st?, hst⟩ := Option.ne_none_iff_exists'.mp hdefined
  obtain ⟨rfl, hdecided⟩ | ⟨st, rfl, hdecided, hhanded, hscan⟩ | ⟨st, rfl, hnot, hhanded, htexts⟩ :=
    filterStage_cases hst
  · refine iff_of_true ⟨[], by rw [scalarDocs, hst]; rfl, fun d => ?_⟩ (.inl hdecided)
    rw [vectorAdmits, hst]
    exact iff_of_false (fun h => by cases h.2) List.not_mem_nil
  · refine iff_of_true ⟨_, scalarDocs_scan hst hscan, fun d => ?_⟩ (.inl hdecided)
    rw [mem_scan, vectorAdmits_some hst]
    exact ⟨fun h => ⟨⟨h.1, h.2.2⟩, h.2.1 hhanded⟩, fun h => ⟨h.1.1, fun _ => h.2, h.1.2⟩⟩
  · have hall : ∀ d, d < e.maxDocid ∧ vectorAdmits index m request e d = some true ↔ e.Live d := by
      intro d
      rw [vectorAdmits_some hst, hhanded]
      exact ⟨fun h => ⟨h.1, h.2.2⟩, fun h => ⟨h.1, fun hfalse => (Bool.false_ne_true hfalse).elim, h.2⟩⟩
    rw [or_iff_right hnot, SamePaths, AllFound, hst]
    simp only [hall]
    by_cases hempty : st.results.allResults = []
    · rw [scalarDocs_empty hst hempty htexts]
      constructor
      · intro h
        exact ⟨st, rfl, .inl ⟨hempty, h⟩⟩
      · rintro ⟨st', hst', ⟨-, h⟩ | ⟨hne, -⟩⟩
        · exact h
        · cases hst'
          exact absurd hempty hne
    · rw [scalarDocs_scan hst fun h => absurd h hempty]
      constructor
      · rintro ⟨docs, hdocs, h⟩
        cases hdocs
        refine ⟨st, rfl, .inr ⟨hempty, fun d hlive => ?_⟩⟩
        exact (mem_scan.mp ((h d).mp hlive)).2
      · rintro ⟨st', hst', ⟨hnil, -⟩ | ⟨-, h⟩⟩
        · cases hst'
          exact absurd hnil hempty
        · cases hst'
          exact ⟨_, rfl, fun d => ⟨fun hlive => mem_scan.mpr ⟨hlive, h d hlive⟩,
            fun hmem => (mem_scan.mp hmem).1⟩⟩

end

/-- A filter of a field that is not indexed. -/
def strayRequest : SearchRequest where
  rangeFilters := [⟨"x", [0, 0, 0, 0], [9, 0, 0, 0]⟩]
  termFilters := []
  pageTexts := []

theorem samePaths_small : ∃ e, stepOp firstByte (.addOrUpdate (byteDoc 97 [0, 0, 0, 0]))
      (create keySchema [wordVector]) = some e ∧
    SamePaths smallIndex (fun _ => []) ⟨smallRequest 1 [], []⟩ firstByte e := by
  obtain ⟨e, he, -⟩ := small_engine
  refine ⟨e, he, (samePaths_iff smallIndex (fun _ => []) ⟨smallRequest 1 [], []⟩ firstByte e
    (by decide +kernel)).mpr (.inl ⟨.inl (List.cons_ne_nil _ _), ?_⟩)⟩
  have hpos : ∃ r, multiRangeQuery smallIndex (fun _ => []) ⟨smallRequest 1 [], []⟩ = some r ∧
      0 ≤ r.1 := by
    have heval : (multiRangeQuery smallIndex (fun _ => []) ⟨smallRequest 1 [], []⟩).map
        (fun r => decide (0 ≤ r.1)) = some true := by decide +kernel
    obtain ⟨r, hr, hle⟩ := Option.map_eq_some_iff.mp heval
    exact ⟨r, hr, of_decide_eq_true hle⟩
  exact hpos

/-- **All or none**: a range query of -1 means every document to the vector search, and no document
to the other path. -/
theorem universal_set_lost : ∃ e, stepOp firstByte (.addOrUpdate (byteDoc 97 [0, 0, 0, 0]))
      (create keySchema [wordVector]) = some e ∧
    ¬ SamePaths smallIndex (fun _ => []) strayRequest firstByte e := by
  obtain ⟨e, he, hmax, hbit, -⟩ := small_engine
  refine ⟨e, he, fun hsame => ?_⟩
  obtain ⟨docs, hdocs, hiff⟩ := hsame
  have hstage : filterStage smallIndex (fun _ => []) strayRequest = some (some ⟨.clear, [], false⟩) := by
    decide +kernel
  have hnone : docs = [] := by
    rw [scalarDocs_empty hstage rfl rfl] at hdocs
    cases hdocs
    rfl
  have hmem := (hiff 0).mp ⟨by rw [hmax]; exact Nat.one_pos, (vectorAdmits_some hstage 0).mpr
    ⟨fun hfalse => (Bool.false_ne_true hfalse).elim, hbit⟩⟩
  rw [hnone] at hmem
  cases hmem

end GammaEngine

end AwaDB
