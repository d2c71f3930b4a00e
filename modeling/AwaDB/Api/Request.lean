import AwaDB.Lib.Codec
import AwaDB.Table.Row

/-!
# Requests as bytes (`c_api/api_data/gamma_request.cc`)

A client builds a `Request` and sends it as a flatbuffer, whose fields are those of
`idl/fbs/request.fbs`. `Serialize` lists the members that it puts into the buffer and `Deserialize` those
that it takes out of it; the buffer has no place for the page texts, the metric and the logic of several
vectors.

* `deserialize_serialize`: what the other side has;
* `SearchReads`: what `GammaEngine::Search` reads of a request;
* `searchReads_iff`: **it reads the same** exactly when the members without a place are as in a new
  request, and nothing was set behind the back of a buffer.
-/

namespace AwaDB

open Lib

/-! ### The buffer -/

namespace GammaApi

/-- The tables of `request.fbs`; a double is its 64 bits. -/
structure TermFilter where
  field : Bytes
  value : Bytes
  isUnion : ℤ
deriving DecidableEq, Repr

structure RangeFilter where
  field : Bytes
  lowerValue : Bytes
  upperValue : Bytes
  includeLower : Bool
  includeUpper : Bool
deriving DecidableEq, Repr

structure VectorQuery where
  name : Bytes
  value : Bytes
  minScore : UInt64
  maxScore : UInt64
  boost : UInt64
  hasBoost : ℤ
  retrievalType : Bytes
deriving DecidableEq, Repr

structure Request where
  reqNum : ℤ
  topn : ℤ
  bruteForceSearch : ℤ
  vecFields : List VectorQuery
  fields : List Bytes
  rangeFilters : List RangeFilter
  termFilters : List TermFilter
  retrievalParams : Bytes
  hasRank : Bool
  onlineLogLevel : Bytes
  multiVectorRank : ℤ
  l2Sqrt : Bool
deriving DecidableEq, Repr

end GammaApi

/-! ### The request -/

namespace Api

structure TermFilter where
  field : Bytes
  value : Bytes
  isUnion : ℤ
deriving DecidableEq, Repr

structure RangeFilter where
  field : Bytes
  lowerValue : Bytes
  upperValue : Bytes
  includeLower : Bool
  includeUpper : Bool
deriving DecidableEq, Repr

structure VectorQuery where
  name : Bytes
  value : Bytes
  minScore : UInt64
  maxScore : UInt64
  boost : UInt64
  hasBoost : ℤ
  retrievalType : Bytes
deriving DecidableEq, Repr

/-- `Request`: `request` is the buffer it was read from, if it was read from one. -/
structure Request where
  request : Option GammaApi.Request
  reqNum_ : ℤ
  topn_ : ℤ
  bruteForceSearch_ : ℤ
  vecFields : List VectorQuery
  pageTexts : List Bytes
  fields : List Bytes
  rangeFilters : List RangeFilter
  termFilters : List TermFilter
  retrievalParams : Bytes
  onlineLogLevel : Bytes
  hasRank : Bool
  multiVectorRank_ : ℤ
  l2Sqrt_ : Bool
  multiVecLogicOp : ℤ
  isL2 : Bool
deriving DecidableEq, Repr

/-- What the constructor leaves unset. -/
structure Unset where
  bruteForceSearch : ℤ
  l2Sqrt : Bool

namespace Request

/-- The constructor. -/
def new (unset : Unset) : Request where
  request := none
  reqNum_ := 0
  topn_ := 0
  bruteForceSearch_ := unset.bruteForceSearch
  vecFields := []
  pageTexts := []
  fields := []
  rangeFilters := []
  termFilters := []
  retrievalParams := []
  onlineLogLevel := []
  hasRank := true
  multiVectorRank_ := 0
  l2Sqrt_ := unset.l2Sqrt
  multiVecLogicOp := 0
  isL2 := false

/-- `ReqNum`; it and its like go to the buffer when there is one. -/
def reqNum (r : Request) : ℤ := r.request.elim r.reqNum_ (·.reqNum)

/-- `TopN`. -/
def topn (r : Request) : ℤ := r.request.elim r.topn_ (·.topn)

/-- `BruteForceSearch`. -/
def bruteForceSearch (r : Request) : ℤ := r.request.elim r.bruteForceSearch_ (·.bruteForceSearch)

/-- `MultiVectorRank`. -/
def multiVectorRank (r : Request) : ℤ := r.request.elim r.multiVectorRank_ (·.multiVectorRank)

/-- `L2Sqrt`. -/
def l2Sqrt (r : Request) : Bool := r.request.elim r.l2Sqrt_ (·.l2Sqrt)

/-- The table that `Serialize` builds. -/
def toTable (r : Request) : GammaApi.Request where
  reqNum := r.reqNum_
  topn := r.topn_
  bruteForceSearch := r.bruteForceSearch_
  vecFields := r.vecFields.map fun q =>
    ⟨q.name, q.value, q.minScore, q.maxScore, q.boost, q.hasBoost, q.retrievalType⟩
  fields := r.fields
  rangeFilters := r.rangeFilters.map fun f =>
    ⟨f.field, f.lowerValue, f.upperValue, f.includeLower, f.includeUpper⟩
  termFilters := r.termFilters.map fun f => ⟨f.field, f.value, f.isUnion⟩
  retrievalParams := r.retrievalParams
  hasRank := r.hasRank
  onlineLogLevel := r.onlineLogLevel
  multiVectorRank := r.multiVectorRank_
  l2Sqrt := r.l2Sqrt_

/-- `Request::Serialize`, with a library of flatbuffers. -/
def serialize {Buffer : Type} (lib : Format GammaApi.Request Buffer) (r : Request) : Buffer :=
  lib.write r.toTable

/-- What `Deserialize` does with the root of a buffer: the lists are appended to. -/
def fromTable (r : Request) (t : GammaApi.Request) : Request :=
  { r with
    request := some t
    reqNum_ := t.reqNum
    topn_ := t.topn
    bruteForceSearch_ := t.bruteForceSearch
    vecFields := r.vecFields ++ t.vecFields.map fun q =>
      ⟨q.name, q.value, q.minScore, q.maxScore, q.boost, q.hasBoost, q.retrievalType⟩
    fields := r.fields ++ t.fields
    rangeFilters := r.rangeFilters ++ t.rangeFilters.map fun f =>
      ⟨f.field, f.lowerValue, f.upperValue, f.includeLower, f.includeUpper⟩
    termFilters := r.termFilters ++ t.termFilters.map fun f => ⟨f.field, f.value, f.isUnion⟩
    retrievalParams := t.retrievalParams
    onlineLogLevel := t.onlineLogLevel
    hasRank := t.hasRank
    multiVectorRank_ := t.multiVectorRank
    l2Sqrt_ := t.l2Sqrt }

/-- `Request::Deserialize` of a new request, as `Search` of the C interface calls it. -/
def deserialize {Buffer : Type} (lib : Format GammaApi.Request Buffer) (unset : Unset)
    (data : Buffer) : Request := (new unset).fromTable (lib.read data)

/-- What `GammaEngine::Search` reads of a request: the logic is read for more than one vector. -/
structure SearchReads where
  reqNum : ℤ
  topn : ℤ
  bruteForceSearch : ℤ
  vecFields : List VectorQuery
  multiVectorRank : ℤ
  l2Sqrt : Bool
  retrievalParams : Bytes
  hasRank : Bool
  metricType : Bool
  mulVecLogicOp : Option ℤ
  rangeFilters : List RangeFilter
  termFilters : List TermFilter
  pageTexts : List Bytes
deriving DecidableEq, Repr

def searchReads (r : Request) : SearchReads where
  reqNum := r.reqNum
  topn := r.topn
  bruteForceSearch := r.bruteForceSearch
  vecFields := r.vecFields
  multiVectorRank := r.multiVectorRank
  l2Sqrt := r.l2Sqrt
  retrievalParams := r.retrievalParams
  hasRank := r.hasRank
  metricType := r.isL2
  mulVecLogicOp := if 1 < r.vecFields.length then some r.multiVecLogicOp else none
  rangeFilters := r.rangeFilters
  termFilters := r.termFilters
  pageTexts := r.pageTexts

/-! ### The round trip -/

variable {Buffer : Type} (lib : Format GammaApi.Request Buffer) (unset : Unset) (r : Request)

/-- **What the other side has**: the members with a place in the buffer, and the others as a new request
has them. -/
theorem deserialize_serialize :
    deserialize lib unset (r.serialize lib) =
      { r with
        request := some r.toTable
        pageTexts := []
        multiVecLogicOp := 0
        isL2 := false } := by
  have hvec : (r.toTable.vecFields.map fun q =>
      (⟨q.name, q.value, q.minScore, q.maxScore, q.boost, q.hasBoost, q.retrievalType⟩ :
        VectorQuery)) = r.vecFields := by
    simp [toTable, Function.comp_def]
  have hrange : (r.toTable.rangeFilters.map fun f =>
      (⟨f.field, f.lowerValue, f.upperValue, f.includeLower, f.includeUpper⟩ : RangeFilter)) =
        r.rangeFilters := by
    simp [toTable, Function.comp_def]
  have hterm : (r.toTable.termFilters.map fun f =>
      (⟨f.field, f.value, f.isUnion⟩ : TermFilter)) = r.termFilters := by
    simp [toTable, Function.comp_def]
  unfold deserialize serialize
  rw [lib.read_write, fromTable, hvec, hrange, hterm]
  simp [new, toTable]

/-- No member was set after the request was read from a buffer. -/
def AsRead (r : Request) : Prop :=
  ∀ t, r.request = some t → t.reqNum = r.reqNum_ ∧ t.topn = r.topn_ ∧
    t.bruteForceSearch = r.bruteForceSearch_ ∧ t.multiVectorRank = r.multiVectorRank_ ∧
    t.l2Sqrt = r.l2Sqrt_

/-- The members without a place in the buffer are as in a new request. -/
def Unplaced (r : Request) : Prop :=
  r.pageTexts = [] ∧ r.isL2 = false ∧ (1 < r.vecFields.length → r.multiVecLogicOp = 0)

theorem asRead_iff : r.AsRead ↔ r.reqNum_ = r.reqNum ∧ r.topn_ = r.topn ∧
    r.bruteForceSearch_ = r.bruteForceSearch ∧ r.multiVectorRank_ = r.multiVectorRank ∧
    r.l2Sqrt_ = r.l2Sqrt := by
  cases hreq : r.request with
  | none => simp [AsRead, reqNum, topn, bruteForceSearch, multiVectorRank, l2Sqrt, hreq]
  | some t =>
    simp only [AsRead, reqNum, topn, bruteForceSearch, multiVectorRank, l2Sqrt, hreq,
      Option.some.injEq, forall_eq', Option.elim_some]
    simp only [eq_comm]

/-- **A request survives** exactly when nothing that `Search` reads is without a place. -/
theorem searchReads_iff :
    (deserialize lib unset (r.serialize lib)).searchReads = r.searchReads ↔
      r.Unplaced ∧ r.AsRead := by
  have hop : ((if 1 < r.vecFields.length then some (0 : ℤ) else none) =
      if 1 < r.vecFields.length then some r.multiVecLogicOp else none) ↔
        (1 < r.vecFields.length → r.multiVecLogicOp = 0) := by
    by_cases hmany : 1 < r.vecFields.length
    · rw [if_pos hmany, if_pos hmany, Option.some.injEq]
      exact ⟨fun h _ => h.symm, fun h => (h hmany).symm⟩
    · rw [if_neg hmany, if_neg hmany]
      exact ⟨fun _ h => absurd h hmany, fun _ => rfl⟩
  rw [deserialize_serialize, asRead_iff, Unplaced, searchReads, searchReads, SearchReads.mk.injEq]
  simp only [hop, true_and]
  show (r.reqNum_ = _ ∧ r.topn_ = _ ∧ r.bruteForceSearch_ = _ ∧ r.multiVectorRank_ = _ ∧
    r.l2Sqrt_ = _ ∧ _ ∧ _ ∧ _) ↔ _
  constructor
  · rintro ⟨hnum, htop, hforce, hrank, hsqrt, hl2, hlogic, htexts⟩
    exact ⟨⟨htexts.symm, hl2.symm, hlogic⟩, hnum, htop, hforce, hrank, hsqrt⟩
  · rintro ⟨⟨htexts, hl2, hlogic⟩, hnum, htop, hforce, hrank, hsqrt⟩
    exact ⟨hnum, htop, hforce, hrank, hsqrt, hl2.symm, hlogic, htexts.symm⟩

/-- **A page text is lost**: a search for documents with a text that asks for the metric L2. -/
theorem page_text_lost :
    let r : Request :=
      { new ⟨0, false⟩ with reqNum_ := 1, topn_ := 5, pageTexts := [[104, 105]], isL2 := true }
    (deserialize (Format.plain _) ⟨0, false⟩ (r.serialize (Format.plain _))).searchReads ≠
      r.searchReads := by
  decide

end Request

end Api

end AwaDB
