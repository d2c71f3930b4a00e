import AwaDB.Engine.KeyIds
import AwaDB.Table.RangeQuery

/-!
# Deleting what a query selects (`GammaEngine::DelDocByQuery`)

A search builds its filters from the range filters and the term filters of a request; the deletion
takes the range filters alone. It sets the bits of the documents it enumerates, and leaves the key
map as it is.

`delDocByQuery_iff` says when the outcome is that of a search; the range indexes are arbitrary.
-/

namespace AwaDB.GammaEngine

/-- `RangeFilter`, as far as it is read. -/
structure RangeFilter where
  field : String
  lowerValue : Bytes
  upperValue : Bytes
deriving DecidableEq, Repr

/-- `TermFilter`. -/
structure TermFilter where
  field : String
  value : Bytes
  isUnion : FilterOperator
deriving DecidableEq, Repr

/-- The filters of a `Request`. -/
structure Request where
  rangeFilters : List RangeFilter
  termFilters : List TermFilter
deriving DecidableEq, Repr

/-- The filters that `DelDocByQuery` builds. -/
def Request.rangeInfos (request : Request) (index : MultiFieldsRangeIndex) : List FilterInfo :=
  request.rangeFilters.map fun filter =>
    ⟨index.attrIdx filter.field, filter.lowerValue, filter.upperValue, .and⟩

/-- The filters that `MultiRangeQuery` builds. -/
def Request.infos (request : Request) (index : MultiFieldsRangeIndex) : List FilterInfo :=
  request.rangeInfos index ++ request.termFilters.map fun filter =>
    ⟨index.attrIdx filter.field, filter.value, [], filter.isUnion⟩

/-- `GammaEngine::Search` lets the document through: without filters, or when `MultiRangeQuery`
returns a negative number, every one. -/
def Request.admits (request : Request) (index : MultiFieldsRangeIndex) (docid : ℕ) : Option Bool :=
  if request.infos index = [] then some true
  else
    (index.search (request.infos index)).map fun r =>
      if r.1 = 0 then false else if r.1 < 0 then true else r.2.has docid

/-- `GammaEngine::DelDocByQuery`. -/
def delDocByRequest (e : GammaEngine) (index : MultiFieldsRangeIndex) (request : Request) :
    Option (ℤ × GammaEngine) :=
  if request.rangeFilters = [] then some (1, e)
  else
    (index.search (request.rangeInfos index)).map fun r =>
      if r.1 = 0 then (1, e) else (0, e.delDocByQuery r.2.toDocs)

/-- The document was added, and is not deleted. -/
def Live (e : GammaEngine) (d : ℕ) : Prop := d < e.maxDocid ∧ e.docidsBitmap.test d = false

/-- Of the documents that are not deleted, those become deleted that a search with the same filters
lets through, and no key leads to them any more. -/
structure DeletesExactly (request : Request) (index : MultiFieldsRangeIndex) (e e' : GammaEngine) :
    Prop where
  deleted : ∀ d, e.Live d →
    (e'.docidsBitmap.test d = true ↔ request.admits index d = some true)
  unmapped : ∀ d, e.Live d → e'.docidsBitmap.test d = true → ∀ k, e'.table.itemToDocid k ≠ some d

/-- The range filters alone select the document: the search returns some documents, and this is one
of them. The bitmap has a bit for it. -/
def Selects (request : Request) (index : MultiFieldsRangeIndex) (e : GammaEngine) (d : ℕ) : Prop :=
  request.rangeFilters ≠ [] ∧ d < e.docidsBitmap.size ∧
    ∃ r, index.search (request.rangeInfos index) = some r ∧ r.2.has d = true

/-! ### What the deletion does -/

theorem test_delDocByQuery (e : GammaEngine) (docids : List ℕ) (d : ℕ) :
    (e.delDocByQuery docids).docidsBitmap.test d = true ↔
      e.docidsBitmap.test d = true ∨ d ∈ docids ∧ d < e.docidsBitmap.size := by
  unfold delDocByQuery
  induction docids generalizing e with
  | nil => simp
  | cons docid docids ih =>
    rw [List.foldl_cons]
    split
    · rename_i hset
      rw [ih, List.mem_cons]
      by_cases hd : d = docid
      · subst hd
        simp [hset]
      · simp [hd]
    · have hsize : (e.markDeleted docid).docidsBitmap.size = e.docidsBitmap.size := by
        show ((e.docidsBitmap.set docid).dump docid 1).size = _
        rw [BitmapManager.size_dump, BitmapManager.size_set]
      have htest : (e.markDeleted docid).docidsBitmap.test d =
          if docid = d ∧ docid < e.docidsBitmap.size then true else e.docidsBitmap.test d := by
        show ((e.docidsBitmap.set docid).dump docid 1).test d = _
        rw [BitmapManager.test_dump, BitmapManager.test_set]
      rw [ih, htest, hsize, List.mem_cons]
      by_cases hd : docid = d
      · subst hd
        by_cases hlt : docid < e.docidsBitmap.size
        · simp [hlt]
        · simp [hlt]
      · simp [hd, Ne.symm hd]

theorem itemToDocid_delDocByQuery (e : GammaEngine) (docids : List ℕ) :
    (e.delDocByQuery docids).table.itemToDocid = e.table.itemToDocid := by
  unfold delDocByQuery
  induction docids generalizing e with
  | nil => rfl
  | cons docid docids ih =>
    rw [List.foldl_cons]
    split
    · exact ih e
    · exact ih (e.markDeleted docid)

section Request

variable {request : Request} {index : MultiFieldsRangeIndex} {e : GammaEngine}
  {r : ℤ × GammaEngine}

theorem rangeInfos_and (request : Request) (index : MultiFieldsRangeIndex) :
    ∀ filter ∈ request.rangeInfos index, filter.isUnion ≠ .not := by
  intro filter hfilter
  obtain ⟨f, -, rfl⟩ := List.mem_map.mp hfilter
  exact nofun

/-- **The deletion**: the selected documents become deleted, and the key map stays. -/
theorem delDocByRequest_spec (hr : e.delDocByRequest index request = some r) :
    r.2.table.itemToDocid = e.table.itemToDocid ∧
      ∀ d : ℕ, (d : ℤ) ≤ intMax → (r.2.docidsBitmap.test d = true ↔
        e.docidsBitmap.test d = true ∨ Selects request index e d) := by
  unfold delDocByRequest at hr
  split at hr
  · rename_i hnone
    cases hr
    exact ⟨rfl, fun d _ => ⟨.inl, fun hor => hor.resolve_right fun hsel => hsel.1 hnone⟩⟩
  · rename_i hsome
    obtain ⟨s, hs, rfl⟩ := Option.map_eq_some_iff.mp hr
    obtain ⟨hsingle, hclear⟩ := MultiFieldsRangeIndex.search_single (rangeInfos_and request index) hs
    have hselects : ∀ d, Selects request index e d ↔
        s.2.has d = true ∧ d < e.docidsBitmap.size := by
      intro d
      constructor
      · intro hsel
        obtain ⟨-, hlt, s', hs', hhas⟩ := hsel
        rw [hs] at hs'
        cases hs'
        exact ⟨hhas, hlt⟩
      · exact fun hsel => ⟨hsome, hsel.2, s, hs, hsel.1⟩
    by_cases hzero : s.1 = 0
    · rw [if_pos hzero]
      refine ⟨rfl, fun d _ => ⟨.inl, fun hor => hor.resolve_right fun hsel => ?_⟩⟩
      have hhas := ((hselects d).mp hsel).1
      rw [hclear (Int.le_of_eq hzero)] at hhas
      cases hhas
    · rw [if_neg hzero]
      refine ⟨itemToDocid_delDocByQuery _ _, fun d hmax => ?_⟩
      rw [test_delDocByQuery, MultiFieldsRangeIndex.mem_toDocs hsingle hmax, hselects]

/-- **The deletion has the outcome of a search** exactly when, of the documents that are not
deleted, the range filters alone select those that all filters let through, and no key leads to one
of them. -/
theorem delDocByRequest_iff (hmax : (e.maxDocid : ℤ) ≤ intMax)
    (hr : e.delDocByRequest index request = some r) :
    DeletesExactly request index e r.2 ↔
      (∀ d, e.Live d → (Selects request index e d ↔ request.admits index d = some true)) ∧
        ∀ d, e.Live d → Selects request index e d → ∀ k, e.table.itemToDocid k ≠ some d := by
  obtain ⟨hkeys, htest⟩ := delDocByRequest_spec hr
  have hdeleted : ∀ d, e.Live d →
      (r.2.docidsBitmap.test d = true ↔ Selects request index e d) := by
    intro d hlive
    have hlt := hlive.1
    rw [htest d (by omega), hlive.2]
    exact ⟨fun hor => hor.resolve_left Bool.false_ne_true, .inr⟩
  constructor
  · intro h
    refine ⟨fun d hlive => ?_, fun d hlive hsel => ?_⟩
    · rw [← hdeleted d hlive]
      exact h.deleted d hlive
    · rw [← hkeys]
      exact h.unmapped d hlive ((hdeleted d hlive).mpr hsel)
  · intro h
    refine ⟨fun d hlive => ?_, fun d hlive hbit => ?_⟩
    · rw [hdeleted d hlive]
      exact h.1 d hlive
    · rw [hkeys]
      exact h.2 d hlive ((hdeleted d hlive).mp hbit)

/-- Where every document that is not deleted has a key, the deletion has the outcome of a search
only when there is nothing to delete. -/
theorem DeletesExactly.nothing (hmax : (e.maxDocid : ℤ) ≤ intMax)
    (hr : e.delDocByRequest index request = some r)
    (hkeys : ∀ d, e.Live d → ∃ k, e.table.itemToDocid k = some d)
    (h : DeletesExactly request index e r.2) :
    ∀ d, e.Live d → request.admits index d ≠ some true := by
  obtain ⟨hsame, hnone⟩ := (delDocByRequest_iff hmax hr).mp h
  intro d hlive hadmits
  obtain ⟨k, hk⟩ := hkeys d hlive
  exact hnone d hlive ((hsame d hlive).mpr hadmits) k hk

end Request

/-! ### A small index -/

/-- The index of a number and of a tag, of which document 0 has the number 1 and the tag `120`. -/
def smallIndex : MultiFieldsRangeIndex where
  attrIdx := fun name => if name = "n" then 0 else if name = "s" then 1 else -1
  fields := [(FieldRangeIndex.create .int).add [1, 0, 0, 0] 0,
    (FieldRangeIndex.create .string).add [120] 0]

/-- The documents with the number `n` and, when `tags` has any, one of its tags. -/
def smallRequest (n : UInt8) (tags : List Bytes) : Request where
  rangeFilters := [⟨"n", [n, 0, 0, 0], [n, 0, 0, 0]⟩]
  termFilters := tags.map fun tag => ⟨"s", tag, .or⟩

/-- The engine with one document. -/
theorem small_engine : ∃ e, stepOp firstByte (.addOrUpdate (byteDoc 97 [0, 0, 0, 0]))
    (create keySchema [wordVector]) = some e ∧ e.maxDocid = 1 ∧ e.docidsBitmap.test 0 = false ∧
      e.table.itemToDocid 97 = some 0 ∧ e.docidsBitmap.size = initBitmapSize := by
  have hrun : ((stepOp firstByte (.addOrUpdate (byteDoc 97 [0, 0, 0, 0]))
      (create keySchema [wordVector])).map fun e =>
        (e.maxDocid, e.docidsBitmap.test 0, e.table.itemToDocid 97,
          e.docidsBitmap.size)) =
      some (1, false, some 0, initBitmapSize) := by decide +kernel
  obtain ⟨e, he, hfacts⟩ := Option.map_eq_some_iff.mp hrun
  simp only [Prod.mk.injEq] at hfacts
  exact ⟨e, he, hfacts⟩

/-- The deletion is defined when the search is. -/
theorem delDocByRequest_of_search {e : GammaEngine} {index : MultiFieldsRangeIndex}
    {request : Request} {s : ℤ × MultiRangeQueryResults} (hne : request.rangeFilters ≠ [])
    (hs : index.search (request.rangeInfos index) = some s) :
    ∃ r, e.delDocByRequest index request = some r := by
  unfold delDocByRequest
  rw [if_neg hne, hs]
  exact ⟨_, rfl⟩

/-- What the range filter of `smallRequest` finds. -/
theorem search_small (n : UInt8) (tags : List Bytes) {b : Bool}
    (heval : (smallIndex.search ((smallRequest n []).rangeInfos smallIndex)).map
      (fun s => s.2.has 0) = some b) :
    ∃ s, smallIndex.search ((smallRequest n tags).rangeInfos smallIndex) = some s ∧
      s.2.has 0 = b := by
  obtain ⟨s, hs, hhas⟩ := Option.map_eq_some_iff.mp heval
  exact ⟨s, hs, hhas⟩

/-- **The deletion ignores the term filters, and keeps the keys.** Document 0 does not have the tag
`121`, and is deleted; and its key still leads to it. -/
theorem term_filters_ignored :
    ∃ e, stepOp firstByte (.addOrUpdate (byteDoc 97 [0, 0, 0, 0]))
        (create keySchema [wordVector]) = some e ∧
      (∃ r, e.delDocByRequest smallIndex (smallRequest 1 [[121]]) = some r ∧
        ¬ DeletesExactly (smallRequest 1 [[121]]) smallIndex e r.2) ∧
      ∃ r, e.delDocByRequest smallIndex (smallRequest 1 []) = some r ∧
        ¬ DeletesExactly (smallRequest 1 []) smallIndex e r.2 := by
  obtain ⟨e, he, hmax, hbit, hkey, hsize⟩ := small_engine
  have hlive : e.Live 0 := ⟨by rw [hmax]; exact Nat.one_pos, hbit⟩
  have hselects : ∀ tags, Selects (smallRequest 1 tags) smallIndex e 0 := by
    intro tags
    exact ⟨List.cons_ne_nil _ _, by rw [hsize]; decide, search_small 1 tags (by decide +kernel)⟩
  have hdefined : ∀ tags, ∃ r, e.delDocByRequest smallIndex (smallRequest 1 tags) = some r := by
    intro tags
    obtain ⟨s, hs, -⟩ := search_small 1 tags (b := true) (by decide +kernel)
    exact delDocByRequest_of_search (List.cons_ne_nil _ _) hs
  refine ⟨e, he, ?_, ?_⟩
  · obtain ⟨r, hr⟩ := hdefined [[121]]
    refine ⟨r, hr, fun hexact => ?_⟩
    have hnone : (smallRequest 1 [[121]]).admits smallIndex 0 = some false := by decide +kernel
    have hadmits := ((delDocByRequest_spec hr).2 0 (by decide)).mpr (.inr (hselects _))
    rw [hexact.deleted 0 hlive, hnone] at hadmits
    cases hadmits
  · obtain ⟨r, hr⟩ := hdefined []
    refine ⟨r, hr, fun hexact => ?_⟩
    have hmarked := ((delDocByRequest_spec hr).2 0 (by decide)).mpr (.inr (hselects _))
    apply hexact.unmapped 0 hlive hmarked 97
    rw [(delDocByRequest_spec hr).1]
    exact hkey

theorem delDocByRequest_iff_small :
    ∃ e, stepOp firstByte (.addOrUpdate (byteDoc 97 [0, 0, 0, 0]))
        (create keySchema [wordVector]) = some e ∧
      ∃ r, e.delDocByRequest smallIndex (smallRequest 2 []) = some r ∧
        DeletesExactly (smallRequest 2 []) smallIndex e r.2 := by
  obtain ⟨e, he, hmax, hbit, hkey, hsize⟩ := small_engine
  obtain ⟨s, hs, hhas⟩ := search_small 2 [] (b := false) (by decide +kernel)
  obtain ⟨r, hr⟩ := delDocByRequest_of_search (e := e) (List.cons_ne_nil _ _) hs
  have hnot : ¬ Selects (smallRequest 2 []) smallIndex e 0 := by
    intro hsel
    obtain ⟨-, -, s', hs', hhas'⟩ := hsel
    rw [hs] at hs'
    cases hs'
    exact absurd (hhas.symm.trans hhas') (by decide)
  have hzero : ∀ d, e.Live d → d = 0 := by
    intro d hlive
    have hlt := hlive.1
    omega
  have hnone : (smallRequest 2 []).admits smallIndex 0 = some false := by decide +kernel
  refine ⟨e, he, r, hr, (delDocByRequest_iff (by rw [hmax]; decide) hr).mpr ⟨?_, ?_⟩⟩
  · intro d hlive
    rw [hzero d hlive, hnone]
    exact iff_of_false hnot (by decide)
  · intro d hlive hsel
    rw [hzero d hlive] at hsel
    exact absurd hsel hnot

end AwaDB.GammaEngine
