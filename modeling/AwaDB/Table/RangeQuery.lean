import AwaDB.Table.FieldRangeIndex

/-!
# Searching the range indexes (`MultiFieldsRangeIndex::Search`, `table/range_query_result.h`)

A search asks the index of each field, and combines the results. A `RangeQueryResult` is a bitmap
over a range of document ids, or its complement; a `MultiRangeQueryResults` is a conjunction of
them. The callers read the return value: positive, the documents that `has` accepts; 0, none;
negative, all.

A function returns `none` where the source has no defined behaviour.
-/

namespace AwaDB

/-- `FilterOperator`. -/
inductive FilterOperator where
  | and
  | or
  | not
deriving DecidableEq, Repr

/-- `FilterInfo`. -/
structure FilterInfo where
  field : ℤ
  lowerValue : Bytes
  upperValue : Bytes
  isUnion : FilterOperator
deriving DecidableEq, Repr

/-- `RangeQueryResult`. -/
structure RangeQueryResult where
  min : ℤ
  max : ℤ
  minAligned : ℤ
  maxAligned : ℤ
  nDoc : ℤ
  bitmap : Bits
  notIn : Bool
deriving DecidableEq, Repr

namespace RangeQueryResult

/-- A result after `Clear`; the aligned bounds are set with the range. -/
def clear : RangeQueryResult where
  min := intMax
  max := 0
  minAligned := 0
  maxAligned := 0
  nDoc := -1
  bitmap := []
  notIn := false

/-- `RangeQueryResult::SetRange` and `Resize`. -/
def ofRange (x y : ℤ) : RangeQueryResult :=
  let min := Min.min clear.min x
  let max := Max.max clear.max y
  let minAligned := min / 8 * 8
  let maxAligned := (max / 8 + 1) * 8 - 1
  { clear with
    min := min
    max := max
    minAligned := minAligned
    maxAligned := maxAligned
    bitmap := Bits.create (maxAligned - minAligned + 1).toNat }

/-- `RangeQueryResult::Has`. -/
def has (r : RangeQueryResult) (doc : ℤ) : Bool :=
  if doc < r.min ∨ r.max < doc then r.notIn
  else r.notIn != r.bitmap.test (doc - r.minAligned).toNat

/-- The bitmap of a range from one word boundary to the next. -/
theorem bitmap_ofRange {lo hi : ℤ} (hzero : 0 ≤ lo) (hle : lo ≤ hi) (hfits : hi < intMax)
    (hstart : lo % 64 = 0) (hstop : (hi + 1) % 64 = 0) :
    (ofRange lo hi).bitmap = Bits.create (hi - lo + 1).toNat := by
  have hmin : Min.min intMax lo = lo := min_eq_right (by omega)
  have hmax : Max.max 0 hi = hi := max_eq_right (by omega)
  have hbitmap : (ofRange lo hi).bitmap =
      Bits.create ((Max.max 0 hi / 8 + 1) * 8 - 1 - Min.min intMax lo / 8 * 8 + 1).toNat := rfl
  have hsame : (hi / 8 + 1) * 8 - 1 - lo / 8 * 8 + 1 = hi - lo + 1 := by omega
  rw [hbitmap, hmin, hmax, hsame]

end RangeQueryResult

/-- `MultiRangeQueryResults`. -/
structure MultiRangeQueryResults where
  min : ℤ
  max : ℤ
  allResults : List RangeQueryResult
deriving DecidableEq, Repr

namespace MultiRangeQueryResults

/-- `MultiRangeQueryResults::Clear`. -/
def clear : MultiRangeQueryResults where
  min := 0
  max := intMax
  allResults := []

/-- `MultiRangeQueryResults::Add`. -/
def add (out : MultiRangeQueryResults) (result : RangeQueryResult) : MultiRangeQueryResults where
  min := Max.max out.min result.min
  max := Min.min out.max result.max
  allResults := out.allResults ++ [result]

/-- `MultiRangeQueryResults::Has` without a text filter. -/
def has (out : MultiRangeQueryResults) (doc : ℤ) : Bool :=
  if out.allResults = [] then false else out.allResults.all fun result => result.has doc

/-- `MultiRangeQueryResults::ToDocs`; its ids are not negative. -/
def toDocs (out : MultiRangeQueryResults) : List ℕ :=
  out.allResults.flatMap fun result =>
    ((List.range (out.max - out.min + 1).toNat).map fun i => (out.min + i).toNat).filter
      fun id => result.has id

end MultiRangeQueryResults

/-! ### One field -/

namespace BTree

/-- The nodes that a scan from one key to another visits. -/
def nodesBetween (t : BTree) (lower upper : Bytes) : List Node :=
  (t.entries.filter fun entry => lower ≤ entry.1 ∧ entry.1 ≤ upper).map Sigma.snd

end BTree

namespace FieldRangeIndex

/-- The loop body of `Search` over numbers: the bits of a node, and the count. -/
def collect (minDoc maxDoc minAligned maxAligned : ℤ) (s : Bits × ℤ) (list : Node) : Bits × ℤ :=
  match list.data with
  | .dense bitmap =>
    if list.minAligned < minAligned ∨ list.maxAligned > maxAligned then s
    else (Bits.orWords s.1 bitmap ((list.minAligned - minAligned) / 64).toNat 0 list.words,
      s.2 + list.size)
  | .sparse docs =>
    if list.min < minDoc ∨ list.max > maxDoc then s
    else (docs.foldl (fun bits (doc : ℕ) => bits.set (doc - minAligned).toNat true) s.1,
      s.2 + list.size)

/-- `FieldRangeIndex::Search` over numbers. -/
def searchNumeric (i : FieldRangeIndex) (lower upper : Bytes) : Option (ℤ × RangeQueryResult) :=
  (reverseEndian lower).bind fun keyL =>
    (reverseEndian upper).map fun keyU =>
      let lists := i.tree.nodesBetween keyL keyU
      let minDoc := lists.foldl (fun m list => min m list.min) intMax
      let minAligned := lists.foldl (fun m list => min m list.minAligned) intMax
      let maxDoc := lists.foldl (fun m list => max m list.max) 0
      let maxAligned := lists.foldl (fun m list => max m list.maxAligned) 0
      if maxDoc - minDoc + 1 ≤ 0 then (0, .clear)
      else
        let result := RangeQueryResult.ofRange minAligned maxAligned
        let filled := lists.foldl (collect minDoc maxDoc minAligned maxAligned) (result.bitmap, 0)
        (maxDoc - minDoc + 1, { result with bitmap := filled.1, nDoc := filled.2 })

/-- The loop body of `Search` over tags. A bitmap that starts below or ends above the range, as that
of a node which was emptied may, is read and written outside of the result. -/
def collectTag (minDoc maxDoc : ℤ) (list : Node) (s : Bits × ℤ) : Option (Bits × ℤ) :=
  match list.data with
  | .dense bitmap =>
    if list.minAligned < minDoc ∨ list.maxAligned > maxDoc then none
    else some (Bits.orWords s.1 bitmap ((list.minAligned - minDoc) / 64).toNat 0 list.words,
      s.2 + list.size)
  | .sparse docs =>
    some (docs.foldl (fun bits (doc : ℕ) => bits.set (doc - minDoc).toNat true) s.1,
      s.2 + list.size)

/-- `FieldRangeIndex::Search` over tags. -/
def searchTags (i : FieldRangeIndex) (tags : Bytes) : Option (ℤ × RangeQueryResult) :=
  let nodes := (split tags).filterMap i.tree.lookup
  let filled := nodes.filter fun list => list.size > 0
  let minDoc := filled.foldl (fun m list => min m list.minAligned) intMax
  let maxDoc := filled.foldl (fun m list => max m list.maxAligned) 0
  if maxDoc - minDoc + 1 ≤ 0 then some (0, .clear)
  else
    let result := RangeQueryResult.ofRange minDoc maxDoc
    (Lib.runOps (collectTag minDoc maxDoc) nodes (result.bitmap, 0)).map fun s =>
      (s.2, { result with bitmap := s.1, nDoc := s.2 })

/-- `FieldRangeIndex::Search`. -/
def search (i : FieldRangeIndex) (lower upper : Bytes) : Option (ℤ × RangeQueryResult) :=
  if i.isNumeric then i.searchNumeric lower upper else i.searchTags lower

end FieldRangeIndex

/-! ### Several fields -/

/-- `MultiFieldsRangeIndex`, with `table_->GetAttrIdx`. A field that is not indexed has no index. -/
structure MultiFieldsRangeIndex where
  attrIdx : String → ℤ
  fields : List (Option FieldRangeIndex)

namespace MultiFieldsRangeIndex

/-- The first loop of `Search`: a conjunction over a string field becomes a filter for each of its
tags. The inner `none` is the return value -1. -/
def splitFilters (m : MultiFieldsRangeIndex) :
    List FilterInfo → Option (Option (List (FieldRangeIndex × FilterInfo)))
  | [] => some (some [])
  | filter :: filters =>
    if filter.field < 0 then some none
    else
      match m.fields[filter.field.toNat]? with
      | none => none
      | some none => some none
      | some (some index) =>
        let own :=
          if ¬ index.isNumeric ∧ filter.isUnion = .and then
            (split filter.lowerValue).map fun item => (index, { filter with lowerValue := item })
          else [(index, filter)]
        (m.splitFilters filters).map fun rest => rest.map (own ++ ·)

/-- `Search` with one filter. -/
def searchOne (index : FieldRangeIndex) (filter : FilterInfo) :
    Option (ℤ × MultiRangeQueryResults) :=
  (index.search filter.lowerValue filter.upperValue).map fun r =>
    if r.1 > 0 then
      (r.1, MultiRangeQueryResults.clear.add
        (if filter.isUnion = .not then { r.2 with notIn := true } else r.2))
    else (if filter.isUnion = .not then -1 else r.1, .clear)

/-- The variables of the loop in `Search`: `results`, `out`, and `shortest` with `shortest_idx`. -/
structure Gathered where
  results : List RangeQueryResult
  out : MultiRangeQueryResults
  shortest : ℤ
  shortestIdx : ℕ

/-- The loop in `Search`. The inner `none` is the return value 0. -/
def gather : List (FieldRangeIndex × FilterInfo) → Gathered → Option (Option Gathered)
  | [], g => some (some g)
  | (index, filter) :: filters, g =>
    (index.search filter.lowerValue filter.upperValue).bind fun r =>
      if r.1 < 0 then gather filters g
      else if r.1 = 0 then
        if filter.isUnion = .not then gather filters g else some none
      else if filter.isUnion = .not then
        gather filters { g with out := g.out.add { r.2 with notIn := true } }
      else
        gather filters { g with
          results := g.results ++ [r.2]
          shortest := if g.shortest > r.1 then r.1 else g.shortest
          shortestIdx := if g.shortest > r.1 then g.results.length else g.shortestIdx }

/-- One round of the second loop of `Intersect`. -/
def intersectWith (minDoc maxDoc : ℤ) (dst : Bits) (r : RangeQueryResult) : Bits :=
  if r.minAligned < minDoc then
    let offset := ((minDoc - r.minAligned) / 64).toNat
    Bits.andWords dst r.bitmap 0 offset
      (((if r.maxAligned > maxDoc then maxDoc else r.maxAligned) - minDoc + 1) / 64).toNat
  else
    let offset := ((r.minAligned - minDoc) / 64).toNat
    Bits.andWords dst r.bitmap offset 0
      (((if r.maxAligned > maxDoc then maxDoc else r.maxAligned) - minDoc + 1) / 64).toNat

/-- `MultiFieldsRangeIndex::Intersect` of at least one result. -/
def intersect (results : List RangeQueryResult) (shortestIdx : ℕ) : ℤ × RangeQueryResult :=
  let total := (results.headD .clear).nDoc
  let minDoc := results.foldl (fun m r => max m r.minAligned) (-intMax - 1)
  let maxDoc := results.foldl (fun m r => min m r.maxAligned) intMax
  if maxDoc - minDoc + 1 ≤ 0 then (0, .clear)
  else
    let out := RangeQueryResult.ofRange minDoc maxDoc
    let first := results.getD shortestIdx .clear
    let bits := Bits.copyWords out.bitmap first.bitmap 0
      ((minDoc - first.minAligned) / 64).toNat ((maxDoc - minDoc + 1) / 64).toNat
    (total, { out with
      nDoc := total
      bitmap := (results.eraseIdx shortestIdx).foldl (intersectWith minDoc maxDoc) bits })

/-- The end of `Search`. -/
def conclude (g : Gathered) : ℤ × MultiRangeQueryResults :=
  if g.results = [] then (if g.out.allResults = [] then -1 else 1, g.out)
  else
    let r := intersect g.results g.shortestIdx
    (r.1, if r.1 > 0 then g.out.add r.2 else g.out)

/-- `MultiFieldsRangeIndex::Search`. -/
def search (m : MultiFieldsRangeIndex) (filters : List FilterInfo) :
    Option (ℤ × MultiRangeQueryResults) :=
  (m.splitFilters filters).bind fun
    | none => some (-1, .clear)
    | some [(index, filter)] => searchOne index filter
    | some filters =>
      (gather filters ⟨[], .clear, intMax, 0⟩).map fun
        | none => (0, .clear)
        | some g => conclude g

/-! ### Searches without `Not` -/

/-- The result of a search without `Not` is one bitmap, if there is any. -/
def Single (out : MultiRangeQueryResults) : Prop :=
  out = .clear ∨ ∃ r : RangeQueryResult, out = MultiRangeQueryResults.clear.add r ∧ r.notIn = false

theorem notIn_search {index : FieldRangeIndex} {lower upper : Bytes} {r : ℤ × RangeQueryResult}
    (h : index.search lower upper = some r) : r.2.notIn = false := by
  unfold FieldRangeIndex.search at h
  split at h
  · unfold FieldRangeIndex.searchNumeric at h
    obtain ⟨keyL, -, h⟩ := Option.bind_eq_some_iff.mp h
    obtain ⟨keyU, -, rfl⟩ := Option.map_eq_some_iff.mp h
    dsimp only
    split <;> rfl
  · unfold FieldRangeIndex.searchTags at h
    dsimp only at h
    split at h
    · cases h
      rfl
    · obtain ⟨s, -, rfl⟩ := Option.map_eq_some_iff.mp h
      rfl

theorem notIn_intersect (results : List RangeQueryResult) (shortestIdx : ℕ) :
    (intersect results shortestIdx).2.notIn = false := by
  unfold intersect
  dsimp only
  split <;> rfl

/-- Splitting keeps the operators. -/
theorem splitFilters_isUnion {m : MultiFieldsRangeIndex} {filters : List FilterInfo}
    {pairs : List (FieldRangeIndex × FilterInfo)}
    (h : m.splitFilters filters = some (some pairs)) :
    ∀ p ∈ pairs, ∃ filter ∈ filters, p.2.isUnion = filter.isUnion := by
  induction filters generalizing pairs with
  | nil =>
    cases h
    exact fun p hp => absurd hp List.not_mem_nil
  | cons filter filters ih =>
    rw [splitFilters] at h
    split at h
    · cases h
    · split at h
      · cases h
      · cases h
      · rename_i index hindex
        obtain ⟨rest, hrest, hpairs⟩ := Option.map_eq_some_iff.mp h
        obtain ⟨rest', rfl, rfl⟩ := Option.map_eq_some_iff.mp hpairs
        intro p hp
        cases List.mem_append.mp hp with
        | inl hp =>
          refine ⟨filter, List.mem_cons_self, ?_⟩
          split at hp
          · obtain ⟨item, -, rfl⟩ := List.mem_map.mp hp
            rfl
          · rw [List.mem_singleton.mp hp]
        | inr hp =>
          obtain ⟨filter', hmem, heq⟩ := ih hrest p hp
          exact ⟨filter', List.mem_cons_of_mem filter hmem, heq⟩

/-- Without `Not`, the loop leaves `out` alone. -/
theorem gather_out {pairs : List (FieldRangeIndex × FilterInfo)} {g g' : Gathered}
    (hand : ∀ p ∈ pairs, p.2.isUnion ≠ .not) (h : gather pairs g = some (some g')) :
    g'.out = g.out := by
  induction pairs generalizing g with
  | nil =>
    cases h
    rfl
  | cons p pairs ih =>
    obtain ⟨index, filter⟩ := p
    have hnot : filter.isUnion ≠ .not := hand (index, filter) List.mem_cons_self
    have hrest : ∀ p ∈ pairs, p.2.isUnion ≠ .not :=
      fun p hp => hand p (List.mem_cons_of_mem _ hp)
    rw [gather] at h
    obtain ⟨r, -, h⟩ := Option.bind_eq_some_iff.mp h
    split at h
    · exact ih hrest h
    · split at h
      · cases h
      · have hout := ih hrest h
        exact hout

/-- **Searching without `Not`**: there is a result when the return value is positive. -/
theorem search_single {m : MultiFieldsRangeIndex} {filters : List FilterInfo}
    {r : ℤ × MultiRangeQueryResults} (hand : ∀ filter ∈ filters, filter.isUnion ≠ .not)
    (h : m.search filters = some r) : Single r.2 ∧ (r.1 ≤ 0 → r.2 = .clear) := by
  unfold search at h
  obtain ⟨pairs?, hpairs, h⟩ := Option.bind_eq_some_iff.mp h
  split at h
  · cases h
    exact ⟨.inl rfl, fun _ => rfl⟩
  · rename_i index filter
    obtain ⟨filter', hmem, heq⟩ := splitFilters_isUnion hpairs (index, filter) List.mem_cons_self
    have hnot : filter.isUnion ≠ .not := heq ▸ hand filter' hmem
    obtain ⟨q, hq, rfl⟩ := Option.map_eq_some_iff.mp h
    rw [if_neg hnot, if_neg hnot]
    split
    · rename_i hpos
      exact ⟨.inr ⟨q.2, rfl, notIn_search hq⟩, fun hle => absurd hle (Int.not_le.mpr hpos)⟩
    · exact ⟨.inl rfl, fun _ => rfl⟩
  · rename_i pairs hne
    have hnot : ∀ p ∈ pairs, p.2.isUnion ≠ .not := by
      intro p hp
      obtain ⟨filter', hmem, heq⟩ := splitFilters_isUnion hpairs p hp
      exact heq ▸ hand filter' hmem
    obtain ⟨g?, hg, rfl⟩ := Option.map_eq_some_iff.mp h
    cases g? with
    | none => exact ⟨.inl rfl, fun _ => rfl⟩
    | some g =>
      have hout : g.out = .clear := gather_out hnot hg
      show Single (conclude g).2 ∧ ((conclude g).1 ≤ 0 → (conclude g).2 = .clear)
      unfold conclude
      split
      · exact ⟨.inl hout, fun _ => hout⟩
      · dsimp only
        split
        · rename_i hpos
          exact ⟨.inr ⟨_, by rw [hout], notIn_intersect _ _⟩,
            fun hle => absurd hle (Int.not_le.mpr hpos)⟩
        · exact ⟨.inl hout, fun _ => hout⟩

/-- **A single bitmap is enumerated as it is tested.** -/
theorem mem_toDocs {out : MultiRangeQueryResults} (h : Single out) {doc : ℕ}
    (hmax : (doc : ℤ) ≤ intMax) : doc ∈ out.toDocs ↔ out.has doc = true := by
  cases h with
  | inl hclear =>
    rw [hclear]
    exact ⟨fun hmem => absurd hmem List.not_mem_nil, fun hhas => by cases hhas⟩
  | inr hsingle =>
    obtain ⟨r, rfl, hin⟩ := hsingle
    have hhas : (MultiRangeQueryResults.clear.add r).has doc = r.has doc := by
      simp [MultiRangeQueryResults.has, MultiRangeQueryResults.add, MultiRangeQueryResults.clear]
    have hrange : r.has doc = true → r.min ≤ doc ∧ (doc : ℤ) ≤ r.max := by
      intro hdoc
      unfold RangeQueryResult.has at hdoc
      by_contra hout
      rw [if_pos (by omega), hin] at hdoc
      cases hdoc
    have hmem : doc ∈ (MultiRangeQueryResults.clear.add r).toDocs ↔
        (∃ i, i < (min intMax r.max - max 0 r.min + 1).toNat ∧ (max 0 r.min + i).toNat = doc) ∧
          r.has doc = true := by
      simp [MultiRangeQueryResults.toDocs, MultiRangeQueryResults.add, MultiRangeQueryResults.clear,
        List.mem_filter]
    rw [hmem, hhas]
    refine ⟨fun hdoc => hdoc.2, fun hdoc => ⟨⟨(doc - max 0 r.min).toNat, ?_, ?_⟩, hdoc⟩⟩
    · have hle := hrange hdoc
      omega
    · have hle := hrange hdoc
      omega

end MultiFieldsRangeIndex

end AwaDB
