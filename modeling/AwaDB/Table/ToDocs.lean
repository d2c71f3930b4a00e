import AwaDB.Table.RangeQuery

/-!
# Enumerating a conjunction (`MultiRangeQueryResults::ToDocs`, `table/range_query_result.cc`)

`Has` is the conjunction of the parts. `ToDocs` goes through the common window once for each part, and
appends what that part admits: it is the conjunction only where there is one part, which admits nothing
outside of its window, or where there is nothing to append and nothing to admit.

* `Enumerates`: the list is strictly increasing, and has the documents that `Has` admits;
* `enumerates_iff`: when that is so;
* `appended`: two parts that admit one document each.
-/

namespace AwaDB.MultiRangeQueryResults

/-- The parts that `Add` was called with, in this order. -/
def ofResults (results : List RangeQueryResult) : MultiRangeQueryResults :=
  results.foldl add clear

/-- **Enumerating agrees with testing**, for the docids of an `int`. -/
def Enumerates (out : MultiRangeQueryResults) : Prop :=
  out.toDocs.Pairwise (· < ·) ∧
    ∀ doc : ℕ, (doc : ℤ) ≤ intMax → (doc ∈ out.toDocs ↔ out.has doc = true)

/-- No part; or one that is not negated; or several that have no document in the common window, and
none in common. -/
def Enumerable : List RangeQueryResult → Prop
  | [] => True
  | [r] => r.notIn = false
  | results =>
    (∀ r ∈ results, ∀ doc : ℕ, (ofResults results).min ≤ doc → (doc : ℤ) ≤ (ofResults results).max →
      r.has doc = false) ∧
    ∀ doc : ℕ, (doc : ℤ) ≤ intMax → ∃ r ∈ results, r.has doc = false

/-! ### The window -/

/-- The loop over the window. -/
def ids (out : MultiRangeQueryResults) : List ℕ :=
  (List.range (out.max - out.min + 1).toNat).map fun i : ℕ => (out.min + i).toNat

variable {out : MultiRangeQueryResults} {results : List RangeQueryResult} {r : RangeQueryResult}

theorem toDocs_eq (out : MultiRangeQueryResults) :
    out.toDocs = out.allResults.flatMap fun r => out.ids.filter fun id : ℕ => r.has id := by
  simp [toDocs, ids, ← List.map_eq_flatMap, Function.comp_def]

theorem mem_ids (hmin : 0 ≤ out.min) {doc : ℕ} :
    doc ∈ out.ids ↔ out.min ≤ doc ∧ (doc : ℤ) ≤ out.max := by
  rw [ids, List.mem_map]
  constructor
  · rintro ⟨i, hi, rfl⟩
    rw [List.mem_range] at hi
    omega
  · rintro ⟨hlow, hhigh⟩
    refine ⟨(doc - out.min).toNat, ?_, ?_⟩
    · rw [List.mem_range]
      omega
    · omega

theorem pairwise_ids (hmin : 0 ≤ out.min) : out.ids.Pairwise (· < ·) := by
  rw [ids, List.pairwise_map]
  apply List.Pairwise.imp _ List.pairwise_lt_range
  intro i j hij
  omega

theorem ofResults_append (results : List RangeQueryResult) (r : RangeQueryResult) :
    ofResults (results ++ [r]) = (ofResults results).add r := by
  rw [ofResults, List.foldl_append]
  rfl

theorem allResults_ofResults (results : List RangeQueryResult) :
    (ofResults results).allResults = results := by
  induction results using List.reverseRecOn with
  | nil => rfl
  | append_singleton results r ih => rw [ofResults_append, add, ih]

theorem min_ofResults (results : List RangeQueryResult) : 0 ≤ (ofResults results).min := by
  induction results using List.reverseRecOn with
  | nil => exact le_refl _
  | append_singleton results r ih =>
    rw [ofResults_append]
    exact ih.trans (le_max_left _ _)

theorem max_ofResults (results : List RangeQueryResult) : (ofResults results).max ≤ intMax := by
  induction results using List.reverseRecOn with
  | nil => exact le_refl _
  | append_singleton results r ih =>
    rw [ofResults_append]
    exact (min_le_left _ _).trans ih

theorem has_ofResults (hne : results ≠ []) (doc : ℤ) :
    (ofResults results).has doc = true ↔ ∀ r ∈ results, r.has doc = true := by
  rw [has, allResults_ofResults, if_neg hne, List.all_eq_true]

/-! ### One part, and several -/

/-- What a part admits that is not negated lies in its window. -/
theorem has_window (hin : r.notIn = false) {doc : ℤ} (h : r.has doc = true) :
    r.min ≤ doc ∧ doc ≤ r.max := by
  rw [RangeQueryResult.has] at h
  by_contra hout
  rw [if_pos (by omega), hin] at h
  cases h

theorem enumerates_singleton (hmax : r.max < intMax) :
    (ofResults [r]).Enumerates ↔ r.notIn = false := by
  have hmin := min_ofResults [r]
  have hdocs : (ofResults [r]).toDocs = (ofResults [r]).ids.filter fun id : ℕ => r.has id := by
    rw [toDocs_eq, allResults_ofResults, List.flatMap_singleton]
  have hhas : ∀ doc : ℕ, (ofResults [r]).has doc = true ↔ r.has doc = true := by
    intro doc
    rw [has_ofResults (List.cons_ne_nil _ _), List.forall_mem_singleton]
  constructor
  · rintro ⟨-, hagree⟩
    by_contra hnot
    have hneg : r.notIn = true := by simpa using hnot
    -- a negated part admits the largest docid, where the loop never arrives
    have hlast : r.has (intMax.toNat : ℤ) = true := by
      have hcast : (intMax.toNat : ℤ) = intMax := rfl
      rw [RangeQueryResult.has, if_pos (by omega), hneg]
    have hmem := (hagree intMax.toNat (le_refl _)).mpr ((hhas _).mpr hlast)
    rw [hdocs] at hmem
    have hle := ((mem_ids hmin).mp (List.mem_of_mem_filter hmem)).2
    have hwindow : (ofResults [r]).max = Min.min intMax r.max := rfl
    have hcast : (intMax.toNat : ℤ) = intMax := rfl
    omega
  · intro hin
    rw [Enumerates, hdocs]
    refine ⟨(pairwise_ids hmin).filter _, fun doc hdoc => ?_⟩
    rw [hhas, List.mem_filter, mem_ids hmin]
    refine ⟨And.right, fun h => ⟨?_, h⟩⟩
    have hle := has_window hin h
    have hlow : (ofResults [r]).min = Max.max 0 r.min := rfl
    have hhigh : (ofResults [r]).max = Min.min intMax r.max := rfl
    omega

/-- Several parts: a document that one of them admits in the window is appended, and would be admitted
by all, and so be appended again. -/
theorem enumerates_several {r₁ r₂ : RangeQueryResult} {rest : List RangeQueryResult} :
    (ofResults (r₁ :: r₂ :: rest)).Enumerates ↔ Enumerable (r₁ :: r₂ :: rest) := by
  have hmin := min_ofResults (r₁ :: r₂ :: rest)
  have hhas := fun doc : ℕ => has_ofResults (List.cons_ne_nil r₁ (r₂ :: rest)) (doc : ℤ)
  have hmem : ∀ doc, doc ∈ (ofResults (r₁ :: r₂ :: rest)).toDocs ↔ ∃ r ∈ r₁ :: r₂ :: rest,
      ((ofResults (r₁ :: r₂ :: rest)).min ≤ doc ∧ (doc : ℤ) ≤ (ofResults (r₁ :: r₂ :: rest)).max) ∧
        r.has doc = true := by
    intro doc
    simp only [toDocs_eq, allResults_ofResults, List.mem_flatMap, List.mem_filter, mem_ids hmin]
  constructor
  · rintro ⟨hsorted, hagree⟩
    have hnone : ∀ r ∈ r₁ :: r₂ :: rest, ∀ doc : ℕ, (ofResults (r₁ :: r₂ :: rest)).min ≤ doc →
        (doc : ℤ) ≤ (ofResults (r₁ :: r₂ :: rest)).max → r.has doc = false := by
      intro r hr doc hlow hhigh
      by_contra hadmits
      have hlimit : (doc : ℤ) ≤ intMax := hhigh.trans (max_ofResults _)
      have hall := (hhas doc).mp ((hagree doc hlimit).mp
        ((hmem doc).mpr ⟨r, hr, ⟨hlow, hhigh⟩, by simpa using hadmits⟩))
      have hid := (mem_ids hmin).mpr ⟨hlow, hhigh⟩
      rw [toDocs_eq, allResults_ofResults, List.flatMap_cons, List.pairwise_append] at hsorted
      refine absurd (hsorted.2.2 doc ?_ doc ?_) (lt_irrefl doc)
      · rw [List.mem_filter]
        exact ⟨hid, hall r₁ List.mem_cons_self⟩
      · rw [List.flatMap_cons, List.mem_append, List.mem_filter]
        exact .inl ⟨hid, hall r₂ (List.mem_cons_of_mem _ List.mem_cons_self)⟩
    refine ⟨hnone, fun doc hdoc => ?_⟩
    by_contra hall
    push Not at hall
    have hadmits : ∀ r ∈ r₁ :: r₂ :: rest, r.has doc = true := fun r hr => by simpa using hall r hr
    obtain ⟨r, hr, hwindow, hrhas⟩ := (hmem doc).mp ((hagree doc hdoc).mpr ((hhas doc).mpr hadmits))
    rw [hnone r hr doc hwindow.1 hwindow.2] at hrhas
    cases hrhas
  · rintro ⟨hnone, hcommon⟩
    have hempty : (ofResults (r₁ :: r₂ :: rest)).toDocs = [] := by
      apply List.eq_nil_iff_forall_not_mem.mpr
      intro doc hdoc
      obtain ⟨r, hr, hwindow, hrhas⟩ := (hmem doc).mp hdoc
      rw [hnone r hr doc hwindow.1 hwindow.2] at hrhas
      cases hrhas
    rw [Enumerates, hempty]
    refine ⟨.nil, fun doc hdoc => iff_of_false List.not_mem_nil fun hdochas => ?_⟩
    obtain ⟨r, hr, hnot⟩ := hcommon doc hdoc
    rw [(hhas doc).mp hdochas r hr] at hnot
    cases hnot

/-- **`ToDocs` and `Has` agree** exactly where there is no part, where there is one that is not negated,
and where there are several without a document in the common window and without one in common. A window
that `SetRange` could align in an `int` ends below `INT_MAX`. -/
theorem enumerates_iff {results : List RangeQueryResult} (hmax : ∀ r ∈ results, r.max < intMax) :
    (ofResults results).Enumerates ↔ Enumerable results := by
  match results with
  | [] => exact iff_of_true ⟨.nil, fun doc _ => iff_of_false List.not_mem_nil Bool.false_ne_true⟩ trivial
  | [r] => exact enumerates_singleton (hmax r List.mem_cons_self)
  | r₁ :: r₂ :: rest => exact enumerates_several

/-- One document in a window of eight. -/
def oneDoc (doc : ℕ) (notIn : Bool) : RangeQueryResult :=
  { RangeQueryResult.ofRange 0 7 with bitmap := (Bits.create 8).set doc true, notIn := notIn }

theorem enumerates_oneDoc : (ofResults [oneDoc 3 false]).Enumerates ↔ Enumerable [oneDoc 3 false] :=
  enumerates_iff (by decide)

/-- Not 3 and 5: the list has the other seven documents of the window, and then 5 again. -/
theorem appended : ¬ ∀ results : List RangeQueryResult, (∀ r ∈ results, r.max < intMax) →
    (ofResults results).Enumerates := by
  intro h
  have hsorted := (h [oneDoc 3 true, oneDoc 5 false] (by decide)).1
  revert hsorted
  decide

end AwaDB.MultiRangeQueryResults
