import AwaDB.Lib.Lists
import AwaDB.Table.RangeQuery

/-!
# Intersecting results (`MultiFieldsRangeIndex::Intersect`, `table/field_range_index.cc`)

`Intersect` copies the common window out of the shortest result and combines it with the others, in
words of 64 bits. Its offsets are numbers of words: it is made for windows that start and end with a
word, as those of the nodes do. It does not look at the not-in flag; `Search` keeps negated results
for itself. `intersect?` is the function with the bounds of its accesses.

* `Whole`: a result that `Intersect` is made for;
* `exact_intersect`: a list of these is intersected exactly, inside the bitmaps;
* `inexact`: a negated result, a window that ends inside a word, and a first result that counts none of
  its documents.
-/

namespace AwaDB.MultiFieldsRangeIndex

open Lib

/-- One round of the second loop, undefined where it leaves a bitmap. -/
def intersectWith? (minDoc maxDoc : ℤ) (r : RangeQueryResult) (dst : Bits) : Option Bits :=
  let n := ((if r.maxAligned > maxDoc then maxDoc else r.maxAligned) - minDoc + 1) / 64
  if r.minAligned < minDoc then
    Bits.onWords? (· && ·) dst r.bitmap 0 ((minDoc - r.minAligned) / 64) n
  else Bits.onWords? (· && ·) dst r.bitmap ((r.minAligned - minDoc) / 64) 0 n

/-- `min_doc` after the loop over the results. -/
def commonMin (results : List RangeQueryResult) : ℤ :=
  results.foldl (fun m r => max m r.minAligned) (-intMax - 1)

/-- `max_doc` after the loop over the results. -/
def commonMax (results : List RangeQueryResult) : ℤ :=
  results.foldl (fun m r => min m r.maxAligned) intMax

/-- `Intersect` of at least one result, undefined where it leaves a bitmap. -/
def intersect? (results : List RangeQueryResult) (shortestIdx : ℕ) :
    Option (ℤ × RangeQueryResult) :=
  let total := (results.headD .clear).nDoc
  let minDoc := commonMin results
  let maxDoc := commonMax results
  if maxDoc - minDoc + 1 ≤ 0 then some (0, .clear)
  else
    let out := RangeQueryResult.ofRange minDoc maxDoc
    let first := results.getD shortestIdx .clear
    (Bits.onWords? (fun _ b => b) out.bitmap first.bitmap 0 ((minDoc - first.minAligned) / 64)
        ((maxDoc - minDoc + 1) / 64)).bind fun bits =>
      (runOps (intersectWith? minDoc maxDoc) (results.eraseIdx shortestIdx) bits).map fun bits =>
        (total, { out with nDoc := total, bitmap := bits })

theorem eq_of_intersectWith? {minDoc maxDoc : ℤ} {r : RangeQueryResult} {dst bits : Bits}
    (h : intersectWith? minDoc maxDoc r dst = some bits) : bits = intersectWith minDoc maxDoc dst r := by
  rw [intersectWith?] at h
  rw [intersectWith]
  split at h
  · rename_i hlt
    rw [if_pos hlt]
    exact Bits.eq_of_onWords? h
  · rename_i hlt
    rw [if_neg hlt]
    exact Bits.eq_of_onWords? h

theorem eq_of_runOps_intersectWith? {minDoc maxDoc : ℤ} {others : List RangeQueryResult} {dst bits : Bits}
    (h : runOps (intersectWith? minDoc maxDoc) others dst = some bits) :
    bits = others.foldl (intersectWith minDoc maxDoc) dst := by
  induction others generalizing dst with
  | nil => exact (Option.some.inj h).symm
  | cons r others ih =>
    obtain ⟨dst', hdst', hrest⟩ := Option.bind_eq_some_iff.mp h
    rw [List.foldl_cons, ← eq_of_intersectWith? hdst']
    exact ih hrest

/-- Where it stays inside, it is the function of the searches. -/
theorem eq_of_intersect? {results : List RangeQueryResult} {shortestIdx : ℕ} {out : ℤ × RangeQueryResult}
    (h : intersect? results shortestIdx = some out) : out = intersect results shortestIdx := by
  rw [intersect?, commonMin, commonMax] at h
  rw [intersect]
  split at h
  · rename_i hempty
    rw [if_pos hempty]
    exact (Option.some.inj h).symm
  · rename_i hempty
    rw [if_neg hempty]
    obtain ⟨copied, hcopy, hrest⟩ := Option.bind_eq_some_iff.mp h
    obtain ⟨bits, hrun, rfl⟩ := Option.map_eq_some_iff.mp hrest
    rw [eq_of_runOps_intersectWith? hrun, Bits.eq_of_onWords? hcopy]
    rfl

/-- **The intersection is exact**: it stays inside the bitmaps, admits what every input admits, and
reports a count of zero only where it admits nothing. -/
def Exact (results : List RangeQueryResult) (shortestIdx : ℕ) : Prop :=
  ∃ out, intersect? results shortestIdx = some out ∧
    (∀ doc, out.2.has doc = true ↔ ∀ r ∈ results, r.has doc = true) ∧
    (out.1 = 0 → ∀ doc, out.2.has doc = false)

/-- A result without the flag, whose aligned window starts and ends with a word, with a bitmap as
`Resize` creates it and no bit outside of `min_` and `max_`. -/
structure Whole (r : RangeQueryResult) : Prop where
  notIn : r.notIn = false
  low : 0 ≤ r.minAligned
  le : r.minAligned ≤ r.maxAligned
  fits : r.maxAligned < intMax
  start : r.minAligned % 64 = 0
  stop : (r.maxAligned + 1) % 64 = 0
  window : r.minAligned ≤ r.min ∧ r.max ≤ r.maxAligned
  length : r.bitmap.length = (Bits.create (r.maxAligned - r.minAligned + 1).toNat).length
  padding : ∀ doc, r.minAligned ≤ doc → doc ≤ r.maxAligned →
    r.bitmap.test (doc - r.minAligned).toNat = true → r.min ≤ doc ∧ doc ≤ r.max

variable {r : RangeQueryResult} {results : List RangeQueryResult} {shortestIdx : ℕ} {lo hi doc : ℤ}

/-- What a result admits that is not negated lies in its window. -/
theorem Whole.inside (h : Whole r) (hhas : r.has doc = true) : r.minAligned ≤ doc ∧ doc ≤ r.maxAligned := by
  obtain ⟨hlow, hhigh⟩ := h.window
  rw [RangeQueryResult.has] at hhas
  by_contra hout
  rw [if_pos (by omega), h.notIn] at hhas
  cases hhas

theorem Whole.has_eq (h : Whole r) (hlow : r.minAligned ≤ doc) (hhigh : doc ≤ r.maxAligned) :
    r.has doc = r.bitmap.test (doc - r.minAligned).toNat := by
  rw [RangeQueryResult.has, h.notIn]
  split
  · rename_i hout
    cases hbit : r.bitmap.test (doc - r.minAligned).toNat with
    | true =>
      have hpadding := h.padding doc hlow hhigh hbit
      omega
    | false => rfl
  · exact Bool.false_bne _

/-! ### The common window -/

theorem commonMin_le (hne : results ≠ []) (hwhole : ∀ r ∈ results, Whole r) :
    commonMin results ≤ doc ↔ ∀ r ∈ results, r.minAligned ≤ doc := by
  rw [commonMin, foldl_max_le_iff]
  refine ⟨And.right, fun h => ⟨?_, h⟩⟩
  obtain ⟨r, hr⟩ := List.exists_mem_of_ne_nil results hne
  have hlow := (hwhole r hr).low
  have hle := h r hr
  have hmax : intMax = 2147483647 := rfl
  omega

theorem le_commonMax (hne : results ≠ []) (hwhole : ∀ r ∈ results, Whole r) :
    doc ≤ commonMax results ↔ ∀ r ∈ results, doc ≤ r.maxAligned := by
  rw [commonMax, le_foldl_min_iff]
  refine ⟨And.right, fun h => ⟨?_, h⟩⟩
  obtain ⟨r, hr⟩ := List.exists_mem_of_ne_nil results hne
  exact (h r hr).trans (hwhole r hr).fits.le

/-- The common window starts with a word. -/
theorem commonMin_mod (hne : results ≠ []) (hwhole : ∀ r ∈ results, Whole r) :
    0 ≤ commonMin results ∧ commonMin results % 64 = 0 := by
  rcases foldl_max_choose (l := results) (f := RangeQueryResult.minAligned) (b := -intMax - 1)
    with hstart | ⟨r, hr, heq⟩
  · obtain ⟨r, hr⟩ := List.exists_mem_of_ne_nil results hne
    have hle := (commonMin_le hne hwhole).mp (le_refl _) r hr
    have hlow := (hwhole r hr).low
    have hmin : commonMin results = -intMax - 1 := hstart
    have hmax : intMax = 2147483647 := rfl
    omega
  · have hmin : commonMin results = r.minAligned := heq
    rw [hmin]
    exact ⟨(hwhole r hr).low, (hwhole r hr).start⟩

/-- The common window ends with a word. -/
theorem commonMax_mod (hne : results ≠ []) (hwhole : ∀ r ∈ results, Whole r) :
    commonMax results < intMax ∧ (commonMax results + 1) % 64 = 0 := by
  rcases foldl_min_choose (l := results) (f := RangeQueryResult.maxAligned) (b := intMax)
    with hstart | ⟨r, hr, heq⟩
  · obtain ⟨r, hr⟩ := List.exists_mem_of_ne_nil results hne
    have hle := (le_commonMax hne hwhole).mp (le_refl _) r hr
    have hfits := (hwhole r hr).fits
    have hmax : commonMax results = intMax := hstart
    omega
  · have hmax : commonMax results = r.maxAligned := heq
    rw [hmax]
    exact ⟨(hwhole r hr).fits, (hwhole r hr).stop⟩

/-! ### Word by word -/

/-- The window that the loops go through. -/
structure Window (lo hi : ℤ) (dst : Bits) : Prop where
  le : lo ≤ hi
  start : lo % 64 = 0
  stop : (hi + 1) % 64 = 0
  length : dst.length = (Bits.create (hi - lo + 1).toNat).length

variable {dst : Bits}

/-- The words of the window, read from a result that covers it. -/
theorem Window.onWords (h : Window lo hi dst) (hr : Whole r) (hlow : r.minAligned ≤ lo)
    (hhigh : hi ≤ r.maxAligned) (f : Bool → Bool → Bool) :
    ∃ bits, Bits.onWords? f dst r.bitmap 0 ((lo - r.minAligned) / 64) ((hi - lo + 1) / 64) = some bits ∧
      Window lo hi bits ∧ ∀ doc, lo ≤ doc → doc ≤ hi →
        bits.test (doc - lo).toNat = f (dst.test (doc - lo).toNat) (r.has doc) := by
  have hle := h.le
  have hstart := h.start
  have hstop := h.stop
  have hstart' := hr.start
  have hdst := h.length
  have hsrc := hr.length
  rw [Bits.length_create] at hdst hsrc
  obtain ⟨j, hj⟩ : ∃ j : ℕ, (lo - r.minAligned) / 64 = j := ⟨_, (Int.toNat_of_nonneg (by omega)).symm⟩
  obtain ⟨n, hn⟩ : ∃ n : ℕ, (hi - lo + 1) / 64 = n := ⟨_, (Int.toNat_of_nonneg (by omega)).symm⟩
  have heq : Bits.onWords? f dst r.bitmap (0 : ℕ) j n = _ :=
    Bits.onWords?_eq f (by omega) (by omega)
  refine ⟨Bits.onWords f dst r.bitmap 0 j n, ?_, ⟨hle, hstart, hstop, ?_⟩, fun doc hd₁ hd₂ => ?_⟩
  · rw [hj, hn]
    exact heq
  · rw [Bits.length_onWords]
    exact h.length
  · have hpos : (doc - lo).toNat - 64 * 0 + 64 * j = (doc - r.minAligned).toNat := by omega
    rw [Bits.test_onWords f _ _ _ _ _ (by omega), if_pos ⟨by omega, by omega⟩, hpos,
      hr.has_eq (by omega) (by omega)]

/-- **One round.** -/
theorem Window.intersectWith (h : Window lo hi dst) (hr : Whole r) (hlow : r.minAligned ≤ lo)
    (hhigh : hi ≤ r.maxAligned) :
    ∃ bits, intersectWith? lo hi r dst = some bits ∧ Window lo hi bits ∧ ∀ doc, lo ≤ doc → doc ≤ hi →
      bits.test (doc - lo).toNat = (dst.test (doc - lo).toNat && r.has doc) := by
  have hend : (if r.maxAligned > hi then hi else r.maxAligned) = hi := by
    split
    · rfl
    · omega
  obtain ⟨bits, hbits, hwindow, htest⟩ := h.onWords hr hlow hhigh (· && ·)
  refine ⟨bits, ?_, hwindow, htest⟩
  rw [intersectWith?, hend, ← hbits]
  split
  · rfl
  · have hsame : r.minAligned = lo := by omega
    have hzero : (lo - lo) / 64 = 0 := by omega
    rw [hsame, hzero]

/-- **All rounds.** -/
theorem Window.runOps (h : Window lo hi dst) {others : List RangeQueryResult}
    (hothers : ∀ r ∈ others, Whole r ∧ r.minAligned ≤ lo ∧ hi ≤ r.maxAligned) :
    ∃ bits, Lib.runOps (intersectWith? lo hi) others dst = some bits ∧ Window lo hi bits ∧
      ∀ doc, lo ≤ doc → doc ≤ hi → (bits.test (doc - lo).toNat = true ↔
        dst.test (doc - lo).toNat = true ∧ ∀ r ∈ others, r.has doc = true) := by
  induction others generalizing dst with
  | nil => exact ⟨dst, rfl, h, fun doc _ _ => by simp⟩
  | cons r others ih =>
    obtain ⟨hr, hlow, hhigh⟩ := hothers r List.mem_cons_self
    obtain ⟨bits, hbits, hwindow, htest⟩ := h.intersectWith hr hlow hhigh
    obtain ⟨bits', hrun, hwindow', htest'⟩ :=
      ih hwindow fun r' hr' => hothers r' (List.mem_cons_of_mem r hr')
    refine ⟨bits', by rw [runOps_cons, hbits, Option.bind_some, hrun], hwindow', fun doc hd₁ hd₂ => ?_⟩
    rw [htest' doc hd₁ hd₂, htest doc hd₁ hd₂, Bool.and_eq_true, List.forall_mem_cons]
    exact and_assoc

/-- The window of a new bitmap. -/
theorem window_ofRange (hlow : 0 ≤ lo) (hle : lo ≤ hi) (hfits : hi < intMax) (hstart : lo % 64 = 0)
    (hstop : (hi + 1) % 64 = 0) : Window lo hi (RangeQueryResult.ofRange lo hi).bitmap := by
  refine ⟨hle, hstart, hstop, ?_⟩
  rw [RangeQueryResult.bitmap_ofRange hlow hle hfits hstart hstop]

/-- The result of a window that is not empty. -/
theorem has_ofRange {bits : Bits} (hlow : 0 ≤ lo) (h : Window lo hi bits) (hfits : hi < intMax)
    (total doc : ℤ) : ({ RangeQueryResult.ofRange lo hi with nDoc := total, bitmap := bits } :
      RangeQueryResult).has doc = true ↔ lo ≤ doc ∧ doc ≤ hi ∧ bits.test (doc - lo).toNat = true := by
  have hle := h.le
  have hstart := h.start
  have hmin : min intMax lo = lo := min_eq_right (by omega)
  have hmax : max 0 hi = hi := max_eq_right (by omega)
  have haligned : lo / 8 * 8 = lo := by omega
  rw [RangeQueryResult.has]
  show (if doc < min intMax lo ∨ max 0 hi < doc then false
    else false != bits.test (doc - min intMax lo / 8 * 8).toNat) = true ↔ _
  rw [hmin, hmax, haligned, Bool.false_bne]
  split
  · exact iff_of_false Bool.false_ne_true fun hin => by omega
  · exact ⟨fun hbit => ⟨by omega, by omega, hbit⟩, fun hin => hin.2.2⟩

/-! ### The whole function -/

/-- **Results without the flag, over whole words**, are intersected exactly and inside the bitmaps. The
count is that of the first result. -/
theorem exact_intersect (hidx : shortestIdx < results.length) (hwhole : ∀ r ∈ results, Whole r) :
    ∃ out, intersect? results shortestIdx = some out ∧
      (∀ doc, out.2.has doc = true ↔ ∀ r ∈ results, r.has doc = true) ∧
      (out.1 = 0 → (results.headD .clear).nDoc = 0 ∨ ∀ doc, out.2.has doc = false) := by
  have hne : results ≠ [] := List.ne_nil_of_length_pos (by omega)
  have hlow : ∀ doc, commonMin results ≤ doc ↔ ∀ r ∈ results, r.minAligned ≤ doc :=
    fun _ => commonMin_le hne hwhole
  have hhigh : ∀ doc, doc ≤ commonMax results ↔ ∀ r ∈ results, doc ≤ r.maxAligned :=
    fun _ => le_commonMax hne hwhole
  by_cases hempty : commonMax results - commonMin results + 1 ≤ 0
  · have hnone : ∀ doc, RangeQueryResult.clear.has doc = false := by
      intro doc
      rw [RangeQueryResult.has]
      have hmax : intMax = 2147483647 := rfl
      exact if_pos (show doc < intMax ∨ 0 < doc by omega)
    refine ⟨(0, .clear), by rw [intersect?, if_pos hempty], fun doc => ?_, fun _ => .inr hnone⟩
    rw [hnone]
    refine iff_of_false Bool.false_ne_true fun hall => ?_
    have h₁ := (hlow doc).mpr fun r hr => ((hwhole r hr).inside (hall r hr)).1
    have h₂ := (hhigh doc).mpr fun r hr => ((hwhole r hr).inside (hall r hr)).2
    omega
  · obtain ⟨hzero, hstart⟩ := commonMin_mod hne hwhole
    obtain ⟨hfits, hstop⟩ := commonMax_mod hne hwhole
    have hsplit : ∀ r, r ∈ results ↔ r = results[shortestIdx] ∨ r ∈ results.eraseIdx shortestIdx := by
      intro r
      rw [List.eraseIdx_eq_take_drop_succ, List.mem_append]
      conv_lhs => rw [← List.take_append_drop shortestIdx results, List.drop_eq_getElem_cons hidx]
      rw [List.mem_append, List.mem_cons]
      exact or_left_comm
    have hfirst := hwhole _ (List.getElem_mem hidx)
    have hcovers : ∀ r ∈ results, Whole r ∧ r.minAligned ≤ commonMin results ∧
        commonMax results ≤ r.maxAligned :=
      fun r hr => ⟨hwhole r hr, (hlow _).mp (le_refl _) r hr, (hhigh _).mp (le_refl _) r hr⟩
    obtain ⟨-, hmin, hmax⟩ := hcovers _ (List.getElem_mem hidx)
    obtain ⟨copied, hcopy, hwindow, hcopied⟩ :=
      (window_ofRange hzero (by omega) hfits hstart hstop).onWords hfirst hmin hmax fun _ b => b
    obtain ⟨bits, hrun, hwindow', htest⟩ := hwindow.runOps fun r hr => hcovers r ((hsplit r).mpr (.inr hr))
    refine ⟨((results.headD .clear).nDoc,
      { RangeQueryResult.ofRange (commonMin results) (commonMax results) with
        nDoc := (results.headD .clear).nDoc
        bitmap := bits }), ?_, fun doc => ?_, .inl⟩
    · rw [intersect?, if_neg hempty, List.getD_eq_getElem?_getD, List.getElem?_eq_getElem hidx,
        Option.getD_some]
      dsimp only
      rw [hcopy, Option.bind_some, hrun, Option.map_some]
    · rw [has_ofRange hzero hwindow' hfits]
      constructor
      · rintro ⟨hd₁, hd₂, hbit⟩ r hr
        rw [htest doc hd₁ hd₂, hcopied doc hd₁ hd₂] at hbit
        cases (hsplit r).mp hr with
        | inl heq => exact heq ▸ hbit.1
        | inr hother => exact hbit.2 r hother
      · intro hall
        have hd₁ := (hlow doc).mpr fun r hr => ((hwhole r hr).inside (hall r hr)).1
        have hd₂ := (hhigh doc).mpr fun r hr => ((hwhole r hr).inside (hall r hr)).2
        refine ⟨hd₁, hd₂, ?_⟩
        rw [htest doc hd₁ hd₂, hcopied doc hd₁ hd₂]
        exact ⟨hall _ (List.getElem_mem hidx), fun r hr => hall r ((hsplit r).mpr (.inr hr))⟩

/-- One document in a window, with its count and the flag. -/
def oneDoc (maxDoc doc nDoc : ℤ) (notIn : Bool) : RangeQueryResult :=
  { RangeQueryResult.ofRange 0 maxDoc with
    nDoc := nDoc
    bitmap := (RangeQueryResult.ofRange 0 maxDoc).bitmap.set doc.toNat true
    notIn := notIn }

theorem whole_oneDoc : Whole (oneDoc 63 3 1 false) where
  notIn := rfl
  low := by decide
  le := by decide
  fits := by decide
  start := by decide
  stop := by decide
  window := by decide
  length := by decide
  padding := fun doc hlow hhigh _ => ⟨hlow, hhigh⟩

theorem exact_intersect_oneDoc : ∃ out, intersect? [oneDoc 63 3 1 false] 0 = some out ∧
    (∀ doc, out.2.has doc = true ↔ ∀ r ∈ [oneDoc 63 3 1 false], r.has doc = true) ∧
    (out.1 = 0 → (([oneDoc 63 3 1 false] : List RangeQueryResult).headD .clear).nDoc = 0 ∨
      ∀ doc, out.2.has doc = false) :=
  exact_intersect (by decide) fun r hr => List.mem_singleton.mp hr ▸ whole_oneDoc

/-- A negated result, a window of eight documents, and a result that counts none of its documents. -/
theorem inexact : ¬ Exact [oneDoc 63 3 1 true] 0 ∧ ¬ Exact [oneDoc 7 3 1 false] 0 ∧
    ¬ Exact [oneDoc 63 3 0 false] 0 := by
  refine ⟨?_, ?_, ?_⟩
  · rintro ⟨out, hout, hhas, -⟩
    cases hout
    have h := hhas 3
    revert h
    decide
  · rintro ⟨out, hout, hhas, -⟩
    cases hout
    have h := hhas 3
    revert h
    decide
  · rintro ⟨out, hout, -, hcount⟩
    cases hout
    have h := hcount rfl 3
    revert h
    decide

end AwaDB.MultiFieldsRangeIndex
