import AwaDB.Lib.Compact
import AwaDB.Lib.Lists
import AwaDB.Vector.VIDMgr
import Mathlib.Algebra.Order.Ring.Rat
import Mathlib.Data.List.Nodup

/-!
# The results of an index (`VectorResult` in `common/common_query_data.h`)

`parse_index_search_result` in `vector/vector_manager.cc` turns the vectors that an index has found into
documents, in place.

* `parseIndexSearchResult`: the loops as the code has them; scores are exact numbers;
* `Hits`: the best hit of each document;
* `parse_best`: what is left of each query's section.
-/

namespace AwaDB

open Lib

/-- `VectorResult`. A source is an offset into the memory of the sources, or the null pointer. -/
structure VectorResult where
  n : ℕ
  topn : ℕ
  docids : List ℤ
  dists : List ℚ
  sources : List (Option ℤ)
  sourceLens : List ℤ
  idx : List ℤ
  limitValue : List ℚ
deriving DecidableEq, Repr

/-- The members of `RawVector` for the sources of the vectors; `size` is that of `meta_info_`. -/
structure VectorSources where
  size : ℕ
  hasSource : Bool
  sourceMemPos : List ℤ
deriving DecidableEq, Repr

/-- `GetSource`, or `none` when it fails. -/
def VectorSources.getSource (raw : VectorSources) (vid : ℤ) : Option (Option ℤ × ℤ) :=
  if vid < 0 ∨ (raw.size : ℤ) ≤ vid then none
  else if ¬ raw.hasSource then some (none, 0)
  else
    let begin := raw.sourceMemPos.getD vid.toNat 0
    some (some begin, raw.sourceMemPos.getD (vid.toNat + 1) 0 - begin)

namespace VectorResult

/-- The arrays have a section of `k` entries for each of the `n` queries; their length is an `int`. -/
structure Allocated (n k : ℕ) (r : VectorResult) : Prop where
  fits : n * k < 2 ^ 31
  docids : r.docids.length = n * k
  dists : r.dists.length = n * k
  sources : r.sources.length = n * k
  sourceLens : r.sourceLens.length = n * k
  limitValue : r.limitValue.length = n

/-- The variables of the loop over a section. -/
structure ParseState where
  result : VectorResult
  pos : ℕ
  docid2count : List ℤ
deriving DecidableEq, Repr

/-- One round of the loop over a section. -/
def parseStep (m : VIDMgr) (raw : VectorSources) (isL2 : Bool) (k i j : ℕ) (s : ParseState) :
    Option ParseState := do
  let vectorId ← s.result.docids[i * k + j]?
  if vectorId = -1 then return s
  let realDocid := m.vid2DocID vectorId.toNat
  if realDocid ∈ s.docid2count then return s
  let realPos := i * k + s.pos
  let dist ← s.result.dists[i * k + j]?
  let limit ← s.result.limitValue[i]?
  let source := (raw.getSource vectorId).getD (none, 0)
  return {
    result := { s.result with
      docids := s.result.docids.set realPos realDocid
      sources := s.result.sources.set realPos source.1
      sourceLens := s.result.sourceLens.set realPos source.2
      dists := s.result.dists.set realPos dist
      limitValue := if isL2 ∧ dist > limit then s.result.limitValue.set i dist
        else s.result.limitValue }
    pos := s.pos + 1
    docid2count := realDocid :: s.docid2count }

/-- The end of a section is filled up. -/
def fill (k i : ℕ) (r : VectorResult) (pos : ℕ) : VectorResult :=
  { r with docids := r.docids.set (i * k + pos) (-1), dists := r.dists.set (i * k + pos) (-1) }

/-- One query. -/
def parseQuery (m : VIDMgr) (raw : VectorSources) (isL2 : Bool) (k : ℕ) (r : VectorResult) (i : ℕ) :
    Option VectorResult := do
  let s ← (List.range k).foldlM (fun s j => parseStep m raw isL2 k i j s) ⟨r, 0, []⟩
  let r := if s.pos > 0 then { s.result with idx := s.result.idx.set i 0 } else s.result
  return (List.range' s.pos (k - s.pos)).foldl (fill k i) r

/-- `parse_index_search_result`. -/
def parseIndexSearchResult (m : VIDMgr) (raw : VectorSources) (isL2 : Bool) (n k : ℕ)
    (r : VectorResult) : Option VectorResult :=
  (List.range n).foldlM (parseQuery m raw isL2 k) r

/-! ### Hits -/

/-- A document that is found, with the source of the vector that it was found by. -/
structure Hit where
  docid : ℤ
  dist : ℚ
  source : Option ℤ
  sourceLen : ℤ
deriving DecidableEq, Repr

/-- What a vector of an index stands for. -/
def hitOf (m : VIDMgr) (raw : VectorSources) (found : ℤ × ℚ) : Option Hit :=
  if found.1 = -1 then none
  else
    let source := (raw.getSource found.1).getD (none, 0)
    some ⟨m.vid2DocID found.1.toNat, found.2, source.1, source.2⟩

/-- **The best hit of each document**: some of the hits, in their order, each document once, and at its
first occurrence. -/
structure Best (hits kept : List Hit) : Prop where
  sublist : kept.Sublist hits
  nodup : (kept.map Hit.docid).Nodup
  first : ∀ d, kept.find? (fun h => h.docid = d) = hits.find? fun h => h.docid = d

theorem best_nil : Best [] [] := ⟨List.Sublist.refl [], List.nodup_nil, fun _ => rfl⟩

variable {hits kept : List Hit} {hit : Hit}

/-- A document that was found before. -/
theorem Best.seen (h : Best hits kept) (hmem : hit.docid ∈ kept.map Hit.docid) :
    Best (hits ++ [hit]) kept where
  sublist := h.sublist.trans (List.sublist_append_left hits [hit])
  nodup := h.nodup
  first d := by
    rw [h.first, List.find?_append]
    by_cases hd : hit.docid = d
    · obtain ⟨b, hb, hbd⟩ := List.mem_map.mp hmem
      cases hfind : hits.find? fun h => h.docid = d with
      | some b => rfl
      | none =>
        rw [List.find?_eq_none] at hfind
        exact absurd (decide_eq_true (hbd.trans hd)) (hfind b (h.sublist.subset hb))
    · simp [hd]

/-- A document that is new. -/
theorem Best.keep (h : Best hits kept) (hmem : hit.docid ∉ kept.map Hit.docid) :
    Best (hits ++ [hit]) (kept ++ [hit]) where
  sublist := h.sublist.append (List.Sublist.refl [hit])
  nodup := by
    rw [List.map_append, List.nodup_append]
    refine ⟨h.nodup, List.nodup_singleton _, fun a ha b hb hab => ?_⟩
    rw [List.map_singleton, List.mem_singleton] at hb
    rw [hab, hb] at ha
    exact hmem ha
  first d := by
    rw [List.find?_append, List.find?_append, h.first]

/-! ### One query -/

/-- The largest distance, starting with the limit that there was. -/
def limitOf (isL2 : Bool) (limit : ℚ) (kept : List Hit) : ℚ :=
  if isL2 then kept.foldl (fun limit h => max limit h.dist) limit else limit

theorem limitOf_concat (isL2 : Bool) (limit : ℚ) (kept : List Hit) (hit : Hit) :
    limitOf isL2 limit (kept ++ [hit]) =
      if isL2 ∧ hit.dist > limitOf isL2 limit kept then hit.dist else limitOf isL2 limit kept := by
  unfold limitOf
  cases isL2 with
  | false => simp
  | true =>
    simp only [if_true, List.foldl_append, List.foldl_cons, List.foldl_nil, true_and]
    exact max_def_lt _ _

/-- The vectors that an index has found for a query. -/
def found (k i : ℕ) (r : VectorResult) : List (ℤ × ℚ) := sect k i (r.docids.zip r.dists)

/-- **Between two rounds** of the loop over section `i`, with the hits that were kept. -/
structure Between (m : VIDMgr) (raw : VectorSources) (isL2 : Bool) (k i : ℕ) (r : VectorResult) (j : ℕ)
    (s : ParseState) (kept : List Hit) : Prop where
  docids : Compact r.docids s.result.docids (i * k) j (kept.map Hit.docid)
  dists : Compact r.dists s.result.dists (i * k) j (kept.map Hit.dist)
  sources : Compact r.sources s.result.sources (i * k) j (kept.map Hit.source)
  sourceLens : Compact r.sourceLens s.result.sourceLens (i * k) j (kept.map Hit.sourceLen)
  limitValue : ∀ limit, r.limitValue[i]? = some limit →
    s.result.limitValue = r.limitValue.set i (limitOf isL2 limit kept)
  pos : s.pos = kept.length
  seen : ∀ d, d ∈ s.docid2count ↔ d ∈ kept.map Hit.docid
  best : Best (((found k i r).take j).filterMap (hitOf m raw)) kept

variable {m : VIDMgr} {raw : VectorSources} {isL2 : Bool} {n k i j : ℕ} {r : VectorResult} {s : ParseState}

theorem between_init (m : VIDMgr) (raw : VectorSources) (isL2 : Bool) (k i : ℕ) (r : VectorResult) :
    Between m raw isL2 k i r 0 ⟨r, 0, []⟩ [] where
  docids := compact_refl _ _
  dists := compact_refl _ _
  sources := compact_refl _ _
  sourceLens := compact_refl _ _
  limitValue limit hlimit := by
    obtain ⟨hi, heq⟩ := List.getElem?_eq_some_iff.mp hlimit
    unfold limitOf
    simp [← heq]
  pos := rfl
  seen := fun _ => Iff.rfl
  best := best_nil

theorem take_found (hj : j < k) {docid : ℤ} {dist : ℚ}
    (hdocid : r.docids[i * k + j]? = some docid) (hdist : r.dists[i * k + j]? = some dist) :
    (found k i r).take (j + 1) = (found k i r).take j ++ [(docid, dist)] := by
  have hget : (found k i r)[j]? = some (docid, dist) := by
    unfold found
    rw [getElem?_sect hj, List.getElem?_zip_eq_some]
    exact ⟨hdocid, hdist⟩
  rw [List.take_add_one, hget]
  rfl

/-- One round. -/
theorem Between.step (halloc : Allocated n k r) (hi : i < n) (hj : j < k)
    (h : Between m raw isL2 k i r j s kept) :
    ∃ s' kept', parseStep m raw isL2 k i j s = some s' ∧ Between m raw isL2 k i r (j + 1) s' kept' := by
  have hlt := sect_lt hi hj
  have hdocidLt : i * k + j < r.docids.length := by rw [halloc.docids]; exact hlt
  have hdistLt : i * k + j < r.dists.length := by rw [halloc.dists]; exact hlt
  have hsourceLt : i * k + j < r.sources.length := by rw [halloc.sources]; exact hlt
  have hlenLt : i * k + j < r.sourceLens.length := by rw [halloc.sourceLens]; exact hlt
  obtain ⟨docid, hdocid⟩ : ∃ docid, r.docids[i * k + j]? = some docid :=
    ⟨_, List.getElem?_eq_getElem hdocidLt⟩
  obtain ⟨dist, hdist⟩ : ∃ dist, r.dists[i * k + j]? = some dist :=
    ⟨_, List.getElem?_eq_getElem hdistLt⟩
  obtain ⟨limit, hlimit⟩ : ∃ limit, r.limitValue[i]? = some limit :=
    ⟨_, List.getElem?_eq_getElem (by rw [halloc.limitValue]; exact hi)⟩
  have hreadDocid : s.result.docids[i * k + j]? = some docid := by
    rw [h.docids.getElem? (Nat.le_of_lt hdocidLt) (Nat.le_refl _), hdocid]
  have hreadDist : s.result.dists[i * k + j]? = some dist := by
    rw [h.dists.getElem? (Nat.le_of_lt hdistLt) (Nat.le_refl _), hdist]
  have hreadLimit : s.result.limitValue[i]? = some (limitOf isL2 limit kept) := by
    rw [h.limitValue limit hlimit, List.getElem?_set_self (by rw [halloc.limitValue]; exact hi)]
  have htake := take_found hj hdocid hdist
  have hdocids := h.docids.skip hdocidLt
  have hdists := h.dists.skip hdistLt
  have hsources := h.sources.skip hsourceLt
  have hlens := h.sourceLens.skip hlenLt
  unfold parseStep
  rw [hreadDocid, hreadDist, hreadLimit]
  dsimp only [Option.bind_eq_bind, Option.bind_some]
  by_cases hnone : docid = -1
  · -- no vector
    rw [if_pos hnone]
    refine ⟨s, kept, rfl, hdocids, hdists, hsources, hlens, h.limitValue, h.pos, h.seen, ?_⟩
    rw [htake, List.filterMap_append]
    simpa [hitOf, hnone] using h.best
  rw [if_neg hnone]
  have hhit : hitOf m raw (docid, dist) = some ⟨m.vid2DocID docid.toNat, dist,
      ((raw.getSource docid).getD (none, 0)).1, ((raw.getSource docid).getD (none, 0)).2⟩ := if_neg hnone
  by_cases hseen : m.vid2DocID docid.toNat ∈ s.docid2count
  · -- a vector of a document that was found before
    rw [if_pos hseen]
    refine ⟨s, kept, rfl, hdocids, hdists, hsources, hlens, h.limitValue, h.pos, h.seen, ?_⟩
    rw [htake, List.filterMap_append, List.filterMap_cons, hhit, List.filterMap_nil]
    exact h.best.seen ((h.seen _).mp hseen)
  · rw [if_neg hseen]
    have hpos : kept.length < j + 1 := by
      obtain ⟨junk, hlength, -⟩ := h.docids
      rw [List.length_map] at hlength
      omega
    have hwrite : ∀ {α : Type} {f : Hit → α} {l₀ l : List α} {hit : Hit},
        Compact l₀ l (i * k) (j + 1) (kept.map f) → i * k + j < l₀.length →
        Compact l₀ (l.set (i * k + s.pos) (f hit)) (i * k) (j + 1) ((kept ++ [hit]).map f) := by
      intro α f l₀ l hit hskip hlt
      rw [h.pos]
      exact hskip.write_map (by omega) hpos hit
    refine ⟨_, kept ++ [⟨m.vid2DocID docid.toNat, dist, ((raw.getSource docid).getD (none, 0)).1,
      ((raw.getSource docid).getD (none, 0)).2⟩], rfl, ?_, ?_, ?_, ?_, ?_, ?_, ?_, ?_⟩
    · exact hwrite hdocids hdocidLt
    · exact hwrite hdists hdistLt
    · exact hwrite hsources hsourceLt
    · exact hwrite hlens hlenLt
    · intro limit' hlimit'
      rw [hlimit] at hlimit'
      cases hlimit'
      rw [limitOf_concat, h.limitValue limit hlimit]
      dsimp only
      split
      · rw [List.set_set]
      · rfl
    · show s.pos + 1 = _
      rw [h.pos, List.length_append, List.length_singleton]
    · intro d
      rw [List.map_append, List.mem_append, ← h.seen d, List.mem_cons]
      simp [or_comm]
    · rw [htake, List.filterMap_append, List.filterMap_cons, hhit, List.filterMap_nil]
      exact h.best.keep fun hmem => hseen ((h.seen _).mpr hmem)

/-- The loop over a section. -/
theorem between_run (m : VIDMgr) (raw : VectorSources) (isL2 : Bool) (halloc : Allocated n k r)
    (hi : i < n) (hj : j ≤ k) :
    ∃ s kept, (List.range j).foldlM (fun s j => parseStep m raw isL2 k i j s) ⟨r, 0, []⟩ = some s ∧
      Between m raw isL2 k i r j s kept := by
  induction j with
  | zero => exact ⟨⟨r, 0, []⟩, [], rfl, between_init m raw isL2 k i r⟩
  | succ j ih =>
    obtain ⟨s, kept, hrun, hbetween⟩ := ih (by omega)
    obtain ⟨s', kept', hstep, hbetween'⟩ := hbetween.step halloc hi (by omega)
    refine ⟨s', kept', ?_, hbetween'⟩
    rw [List.range_succ, List.foldlM_append, hrun]
    simpa using hstep

theorem foldl_fill (k i : ℕ) (ps : List ℕ) (r : VectorResult) :
    ps.foldl (fill k i) r =
      { r with
        docids := ps.foldl (fun l p => l.set (i * k + p) (-1)) r.docids
        dists := ps.foldl (fun l p => l.set (i * k + p) (-1)) r.dists } := by
  induction ps generalizing r with
  | nil => rfl
  | cons p ps ih => exact ih (fill k i r p)

/-- **What is left of section `i`**: the best hits, and `-1` behind them. -/
structure Kept (m : VIDMgr) (raw : VectorSources) (k i : ℕ) (r r' : VectorResult) (kept : List Hit) :
    Prop where
  best : Best ((found k i r).filterMap (hitOf m raw)) kept
  length : kept.length ≤ k
  docids : sect k i r'.docids = kept.map Hit.docid ++ List.replicate (k - kept.length) (-1)
  dists : sect k i r'.dists = kept.map Hit.dist ++ List.replicate (k - kept.length) (-1)
  sources : (sect k i r'.sources).take kept.length = kept.map Hit.source
  sourceLens : (sect k i r'.sourceLens).take kept.length = kept.map Hit.sourceLen

/-- The section, with its limit. -/
def Parsed (m : VIDMgr) (raw : VectorSources) (isL2 : Bool) (k i : ℕ) (r r' : VectorResult) : Prop :=
  ∃ kept, Kept m raw k i r r' kept ∧
    r'.limitValue[i]? = (r.limitValue[i]?).map fun limit => limitOf isL2 limit kept

/-- Section `i` and its limit are as they were. -/
structure Unchanged (k i : ℕ) (r r' : VectorResult) : Prop where
  docids : sect k i r'.docids = sect k i r.docids
  dists : sect k i r'.dists = sect k i r.dists
  sources : sect k i r'.sources = sect k i r.sources
  sourceLens : sect k i r'.sourceLens = sect k i r.sourceLens
  limitValue : r'.limitValue[i]? = r.limitValue[i]?

theorem Unchanged.trans {r₁ r₂ r₃ : VectorResult} (h : Unchanged k i r₁ r₂)
    (h' : Unchanged k i r₂ r₃) : Unchanged k i r₁ r₃ where
  docids := h'.docids.trans h.docids
  dists := h'.dists.trans h.dists
  sources := h'.sources.trans h.sources
  sourceLens := h'.sourceLens.trans h.sourceLens
  limitValue := h'.limitValue.trans h.limitValue

/-- **One query** rewrites its own section, and leaves the others as they are. -/
theorem parseQuery_parsed (m : VIDMgr) (raw : VectorSources) (isL2 : Bool)
    (halloc : Allocated n k r) (hi : i < n) :
    ∃ r', parseQuery m raw isL2 k r i = some r' ∧ Allocated n k r' ∧ Parsed m raw isL2 k i r r' ∧
      ∀ i' ≠ i, Unchanged k i' r r' := by
  obtain ⟨s, kept, hrun, h⟩ := between_run m raw isL2 halloc hi (Nat.le_refl k)
  have hend : i * k + k ≤ n * k := by
    have hmul := Nat.mul_le_mul_right k hi
    rwa [Nat.succ_mul] at hmul
  have hkept : kept.length ≤ k := by
    obtain ⟨junk, hlength, -⟩ := h.docids
    rw [List.length_map] at hlength
    omega
  have hdocidsEnd : i * k + k ≤ r.docids.length := by rw [halloc.docids]; exact hend
  have hdistsEnd : i * k + k ≤ r.dists.length := by rw [halloc.dists]; exact hend
  have hsourcesEnd : i * k + k ≤ r.sources.length := by rw [halloc.sources]; exact hend
  have hlensEnd : i * k + k ≤ r.sourceLens.length := by rw [halloc.sourceLens]; exact hend
  -- the arrays that are filled up, and those that are not
  have hdocids := (h.docids.fill (by omega) (by rwa [List.length_map]) (-1)).eq_putSect (by simp; omega)
  have hdists := (h.dists.fill (by omega) (by rwa [List.length_map]) (-1)).eq_putSect (by simp; omega)
  obtain ⟨hsourcesTake, xs, hxs, hsources⟩ := h.sources.take_sect hsourcesEnd
  obtain ⟨hlensTake, ls, hls, hlens⟩ := h.sourceLens.take_sect hlensEnd
  rw [List.length_map, ← h.pos] at hdocids hdists
  rw [List.length_map] at hsourcesTake hlensTake
  have hdocidsLength : (kept.map Hit.docid ++ List.replicate (k - s.pos) (-1)).length = k := by
    rw [h.pos]
    simp
    omega
  have hdistsLength : (kept.map Hit.dist ++ List.replicate (k - s.pos) (-1)).length = k := by
    rw [h.pos]
    simp
    omega
  obtain ⟨limit, hlimit⟩ : ∃ limit, r.limitValue[i]? = some limit :=
    ⟨_, List.getElem?_eq_getElem (by rw [halloc.limitValue]; exact hi)⟩
  have hlimits := h.limitValue limit hlimit
  unfold parseQuery
  rw [hrun]
  dsimp only [Option.bind_eq_bind, Option.bind_some]
  rw [foldl_fill]
  refine ⟨_, rfl, ?_, ⟨kept, ⟨?_, hkept, ?_, ?_, ?_, ?_⟩, ?_⟩, fun i' hne => ?_⟩
  · -- the lengths
    constructor
    · exact halloc.fits
    · split <;> (dsimp only; rw [hdocids, length_putSect hdocidsLength hdocidsEnd, halloc.docids])
    · split <;> (dsimp only; rw [hdists, length_putSect hdistsLength hdistsEnd, halloc.dists])
    · split <;> (dsimp only; rw [hsources, length_putSect hxs hsourcesEnd, halloc.sources])
    · split <;> (dsimp only; rw [hlens, length_putSect hls hlensEnd, halloc.sourceLens])
    · split <;> (dsimp only; rw [hlimits, List.length_set, halloc.limitValue])
  · have hbest := h.best
    rwa [List.take_of_length_le] at hbest
    unfold found sect
    exact List.length_take_le _ _
  · rw [← h.pos]
    split <;> (dsimp only; rw [hdocids, sect_putSect hdocidsLength hdocidsEnd])
  · rw [← h.pos]
    split <;> (dsimp only; rw [hdists, sect_putSect hdistsLength hdistsEnd])
  · split <;> exact hsourcesTake
  · split <;> exact hlensTake
  · rw [hlimit]
    split <;>
      (dsimp only
       rw [hlimits, List.getElem?_set_self (by rw [halloc.limitValue]; exact hi)]
       rfl)
  · constructor
    · split <;> (dsimp only; rw [hdocids, sect_putSect_of_ne hdocidsLength hdocidsEnd hne])
    · split <;> (dsimp only; rw [hdists, sect_putSect_of_ne hdistsLength hdistsEnd hne])
    · split <;> (dsimp only; rw [hsources, sect_putSect_of_ne hxs hsourcesEnd hne])
    · split <;> (dsimp only; rw [hlens, sect_putSect_of_ne hls hlensEnd hne])
    · split <;> (dsimp only; rw [hlimits, List.getElem?_set_ne (Ne.symm hne)])

/-! ### All queries -/

theorem found_eq_zip (k i : ℕ) (r : VectorResult) :
    found k i r = (sect k i r.docids).zip (sect k i r.dists) := by
  unfold found sect
  rw [List.zip, List.drop_zipWith, List.take_zipWith]

theorem Unchanged.found {r r' : VectorResult} (h : Unchanged k i r r') : found k i r' = found k i r := by
  rw [found_eq_zip, found_eq_zip, h.docids, h.dists]

/-- A section that later queries leave as it is. -/
theorem Parsed.unchanged {r r' r'' : VectorResult} (h : Parsed m raw isL2 k i r r')
    (hun : Unchanged k i r' r'') : Parsed m raw isL2 k i r r'' := by
  obtain ⟨kept, hkept, hlimit⟩ := h
  refine ⟨kept, ⟨hkept.best, hkept.length, ?_, ?_, ?_, ?_⟩, hun.limitValue.trans hlimit⟩
  · rw [hun.docids, hkept.docids]
  · rw [hun.dists, hkept.dists]
  · rw [hun.sources, hkept.sources]
  · rw [hun.sourceLens, hkept.sourceLens]

/-- A section that earlier queries have left as it was. -/
theorem Unchanged.parsed {r r' r'' : VectorResult} (hun : Unchanged k i r r')
    (h : Parsed m raw isL2 k i r' r'') : Parsed m raw isL2 k i r r'' := by
  obtain ⟨kept, hkept, hlimit⟩ := h
  refine ⟨kept, ⟨?_, hkept.length, hkept.docids, hkept.dists, hkept.sources, hkept.sourceLens⟩, ?_⟩
  · rw [← hun.found]
    exact hkept.best
  · rw [hlimit, hun.limitValue]

/-- Some queries, one after the other. -/
theorem parse_run (m : VIDMgr) (raw : VectorSources) (isL2 : Bool) (halloc : Allocated n k r)
    (hi : i ≤ n) :
    ∃ r', (List.range i).foldlM (parseQuery m raw isL2 k) r = some r' ∧ Allocated n k r' ∧
      (∀ i' < i, Parsed m raw isL2 k i' r r') ∧ ∀ i' ≥ i, Unchanged k i' r r' := by
  induction i with
  | zero =>
    refine ⟨r, rfl, halloc, fun i' hi' => absurd hi' (Nat.not_lt_zero i'), fun i' _ => ?_⟩
    exact ⟨rfl, rfl, rfl, rfl, rfl⟩
  | succ i ih =>
    obtain ⟨r₁, hrun, halloc₁, hdone, hrest⟩ := ih (by omega)
    obtain ⟨r₂, hquery, halloc₂, hparsed, hother⟩ :=
      parseQuery_parsed m raw isL2 halloc₁ (by omega : i < n)
    refine ⟨r₂, ?_, halloc₂, fun i' hi' => ?_, fun i' hi' => ?_⟩
    · rw [List.range_succ, List.foldlM_append, hrun]
      simpa using hquery
    · by_cases heq : i' = i
      · rw [heq]
        exact (hrest i (Nat.le_refl i)).parsed hparsed
      · exact (hdone i' (by omega)).unchanged (hother i' heq)
    · exact (hrest i' (by omega)).trans (hother i' (by omega))

/-- The limit is the largest of the distances, which are not below the limit that there was. -/
theorem limitOf_largest {limit : ℚ} (hnonneg : ∀ h ∈ kept, limit ≤ h.dist) :
    (∀ h ∈ kept, h.dist ≤ limitOf true limit kept) ∧
      (kept ≠ [] → ∃ h ∈ kept, h.dist = limitOf true limit kept) := by
  have hle : ∀ h ∈ kept, h.dist ≤ limitOf true limit kept := (foldl_max_le_iff.mp (le_refl _)).2
  refine ⟨hle, fun hne => ?_⟩
  cases foldl_max_choose (f := Hit.dist) (l := kept) (b := limit) with
  | inl hstart =>
    -- no distance is above the old limit, so all are equal to it
    obtain ⟨h, hmem⟩ := List.exists_mem_of_ne_nil kept hne
    have hstart' : limitOf true limit kept = limit := hstart
    have hlimit := hle h hmem
    rw [hstart'] at hlimit ⊢
    exact ⟨h, hmem, le_antisymm hlimit (hnonneg h hmem)⟩
  | inr hmem =>
    obtain ⟨h, hmem, heq⟩ := hmem
    exact ⟨h, hmem, heq.symm⟩

/-- **Each query's section** keeps the best hit of each document, and for L2 the limit of the query is the
largest distance that is kept; no query changes the section of another one. -/
theorem parse_best (m : VIDMgr) (raw : VectorSources) (isL2 : Bool) (halloc : Allocated n k r) :
    (∃ r', parseIndexSearchResult m raw isL2 n k r = some r' ∧ ∀ i < n, ∃ kept,
      Kept m raw k i r r' kept ∧
        (isL2 = true → r.limitValue[i]? = some 0 → (∀ h ∈ kept, 0 ≤ h.dist) →
          ∃ limit, r'.limitValue[i]? = some limit ∧ (∀ h ∈ kept, h.dist ≤ limit) ∧
            (kept ≠ [] → ∃ h ∈ kept, h.dist = limit) ∧ (kept = [] → limit = 0))) ∧
      ∀ i < n, ∃ r', parseQuery m raw isL2 k r i = some r' ∧ ∀ i' ≠ i, Unchanged k i' r r' := by
  refine ⟨?_, fun i hi => ?_⟩
  · obtain ⟨r', hrun, -, hdone, -⟩ := parse_run m raw isL2 halloc (Nat.le_refl n)
    refine ⟨r', hrun, fun i hi => ?_⟩
    obtain ⟨kept, hkept, hlimit⟩ := hdone i hi
    refine ⟨kept, hkept, fun hl2 hzero hnonneg => ?_⟩
    rw [hzero, hl2] at hlimit
    obtain ⟨hle, hmem⟩ := limitOf_largest hnonneg
    exact ⟨_, hlimit, hle, hmem, fun hnil => by rw [hnil]; rfl⟩
  · obtain ⟨r', hquery, -, -, hother⟩ :=
      parseQuery_parsed m raw isL2 halloc hi
    exact ⟨r', hquery, hother⟩

/-- Two queries of three vectors each, with two vectors a document. -/
def twoQueries : VectorResult :=
  ⟨2, 3, [1, 0, 2, -1, 3, -1], [4, 5, 6, 9, 2, 9], [none, none, none, none, none, none],
    [0, 0, 0, 0, 0, 0], [-1, -1], [0, 0]⟩

theorem parse_best_twoQueries :
    ∃ r', parseIndexSearchResult ⟨true, [7, 7, 8, 8], []⟩ ⟨4, false, []⟩ true 2 3 twoQueries = some r' ∧
      ∀ i < 2, ∃ kept, Kept ⟨true, [7, 7, 8, 8], []⟩ ⟨4, false, []⟩ 3 i twoQueries r' kept := by
  have halloc : Allocated 2 3 twoQueries := ⟨by decide, rfl, rfl, rfl, rfl, rfl⟩
  obtain ⟨⟨r', hparse, hkept⟩, -⟩ := parse_best ⟨true, [7, 7, 8, 8], []⟩ ⟨4, false, []⟩ true halloc
  refine ⟨r', hparse, fun i hi => ?_⟩
  obtain ⟨kept, h, -⟩ := hkept i hi
  exact ⟨kept, h⟩

end VectorResult

end AwaDB
