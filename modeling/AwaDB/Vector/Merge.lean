import AwaDB.Lib.Outcome
import AwaDB.Vector.MemoryRawVector
import AwaDB.Vector.VectorResult

/-!
# Merging the fields of a request (`VectorManager::Search`, `VectorResult::logic_op`)

A request asks for vectors of several fields. Each field gives a list of documents with scores for each
query; for a query, the lists are merged field by field.

* `logicOp`: one field, with the scores so far;
* `mergeRequest`: all fields of a query, with `none` and `broken` for an access outside of an array;
* `searchRequest`: one field alone;
* `mergeFrom_total`: fields that have the query are merged without leaving their arrays.
-/

namespace AwaDB.Merge

open Lib

/-- The entries of a document in `doc2vec_scores`, `doc2vec_count` and `doc2vec_idx`, which are made
together. -/
structure DocEntry where
  docid : ℤ
  score : ℚ
  count : ℕ
  idx : List (ℕ × ℕ)
deriving DecidableEq, Repr

/-- What `all_vector_results` has of a field, and its boost, or 1 when it has none. -/
structure MergeField where
  result : VectorResult
  boost : ℚ
deriving DecidableEq, Repr

/-- The documents so far, and what the fields so far count for a document that they do not have. -/
structure MergeState where
  docs : List DocEntry
  accuScore : ℚ
deriving DecidableEq, Repr

/-- `VectorDocField`, without its name. -/
structure VectorDocField where
  score : ℚ
  source : Option ℤ
  sourceLen : ℤ
deriving DecidableEq, Repr

/-- `VectorDoc`; there is no number for a score that was divided by zero. -/
structure VectorDoc where
  docid : ℤ
  score : Option ℚ
  fields : List VectorDocField
deriving DecidableEq, Repr

/-- `GammaResult`, with the documents up to `results_count`, or `none` before `init`; `topn` is the size of
the array that they are in. -/
structure GammaResult where
  topn : ℤ
  total : ℤ
  docs : Option (List VectorDoc)
deriving DecidableEq, Repr

/-- The members of `GammaSearchCondition` that come from the request; `isL2` is its metric. -/
structure GammaSearchCondition where
  topn : ℤ
  isL2 : Bool
  multiVecAndOp : Bool
  multiVectorRank : Bool
deriving DecidableEq, Repr

/-- The order in which a map is iterated. -/
structure MapOrder where
  apply : List DocEntry → List DocEntry
  perm : ∀ l, (apply l).Perm l

/-- `total[i]`, which no search writes. -/
def total (r : VectorResult) (i : ℕ) : Option ℤ := if i < r.n then some 0 else none

/-! ### Merging -/

/-- A document that is found: a new one starts with what the fields so far count for it. -/
def addHit (isAnd : Bool) (j place : ℕ) (id : ℤ) (accuScore maxScore score : ℚ) (docs : List DocEntry) :
    List DocEntry :=
  (if docs.any (·.docid = id) then docs else docs ++ [⟨id, accuScore, 0, []⟩]).map fun d =>
    if d.docid = id then
      { d with
        score := d.score - maxScore + score
        count := if isAnd then d.count + 1 else d.count
        idx := (j, place) :: d.idx.filter fun p => p.1 ≠ j }
    else d

/-- The absent fields of an L2 OR query are counted. -/
def Penalized (isAnd isL2 : Bool) : Prop := isAnd = false ∧ isL2 = true

instance (isAnd isL2 : Bool) : Decidable (Penalized isAnd isL2) := inferInstanceAs (Decidable (_ ∧ _))

/-- `max_score` -/
def maxScore (isAnd isL2 : Bool) (i : ℕ) (f : MergeField) : Option ℚ :=
  if Penalized isAnd isL2 then f.result.limitValue[i]?.map (f.boost * ·) else some 0

/-- One round of the loop of `logic_op`. -/
def logicStep (isAnd : Bool) (i j : ℕ) (f : MergeField) (accuScore max : ℚ) (docs : List DocEntry)
    (t : ℕ) : Option (List DocEntry) := do
  let id ← f.result.docids[i * f.result.topn + t]?
  if id = -1 then return docs
  let dist ← f.result.dists[i * f.result.topn + t]?
  return addHit isAnd j (i * f.result.topn + t) id accuScore max (dist * f.boost) docs

/-- `logic_op`. Where nothing is counted for an absent field, `max_score` is zero. -/
def logicOp (isAnd isL2 : Bool) (i j : ℕ) (f : MergeField) (s : MergeState) : Option MergeState := do
  let max ← maxScore isAnd isL2 i f
  let docs ← (List.range f.result.topn).foldlM (logicStep isAnd i j f (s.accuScore + max) max)
    (s.docs.map fun d => { d with score := d.score + max })
  return ⟨docs, s.accuScore + max⟩

/-- The fields from field `j` on. -/
def mergeFrom (isAnd isL2 : Bool) (i : ℕ) : ℕ → List MergeField → MergeState → Option MergeState
  | _, [], s => some s
  | j, f :: fs, s => do
    let s ← logicOp isAnd isL2 i j f s
    mergeFrom isAnd isL2 i (j + 1) fs s

/-- One round of the loop over `doc2vec_idx`, for the fields of a document and the totals. -/
def fieldStep (fs : List MergeField) (i : ℕ) (s : List VectorDocField × List ℤ) (p : ℕ × ℕ) :
    Option (List VectorDocField × List ℤ) := do
  let f ← fs[p.1]?
  let source ← f.result.sources[p.2]?
  let sourceLen ← f.result.sourceLens[p.2]?
  let dist ← f.result.dists[p.2]?
  let total ← total f.result i
  return (s.1.set p.1 ⟨dist * f.boost, source, sourceLen⟩, s.2 ++ [total])

/-- `total_and_op` and `total_or_op` -/
def docTotal (isAnd : Bool) (totals : List ℤ) (total : ℤ) : ℤ :=
  if isAnd then totals.foldl min (2 ^ 31 - 1)
  else
    let totalOrOp := totals.foldl max (-1)
    if totalOrOp > 0 then totalOrOp else total

def totalBoost (fs : List MergeField) : ℚ := (fs.map MergeField.boost).sum

/-- The score of a document, when all fields are merged. -/
def finalScore (isL2 : Bool) (totalBoost score : ℚ) : Option ℚ :=
  if isL2 then some score else if totalBoost = 0 then none else some (score / totalBoost)

/-- One round of the loop over the documents. -/
def docStep (c : GammaSearchCondition) (fs : List MergeField) (i : ℕ) (s : List VectorDoc × ℤ)
    (d : DocEntry) : Option (List VectorDoc × ℤ) :=
  if c.multiVecAndOp = true ∧ d.count ≠ fs.length then some s
  else do
    let p ← d.idx.foldlM (fieldStep fs i) (List.replicate fs.length ⟨0, none, 0⟩, [])
    return (s.1 ++ [⟨d.docid, finalScore c.isL2 (totalBoost fs) d.score, p.1⟩],
      docTotal c.multiVecAndOp p.2 s.2)

/-- `L2Cmp` and `InnerProductCmp`, as orders; what is no number stands first. -/
def bestFirst (isL2 : Bool) (a b : VectorDoc) : Bool :=
  match a.score, b.score with
  | some x, some y => if isL2 then x ≤ y else y ≤ x
  | none, _ => true
  | some _, none => false

/-- `total_return_results` -/
def totalReturnResults (c : GammaSearchCondition) (vecNum : ℕ) : ℤ :=
  int32 (if c.multiVecAndOp then c.topn else c.topn * vecNum)

/-- The merge for query `i`. `metricL2` is the metric of the condition after the fields were searched. -/
def mergeRequest (c : GammaSearchCondition) (metricL2 : Bool) (order : MapOrder) (fs : List MergeField)
    (i : ℕ) (g : GammaResult) : Outcome ℤ GammaResult :=
  if totalReturnResults c fs.length < 0 then .refused (-4)
  else .ofOption do
    let s ← mergeFrom c.multiVecAndOp c.isL2 i 0 fs ⟨[], 0⟩
    let p ← (order.apply s.docs).foldlM (docStep c fs i) ([], g.total)
    return {
      topn := totalReturnResults c fs.length
      total := p.2
      docs := some (if c.multiVectorRank then p.1.mergeSort (bestFirst metricL2) else p.1) }

/-- One round of the loop over the entries of the only field. -/
def singleStep (i : ℕ) (f : MergeField) (docs : List VectorDoc) (t : ℕ) : Option (List VectorDoc) := do
  let docid ← f.result.docids[i * f.result.topn + t]?
  if docid = -1 then return docs
  let source ← f.result.sources[i * f.result.topn + t]?
  let sourceLen ← f.result.sourceLens[i * f.result.topn + t]?
  let dist ← f.result.dists[i * f.result.topn + t]?
  return docs ++ [⟨docid, some (dist * f.boost), [⟨dist * f.boost, source, sourceLen⟩]⟩]

/-- The only field, for query `i`. -/
def singleRequest (c : GammaSearchCondition) (f : MergeField) (i : ℕ) (g : GammaResult) :
    Outcome ℤ GammaResult :=
  if c.topn < 0 then .refused (-5)
  else .ofOption do
    let total ← total f.result i
    let docs ← (List.range f.result.topn).foldlM (singleStep i f) []
    return ⟨c.topn, if total > 0 then total else g.total, some docs⟩

/-- The results of query `i`: several fields, or one. -/
def mergeResult (c : GammaSearchCondition) (metricL2 : Bool) (order : MapOrder) (fs : List MergeField)
    (i : ℕ) (g : GammaResult) : Outcome ℤ GammaResult :=
  match fs with
  | [f] => singleRequest c f i g
  | fs => mergeRequest c metricL2 order fs i g

/-! ### Accesses -/

/-- The arrays of a field have the lengths that `init` gave them. -/
def Sized (f : MergeField) : Prop := f.result.Allocated f.result.n f.result.topn

/-- The field has query `i`, or nothing of it is read. -/
def HasQuery (isAnd isL2 : Bool) (i : ℕ) (f : MergeField) : Prop :=
  i < f.result.n ∨ f.result.topn = 0 ∧ ¬Penalized isAnd isL2

instance (isAnd isL2 : Bool) (i : ℕ) (f : MergeField) : Decidable (HasQuery isAnd isL2 i f) :=
  inferInstanceAs (Decidable (_ ∨ _))

/-- The places of the documents are in the arrays of their fields. -/
def Placed (fs : List MergeField) (i : ℕ) (docs : List DocEntry) : Prop :=
  ∀ d ∈ docs, ∀ p ∈ d.idx, ∃ f, fs[p.1]? = some f ∧ i < f.result.n ∧ p.2 < f.result.n * f.result.topn

variable {isAnd isL2 : Bool} {i j : ℕ} {f : MergeField} {fs : List MergeField} {docs : List DocEntry}
  {s : MergeState} {c : GammaSearchCondition}

theorem placed_nil : Placed fs i [] := fun _ h => absurd h List.not_mem_nil

theorem Placed.addHit (h : Placed fs i docs) (hf : fs[j]? = some f) (hi : i < f.result.n) {place : ℕ}
    (hplace : place < f.result.n * f.result.topn) (id : ℤ) (accuScore max score : ℚ) :
    Placed fs i (addHit isAnd j place id accuScore max score docs) := by
  -- the documents, with a new one that has no place yet
  have hnew : Placed fs i
      (if docs.any (·.docid = id) then docs else docs ++ [⟨id, accuScore, 0, []⟩]) := by
    split
    · exact h
    · intro d hd
      rcases List.mem_append.mp hd with hd | hd
      · exact h d hd
      · rw [List.mem_singleton.mp hd]
        exact fun p hp => absurd hp List.not_mem_nil
  intro d hd p hp
  obtain ⟨d', hd', rfl⟩ := List.mem_map.mp hd
  by_cases hid : d'.docid = id
  · rw [if_pos hid] at hp
    rcases List.mem_cons.mp hp with rfl | hp
    · exact ⟨f, hf, hi, hplace⟩
    · exact hnew d' hd' p (List.mem_filter.mp hp).1
  · rw [if_neg hid] at hp
    exact hnew d' hd' p hp

/-- A round of the loop of `logic_op` stays inside of the arrays. -/
theorem logicStep_some (hsized : Sized f) (hf : fs[j]? = some f) (hi : i < f.result.n) {t : ℕ}
    (ht : t < f.result.topn) (accuScore max : ℚ) (h : Placed fs i docs) :
    ∃ docs', logicStep isAnd i j f accuScore max docs t = some docs' ∧ Placed fs i docs' := by
  have hlt : i * f.result.topn + t < f.result.n * f.result.topn := sect_lt hi ht
  have hdocid := List.getElem?_eq_getElem (hlt.trans_eq hsized.docids.symm)
  have hdist := List.getElem?_eq_getElem (hlt.trans_eq hsized.dists.symm)
  unfold logicStep
  rw [hdocid, hdist]
  dsimp only [Option.bind_eq_bind, Option.bind_some]
  split
  · exact ⟨docs, rfl, h⟩
  · exact ⟨_, rfl, h.addHit hf hi hlt _ _ _ _⟩

theorem Placed.map_score (h : Placed fs i docs) (max : ℚ) :
    Placed fs i (docs.map fun d => { d with score := d.score + max }) := by
  intro d hd
  obtain ⟨d', hd', rfl⟩ := List.mem_map.mp hd
  exact h d' hd'

/-- **A field that has the query** is merged. -/
theorem logicOp_some (hsized : Sized f) (hf : fs[j]? = some f) (hquery : HasQuery isAnd isL2 i f)
    (h : Placed fs i s.docs) :
    ∃ s', logicOp isAnd isL2 i j f s = some s' ∧ Placed fs i s'.docs := by
  have hmax : ∃ max, maxScore isAnd isL2 i f = some max := by
    unfold maxScore
    split
    · next hpenalized =>
      have hi : i < f.result.n := hquery.resolve_right fun hnone => hnone.2 hpenalized
      rw [List.getElem?_eq_getElem (hi.trans_eq hsized.limitValue.symm)]
      exact ⟨_, rfl⟩
    · exact ⟨0, rfl⟩
  obtain ⟨max, hmax⟩ := hmax
  obtain ⟨docs', hloop, hplaced⟩ : ∃ docs', (List.range f.result.topn).foldlM
      (logicStep isAnd i j f (s.accuScore + max) max)
      (s.docs.map fun d => { d with score := d.score + max }) = some docs' ∧ Placed fs i docs' :=
    foldlM_some (Placed fs i) (h.map_score max) fun docs t ht hdocs => by
      have ht := List.mem_range.mp ht
      rcases hquery with hi | ⟨hzero, -⟩
      · exact logicStep_some hsized hf hi ht _ _ hdocs
      · omega
  refine ⟨⟨docs', s.accuScore + max⟩, ?_, hplaced⟩
  unfold logicOp
  rw [hmax, Option.bind_eq_bind, Option.bind_some, hloop]
  rfl

/-- A field that does not have the query is read behind the end of an array. -/
theorem logicOp_none (hsized : Sized f) (hquery : ¬HasQuery isAnd isL2 i f) (s : MergeState) :
    logicOp isAnd isL2 i j f s = none := by
  have hi : ¬i < f.result.n := fun hi => hquery (.inl hi)
  unfold logicOp maxScore
  by_cases hpenalized : Penalized isAnd isL2
  · rw [if_pos hpenalized, List.getElem?_eq_none (by rw [hsized.limitValue]; omega)]
    rfl
  · have htopn : f.result.topn ≠ 0 := fun hzero => hquery (.inr ⟨hzero, hpenalized⟩)
    obtain ⟨k, hk⟩ := Nat.exists_eq_succ_of_ne_zero htopn
    have hle : f.result.n * f.result.topn ≤ i * f.result.topn :=
      Nat.mul_le_mul_right _ (Nat.not_lt.mp hi)
    have hfirst : ∀ accuScore max docs, logicStep isAnd i j f accuScore max docs 0 = none := by
      intro accuScore max docs
      unfold logicStep
      rw [List.getElem?_eq_none (by rw [hsized.docids]; exact hle)]
      rfl
    rw [if_neg hpenalized, hk, List.range_succ_eq_map]
    simp only [List.foldlM_cons, hfirst, Option.bind_eq_bind, Option.bind_none, Option.bind_some]

/-- **Fields that have the query** are merged without leaving their arrays. -/
theorem mergeFrom_some {rest : List MergeField} (hrest : fs.drop j = rest)
    (hsized : ∀ f ∈ rest, Sized f) (hquery : ∀ f ∈ rest, HasQuery isAnd isL2 i f)
    (h : Placed fs i s.docs) :
    ∃ s', mergeFrom isAnd isL2 i j rest s = some s' ∧ Placed fs i s'.docs := by
  induction rest generalizing j s with
  | nil => exact ⟨s, rfl, h⟩
  | cons f rest ih =>
    have hf : fs[j]? = some f := by
      rw [← Nat.add_zero j, ← List.getElem?_drop, hrest]
      rfl
    obtain ⟨s₁, hs₁, hplaced⟩ := logicOp_some (hsized f List.mem_cons_self) hf
      (hquery f List.mem_cons_self) h
    have hdrop : fs.drop (j + 1) = rest := by
      rw [← List.drop_drop, hrest]
      rfl
    obtain ⟨s', hs', hplaced'⟩ := ih hdrop
      (fun g hg => hsized g (List.mem_cons_of_mem f hg))
      (fun g hg => hquery g (List.mem_cons_of_mem f hg)) hplaced
    refine ⟨s', ?_, hplaced'⟩
    rw [mergeFrom, hs₁]
    exact hs'

theorem mergeFrom_none {rest : List MergeField} (hsized : ∀ f ∈ rest, Sized f)
    (hquery : ∃ f ∈ rest, ¬HasQuery isAnd isL2 i f) :
    mergeFrom isAnd isL2 i j rest s = none := by
  induction rest generalizing j s with
  | nil =>
    obtain ⟨f, hf, -⟩ := hquery
    exact absurd hf List.not_mem_nil
  | cons f rest ih =>
    rw [mergeFrom]
    by_cases hf : HasQuery isAnd isL2 i f
    · obtain ⟨g, hg, hnot⟩ := hquery
      have hg : g ∈ rest := by
        rcases List.mem_cons.mp hg with rfl | hg
        · exact absurd hf hnot
        · exact hg
      cases logicOp isAnd isL2 i j f s with
      | none => rfl
      | some s' => exact ih (fun g hg => hsized g (List.mem_cons_of_mem f hg)) ⟨g, hg, hnot⟩
    · rw [logicOp_none (hsized f List.mem_cons_self) hf]
      rfl

/-- What is known of the documents of a result without their fields. -/
def docKey (d : VectorDoc) : ℤ × Option ℚ := (d.docid, d.score)

/-- The loop over the documents keeps this one. -/
def Kept (c : GammaSearchCondition) (fs : List MergeField) (d : DocEntry) : Prop :=
  c.multiVecAndOp = true → d.count = fs.length

instance (c : GammaSearchCondition) (fs : List MergeField) (d : DocEntry) : Decidable (Kept c fs d) :=
  inferInstanceAs (Decidable (_ → _))

/-- The document that an entry becomes. -/
def entryKey (c : GammaSearchCondition) (fs : List MergeField) (d : DocEntry) : ℤ × Option ℚ :=
  (d.docid, finalScore c.isL2 (totalBoost fs) d.score)

/-- The fields of a document are read inside of the arrays. -/
theorem docStep_some (hsized : ∀ f ∈ fs, Sized f) (hplaced : Placed fs i docs) {d : DocEntry}
    (hd : d ∈ docs) (s : List VectorDoc × ℤ) :
    ∃ s', docStep c fs i s d = some s' ∧
      s'.1.map docKey = s.1.map docKey ++ if Kept c fs d then [entryKey c fs d] else [] := by
  unfold docStep
  by_cases hskip : c.multiVecAndOp = true ∧ d.count ≠ fs.length
  · rw [if_pos hskip, if_neg fun hkept : Kept c fs d => hskip.2 (hkept hskip.1), List.append_nil]
    exact ⟨s, rfl, rfl⟩
  · have hkept : Kept c fs d := fun hand => by
      by_contra hne
      exact hskip ⟨hand, hne⟩
    have hfields : ∃ p, d.idx.foldlM (fieldStep fs i) (List.replicate fs.length ⟨0, none, 0⟩, []) =
        some p ∧ True :=
      foldlM_some (fun _ => True) trivial fun s p hp _ => by
        obtain ⟨f, hf, hi, hplace⟩ := hplaced d hd p hp
        have hsized := hsized f (List.mem_of_getElem? hf)
        unfold fieldStep total
        rw [hf]
        dsimp only [Option.bind_eq_bind, Option.bind_some]
        rw [List.getElem?_eq_getElem (hplace.trans_eq hsized.sources.symm),
          List.getElem?_eq_getElem (hplace.trans_eq hsized.sourceLens.symm),
          List.getElem?_eq_getElem (hplace.trans_eq hsized.dists.symm), if_pos hi]
        exact ⟨_, rfl, trivial⟩
    obtain ⟨p, hp, -⟩ := hfields
    rw [if_neg hskip, hp, if_pos hkept]
    refine ⟨_, rfl, ?_⟩
    rw [List.map_append]
    rfl

/-- The loop over the documents. -/
theorem docLoop_some (hsized : ∀ f ∈ fs, Sized f) (hplaced : Placed fs i docs) {ds : List DocEntry}
    (hds : ∀ d ∈ ds, d ∈ docs) (s : List VectorDoc × ℤ) :
    ∃ s', ds.foldlM (docStep c fs i) s = some s' ∧
      s'.1.map docKey = s.1.map docKey ++ (ds.filter fun d => Kept c fs d).map (entryKey c fs) := by
  induction ds generalizing s with
  | nil => exact ⟨s, rfl, (List.append_nil _).symm⟩
  | cons d ds ih =>
    obtain ⟨s₁, hs₁, hkeys₁⟩ := docStep_some (c := c) hsized hplaced (hds d List.mem_cons_self) s
    obtain ⟨s', hs', hkeys⟩ := ih (fun d' hd' => hds d' (List.mem_cons_of_mem d hd')) s₁
    refine ⟨s', ?_, ?_⟩
    · rw [List.foldlM_cons, hs₁]
      exact hs'
    · rw [hkeys, hkeys₁, List.filter_cons, List.append_assoc]
      by_cases hkept : Kept c fs d
      · rw [if_pos hkept, if_pos (decide_eq_true hkept)]
        rfl
      · rw [if_neg hkept, if_neg (by simpa using hkept)]
        rfl

variable {metricL2 : Bool} {order : MapOrder} {g : GammaResult}

/-- **When the merge of a query is safe**: all fields have the query. -/
theorem mergeRequest_done (hsized : ∀ f ∈ fs, Sized f) (hroom : 0 ≤ totalReturnResults c fs.length)
    (hquery : ∀ f ∈ fs, HasQuery c.multiVecAndOp c.isL2 i f) :
    ∃ g', mergeRequest c metricL2 order fs i g = .done g' ∧ g'.docs.isSome := by
  have hmerge : ∃ s', mergeFrom c.multiVecAndOp c.isL2 i 0 fs ⟨[], 0⟩ = some s' ∧ Placed fs i s'.docs :=
    mergeFrom_some rfl hsized hquery placed_nil
  obtain ⟨s', hs', hplaced⟩ := hmerge
  obtain ⟨p, hp, -⟩ := docLoop_some (c := c) hsized hplaced
    (fun d hd => (order.perm s'.docs).mem_iff.mp hd) ([], g.total)
  unfold mergeRequest
  rw [if_neg (Int.not_lt.mpr hroom), hs', Option.bind_eq_bind, Option.bind_some, hp]
  exact ⟨_, rfl, rfl⟩

theorem mergeRequest_broken (hsized : ∀ f ∈ fs, Sized f) (hroom : 0 ≤ totalReturnResults c fs.length)
    (hquery : ∃ f ∈ fs, ¬HasQuery c.multiVecAndOp c.isL2 i f) :
    mergeRequest c metricL2 order fs i g = .broken := by
  unfold mergeRequest
  rw [if_neg (Int.not_lt.mpr hroom), mergeFrom_none hsized hquery]
  rfl

/-- One field is read inside of its arrays. -/
theorem singleRequest_done (hsized : Sized f) (hi : i < f.result.n) (htopn : 0 ≤ c.topn) :
    ∃ g', singleRequest c f i g = .done g' ∧ g'.docs.isSome := by
  have hloop : ∃ docs, (List.range f.result.topn).foldlM (singleStep i f) [] = some docs ∧ True :=
    foldlM_some (fun _ => True) trivial fun docs t ht _ => by
      have hlt := sect_lt hi (List.mem_range.mp ht)
      unfold singleStep
      rw [List.getElem?_eq_getElem (hlt.trans_eq hsized.docids.symm),
        List.getElem?_eq_getElem (hlt.trans_eq hsized.sources.symm),
        List.getElem?_eq_getElem (hlt.trans_eq hsized.sourceLens.symm),
        List.getElem?_eq_getElem (hlt.trans_eq hsized.dists.symm)]
      dsimp only [Option.bind_eq_bind, Option.bind_some]
      split
      · exact ⟨docs, rfl, trivial⟩
      · exact ⟨_, rfl, trivial⟩
  obtain ⟨docs, hdocs, -⟩ := hloop
  unfold singleRequest total
  rw [if_neg (Int.not_lt.mpr htopn), if_pos hi, Option.bind_eq_bind, Option.bind_some, hdocs]
  exact ⟨_, rfl, rfl⟩

end AwaDB.Merge
