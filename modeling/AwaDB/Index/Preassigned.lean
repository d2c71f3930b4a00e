import AwaDB.Index.Probes
import AwaDB.Realtime.BucketData

/-!
# Searching the probed lists (`index/impl/gamma_index_ivfflat.cc`, `gamma_index_ivfpq.cc`)

`search_preassigned` scans the lists that the quantizer chose for a query: with one heap where it is
parallel over the queries, with a heap for each thread where it is parallel over the lists.
`GammaIVFPQIndex` keeps `recall_num` entries and computes the answer from these.

* `scanCodes`: one list;
* `GammaIndexIVFFlat.searchLists_eq`, `GammaIVFPQIndex.searchLists_eq`: the threads give what one heap gives;
* `GammaIVFPQIndex.computeDis_congr`: the answer does not depend on where the entries stand in the heap;
* `searchPreassigned_modes`: one answer in both modes.
-/

namespace AwaDB.Index

open Lib Realtime Probes

/-! ### One list -/

/-- A list to probe and the distance of its centroid; a negative key is no list. -/
structure Probe (D : Type) where
  key : ℤ
  coarseDis : D
  deriving DecidableEq

section ScanCodes

variable {D Code : Type} (cmp : D → D → Prop) [DecidableRel cmp]
  (put : List (Entry D) → Entry D → List (Entry D)) (isValid : ℕ → Bool) (dis : Code → D)
  (admits : D → Bool) (label : Long → ℤ)

/-- `scan_codes`: masked and invalid vectors are passed over, the others offered to the heap if their
distance is admitted. -/
def scanCodes : List (Long × Code) → List (Entry D) → Option (List (Entry D))
  | [], h => some h
  | (id, code) :: rest, h =>
    if isDel id then scanCodes rest h
    else if !isValid (recoverVid id) then scanCodes rest h
    else if !admits (dis code) then scanCodes rest h
    else (offer cmp put h (dis code, label id)).bind (scanCodes rest)

/-- The vectors of a list that get as far as the heap. -/
def codesOffered (list : List (Long × Code)) : List (Entry D) :=
  (list.filter fun e => !isDel e.1 && (isValid (recoverVid e.1) && admits (dis e.2))).map
    fun e => (dis e.2, label e.1)

theorem codesOffered_cons (id : Long) (code : Code) (rest : List (Long × Code)) :
    codesOffered isValid dis admits label ((id, code) :: rest) =
      if !isDel id && (isValid (recoverVid id) && admits (dis code)) then
        (dis code, label id) :: codesOffered isValid dis admits label rest
      else codesOffered isValid dis admits label rest := by
  unfold codesOffered
  rw [List.filter_cons]
  split
  · rfl
  · rfl

theorem scanCodes_eq (list : List (Long × Code)) (h : List (Entry D)) :
    scanCodes cmp put isValid dis admits label list h =
      scan cmp put (codesOffered isValid dis admits label list) h := by
  induction list generalizing h with
  | nil => rfl
  | cons e rest ih =>
    obtain ⟨id, code⟩ := e
    rw [codesOffered_cons]
    unfold scanCodes
    cases isDel id with
    | true => exact ih h
    | false =>
      cases isValid (recoverVid id) with
      | false => exact ih h
      | true =>
        cases admits (dis code) with
        | false => exact ih h
        | true =>
          show (offer cmp put h (dis code, label id)).bind _ = (offer cmp put h (dis code, label id)).bind _
          congr 1
          funext h'
          exact ih h'

/-- A list that is passed over when it is empty. -/
theorem scanList_eq (list : List (Long × Code)) (h : List (Entry D)) :
    (if list.length = 0 then some (h, 0)
      else (scanCodes cmp put isValid dis admits label list h).map fun h => (h, list.length)) =
      (scan cmp put (codesOffered isValid dis admits label list) h).map fun h => (h, list.length) := by
  rw [scanCodes_eq]
  split
  · next hempty =>
    rw [List.length_eq_zero_iff.mp hempty]
    rfl
  · rfl

theorem codesOffered_labelled (hlabel : ∀ id, isDel id = false → label id ≠ -1)
    (list : List (Long × Code)) : ∀ e ∈ codesOffered isValid dis admits label list, e.2 ≠ -1 := by
  intro e he
  obtain ⟨⟨id, code⟩, hmem, rfl⟩ := List.mem_map.mp he
  have hkept := (List.mem_filter.mp hmem).2
  rw [Bool.and_eq_true] at hkept
  exact hlabel id (by simpa using hkept.1)

end ScanCodes

/-- What all probes give carries labels, if what each gives does. -/
theorem gathered_labelled {D P : Type} {lists : Lists D P}
    (hlabel : ∀ p es, lists.entries p = some es → ∀ e ∈ es, e.2 ≠ -1) {ps : List P}
    {es : List (Entry D)} (hes : lists.gathered ps = some es) : ∀ e ∈ es, e.2 ≠ -1 := by
  induction ps generalizing es with
  | nil =>
    cases hes
    exact fun e he => absurd he List.not_mem_nil
  | cons p ps ih =>
    obtain ⟨es₁, hone, hrest⟩ := Option.bind_eq_some_iff.mp hes
    obtain ⟨es₂, hes₂, rfl⟩ := Option.map_eq_some_iff.mp hrest
    intro e he
    rcases List.mem_append.mp he with he | he
    · exact hlabel p es₁ hone e he
    · exact ih hes₂ e he

/-! ### `GammaIndexIVFFlat` -/

namespace GammaIndexIVFFlat

/-- What `search_preassigned` uses of the index and of faiss. -/
structure Store (nlist : ℕ) (D Vec : Type) where
  /-- `invlists`: ids and vectors -/
  lists : Fin nlist → List (Long × Vec)
  /-- `fvec_inner_product` and `fvec_L2sqr` -/
  distance : MetricType → Vec → Vec → D
  heaps : MetricType → HeapOps D

/-- `max_codes` -/
def maxCodes : ℕ := 1000000000

variable {nlist : ℕ} {D Vec : Type} [LinearOrder D] (rc : RetrievalContext D) (st : Store nlist D Vec)

/-- The heap functions of the metric of the request. -/
def heap : HeapOps D := st.heaps rc.metricType

/-- `scan_one_list`; a key above the lists throws. -/
def scanOneList (x : Vec) (p : Probe D) (h : List (Entry D)) : Option (List (Entry D) × ℕ) :=
  if p.key < 0 then some (h, 0)
  else if hk : p.key.toNat < nlist then
    let list := st.lists ⟨p.key.toNat, hk⟩
    if list.length = 0 then some (h, 0)
    else
      (scanCodes rc.metricType.cmp (heap rc st).popPush rc.isValid (st.distance rc.metricType x)
        rc.isSimilarScoreValid (fun id => recoverVid id) list h).map fun h => (h, list.length)
  else none

/-- One round of the loop over the queries. -/
def searchQuery (k : ℕ) (x : Vec) (probes : List (Probe D)) : Option (List (Entry D)) :=
  (scanQuery (scanOneList rc st x) maxCodes probes 0 ((heap rc st).heapify k)).map (heap rc st).reorder

/-- One round of the loop over the queries where the lists fall to threads. -/
def searchLists (k : ℕ) (x : Vec) (threads : List (List (Probe D))) : Option (List (Entry D)) :=
  (mergeThreads (heap rc st) (scanOneList rc st x) k threads ((heap rc st).heapify k)).map
    (heap rc st).reorder

/-- `search_preassigned` of `n` queries: `probes i` are the lists of query `i`, `threads i` how they fall
to the threads, in the order in which these merge. -/
def searchPreassigned {n : ℕ} (k : ℕ) (xs : Fin n → Vec) (probes : Fin n → List (Probe D))
    (threads : Fin n → List (List (Probe D))) : Fin n → Option (List (Entry D)) :=
  if rc.parallelOnQueries then fun i => searchQuery rc st k (xs i) (probes i)
  else fun i => searchLists rc st k (xs i) (threads i)

/-- What the probes of a query give. -/
def lists (x : Vec) : Lists D (Probe D) where
  entries p :=
    if p.key < 0 then some []
    else if hk : p.key.toNat < nlist then
      some (codesOffered rc.isValid (st.distance rc.metricType x) rc.isSimilarScoreValid
        (fun id => recoverVid id) (st.lists ⟨p.key.toNat, hk⟩))
    else none
  size p :=
    if p.key < 0 then 0
    else if hk : p.key.toNat < nlist then (st.lists ⟨p.key.toNat, hk⟩).length
    else 0

theorem offers (x : Vec) :
    Offers rc.metricType.cmp (heap rc st).popPush (lists rc st x) (scanOneList rc st x) := by
  intro p h
  unfold scanOneList lists
  dsimp only
  by_cases hneg : p.key < 0
  · rw [if_pos hneg, if_pos hneg, if_pos hneg]
    rfl
  · rw [if_neg hneg, if_neg hneg, if_neg hneg]
    by_cases hk : p.key.toNat < nlist
    · rw [dif_pos hk, dif_pos hk, dif_pos hk, scanList_eq]
      rfl
    · rw [dif_neg hk, dif_neg hk]
      rfl

omit [LinearOrder D] in
theorem lists_labelled (x : Vec) :
    ∀ p es, (lists rc st x).entries p = some es → ∀ e ∈ es, e.2 ≠ -1 := by
  intro p es hes
  unfold lists at hes
  dsimp only at hes
  split at hes
  · cases hes
    exact fun e he => absurd he List.not_mem_nil
  · split at hes
    · cases hes
      refine codesOffered_labelled _ _ _ _ (fun id _ => ?_) _
      exact ne_of_gt (lt_of_lt_of_le (by decide) (Int.natCast_nonneg _))
    · cases hes

/-- The limit on the scanned codes is not reached for the query `x`, and its distances are distinct. -/
structure Definite (x : Vec) (probes : List (Probe D)) : Prop where
  limit : Unlimited (lists rc st x) maxCodes 0 probes
  distinct : ∀ es, (lists rc st x).gathered probes = some es → Distinct es

/-- **Parallel over the lists** `GammaIndexIVFFlat` gives the same `k` entries in the same order. -/
theorem searchLists_eq (k : ℕ) {x : Vec} {probes : List (Probe D)} {threads : List (List (Probe D))}
    (hthreads : threads.flatten.Perm probes) {IsHeap : List (Entry D) → Prop}
    (hops : (heap rc st).Correct rc.metricType.cmp IsHeap) (hdefinite : Definite rc st x probes) :
    searchLists rc st k x threads = searchQuery rc st k x probes := by
  unfold searchLists searchQuery
  rcases agree hops hops.puts_popPush (offers rc st x) hthreads hdefinite.limit k
      fun es hes => gathered_labelled (lists_labelled rc st x) hes with
    ⟨hquery, hlists⟩ | ⟨h, h', es, es', hquery, hlists, hlen, hlen', hes, hperm, hheld, hheld'⟩
  · rw [hquery, hlists]
  · have hfound : (fitting rc.metricType.cmp (heap rc st).neutral es').Perm
        (fitting rc.metricType.cmp (heap rc st).neutral es) := hperm.filter _
    have hfoundDistinct : Distinct (fitting rc.metricType.cmp (heap rc st).neutral es) :=
      (hdefinite.distinct es hes).sublist (List.filter_sublist.map Prod.fst)
    rw [hquery, hlists, Option.map_some, Option.map_some, hheld.reorder hops hfoundDistinct,
      hheld'.reorder hops (hfoundDistinct.perm hfound.symm), hlen, hlen', best_perm hfoundDistinct hfound]

end GammaIndexIVFFlat

/-! ### `GammaIVFPQIndex` -/

namespace GammaIVFPQIndex

/-- What `search_preassigned` uses of a request beyond that. -/
structure RecallContext (D : Type) extends RetrievalContext D where
  recallNum : ℕ
  hasRank : Bool

/-- What `search_preassigned` uses of the index, of the vectors and of faiss. -/
structure Store (nlist : ℕ) (D Query Code Vec : Type) where
  /-- `invlists`: ids and codes -/
  lists : Fin nlist → List (Long × Code)
  /-- `max_codes`; `0` is no limit. -/
  maxCodes : ℕ
  /-- The distance of a code in a list, from the tables of the query and of the list. -/
  codeDistance : MetricType → Query → Probe D → Code → D
  /-- `fvec_inner_product` and `fvec_L2sqr` with the vector itself -/
  distance : MetricType → Query → Vec → D
  /-- What `Gets` finds for a vid: `none` fails the whole call, `some none` is a null pointer. -/
  gets : ℤ → Option (Option Vec)
  heaps : MetricType → HeapOps D

variable {nlist : ℕ} {D Query Code Vec : Type} [LinearOrder D] (rc : RecallContext D)
  (st : Store nlist D Query Code Vec)

/-- The heap functions of the metric of the request. -/
def heap : HeapOps D := st.heaps rc.metricType

/-- `scan_one_list`; a key above the lists is logged. -/
def scanOneList (x : Query) (p : Probe D) (h : List (Entry D)) : Option (List (Entry D) × ℕ) :=
  if p.key < 0 then some (h, 0)
  else if hk : p.key.toNat < nlist then
    let list := st.lists ⟨p.key.toNat, hk⟩
    if list.length = 0 then some (h, 0)
    else
      (scanCodes rc.metricType.cmp (heap rc st).replaceTop rc.isValid (st.codeDistance rc.metricType x p)
        (fun _ => true) BitVec.toInt list h).map fun h => (h, list.length)
  else some (h, 0)

/-- The loop of `compute_dis` over the recalled entries, with the exact distances. -/
def rerank (x : Query) : List (Entry D) → List (Entry D) → Option (List (Entry D))
  | [], simi => some simi
  | (_, label) :: rest, simi =>
    if label = -1 then rerank x rest simi
    else
      match (st.gets label).join with
      | none => none
      | some y =>
        if !rc.isSimilarScoreValid (st.distance rc.metricType x y) then rerank x rest simi
        else
          (offer rc.metricType.cmp (heap rc st).popPush simi (st.distance rc.metricType x y, label)).bind
            (rerank x rest)

/-- The loop of `compute_dis` over the recalled entries in order, the first `i` places being written. -/
def takeValid (k : ℕ) : List (Entry D) → ℕ → List (Entry D) → List (Entry D)
  | [], _, simi => simi
  | e :: rest, i, simi =>
    if e.2 = -1 then takeValid k rest i simi
    else if rc.isSimilarScoreValid e.1 then
      if i + 1 ≥ k then simi.set i e else takeValid k rest (i + 1) (simi.set i e)
    else if i ≥ k then simi
    else takeValid k rest i simi

/-- `compute_dis` -/
def computeDis (k : ℕ) (x : Query) (recalled : List (Entry D)) : Option (List (Entry D)) :=
  let simi := (heap rc st).heapify k
  if rc.hasRank then
    if recalled.any fun e => (st.gets e.2).isNone then some simi
    else (rerank rc st x recalled simi).map (heap rc st).reorder
  else some (takeValid rc k ((heap rc st).reorder recalled) 0 simi)

/-- `recall_num`, at least `k` -/
def recallNum (k : ℕ) : ℕ := if rc.recallNum < k then k else rc.recallNum

/-- One round of the loop over the queries. -/
def searchQuery (k : ℕ) (x : Query) (probes : List (Probe D)) : Option (List (Entry D)) :=
  if k = 0 then some []
  else
    (scanQuery (scanOneList rc st x) st.maxCodes probes 0 ((heap rc st).heapify (recallNum rc k))).bind
      (computeDis rc st k x)

/-- One round of the loop over the queries where the lists fall to threads. -/
def searchLists (k : ℕ) (x : Query) (threads : List (List (Probe D))) : Option (List (Entry D)) :=
  if k = 0 then some []
  else
    (mergeThreads (heap rc st) (scanOneList rc st x) (recallNum rc k) threads
      ((heap rc st).heapify (recallNum rc k))).bind (computeDis rc st k x)

/-- `search_preassigned` of `n` queries: `probes i` are the lists of query `i`, `threads i` how they fall
to the threads, in the order in which these merge. -/
def searchPreassigned {n : ℕ} (k : ℕ) (xs : Fin n → Query) (probes : Fin n → List (Probe D))
    (threads : Fin n → List (List (Probe D))) : Fin n → Option (List (Entry D)) :=
  if rc.parallelOnQueries then fun i => searchQuery rc st k (xs i) (probes i)
  else fun i => searchLists rc st k (xs i) (threads i)

/-- What the probes of a query give. -/
def lists (x : Query) : Lists D (Probe D) where
  entries p :=
    if p.key < 0 then some []
    else if hk : p.key.toNat < nlist then
      some (codesOffered rc.isValid (st.codeDistance rc.metricType x p) (fun _ => true) BitVec.toInt
        (st.lists ⟨p.key.toNat, hk⟩))
    else some []
  size p :=
    if p.key < 0 then 0
    else if hk : p.key.toNat < nlist then (st.lists ⟨p.key.toNat, hk⟩).length
    else 0

theorem offers (x : Query) :
    Offers rc.metricType.cmp (heap rc st).replaceTop (lists rc st x) (scanOneList rc st x) := by
  intro p h
  unfold scanOneList lists
  dsimp only
  by_cases hneg : p.key < 0
  · rw [if_pos hneg, if_pos hneg, if_pos hneg]
    rfl
  · rw [if_neg hneg, if_neg hneg, if_neg hneg]
    by_cases hk : p.key.toNat < nlist
    · rw [dif_pos hk, dif_pos hk, dif_pos hk, scanList_eq]
      rfl
    · rw [dif_neg hk, dif_neg hk, dif_neg hk]
      rfl

omit [LinearOrder D] in
theorem lists_labelled (x : Query) :
    ∀ p es, (lists rc st x).entries p = some es → ∀ e ∈ es, e.2 ≠ -1 := by
  intro p es hes
  unfold lists at hes
  dsimp only at hes
  split at hes
  · cases hes
    exact fun e he => absurd he List.not_mem_nil
  · split at hes
    · cases hes
      refine codesOffered_labelled _ _ _ _ (fun id hdel => ?_) _
      -- an id that is not masked is not negative
      rw [isDel_eq_msb] at hdel
      rw [BitVec.toInt_eq_msb_cond, hdel]
      exact ne_of_gt (lt_of_lt_of_le (by decide) (Int.natCast_nonneg _))
    · cases hes
      exact fun e he => absurd he List.not_mem_nil

/-! ### The answer from the recalled entries -/

/-- An entry with its exact distance, if that is admitted. -/
def reranked (x : Query) (e : Entry D) : Option (Entry D) :=
  if e.2 = -1 then none
  else (st.gets e.2).join.bind fun y =>
    if rc.isSimilarScoreValid (st.distance rc.metricType x y) then
      some (st.distance rc.metricType x y, e.2)
    else none

/-- `rerank` fails where a vector is not there, and offers the others to the heap. -/
theorem rerank_eq (x : Query) (recalled simi : List (Entry D)) :
    rerank rc st x recalled simi =
      if recalled.any fun e => decide (e.2 ≠ -1) && (st.gets e.2).join.isNone then none
      else scan rc.metricType.cmp (heap rc st).popPush (recalled.filterMap (reranked rc st x)) simi := by
  induction recalled generalizing simi with
  | nil => rfl
  | cons e rest ih =>
    obtain ⟨d, label⟩ := e
    rw [rerank, List.any_cons, List.filterMap_cons]
    unfold reranked at ih ⊢
    dsimp only
    by_cases hlabel : label = -1
    · simp only [hlabel, if_true, ne_eq, not_true_eq_false, decide_false, Bool.false_and, Bool.false_or]
      exact ih simi
    · cases hvec : (st.gets label).join with
      | none => simp [hlabel]
      | some y =>
        cases hscore : rc.isSimilarScoreValid (st.distance rc.metricType x y) with
        | false =>
          simp only [hlabel, if_false, Bool.not_false, if_true, Option.isNone_some, Bool.and_false,
            Bool.false_or, Option.bind_some, hscore, Bool.false_eq_true]
          exact ih simi
        | true =>
          simp only [hlabel, if_false, Bool.not_true, Option.isNone_some, Bool.and_false, Bool.false_or,
            Option.bind_some, hscore, Bool.false_eq_true, if_true, scan]
          cases offer rc.metricType.cmp (heap rc st).popPush simi (st.distance rc.metricType x y, label) with
          | none => split <;> rfl
          | some simi' => exact ih simi'

/-- **`compute_dis` does not look at where the entries stand in the heap.** -/
theorem computeDis_congr {k : ℕ} (hk : k ≠ 0) (x : Query) {recalled recalled' : List (Entry D)}
    {IsHeap : List (Entry D) → Prop} (hops : (heap rc st).Correct rc.metricType.cmp IsHeap)
    (hperm : recalled.Perm recalled') (hreorder : (heap rc st).reorder recalled = (heap rc st).reorder recalled')
    (hdistinct : rc.hasRank = true → Distinct (recalled'.filterMap (reranked rc st x))) :
    computeDis rc st k x recalled = computeDis rc st k x recalled' := by
  unfold computeDis
  cases hrank : rc.hasRank with
  | false =>
    simp only [Bool.false_eq_true, if_false]
    rw [hreorder]
  | true =>
    simp only [if_true]
    rw [hperm.any_eq]
    split
    · rfl
    · rw [rerank_eq, rerank_eq, hperm.any_eq]
      split
      · rfl
      · have hcandidates := hperm.filterMap (reranked rc st x)
        have hlabel : ∀ e ∈ recalled'.filterMap (reranked rc st x), e.2 ≠ -1 := by
          intro e he
          obtain ⟨e₀, -, hsome⟩ := List.mem_filterMap.mp he
          unfold reranked at hsome
          split at hsome
          · cases hsome
          · next hne =>
            obtain ⟨y, -, hy⟩ := Option.bind_eq_some_iff.mp hsome
            split at hy
            · cases hy
              exact hne
            · cases hy
        obtain ⟨h, hscan, hlen, hheld⟩ := scan_heapify hops hops.puts_popPush k
          (fun e he => hlabel e (hcandidates.mem_iff.mp he)) (.inl hk)
        obtain ⟨h', hscan', hlen', hheld'⟩ := scan_heapify hops hops.puts_popPush k hlabel (.inl hk)
        have hfound : (fitting rc.metricType.cmp (heap rc st).neutral
              (recalled.filterMap (reranked rc st x))).Perm
            (fitting rc.metricType.cmp (heap rc st).neutral (recalled'.filterMap (reranked rc st x))) :=
          hcandidates.filter _
        have hfoundDistinct : Distinct (fitting rc.metricType.cmp (heap rc st).neutral
            (recalled'.filterMap (reranked rc st x))) :=
          (hdistinct hrank).sublist (List.filter_sublist.map Prod.fst)
        rw [hscan, hscan', Option.map_some, Option.map_some,
          hheld.reorder hops (hfoundDistinct.perm hfound.symm), hheld'.reorder hops hfoundDistinct, hlen,
          hlen', best_perm hfoundDistinct hfound]

/-- The exact distances of what was recalled are distinct if those of all entries are. -/
theorem distinct_recalled {x : Query} {es h : List (Entry D)} {IsHeap : List (Entry D) → Prop}
    (hheld : Holds rc.metricType.cmp (heap rc st) IsHeap
      (fitting rc.metricType.cmp (heap rc st).neutral es) h)
    (hdistinct : Distinct (es.filterMap (reranked rc st x))) :
    Distinct (h.filterMap (reranked rc st x)) := by
  obtain ⟨m, dropped, hperm, -⟩ := hheld.keeps
  have hfill : reranked rc st x (heap rc st).fill = none := if_pos rfl
  have hmap := hperm.filterMap (reranked rc st x)
  rw [List.filterMap_append, List.filterMap_append, List.filterMap_replicate_of_none hfill,
    List.append_nil] at hmap
  have hfitting : Distinct ((fitting rc.metricType.cmp (heap rc st).neutral es).filterMap
      (reranked rc st x)) :=
    hdistinct.sublist ((List.filter_sublist.filterMap _).map Prod.fst)
  exact (hfitting.perm hmap.symm).sublist ((List.sublist_append_left _ _).map Prod.fst)

/-- The limit on the scanned codes is not reached for the query `x`, and its distances are distinct, by
the codes and by the vectors. -/
structure Definite (x : Query) (probes : List (Probe D)) : Prop where
  limit : Unlimited (lists rc st x) st.maxCodes 0 probes
  distinct : ∀ es, (lists rc st x).gathered probes = some es → Distinct es
  exact_distinct : ∀ es, rc.hasRank = true → (lists rc st x).gathered probes = some es →
    Distinct (es.filterMap (reranked rc st x))

/-- **Parallel over the lists** `GammaIVFPQIndex` gives the same `k` entries in the same order. -/
theorem searchLists_eq (k : ℕ) {x : Query} {probes : List (Probe D)} {threads : List (List (Probe D))}
    (hthreads : threads.flatten.Perm probes) {IsHeap : List (Entry D) → Prop}
    (hops : (heap rc st).Correct rc.metricType.cmp IsHeap) (hdefinite : Definite rc st x probes) :
    searchLists rc st k x threads = searchQuery rc st k x probes := by
  unfold searchLists searchQuery
  split
  · rfl
  · next hk =>
    rcases agree hops hops.puts_replaceTop (offers rc st x) hthreads hdefinite.limit (recallNum rc k)
        fun es hes => gathered_labelled (lists_labelled rc st x) hes with
      ⟨hquery, hlists⟩ | ⟨h, h', es, es', hquery, hlists, hlen, hlen', hes, hperm, hheld, hheld'⟩
    · rw [hquery, hlists]
    · have hfound : (fitting rc.metricType.cmp (heap rc st).neutral es').Perm
          (fitting rc.metricType.cmp (heap rc st).neutral es) := hperm.filter _
      have hfoundDistinct : Distinct (fitting rc.metricType.cmp (heap rc st).neutral es) :=
        (hdefinite.distinct es hes).sublist (List.filter_sublist.map Prod.fst)
      have hfoundDistinct' := hfoundDistinct.perm hfound.symm
      have hbest : best rc.metricType.cmp (recallNum rc k)
            (fitting rc.metricType.cmp (heap rc st).neutral es') =
          best rc.metricType.cmp (recallNum rc k) (fitting rc.metricType.cmp (heap rc st).neutral es) :=
        best_perm hfoundDistinct hfound _
      have hheap : h'.Perm h := by
        have hleft := hheld'.perm_filled hfoundDistinct'
        have hright := hheld.perm_filled hfoundDistinct
        rw [hlen', hbest] at hleft
        rw [hlen] at hright
        exact hleft.trans hright.symm
      have hsorted : (heap rc st).reorder h' = (heap rc st).reorder h := by
        rw [hheld'.reorder hops hfoundDistinct', hheld.reorder hops hfoundDistinct, hlen, hlen', hbest]
      rw [hquery, hlists, Option.bind_some, Option.bind_some]
      refine computeDis_congr rc st hk x hops hheap hsorted fun hrank => ?_
      exact distinct_recalled rc st hheld (hdefinite.exact_distinct es hrank hes)

end GammaIVFPQIndex

/-! ### Both modes -/

/-- **One answer in both modes**: `search_preassigned` of `GammaIVFPQIndex` and of `GammaIndexIVFFlat` gives
for each query what one heap gives, however the lists fall to threads and in whatever order these merge. -/
theorem searchPreassigned_modes {nlist n : ℕ} {D Query Code Vec : Type} [LinearOrder D]
    (probes : Fin n → List (Probe D)) (threads : Fin n → List (List (Probe D)))
    (hthreads : ∀ i, (threads i).flatten.Perm (probes i)) (k : ℕ) {IsHeap : List (Entry D) → Prop} :
    (∀ (rc : GammaIVFPQIndex.RecallContext D) (st : GammaIVFPQIndex.Store nlist D Query Code Vec)
        (xs : Fin n → Query), (GammaIVFPQIndex.heap rc st).Correct rc.metricType.cmp IsHeap →
      (∀ i, GammaIVFPQIndex.Definite rc st (xs i) (probes i)) →
      (∀ i, GammaIVFPQIndex.searchLists rc st k (xs i) (threads i) =
        GammaIVFPQIndex.searchQuery rc st k (xs i) (probes i)) ∧
      GammaIVFPQIndex.searchPreassigned rc st k xs probes threads =
        fun i => GammaIVFPQIndex.searchQuery rc st k (xs i) (probes i)) ∧
    ∀ (rc : RetrievalContext D) (st : GammaIndexIVFFlat.Store nlist D Vec) (xs : Fin n → Vec),
      (GammaIndexIVFFlat.heap rc st).Correct rc.metricType.cmp IsHeap →
      (∀ i, GammaIndexIVFFlat.Definite rc st (xs i) (probes i)) →
      (∀ i, GammaIndexIVFFlat.searchLists rc st k (xs i) (threads i) =
        GammaIndexIVFFlat.searchQuery rc st k (xs i) (probes i)) ∧
      GammaIndexIVFFlat.searchPreassigned rc st k xs probes threads =
        fun i => GammaIndexIVFFlat.searchQuery rc st k (xs i) (probes i) := by
  constructor
  · intro rc st xs hops hdefinite
    have hlists : ∀ i, GammaIVFPQIndex.searchLists rc st k (xs i) (threads i) =
        GammaIVFPQIndex.searchQuery rc st k (xs i) (probes i) :=
      fun i => GammaIVFPQIndex.searchLists_eq rc st k (hthreads i) hops (hdefinite i)
    refine ⟨hlists, ?_⟩
    unfold GammaIVFPQIndex.searchPreassigned
    split
    · rfl
    · exact funext hlists
  · intro rc st xs hops hdefinite
    have hlists : ∀ i, GammaIndexIVFFlat.searchLists rc st k (xs i) (threads i) =
        GammaIndexIVFFlat.searchQuery rc st k (xs i) (probes i) :=
      fun i => GammaIndexIVFFlat.searchLists_eq rc st k (hthreads i) hops (hdefinite i)
    refine ⟨hlists, ?_⟩
    unfold GammaIndexIVFFlat.searchPreassigned
    split
    · rfl
    · exact funext hlists

/-- Two lists, where a vector of the second has moved. -/
def twoProbed : Fin 2 → List (Long × ℤ)
  | 0 => [(0#64, 12), (1#64, 7)]
  | 1 => [(kDelIdxMask ||| 1#64, 7), (2#64, 10), (3#64, 30)]

/-- The nearest vectors, with exact distances. -/
def nearest : GammaIVFPQIndex.RecallContext ℤ where
  metricType := .l2
  parallelOnQueries := false
  isValid _ := true
  isSimilarScoreValid dis := dis ≤ 100
  recallNum := 3
  hasRank := true

/-- An index whose codes are the vectors, rounded down to multiples of three. -/
def roundedStore : GammaIVFPQIndex.Store 2 ℤ ℤ ℤ ℤ where
  lists := twoProbed
  maxCodes := 0
  codeDistance _ x _ code := (x - code / 3 * 3) * (x - code / 3 * 3)
  distance _ x y := (x - y) * (x - y)
  gets vid := some [12, 7, 10, 30][vid.toNat]?
  heaps m := sortedHeap m.cmp 1000

/-- An index that keeps the vectors. -/
def flatStore : GammaIndexIVFFlat.Store 2 ℤ ℤ where
  lists := twoProbed
  distance _ x y := (x - y) * (x - y)
  heaps m := sortedHeap m.cmp 1000

theorem searchPreassigned_modes_two :
    GammaIVFPQIndex.searchLists nearest roundedStore 2 8 [[⟨1, 5⟩, ⟨-1, 0⟩], [⟨0, 3⟩]] =
      GammaIVFPQIndex.searchQuery nearest roundedStore 2 8 [⟨0, 3⟩, ⟨1, 5⟩, ⟨-1, 0⟩] ∧
    GammaIndexIVFFlat.searchLists nearest.toRetrievalContext flatStore 2 8 [[⟨1, 5⟩, ⟨-1, 0⟩], [⟨0, 3⟩]] =
      GammaIndexIVFFlat.searchQuery nearest.toRetrievalContext flatStore 2 8 [⟨0, 3⟩, ⟨1, 5⟩, ⟨-1, 0⟩] := by
  have hmodes := @searchPreassigned_modes 2 1 ℤ ℤ ℤ ℤ _ (fun _ => [⟨0, 3⟩, ⟨1, 5⟩, ⟨-1, 0⟩])
    (fun _ => [[⟨1, 5⟩, ⟨-1, 0⟩], [⟨0, 3⟩]]) (fun _ => by decide) 2
    fun h => h.Pairwise fun a b : Entry ℤ => ¬MetricType.l2.cmp b.1 a.1
  refine ⟨(hmodes.1 nearest roundedStore (fun _ => 8) (correct_sortedHeap 1000) fun _ => ?_).1 0,
    (hmodes.2 nearest.toRetrievalContext flatStore (fun _ => 8) (correct_sortedHeap 1000) fun _ => ?_).1 0⟩
  · refine ⟨.inl rfl, fun es hes => ?_, fun es _ hes => ?_⟩
    · cases hes
      unfold Distinct
      decide
    · cases hes
      unfold Distinct
      decide
  · refine ⟨.inr (by decide), fun es hes => ?_⟩
    cases hes
    unfold Distinct
    decide

/-- The two nearest of `8` are `7` and `10`. -/
example : GammaIVFPQIndex.searchLists nearest roundedStore 2 8 [[⟨1, 5⟩, ⟨-1, 0⟩], [⟨0, 3⟩]] =
    some [(1, 1), (4, 2)] := by decide

end AwaDB.Index
