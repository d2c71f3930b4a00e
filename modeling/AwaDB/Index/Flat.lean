import AwaDB.Index.FaissHeap

/-!
# Brute-force search (`index/impl/gamma_index_flat.cc`)

`GammaFLATIndex::Search` runs over all vectors of a query with one heap, or splits the vectors among
threads that keep a heap each, which are then added to one heap in the order in which the threads end.

* `searchImpl_eq`: the loop over some vectors offers their candidates to a heap;
* `flatMap_threadRange`: the ranges of the threads are the vectors, each once and in order;
* `searchQuery_eq`, `searchVectors_eq`: what the two ways give;
* `search_agrees`: the same.
-/

namespace AwaDB.Index

open Lib

namespace GammaFLATIndex

/-- What `Search` uses of the vectors and of faiss. -/
structure Store (D Vec : Type) where
  /-- `MetaInfo()->Size()` -/
  numVectors : ℕ
  /-- `GetVector`, which may give a null pointer. -/
  getVector : ℕ → Option Vec
  /-- `fvec_inner_product` and `fvec_L2sqr` -/
  distance : MetricType → Vec → Vec → D
  /-- The distance of a vector that is not there, `-2`. -/
  missing : D
  heaps : MetricType → HeapOps D

variable {D Vec : Type} [LinearOrder D] (rc : RetrievalContext D) (st : Store D Vec)

/-- The heap functions of the metric of the request. -/
def heap : HeapOps D := st.heaps rc.metricType

/-- `dis` of one vector. -/
def dis (x : Vec) (vid : ℕ) : D :=
  match st.getVector vid with
  | none => st.missing
  | some y => st.distance rc.metricType x y

/-- `search_impl` over the vectors that are left. -/
def searchImpl (x : Vec) : List ℕ → List (Entry D) → Option (List (Entry D))
  | [], h => some h
  | vid :: vids, h =>
    if !rc.isValid vid then searchImpl x vids h
    else if !rc.isSimilarScoreValid (dis rc st x vid) then searchImpl x vids h
    else
      (offer rc.metricType.cmp (heap rc st).popPush h (dis rc st x vid, vid)).bind (searchImpl x vids)

/-- One round of the loop over the queries. -/
def searchQuery (k : ℕ) (x : Vec) : Option (List (Entry D)) :=
  (searchImpl rc st x (List.range' 0 st.numVectors) ((heap rc st).heapify k)).map (heap rc st).reorder

/-- The vectors of thread `ik`: the last one takes what is left over. -/
def threadRange (numVectors numThreads ik : ℕ) : List ℕ :=
  let numVectorsPerThread := numVectors / numThreads
  let ny := if ik = numThreads - 1 then numVectorsPerThread + numVectors % numThreads
    else numVectorsPerThread
  List.range' (ik * numVectorsPerThread) ny

/-- The threads end in the order `order`, and each adds its heap to `simi`. -/
def mergeThreads (numThreads k : ℕ) (x : Vec) (order : List ℕ) (simi : List (Entry D)) :
    Option (List (Entry D)) :=
  match order with
  | [] => some simi
  | ik :: order =>
    (searchImpl rc st x (threadRange st.numVectors numThreads ik) ((heap rc st).heapify k)).bind
      fun localSimi => mergeThreads numThreads k x order ((heap rc st).addn simi localSimi)

/-- One round of the loop over the queries where the vectors are split. -/
def searchVectors (numThreads k : ℕ) (order : List ℕ) (x : Vec) : Option (List (Entry D)) :=
  (mergeThreads rc st numThreads k x order ((heap rc st).heapify k)).map (heap rc st).reorder

/-- `GammaFLATIndex::Search` of `n` queries; the threads of query `i` end in the order `order i`. -/
def search (numThreads : ℕ) {n : ℕ} (order : Fin n → List ℕ) (k : ℕ) (xs : Fin n → Vec) :
    Fin n → Option (List (Entry D)) :=
  if rc.parallelOnQueries && decide (n > 1) then fun i => searchQuery rc st k (xs i)
  else fun i => searchVectors rc st numThreads k (order i) (xs i)

/-! ### The loop over some vectors -/

/-- The vectors that get as far as the heap, with their distances. -/
def candidates (x : Vec) (vids : List ℕ) : List (Entry D) :=
  (vids.filter fun vid => rc.isValid vid && rc.isSimilarScoreValid (dis rc st x vid)).map
    fun vid => (dis rc st x vid, (vid : ℤ))

omit [LinearOrder D] in
theorem candidates_cons (x : Vec) (vid : ℕ) (vids : List ℕ) :
    candidates rc st x (vid :: vids) =
      if rc.isValid vid && rc.isSimilarScoreValid (dis rc st x vid) then
        (dis rc st x vid, (vid : ℤ)) :: candidates rc st x vids
      else candidates rc st x vids := by
  unfold candidates
  rw [List.filter_cons]
  split
  · rfl
  · rfl

omit [LinearOrder D] in
/-- A vector's label is not that of an unfilled place. -/
theorem candidates_labelled (x : Vec) (vids : List ℕ) :
    ∀ e ∈ candidates rc st x vids, e.2 ≠ -1 := by
  intro e he
  obtain ⟨vid, -, rfl⟩ := List.mem_map.mp he
  exact ne_of_gt (lt_of_lt_of_le (by decide) (Int.natCast_nonneg vid))

/-- **`search_impl`** offers the candidates to the heap. -/
theorem searchImpl_eq (x : Vec) (vids : List ℕ) (h : List (Entry D)) :
    searchImpl rc st x vids h =
      scan rc.metricType.cmp (heap rc st).popPush (candidates rc st x vids) h := by
  induction vids generalizing h with
  | nil => rfl
  | cons vid vids ih =>
    rw [candidates_cons]
    unfold searchImpl
    cases rc.isValid vid with
    | false => exact ih h
    | true =>
      cases rc.isSimilarScoreValid (dis rc st x vid) with
      | false => exact ih h
      | true =>
        show (offer _ _ h _).bind _ = (offer _ _ h _).bind _
        congr 1
        funext h'
        exact ih h'

/-! ### The ranges of the threads -/

/-- The ranges of the first `j` threads, none of them the last. -/
theorem flatMap_threadRange_lt {numVectors numThreads j : ℕ} (hj : j ≤ numThreads - 1) :
    (List.range j).flatMap (threadRange numVectors numThreads) =
      List.range' 0 (j * (numVectors / numThreads)) := by
  induction j with
  | zero =>
    rw [Nat.zero_mul]
    rfl
  | succ j ih =>
    rw [List.range_succ, List.flatMap_append, ih (by omega), List.flatMap_singleton]
    unfold threadRange
    dsimp only
    rw [if_neg (by omega), Nat.succ_mul]
    have happend := List.range'_append_1 (s := 0) (m := j * (numVectors / numThreads))
      (n := numVectors / numThreads)
    rwa [Nat.zero_add] at happend

/-- **The ranges of the threads** are the vectors, each once and in order. -/
theorem flatMap_threadRange {numVectors numThreads : ℕ} (hT : 0 < numThreads) :
    (List.range numThreads).flatMap (threadRange numVectors numThreads) = List.range' 0 numVectors := by
  obtain ⟨last, rfl⟩ := Nat.exists_eq_succ_of_ne_zero (Nat.pos_iff_ne_zero.mp hT)
  rw [List.range_succ, List.flatMap_append, flatMap_threadRange_lt (by omega), List.flatMap_singleton]
  unfold threadRange
  dsimp only
  rw [if_pos (by omega)]
  have happend := List.range'_append_1 (s := 0) (m := last * (numVectors / (last + 1)))
    (n := numVectors / (last + 1) + numVectors % (last + 1))
  rw [Nat.zero_add] at happend
  rw [happend]
  congr 1
  have hdiv := Nat.div_add_mod numVectors (last + 1)
  rw [Nat.succ_mul] at hdiv
  omega

/-! ### One answer -/

section Search

variable {IsHeap : List (Entry D) → Prop} (hops : (heap rc st).Correct rc.metricType.cmp IsHeap)

/-- What a heap can find among some vectors. -/
def found (x : Vec) (vids : List ℕ) : List (Entry D) :=
  fitting rc.metricType.cmp (heap rc st).neutral (candidates rc st x vids)

theorem found_perm (x : Vec) {vids vids' : List ℕ} (h : vids.Perm vids') :
    (found rc st x vids).Perm (found rc st x vids') := ((h.filter _).map _).filter _

theorem found_flatMap (x : Vec) (f : ℕ → List ℕ) (l : List ℕ) :
    l.flatMap (fun ik => found rc st x (f ik)) = found rc st x (l.flatMap f) := by
  unfold found fitting candidates
  rw [List.filter_flatMap, List.map_flatMap, List.filter_flatMap]

theorem found_distinct {x : Vec} {vids : List ℕ} (h : Distinct (candidates rc st x vids)) :
    Distinct (found rc st x vids) := h.sublist (List.filter_sublist.map Prod.fst)

/-- What `Search` answers to a query: the best `k`. A heap without a place is not to be looked into. -/
def answer (k : ℕ) (x : Vec) : Option (List (Entry D)) :=
  if k = 0 ∧ candidates rc st x (List.range' 0 st.numVectors) ≠ [] then none
  else some ((heap rc st).filled k (best rc.metricType.cmp k (found rc st x (List.range' 0 st.numVectors))))

include hops

/-- **One heap for all vectors.** -/
theorem searchQuery_eq (k : ℕ) {x : Vec}
    (hdistinct : Distinct (candidates rc st x (List.range' 0 st.numVectors))) :
    searchQuery rc st k x = answer rc st k x := by
  unfold searchQuery answer
  rw [searchImpl_eq]
  by_cases hk : k = 0 ∧ candidates rc st x (List.range' 0 st.numVectors) ≠ []
  · have hempty : (heap rc st).heapify k = [] := by
      rw [hops.heapify_eq, hk.1]
      rfl
    rw [if_pos hk, hempty, scan_nil, if_neg hk.2]
    rfl
  · have hk' : k ≠ 0 ∨ candidates rc st x (List.range' 0 st.numVectors) = [] := by
      rwa [not_and_or, not_not] at hk
    obtain ⟨h', hscan, hlen, hh'⟩ :=
      scan_heapify hops hops.puts_popPush k (candidates_labelled rc st x _) hk'
    rw [if_neg hk, hscan, Option.map_some, hh'.reorder hops (found_distinct rc st hdistinct), hlen]
    rfl

/-- The threads that are left add what they find. -/
theorem mergeThreads_some {numThreads k : ℕ} {x : Vec} {order : List ℕ} {before simi : List (Entry D)}
    (hk : k ≠ 0 ∨ ∀ ik ∈ order, candidates rc st x (threadRange st.numVectors numThreads ik) = [])
    (hlen : simi.length = k) (hsimi : Holds rc.metricType.cmp (heap rc st) IsHeap before simi) :
    ∃ h', mergeThreads rc st numThreads k x order simi = some h' ∧ h'.length = k ∧
      Holds rc.metricType.cmp (heap rc st) IsHeap
        (before ++ order.flatMap fun ik => found rc st x (threadRange st.numVectors numThreads ik)) h' := by
  induction order generalizing before simi with
  | nil =>
    refine ⟨simi, rfl, hlen, ?_⟩
    rwa [List.flatMap_nil, List.append_nil]
  | cons ik order ih =>
    have hk' : k ≠ 0 ∨ candidates rc st x (threadRange st.numVectors numThreads ik) = [] :=
      hk.imp_right fun hall => hall ik List.mem_cons_self
    obtain ⟨localSimi, hscan, hlocal, hheld⟩ :=
      scan_heapify hops hops.puts_popPush k (candidates_labelled rc st x _) hk'
    obtain ⟨hlen', hsimi'⟩ := hsimi.addn hops hheld (hlocal.trans hlen.symm)
    obtain ⟨h', hrest, hh'⟩ := ih (hk.imp_right fun hall ik' hik' => hall ik' (List.mem_cons_of_mem ik hik'))
      (hlen'.trans hlen) hsimi'
    refine ⟨h', ?_, ?_⟩
    · rw [mergeThreads, searchImpl_eq, hscan]
      exact hrest
    · rw [List.flatMap_cons, ← List.append_assoc]
      exact hh'

/-- Without a place for any, the first thread that finds a candidate fails. -/
theorem mergeThreads_none {numThreads : ℕ} {x : Vec} {order : List ℕ} {simi : List (Entry D)}
    (hsome : ∃ ik ∈ order, candidates rc st x (threadRange st.numVectors numThreads ik) ≠ []) :
    mergeThreads rc st numThreads 0 x order simi = none := by
  induction order generalizing simi with
  | nil =>
    obtain ⟨ik, hik, -⟩ := hsome
    exact absurd hik List.not_mem_nil
  | cons ik order ih =>
    have hempty : (heap rc st).heapify 0 = [] := hops.heapify_eq 0
    rw [mergeThreads, searchImpl_eq, hempty, scan_nil]
    by_cases hnil : candidates rc st x (threadRange st.numVectors numThreads ik) = []
    · rw [if_pos hnil]
      refine ih ?_
      obtain ⟨ik', hik', hne⟩ := hsome
      rcases List.mem_cons.mp hik' with rfl | hik'
      · exact absurd hnil hne
      · exact ⟨ik', hik', hne⟩
    · rw [if_neg hnil]
      rfl

/-- **A heap for each thread.** -/
theorem searchVectors_eq {numThreads : ℕ} (hT : 0 < numThreads) {order : List ℕ}
    (horder : order.Perm (List.range numThreads)) (k : ℕ) {x : Vec}
    (hdistinct : Distinct (candidates rc st x (List.range' 0 st.numVectors))) :
    searchVectors rc st numThreads k order x = answer rc st k x := by
  have hranges : (order.flatMap (threadRange st.numVectors numThreads)).Perm (List.range' 0 st.numVectors) := by
    rw [← flatMap_threadRange hT]
    exact horder.flatMap_right _
  have hall : (∀ ik ∈ order, candidates rc st x (threadRange st.numVectors numThreads ik) = []) ↔
      candidates rc st x (List.range' 0 st.numVectors) = [] := by
    have hperm : (order.flatMap fun ik => candidates rc st x (threadRange st.numVectors numThreads ik)).Perm
        (candidates rc st x (List.range' 0 st.numVectors)) := by
      have hflat : (order.flatMap fun ik => candidates rc st x (threadRange st.numVectors numThreads ik)) =
          candidates rc st x (order.flatMap (threadRange st.numVectors numThreads)) := by
        unfold candidates
        rw [List.filter_flatMap, List.map_flatMap]
      rw [hflat]
      exact (hranges.filter _).map _
    rw [← List.flatMap_eq_nil_iff]
    exact ⟨fun hnil => (hnil ▸ hperm).symm.eq_nil, fun hnil => (hnil ▸ hperm).eq_nil⟩
  unfold searchVectors answer
  by_cases hk : k = 0 ∧ candidates rc st x (List.range' 0 st.numVectors) ≠ []
  · obtain ⟨rfl, hne⟩ := hk
    have hsome : ∃ ik ∈ order, candidates rc st x (threadRange st.numVectors numThreads ik) ≠ [] := by
      by_contra hnone
      push Not at hnone
      exact hne (hall.mp hnone)
    rw [if_pos ⟨rfl, hne⟩, mergeThreads_none rc st hops hsome]
    rfl
  · have hk' : k ≠ 0 ∨ ∀ ik ∈ order, candidates rc st x (threadRange st.numVectors numThreads ik) = [] := by
      rw [not_and_or, not_not] at hk
      exact hk.imp_right hall.mpr
    obtain ⟨h', hmerge, hlen, hh'⟩ :=
      mergeThreads_some rc st hops hk' (hops.length_heapify k) (holds_heapify hops k)
    rw [List.nil_append, found_flatMap] at hh'
    have hfound := found_perm rc st x hranges
    have hfoundDistinct := found_distinct rc st hdistinct
    rw [if_neg hk, hmerge, Option.map_some, hh'.reorder hops (hfoundDistinct.perm hfound.symm), hlen,
      best_perm hfoundDistinct hfound]

end Search

/-! ### Both ways agree -/

/-- **Parallel search is sequential search**: the threads look at every vector once, in whatever order they
end, and what they add up to is what one heap gives for all vectors, the best `k` in order. -/
theorem parallel_eq_sequential {n numThreads : ℕ} (hT : 0 < numThreads) {order : Fin n → List ℕ}
    (horder : ∀ i, (order i).Perm (List.range numThreads)) (k : ℕ) (xs : Fin n → Vec)
    {IsHeap : List (Entry D) → Prop} (hops : (heap rc st).Correct rc.metricType.cmp IsHeap)
    (hdistinct : ∀ i, Distinct (candidates rc st (xs i) (List.range' 0 st.numVectors))) :
    (∀ i, ((order i).flatMap (threadRange st.numVectors numThreads)).Perm (List.range st.numVectors)) ∧
    (∀ i, searchVectors rc st numThreads k (order i) (xs i) = searchQuery rc st k (xs i)) ∧
    search rc st numThreads order k xs = fun i => answer rc st k (xs i) := by
  refine ⟨fun i => ?_, fun i => ?_, ?_⟩
  · rw [List.range_eq_range', ← flatMap_threadRange hT]
    exact (horder i).flatMap_right _
  · rw [searchVectors_eq rc st hops hT (horder i) k (hdistinct i), searchQuery_eq rc st hops k (hdistinct i)]
  · unfold search
    split
    · funext i
      exact searchQuery_eq rc st hops k (hdistinct i)
    · funext i
      exact searchVectors_eq rc st hops hT (horder i) k (hdistinct i)

/-- A request for near vectors, where document `1` is deleted. -/
def nearOnly : RetrievalContext ℤ where
  metricType := .l2
  parallelOnQueries := false
  isValid vid := vid ≠ 1
  isSimilarScoreValid dis := dis ≤ 100

/-- Five vectors with one number each. -/
def fiveVectors : Store ℤ ℤ where
  numVectors := 5
  getVector vid := [3, 4, 10, 40, 6][vid]?
  distance m x y := match m with
    | .innerProduct => x * y
    | .l2 => (x - y) * (x - y)
  missing := -2
  heaps m := sortedHeap m.cmp (match m with
    | .innerProduct => -1000
    | .l2 => 1000)

theorem parallel_eq_sequential_five :
    searchVectors nearOnly fiveVectors 2 2 [1, 0] 5 = searchQuery nearOnly fiveVectors 2 5 :=
  (@parallel_eq_sequential ℤ ℤ _ nearOnly fiveVectors 1 2 (by decide) (fun _ => [1, 0])
    (fun _ => by decide) 2 (fun _ => 5) _ (correct_sortedHeap 1000)
    (fun _ => by unfold Distinct; decide)).2.1 0

/-- The nearest valid vectors to `5` are `6` and `3`. -/
example : searchVectors nearOnly fiveVectors 2 2 [1, 0] 5 = some [(1, 4), (4, 0)] := by decide

end GammaFLATIndex

end AwaDB.Index
