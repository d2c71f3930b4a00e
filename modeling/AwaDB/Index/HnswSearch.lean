import AwaDB.Index.FaissHeap
import AwaDB.Index.HnswGraph
import AwaDB.Lib.BestFirst
import AwaDB.Lib.Descent

/-!
# Searching the HNSW index (`index/impl/hnswlib/hnswalg.h`)

A search goes down the levels by greedy descent and then searches level `0` best first. Building the
index uses the same two steps.

* `Graph.Valid`: what holds of a graph between two calls;
* `Graph.Region`: a part of the graph that no link leaves, level by level;
* `descend`: the greedy descent, and `descend_spec`: it ends at a local minimum of the lowest level;
* `searchBaseLayer`: the search that building uses, and `searchBaseLayer_spec`;
* `searchBaseLayerST`, `searchKnn`: the search for a query, and `searchKnn_sound`: its results are valid
  elements of the index that are not marked deleted, each with its distance, each once;
* `reach_iff`: the search for a query follows the links of level `0`.
-/

namespace AwaDB.Index

open Lib

namespace HierarchicalNSW

variable {V D : Type} [LinearOrder D]

/-! ### The calls -/

/-- The list that a greedy descent reads; `addPoint` and `searchKnn` check the ids in it. -/
def walkLinks (g : Graph V) (check : Bool) (level id : ℕ) : Except Fault (List ℕ) :=
  match g.linkList id level with
  | .error e => .error e
  | .ok datal =>
    if check && datal.any fun cand => decide (g.maxElements < cand) then
      .error (.thrown "cand error")
    else .ok datal

/-- The loops over the levels above `low`: `n` levels are left. `curdist` is the distance of `currObj`. -/
def descend (g : Graph V) (check : Bool) (dist : ℕ → D) (low : ℕ) : ℕ → ℕ → Except Fault ℕ
  | 0, currObj => .ok currObj
  | n + 1, currObj =>
    match walk (walkLinks g check (low + n + 1)) dist .hangs (g.count + 1) currObj with
    | .error e => .error e
    | .ok next => descend g check dist low n next

/-- What `searchBaseLayer` searches. -/
def baseLayer (p : Params) (std : Containers D) (g : Graph V) (dist : ℕ → D) (layer : ℕ) :
    BestFirst D ℕ where
  links id := (g.linkList id layer).toOption
  dist := dist
  admits id := !g.deleted id
  ef := p.ef
  stops n := n == p.ef
  exhausted _ := false
  far := std.far
  near := std.near

/-- `searchBaseLayer` -/
def searchBaseLayer (p : Params) (std : Containers D) (g : Graph V) (dist : ℕ → D) (ep layer : ℕ) :
    Except Fault (List (D × ℕ)) :=
  let lowerBound : WithTop D := if g.deleted ep then ⊤ else dist ep
  let search := baseLayer p std g dist layer
  match search.run (g.count + 1) (search.begins ep lowerBound) with
  | none => .error .undefined
  | some s => .ok s.found

/-- The two spaces of the index: the distance functions and `1 - x`. -/
structure Space (V D : Type) where
  distFunc : MetricType → V → V → D
  oneMinus : D → D

/-- `fixed_dist` -/
def Space.fixedDist (space : Space V D) : MetricType → D → D
  | .innerProduct => space.oneMinus
  | .l2 => id

/-- The distance of the query to the elements. -/
def queryDist (space : Space V D) (rc : RetrievalContext D) (g : Graph V) (q : V) (id : ℕ) : D :=
  space.distFunc rc.metricType q (g.data id)

/-- What `searchBaseLayerST` searches. -/
def baseLayerST (std : Containers D) (space : Space V D) (rc : RetrievalContext D) (g : Graph V) (q : V)
    (hasDeletions : Bool) (ef efSearch : ℕ) (doEfSearchCheck : Bool) : BestFirst D ℕ where
  links id := (g.linkList id 0).toOption
  dist := queryDist space rc g q
  admits id := (!hasDeletions || !g.deleted id) && (rc.isValid id &&
    rc.isSimilarScoreValid (space.fixedDist rc.metricType (queryDist space rc g q id)))
  ef := ef
  stops n := n == ef || !hasDeletions
  exhausted nstep := doEfSearchCheck && decide (efSearch < nstep)
  far := std.far
  near := std.near

/-- `searchBaseLayerST` -/
def searchBaseLayerST (std : Containers D) (space : Space V D) (rc : RetrievalContext D) (g : Graph V)
    (q : V) (hasDeletions : Bool) (ef efSearch : ℕ) (doEfSearchCheck : Bool) (ep : ℕ) :
    Except Fault (List (D × ℕ)) :=
  let lowerBound : WithTop D :=
    if !hasDeletions || !g.deleted ep then ((queryDist space rc g q ep : D) : WithTop D) else ⊤
  let search := baseLayerST std space rc g q hasDeletions ef efSearch doEfSearchCheck
  match search.run (g.count + 1) (search.begins ep lowerBound) with
  | none => .error .undefined
  | some s => .ok s.found

/-- `searchKnn`: what is in the queue that it returns. -/
def searchKnn (std : Containers D) (space : Space V D) (rc : RetrievalContext D) (g : Graph V) (q : V)
    (k efSearch : ℕ) (doEfSearchCheck : Bool) : Except Fault (List (D × ℕ)) :=
  if g.count = 0 then .ok []
  else
    match g.entry with
    | none => .error .undefined
    | some (enterpoint, maxlevel) =>
      match descend g true (queryDist space rc g q) 0 maxlevel enterpoint with
      | .error e => .error e
      | .ok currObj =>
        match searchBaseLayerST std space rc g q (g.numDeleted != 0) (max efSearch k) efSearch
            doEfSearchCheck currObj with
        | .error e => .error e
        | .ok topCandidates => .ok (std.far.shrunk k topCandidates)

/-! ### Parts of a graph -/

namespace Graph

/-- What holds of a graph between two calls. -/
structure Valid (p : Params) (g : Graph V) : Prop extends g.Ordered p where
  entry_none : g.entry = none → g.count = 0
  entry_some : ∀ enterpoint maxlevel, g.entry = some (enterpoint, maxlevel) →
    enterpoint < g.count ∧ g.level enterpoint = maxlevel ∧ ∀ id < g.count, g.level id ≤ maxlevel
  counted : g.numDeleted = ((Finset.range g.count).filter fun id => g.deleted id = true).card
  room : g.count ≤ g.maxElements

/-- Elements of each level that no link leaves, more of them on the lower levels. -/
structure Region (g : Graph V) (S : ℕ → Finset ℕ) : Prop where
  sub : ∀ l, S l ⊆ g.onLevel l
  closed : ∀ l, ∀ id ∈ S l, ∀ j ∈ g.links id l, j ∈ S l
  mono : ∀ l, S (l + 1) ⊆ S l

theorem Ordered.region {p : Params} {g : Graph V} (h : g.Ordered p) : g.Region g.onLevel where
  sub l := Finset.Subset.refl _
  closed l id hid j hj := by
    obtain ⟨hlt, hlevel⟩ := mem_onLevel.mp hid
    obtain ⟨hjlt, hjlevel, -⟩ := h.closed id hlt l hlevel j hj
    exact mem_onLevel.mpr ⟨hjlt, hjlevel⟩
  mono l id hid := by
    obtain ⟨hlt, hlevel⟩ := mem_onLevel.mp hid
    exact mem_onLevel.mpr ⟨hlt, by omega⟩

theorem card_onLevel_le (g : Graph V) (l : ℕ) : (g.onLevel l).card ≤ g.count :=
  (Finset.card_filter_le _ _).trans (Finset.card_range _).le

theorem Region.card_lt {g : Graph V} {S : ℕ → Finset ℕ} (h : g.Region S) (l : ℕ) :
    (S l).card < g.count + 1 :=
  Nat.lt_succ_iff.mpr ((Finset.card_le_card (h.sub l)).trans (g.card_onLevel_le l))

theorem Region.linkList {g : Graph V} {S : ℕ → Finset ℕ} (h : g.Region S) {l id : ℕ} (hid : id ∈ S l) :
    g.linkList id l = .ok (g.links id l) :=
  linkList_of_mem (h.sub l hid)

theorem Region.toOption {g : Graph V} {S : ℕ → Finset ℕ} (h : g.Region S) {l id : ℕ} (hid : id ∈ S l) :
    (g.linkList id l).toOption = some (g.links id l) := by
  rw [h.linkList hid]
  rfl

theorem Region.walkLinks {g : Graph V} {S : ℕ → Finset ℕ} (h : g.Region S) (hroom : g.count ≤ g.maxElements)
    (check : Bool) {l id : ℕ} (hid : id ∈ S l) : walkLinks g check l id = .ok (g.links id l) := by
  rw [HierarchicalNSW.walkLinks, h.linkList hid]
  refine if_neg fun hbad => ?_
  obtain ⟨cand, hcand, hlarge⟩ := List.any_eq_true.mp (Bool.and_eq_true_iff.mp hbad).2
  have hlt := (mem_onLevel.mp (h.sub l (h.closed l id hid cand hcand))).1
  have hlarge := of_decide_eq_true hlarge
  omega

end Graph

variable {p : Params} {std : Containers D} {g : Graph V} {S : ℕ → Finset ℕ}

/-- **The greedy descent** ends on the lowest level, no farther than it began, and where it took a step
it ends at an element without a nearer neighbour on the level above. -/
theorem descend_spec (hS : g.Region S) (hroom : g.count ≤ g.maxElements) (check : Bool) (dist : ℕ → D)
    (low n : ℕ) {currObj : ℕ} (hcurr : currObj ∈ S (low + n)) :
    ∃ r ∈ S low, descend g check dist low n currObj = .ok r ∧ dist r ≤ dist currObj ∧
      (0 < n → r ∈ S (low + 1) ∧ ∀ j ∈ g.links r (low + 1), dist r ≤ dist j) := by
  induction n generalizing currObj with
  | zero => exact ⟨currObj, hcurr, rfl, le_refl _, fun h => absurd h (Nat.lt_irrefl 0)⟩
  | succ n ih =>
    have hwithin : ∀ v ∈ S (low + n + 1), ∃ js, walkLinks g check (low + n + 1) v = .ok js ∧
        ∀ j ∈ js, j ∈ S (low + n + 1) := fun v hv =>
      ⟨_, hS.walkLinks hroom check hv, hS.closed _ v hv⟩
    obtain ⟨next, hnext, hwalk, hle, hlocal⟩ := walk_spec dist hwithin .hangs
      (hS.card_lt (low + n + 1)) hcurr
    obtain ⟨r, hr, hrest, hle', hlocal'⟩ := ih (hS.mono _ hnext)
    refine ⟨r, hr, ?_, hle'.trans hle, fun _ => ?_⟩
    · rw [descend, hwalk]
      exact hrest
    · cases n with
      | zero =>
        cases hrest
        exact ⟨hnext, hlocal _ (hS.walkLinks hroom check hnext)⟩
      | succ n => exact hlocal' (Nat.succ_pos n)

/-! ### The search of building -/

theorem baseLayer_within (p : Params) (std : Containers D) (hS : g.Region S) (dist : ℕ → D) (layer : ℕ) :
    (baseLayer p std g dist layer).Within (S layer) := fun v hv =>
  ⟨g.links v layer, hS.toOption hv, hS.closed layer v hv⟩

theorem Params.ef_pos (p : Params) : 0 < p.ef :=
  Nat.lt_of_lt_of_le p.M_pos (Nat.le_max_right _ _)

/-- **What `searchBaseLayer` finds**: elements of the level that are not marked deleted, each once, no
more than `ef_construction_`, and at least the entry point itself unless that one is marked. -/
theorem searchBaseLayer_spec (p : Params) (std : Containers D) (hS : g.Region S) (dist : ℕ → D) {ep layer : ℕ} (hep : ep ∈ S layer) :
    ∃ top, searchBaseLayer p std g dist ep layer = .ok top ∧
      (∀ e ∈ top, e.2 ∈ S layer ∧ g.deleted e.2 = false ∧ e.1 = dist e.2) ∧
      (top.map Prod.snd).Nodup ∧ top.length ≤ p.ef ∧ (g.deleted ep = false → top ≠ []) := by
  have hwithin := baseLayer_within p std hS dist layer
  generalize hbound : (if g.deleted ep then ⊤ else ↑(dist ep) : WithTop D) = bound
  have hstart : (baseLayer p std g dist layer).admits ep = true → bound = dist ep := by
    intro hadmits
    have hmark : g.deleted ep = false := by simpa [baseLayer] using hadmits
    rw [← hbound, hmark]
    rfl
  obtain ⟨s, hrun⟩ := Option.isSome_iff_exists.mp
    (BestFirst.search_isSome hwithin hep hstart (hS.card_lt layer))
  obtain ⟨hfound, hnodup, hlen⟩ := BestFirst.sound_of_search hstart hrun
  refine ⟨s.found, ?_, fun e he => ?_, hnodup, ?_, fun hmark => ?_⟩
  · simp only [searchBaseLayer, hbound, hrun]
  · obtain ⟨hreach, hadmits, hdist⟩ := hfound e he
    exact ⟨hwithin.reach hep hreach, by simpa [baseLayer] using hadmits, hdist⟩
  · have hpos := p.ef_pos
    have hef : (baseLayer p std g dist layer).ef = p.ef := rfl
    omega
  · rw [hmark] at hbound
    have hbound : bound = ↑(dist ep) := hbound.symm
    rw [hbound] at hrun
    exact BestFirst.found_ne_nil_of_search p.ef_pos (by simp [baseLayer, hmark]) hrun

/-! ### The search for a query -/

/-- What a query may return: not marked deleted, valid for the request, and with a valid score. -/
def Eligible (space : Space V D) (rc : RetrievalContext D) (g : Graph V) (q : V) (id : ℕ) : Prop :=
  g.deleted id = false ∧ rc.isValid id = true ∧
    rc.isSimilarScoreValid (space.fixedDist rc.metricType (queryDist space rc g q id)) = true

instance (space : Space V D) (rc : RetrievalContext D) (g : Graph V) (q : V) :
    DecidablePred (Eligible space rc g q) := fun id =>
  inferInstanceAs (Decidable (g.deleted id = false ∧ rc.isValid id = true ∧
    rc.isSimilarScoreValid (space.fixedDist rc.metricType (queryDist space rc g q id)) = true))

/-- The links of level `0` lead from `a` to `c`. -/
def Graph.Reaches (g : Graph V) : ℕ → ℕ → Prop :=
  Relation.ReflTransGen fun a c => c ∈ g.links a 0

variable {space : Space V D} {rc : RetrievalContext D} {q : V} {k efSearch : ℕ} {check : Bool}

/-- Without marks nothing is deleted. -/
theorem Graph.Valid.deleted_eq_false (h : g.Valid p) (hnone : g.numDeleted = 0) {id : ℕ}
    (hid : id < g.count) : g.deleted id = false := by
  have hcounted := h.counted
  rw [hnone, eq_comm, Finset.card_eq_zero] at hcounted
  by_contra hmark
  rw [Bool.not_eq_false] at hmark
  have hmem : id ∈ (Finset.range g.count).filter fun id => g.deleted id = true :=
    Finset.mem_filter.mpr ⟨Finset.mem_range.mpr hid, hmark⟩
  rw [hcounted] at hmem
  exact absurd hmem (Finset.notMem_empty id)

theorem admits_iff (h : g.Valid p) {id : ℕ} (hid : id < g.count) {ef : ℕ} :
    (baseLayerST std space rc g q (g.numDeleted != 0) ef efSearch check).admits id = true ↔
      Eligible space rc g q id := by
  by_cases hnone : g.numDeleted = 0
  · simp [baseLayerST, Eligible, hnone, h.deleted_eq_false hnone hid]
  · simp [baseLayerST, Eligible, hnone]

/-- The two steps of `searchKnn`: where the descent ends, and what the search from there has seen. -/
theorem searchKnn_steps (std : Containers D) (space : Space V D) (rc : RetrievalContext D) (q : V)
    (k efSearch : ℕ) (check : Bool) (h : g.Valid p) (hcount : 0 < g.count) :
    ∃ enterpoint maxlevel, g.entry = some (enterpoint, maxlevel) ∧ ∃ currObj ∈ g.onLevel 0, ∃ s bound,
      descend g true (queryDist space rc g q) 0 maxlevel enterpoint = .ok currObj ∧
      let search := baseLayerST std space rc g q (g.numDeleted != 0) (max efSearch k) efSearch check
      (search.admits currObj = true → bound = ↑(search.dist currObj)) ∧
      search.run (g.count + 1) (search.begins currObj bound) = some s ∧ search.Within (g.onLevel 0) ∧
      searchKnn std space rc g q k efSearch check = .ok (std.far.shrunk k s.found) := by
  cases hentry : g.entry with
  | none => exact absurd (h.entry_none hentry) (by omega)
  | some entry =>
    obtain ⟨enterpoint, maxlevel⟩ := entry
    obtain ⟨hep, hlevel, -⟩ := h.entry_some enterpoint maxlevel hentry
    have hS := h.toOrdered.region
    have hstart : enterpoint ∈ g.onLevel (0 + maxlevel) := by
      rw [Nat.zero_add]
      exact Graph.mem_onLevel.mpr ⟨hep, hlevel.ge⟩
    obtain ⟨currObj, hcurr, hdescend, -, -⟩ :=
      descend_spec hS h.room true (queryDist space rc g q) 0 maxlevel hstart
    have hwithin : (baseLayerST std space rc g q (g.numDeleted != 0) (max efSearch k) efSearch
        check).Within (g.onLevel 0) := fun v hv =>
      ⟨g.links v 0, hS.toOption hv, hS.closed 0 v hv⟩
    generalize hbound : (if !(g.numDeleted != 0) || !g.deleted currObj then
      ((queryDist space rc g q currObj : D) : WithTop D) else ⊤) = bound
    have hadmits : (baseLayerST std space rc g q (g.numDeleted != 0) (max efSearch k) efSearch
        check).admits currObj = true → bound = queryDist space rc g q currObj := by
      intro hadmits
      rw [← hbound, if_pos (Bool.and_eq_true_iff.mp hadmits).1]
    obtain ⟨s, hrun⟩ := Option.isSome_iff_exists.mp
      (BestFirst.search_isSome hwithin hcurr hadmits (hS.card_lt 0))
    refine ⟨enterpoint, maxlevel, rfl, currObj, hcurr, s, bound, hdescend, hadmits, hrun, hwithin, ?_⟩
    simp only [searchKnn, if_neg (Nat.pos_iff_ne_zero.mp hcount), hentry, hdescend,
      searchBaseLayerST, hbound, hrun]

/-- **What a search returns**: at most `k` elements of the index, each once and with its distance to the
query, all of them eligible. It does not fail. -/
theorem searchKnn_sound (std : Containers D) (space : Space V D) (rc : RetrievalContext D) (q : V)
    (k efSearch : ℕ) (check : Bool) (h : g.Valid p) :
    ∃ r, searchKnn std space rc g q k efSearch check = .ok r ∧ r.length ≤ k ∧ (r.map Prod.snd).Nodup ∧
      ∀ e ∈ r, e.2 < g.count ∧ Eligible space rc g q e.2 ∧ e.1 = queryDist space rc g q e.2 := by
  rcases Nat.eq_zero_or_pos g.count with hzero | hcount
  · refine ⟨[], if_pos hzero, Nat.zero_le k, List.nodup_nil, fun e he => absurd he List.not_mem_nil⟩
  obtain ⟨-, -, -, currObj, hcurr, s, bound, -, hbound, hrun, hwithin, hresult⟩ :=
    searchKnn_steps std space rc q k efSearch check h hcount
  obtain ⟨hfound, hnodup, -⟩ := BestFirst.sound_of_search hbound hrun
  obtain ⟨dropped, hperm, -⟩ := std.far.shrunk_spec k s.found
  refine ⟨_, hresult, ?_, ?_, fun e he => ?_⟩
  · rw [std.far.length_shrunk]
    exact Nat.min_le_left _ _
  · have hall := (hperm.map Prod.snd).nodup_iff.mpr hnodup
    rw [List.map_append] at hall
    exact (List.nodup_append.mp hall).1
  · obtain ⟨hreach, hadmits, hdist⟩ := hfound e (hperm.mem_iff.mp (List.mem_append_left dropped he))
    have hlt := (Graph.mem_onLevel.mp (hwithin.reach hcurr hreach)).1
    exact ⟨hlt, (admits_iff h hlt).mp hadmits, hdist⟩

/-- The search follows the links of level `0`. -/
theorem reach_iff (std : Containers D) (space : Space V D) (rc : RetrievalContext D) (q : V)
    (hasDeletions : Bool) (ef efSearch : ℕ) (check : Bool) (hS : g.Region S) {currObj : ℕ} (hcurr : currObj ∈ S 0)
    (v : ℕ) : (baseLayerST std space rc g q hasDeletions ef efSearch check).Reach currObj v ↔
      g.Reaches currObj v := by
  have hlinked : ∀ a ∈ S 0, ∀ c, (baseLayerST std space rc g q hasDeletions ef efSearch
      check).Linked a c ↔ c ∈ g.links a 0 := by
    intro a ha c
    have hlinks : (baseLayerST std space rc g q hasDeletions ef efSearch check).links a =
        some (g.links a 0) := hS.toOption ha
    constructor
    · rintro ⟨js, hjs, hmem⟩
      rw [hlinks] at hjs
      cases hjs
      exact hmem
    · exact fun hmem => ⟨_, hlinks, hmem⟩
  constructor
  · intro hreach
    suffices hboth : v ∈ S 0 ∧ g.Reaches currObj v from hboth.2
    induction hreach with
    | refl => exact ⟨hcurr, .refl⟩
    | tail _ hlink ih =>
      have hmem := (hlinked _ ih.1 _).mp hlink
      exact ⟨hS.closed 0 _ ih.1 _ hmem, ih.2.tail hmem⟩
  · intro hreach
    suffices hboth : v ∈ S 0 ∧ (baseLayerST std space rc g q hasDeletions ef efSearch
      check).Reach currObj v from hboth.2
    induction hreach with
    | refl => exact ⟨hcurr, .refl⟩
    | tail _ hmem ih =>
      exact ⟨hS.closed 0 _ ih.1 _ hmem, ih.2.tail ((hlinked _ ih.1 _).mpr hmem)⟩

end HierarchicalNSW

end AwaDB.Index
