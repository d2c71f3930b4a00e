import AwaDB.Index.HnswAdd
import AwaDB.Lib.Outcome
import Mathlib.Data.List.Dedup

/-!
# Updates and marks of the HNSW index (`index/impl/hnswlib/hnswalg.h`)

A vector that is updated keeps its element. The lists of its neighbours are chosen anew from the
elements two links away, and the element itself is linked again as if it were new. A vector that is
deleted is only marked.

* `updateLayer`: the lists of the neighbours, and `updateLayer_spec`;
* `repairLevels`: the element itself, and `repairLevels_spec`;
* `updatePoint_spec`: the graph stays valid, and the call fails only for an entry point that is marked;
* `markDelete_valid`, `unmarkDelete_valid`: the marks are counted.
-/

namespace AwaDB.Index

open Lib

namespace HierarchicalNSW

variable {V D : Type} [LinearOrder D]

/-! ### The calls -/

/-- One candidate, of which `elementsToKeep` are kept. They are never full of none. -/
def keepNearest (std : Containers D) (elementsToKeep : ℕ) (candidates : List (D × ℕ)) (e : D × ℕ) :
    List (D × ℕ) :=
  if candidates.length < elementsToKeep then e :: candidates
  else
    match std.far.pop candidates with
    | none => candidates
    | some (top, rest) => if e.1 < top.1 then e :: rest else candidates

/-- The `candidates` for the links of a neighbour: the nearest of `sCand` without the neighbour itself. -/
def nearCandidates (p : Params) (std : Containers D) (dist : V → V → D) (g : Graph V) (sCand : List ℕ)
    (neigh : ℕ) : List (D × ℕ) :=
  let size := if sCand.contains neigh then sCand.length - 1 else sCand.length
  let elementsToKeep := min p.ef size
  ((sCand.filter fun cand => cand ≠ neigh).map fun cand => (g.dist dist neigh cand, cand)).foldl
    (keepNearest std elementsToKeep) []

/-- The links of one neighbour are chosen anew from `sCand`. -/
def refreshNeighbor (p : Params) (std : Containers D) (dist : V → V → D) (layer : ℕ) (sCand : List ℕ)
    (g : Graph V) (neigh : ℕ) : Except Fault (Graph V) :=
  let candidates := nearCandidates p std dist g sCand neigh
  match g.linkList neigh layer with
  | .error e => .error e
  | .ok _ =>
    .ok (g.setLinks neigh layer
      (std.ids (getNeighborsByHeuristic2 (g.dist dist) candidates (p.Mcurmax layer))))

/-- The loop over the layers in `updatePoint`, with the probability `1` that `Update` passes: all
neighbours are in `sNeigh`. -/
def updateLayer (p : Params) (std : Containers D) (dist : V → V → D) (internalId : ℕ) (g : Graph V)
    (layer : ℕ) : Except Fault (Graph V) :=
  match g.linkList internalId layer with
  | .error e => .error e
  | .ok listOneHop =>
    if listOneHop.isEmpty then .ok g
    else
      match listOneHop.mapM fun elOneHop => g.linkList elOneHop layer with
      | .error e => .error e
      | .ok listsTwoHop =>
        let sCand := std.order (internalId :: listOneHop ++ listsTwoHop.flatten).dedup
        (std.order listOneHop.dedup).foldlM (refreshNeighbor p std dist layer sCand) g

/-- The loop over the levels in `repairConnectionsForUpdate`: `n` of them are left. -/
def repairLevels (p : Params) (std : Containers D) (dist : V → V → D) (dataPoint : V)
    (internalId enterpoint : ℕ) : ℕ → ℕ → Graph V → Except Fault (Graph V)
  | 0, _, g => .ok g
  | level + 1, currObj, g =>
    match searchBaseLayer p std g (fun id => dist dataPoint (g.data id)) currObj level with
    | .error e => .error e
    | .ok topCandidates =>
      let filtered := topCandidates.filter fun e => e.2 ≠ internalId
      if filtered.isEmpty then repairLevels p std dist dataPoint internalId enterpoint level currObj g
      else
        match mutuallyConnectNewElement p std dist g internalId
            (withEntry p std (fun id => dist dataPoint (g.data id)) (g.deleted enterpoint) enterpoint filtered)
            level true with
        | .error e => .error e
        | .ok (g, next) => repairLevels p std dist dataPoint internalId enterpoint level next g

/-- `repairConnectionsForUpdate` -/
def repairConnectionsForUpdate (p : Params) (std : Containers D) (dist : V → V → D) (g : Graph V)
    (dataPoint : V) (enterpoint internalId dataPointLevel maxLevel : ℕ) : Except Fault (Graph V) :=
  match descend g false (fun id => dist dataPoint (g.data id)) dataPointLevel (maxLevel - dataPointLevel)
      enterpoint with
  | .error e => .error e
  | .ok currObj =>
    if maxLevel < dataPointLevel then
      .error (.thrown "Level of item to be updated cannot be bigger than max level")
    else repairLevels p std dist dataPoint internalId enterpoint (dataPointLevel + 1) currObj g

/-- A vector in the memory of the raw vectors is written. -/
def Graph.setData (g : Graph V) (id : ℕ) (v : V) : Graph V :=
  { g with data := Function.update g.data id v }

/-- `updatePoint` -/
def updatePoint (p : Params) (std : Containers D) (dist : V → V → D) (g : Graph V) (dataPoint : V)
    (internalId : ℕ) : Except Fault (Graph V) :=
  let g := g.setData internalId dataPoint
  match g.entry with
  | none => .error .undefined
  | some (enterpoint, maxlevel) =>
    if enterpoint = internalId ∧ g.count = 1 then .ok g
    else
      match (List.range (g.level internalId + 1)).foldlM (updateLayer p std dist internalId) g with
      | .error e => .error e
      | .ok g₁ =>
        repairConnectionsForUpdate p std dist g₁ dataPoint enterpoint internalId (g.level internalId)
          maxlevel

/-- `markDelete` -/
def markDelete (g : Graph V) (label : ℕ) : Graph V :=
  if label < g.count ∧ g.deleted label = false then
    { g with deleted := Function.update g.deleted label true, numDeleted := g.numDeleted + 1 }
  else g

/-- `unmarkDelete` -/
def unmarkDelete (g : Graph V) (label : ℕ) : Except Fault (Graph V) :=
  if g.count ≤ label then .error (.thrown "Label not found")
  else if g.deleted label = true then
    .ok { g with deleted := Function.update g.deleted label false, numDeleted := g.numDeleted - 1 }
  else .ok g

/-! ### The lists of the neighbours -/

variable {p : Params} {std : Containers D} {dist : V → V → D} {g : Graph V}

theorem foldl_keepNearest (std : Containers D) (elementsToKeep : ℕ) (l acc : List (D × ℕ)) :
    ∃ dropped, (l.foldl (keepNearest std elementsToKeep) acc ++ dropped).Perm (l ++ acc) := by
  induction l generalizing acc with
  | nil => exact ⟨[], by rw [List.append_nil, List.foldl_nil, List.nil_append]⟩
  | cons e l ih =>
    have hstep : ∃ dropped, (keepNearest std elementsToKeep acc e ++ dropped).Perm (e :: acc) := by
      rw [keepNearest]
      split
      · exact ⟨[], by rw [List.append_nil]⟩
      · cases hpop : std.far.pop acc with
        | none => exact ⟨[e], List.perm_append_comm⟩
        | some r =>
          obtain ⟨top, rest⟩ := r
          show ∃ dropped, ((if e.1 < top.1 then e :: rest else acc) ++ dropped).Perm (e :: acc)
          split
          · refine ⟨[top], List.Perm.cons e ?_⟩
            exact List.perm_append_comm.trans (PriorityQueue.perm_of_pop hpop).symm
          · exact ⟨[e], List.perm_append_comm⟩
    obtain ⟨d₁, hd₁⟩ := hstep
    obtain ⟨d₂, hd₂⟩ := ih (keepNearest std elementsToKeep acc e)
    refine ⟨d₂ ++ d₁, ?_⟩
    rw [List.foldl_cons, ← List.append_assoc]
    refine (hd₂.append_right d₁).trans ?_
    rw [List.append_assoc]
    exact (hd₁.append_left l).trans List.perm_middle

/-- The candidates are among `sCand`, each of them once, and without the neighbour. -/
theorem nearCandidates_spec (p : Params) (std : Containers D) (dist : V → V → D) (g : Graph V)
    {sCand : List ℕ} (neigh : ℕ) (hnodup : sCand.Nodup) :
    ((nearCandidates p std dist g sCand neigh).map Prod.snd).Nodup ∧
      ∀ e ∈ nearCandidates p std dist g sCand neigh, e.2 ∈ sCand ∧ e.2 ≠ neigh := by
  obtain ⟨dropped, hperm⟩ := foldl_keepNearest std
    (min p.ef (if sCand.contains neigh then sCand.length - 1 else sCand.length))
    ((sCand.filter fun cand => cand ≠ neigh).map fun cand => (g.dist dist neigh cand, cand)) []
  rw [List.append_nil] at hperm
  have hids : ((nearCandidates p std dist g sCand neigh).map Prod.snd ++ dropped.map Prod.snd).Perm
      (sCand.filter fun cand => cand ≠ neigh) := by
    have hmap := hperm.map Prod.snd
    rw [List.map_append, List.map_map] at hmap
    exact hmap.trans (.of_eq (List.map_id _))
  refine ⟨(List.nodup_append.mp (hids.nodup_iff.mpr (hnodup.filter _))).1, fun e he => ?_⟩
  have hmem := hids.mem_iff.mp (List.mem_append_left _ (List.mem_map_of_mem he))
  obtain ⟨hin, hne⟩ := List.mem_filter.mp hmem
  exact ⟨hin, of_decide_eq_true hne⟩

/-- **The links of one neighbour are chosen anew.** -/
theorem refreshNeighbor_spec (p : Params) (std : Containers D) (dist : V → V → D) {layer neigh : ℕ}
    {sCand : List ℕ} (h : g.Ordered p) (hneigh : neigh ∈ g.onLevel layer) (hnodup : sCand.Nodup)
    (hcand : ∀ cand ∈ sCand, cand ∈ g.onLevel layer) :
    ∃ g', refreshNeighbor p std dist layer sCand g neigh = .ok g' ∧ g'.Ordered p ∧ g.SameBut layer g' := by
  obtain ⟨honce, hmem⟩ := nearCandidates_spec p std dist g neigh hnodup
  obtain ⟨hlen, hidsNodup, hpart⟩ := ids_heuristic std (g.dist dist) _ (p.Mcurmax layer) honce
  have hrun : refreshNeighbor p std dist layer sCand g neigh = .ok (g.setLinks neigh layer
      (std.ids (getNeighborsByHeuristic2 (g.dist dist) (nearCandidates p std dist g sCand neigh)
        (p.Mcurmax layer)))) := by
    rw [refreshNeighbor, Graph.linkList_of_mem hneigh]
  refine ⟨_, hrun, h.setLinks hlen hidsNodup ?_, Graph.sameBut_setLinks g _ _ _⟩
  intro j hj
  obtain ⟨e, he, rfl⟩ := hpart j hj
  exact ⟨hcand e.2 (hmem e he).1, (hmem e he).2⟩

/-- **The lists of the neighbours on one level.** -/
theorem updateLayer_spec (p : Params) (std : Containers D) (dist : V → V → D) {layer internalId : ℕ}
    (h : g.Ordered p) (hid : internalId ∈ g.onLevel layer) :
    Ends (fun _ => False) (fun g' => g'.Ordered p ∧ g.SameElements g')
      (updateLayer p std dist internalId g layer) := by
  have hregion := h.region
  rw [updateLayer, Graph.linkList_of_mem hid]
  show Ends _ _ (if (g.links internalId layer).isEmpty then _ else _)
  split
  · exact ⟨h, .refl g⟩
  have hone := hregion.closed layer internalId hid
  have htwo : ((g.links internalId layer).mapM fun elOneHop => g.linkList elOneHop layer) =
      .ok ((g.links internalId layer).map fun elOneHop => g.links elOneHop layer) :=
    mapM_ok fun el hel => hregion.linkList (hone el hel)
  rw [htwo]
  have hcand : ∀ cand ∈ std.order (internalId :: g.links internalId layer ++
      ((g.links internalId layer).map fun elOneHop => g.links elOneHop layer).flatten).dedup,
      cand ∈ g.onLevel layer := by
    intro cand hcand
    have hcand := List.mem_dedup.mp ((std.order_perm _).mem_iff.mp hcand)
    rcases List.mem_append.mp hcand with hnear | hfar
    · rcases List.mem_cons.mp hnear with heq | hlinked
      · exact heq ▸ hid
      · exact hone cand hlinked
    · obtain ⟨l, hl, hmem⟩ := List.mem_flatten.mp hfar
      obtain ⟨el, hel, rfl⟩ := List.mem_map.mp hl
      exact hregion.closed layer el (hone el hel) cand hmem
  refine (ends_foldlM (fun g' => g'.Ordered p ∧ g.SameElements g') ⟨h, .refl g⟩ ?_)
  rintro g' neigh hneigh ⟨hordered, hsame⟩
  have hneigh := List.mem_dedup.mp ((std.order_perm _).mem_iff.mp hneigh)
  obtain ⟨g'', hrun, hordered', hsame'⟩ := refreshNeighbor_spec p std dist hordered
    (by rw [hsame.onLevel_eq]; exact hone neigh hneigh)
    ((std.order_perm _).nodup_iff.mpr (List.nodup_dedup _))
    (fun cand hmem => by rw [hsame.onLevel_eq]; exact hcand cand hmem)
  rw [hrun]
  exact ⟨hordered', hsame.trans hsame'.toSameElements⟩

/-! ### The element itself -/

/-- The only failure of an update: the entry point is updated while it is marked deleted. -/
def SelfLink (g : Graph V) (enterpoint internalId : ℕ) (e : Fault) : Prop :=
  e = .thrown "Trying to connect an element to itself" ∧ enterpoint = internalId ∧
    g.deleted internalId = true

/-- **The element is linked again**, level by level. -/
theorem repairLevels_spec (p : Params) (std : Containers D) (dist : V → V → D) (dataPoint : V)
    {internalId enterpoint n currObj : ℕ} (h : g.Ordered p) (hid : ∀ l < n, internalId ∈ g.onLevel l)
    (hentry : ∀ l < n, enterpoint ∈ g.onLevel l) (hcurr : ∀ l, l + 1 = n → currObj ∈ g.onLevel l) :
    Ends (SelfLink g enterpoint internalId) (fun g' => g'.Ordered p ∧ g.SameElements g')
      (repairLevels p std dist dataPoint internalId enterpoint n currObj g) := by
  induction n generalizing g currObj with
  | zero => exact ⟨h, .refl g⟩
  | succ level ih =>
    have hlt := Nat.lt_succ_self level
    obtain ⟨top, hsearch, htop, hnodup, -, -⟩ := searchBaseLayer_spec p std h.region
      (fun id => dist dataPoint (g.data id)) (hcurr level rfl)
    rw [repairLevels, hsearch]
    show Ends _ _ (if (top.filter fun e => e.2 ≠ internalId).isEmpty then _ else _)
    split
    · refine ih h (fun l hl => hid l (Nat.lt_succ_of_lt hl)) (fun l hl => hentry l (Nat.lt_succ_of_lt hl))
        fun l hl => h.region.mono l ?_
      rw [hl]
      exact hcurr level rfl
    rename_i hsome
    -- the element itself is a candidate only if it is the entry point, and marked
    obtain ⟨hon, honce, hne⟩ := withEntry_spec p std g (fun id => dist dataPoint (g.data id))
      enterpoint (top.filter fun e => e.2 ≠ internalId) (P := fun id => id ∈ g.onLevel level ∧
        (id = internalId → enterpoint = internalId ∧ g.deleted internalId = true))
      (fun hmark => ⟨hentry level hlt, fun heq => ⟨heq, heq ▸ hmark⟩⟩)
      (fun e he => by
        obtain ⟨hin, hother⟩ := List.mem_filter.mp he
        exact ⟨⟨(htop e hin).1, fun heq => absurd heq (of_decide_eq_true hother)⟩, (htop e hin).2.1⟩)
      (hnodup.sublist ((List.filter_sublist).map _))
    have hne := hne (.inr fun hnil => hsome (List.isEmpty_iff.mpr hnil))
    by_cases hself : internalId ∈ selected p std dist g (withEntry p std
        (fun id => dist dataPoint (g.data id)) (g.deleted enterpoint) enterpoint
        (top.filter fun e => e.2 ≠ internalId))
    · rw [connect_self p std dist h (hid level hlt) (fun e he => (hon e he).1) honce hself]
      obtain ⟨e, he, heq⟩ := (selected_spec p std dist g honce).2.2 internalId hself
      exact ⟨rfl, (hon e he).2 heq⟩
    · obtain ⟨g₁, next, hconnect, hordered, hsame, hnext, -, -⟩ := connect_spec p std dist true h
        (hid level hlt) (fun e he => (hon e he).1) honce hne hself nofun
      rw [hconnect]
      have hidOn := hid level hlt
      rw [← hsame.onLevel_eq] at hidOn
      have hnextOn := hordered.region.closed level internalId hidOn next hnext
      have hrest := ih hordered
        (fun l hl => by rw [hsame.onLevel_eq]; exact hid l (Nat.lt_succ_of_lt hl))
        (fun l hl => by rw [hsame.onLevel_eq]; exact hentry l (Nat.lt_succ_of_lt hl))
        fun l hl => hordered.region.mono l (hl ▸ hnextOn)
      refine hrest.imp (fun e he => ?_) fun g' hg' =>
        ⟨hg'.1, hsame.toSameElements.trans hg'.2⟩
      exact ⟨he.1, he.2.1, by rw [← hsame.deleted]; exact he.2.2⟩

/-! ### The whole update -/

/-- A graph with the same elements. -/
theorem Graph.Valid.of_same {g' : Graph V} (h : g.Valid p) (hordered : g'.Ordered p)
    (hsame : g.SameElements g') : g'.Valid p where
  toOrdered := hordered
  entry_none hnone := by
    rw [hsame.entry] at hnone
    rw [hsame.count]
    exact h.entry_none hnone
  entry_some enterpoint maxlevel hsome := by
    rw [hsame.entry] at hsome
    rw [hsame.count, hsame.level]
    exact h.entry_some enterpoint maxlevel hsome
  counted := by
    rw [hsame.numDeleted, hsame.count, hsame.deleted]
    exact h.counted
  room := by
    rw [hsame.count, hsame.maxElements]
    exact h.room

theorem Graph.Valid.setData (h : g.Valid p) (id : ℕ) (v : V) : (g.setData id v).Valid p where
  size := h.size
  nodup := h.nodup
  closed := h.closed
  entry_none := h.entry_none
  entry_some := h.entry_some
  counted := h.counted
  room := h.room

theorem updateLayers_spec (p : Params) (std : Containers D) (dist : V → V → D) {internalId : ℕ}
    (h : g.Ordered p) (hid : internalId < g.count) :
    Ends (fun _ => False) (fun g' => g'.Ordered p ∧ g.SameElements g')
      ((List.range (g.level internalId + 1)).foldlM (updateLayer p std dist internalId) g) := by
  refine ends_foldlM (fun g' => g'.Ordered p ∧ g.SameElements g') ⟨h, .refl g⟩ ?_
  rintro g' layer hlayer ⟨hordered, hsame⟩
  have hlt := List.mem_range.mp hlayer
  have hon : internalId ∈ g'.onLevel layer := by
    rw [hsame.onLevel_eq]
    exact Graph.mem_onLevel.mpr ⟨hid, by omega⟩
  exact (updateLayer_spec p std dist hordered hon).imp (fun e he => he) fun g'' hg'' =>
    ⟨hg''.1, hsame.trans hg''.2⟩

/-- **A vector is updated.** The graph stays valid, with the same elements; the call fails only if the
element is the entry point and marked deleted. -/
theorem updatePoint_spec (p : Params) (std : Containers D) (dist : V → V → D) (dataPoint : V)
    {internalId : ℕ} (h : g.Valid p) (hid : internalId < g.count) :
    Ends (fun e => e = .thrown "Trying to connect an element to itself" ∧
        (∃ maxlevel, g.entry = some (internalId, maxlevel)) ∧ g.deleted internalId = true)
      (fun g' => g'.Valid p ∧ (g.setData internalId dataPoint).SameElements g')
      (updatePoint p std dist g dataPoint internalId) := by
  have hdata := h.setData internalId dataPoint
  cases hentry : g.entry with
  | none => exact absurd (h.entry_none hentry) (by omega)
  | some entry =>
    obtain ⟨enterpoint, maxlevel⟩ := entry
    obtain ⟨hep, hlevel, htop⟩ := h.entry_some enterpoint maxlevel hentry
    have hsetEntry : (g.setData internalId dataPoint).entry = some (enterpoint, maxlevel) := hentry
    simp only [updatePoint, hsetEntry]
    split
    · exact ⟨hdata, .refl _⟩
    have hlayers := updateLayers_spec p std dist hdata.toOrdered hid
    cases hrun : (List.range ((g.setData internalId dataPoint).level internalId + 1)).foldlM
        (updateLayer p std dist internalId) (g.setData internalId dataPoint) with
    | error e =>
      rw [hrun] at hlayers
      exact hlayers.elim
    | ok g₁ =>
      rw [hrun] at hlayers
      obtain ⟨hordered, hsame⟩ := hlayers
      have hcount : g₁.count = g.count := hsame.count
      have hlevels : g₁.level = g.level := hsame.level
      have hmarks : g₁.deleted = g.deleted := hsame.deleted
      have hle : g.level internalId ≤ maxlevel := htop internalId hid
      have hentryOn : ∀ l ≤ maxlevel, enterpoint ∈ g₁.onLevel l := fun l hl =>
        Graph.mem_onLevel.mpr ⟨by omega, by rw [hlevels, hlevel]; exact hl⟩
      obtain ⟨currObj, hcurr, hdescend, -⟩ := descend_spec hordered.region
        (by rw [hcount, hsame.maxElements]; exact h.room) false (fun id => dist dataPoint (g₁.data id))
        (g.level internalId) (maxlevel - g.level internalId) (hentryOn _ (by omega))
      show Ends _ _ (repairConnectionsForUpdate p std dist g₁ dataPoint enterpoint internalId
        (g.level internalId) maxlevel)
      rw [repairConnectionsForUpdate, hdescend]
      simp only [if_neg (Nat.not_lt.mpr hle)]
      have hrepair := repairLevels_spec p std dist dataPoint hordered (n := g.level internalId + 1)
        (fun l hl => show internalId ∈ g₁.onLevel l from
          Graph.mem_onLevel.mpr ⟨by omega, by rw [hlevels]; omega⟩)
        (fun l hl => hentryOn l (by omega)) (fun l hl => by rw [Nat.succ_injective hl]; exact hcurr)
      refine hrepair.imp (fun e he => ?_) fun g' hg' => ?_
      · refine ⟨he.1, ⟨maxlevel, ?_⟩, ?_⟩
        · rw [he.2.1]
        · rw [← hmarks]
          exact he.2.2
      · exact ⟨(hdata.of_same hordered hsame).of_same hg'.1 hg'.2, hsame.trans hg'.2⟩

/-! ### Marks -/

theorem card_filter_update {n id : ℕ} (deleted : ℕ → Bool) (hid : id < n) (hmark : deleted id = false) :
    ((Finset.range n).filter fun i => Function.update deleted id true i = true).card =
      ((Finset.range n).filter fun i => deleted i = true).card + 1 := by
  have hinsert : ((Finset.range n).filter fun i => Function.update deleted id true i = true) =
      insert id ((Finset.range n).filter fun i => deleted i = true) := by
    ext i
    rw [Finset.mem_filter, Finset.mem_insert, Finset.mem_filter, Function.update_apply]
    split
    · rename_i heq
      rw [heq]
      exact iff_of_true ⟨Finset.mem_range.mpr hid, rfl⟩ (.inl rfl)
    · rename_i hne
      exact (or_iff_right hne).symm
  rw [hinsert, Finset.card_insert_of_notMem]
  rw [Finset.mem_filter, hmark]
  exact fun h => Bool.false_ne_true h.2

/-- **A mark is counted.** -/
theorem markDelete_valid (h : g.Valid p) (label : ℕ) :
    (markDelete g label).Valid p ∧ ∀ id, (markDelete g label).deleted id = true ↔
      g.deleted id = true ∨ id = label ∧ label < g.count := by
  rw [markDelete]
  split
  · rename_i hnew
    refine ⟨⟨⟨h.size, h.nodup, h.closed⟩, h.entry_none, h.entry_some, ?_, h.room⟩, fun id => ?_⟩
    · show g.numDeleted + 1 = _
      rw [card_filter_update g.deleted hnew.1 hnew.2, h.counted]
    · show Function.update g.deleted label true id = true ↔ _
      rw [Function.update_apply]
      split
      · rename_i heq
        exact iff_of_true rfl (.inr ⟨heq, hnew.1⟩)
      · rename_i hne
        exact (or_iff_left fun h => hne h.1).symm
  · rename_i hold
    refine ⟨h, fun id => (or_iff_left_of_imp ?_).symm⟩
    rintro ⟨rfl, hlt⟩
    by_contra hmark
    exact hold ⟨hlt, Bool.not_eq_true _ ▸ hmark⟩

/-- **A mark is taken back.** -/
theorem unmarkDelete_valid (h : g.Valid p) (label : ℕ) :
    Ends (fun e => e = .thrown "Label not found" ∧ g.count ≤ label)
      (fun g' => g'.Valid p ∧ ∀ id, g'.deleted id = true ↔ g.deleted id = true ∧ id ≠ label)
      (unmarkDelete g label) := by
  rw [unmarkDelete]
  split
  · rename_i hmissing
    exact ⟨rfl, hmissing⟩
  rename_i hlabel
  split
  · rename_i hmark
    have hback : Function.update (Function.update g.deleted label false) label true = g.deleted := by
      rw [Function.update_idem, ← hmark, Function.update_eq_self]
    have hcard := card_filter_update (Function.update g.deleted label false) (Nat.not_le.mp hlabel)
      (Function.update_self _ _ _)
    rw [hback] at hcard
    refine ⟨⟨⟨h.size, h.nodup, h.closed⟩, h.entry_none, h.entry_some, ?_, h.room⟩, fun id => ?_⟩
    · show g.numDeleted - 1 = ((Finset.range g.count).filter fun i =>
        Function.update g.deleted label false i = true).card
      have hcounted := h.counted
      omega
    · show Function.update g.deleted label false id = true ↔ _
      rw [Function.update_apply]
      split
      · rename_i heq
        exact iff_of_false Bool.false_ne_true fun h => h.2 heq
      · rename_i hne
        exact (and_iff_left hne).symm
  · rename_i hmark
    refine ⟨h, fun id => (and_iff_left_of_imp fun hid heq => ?_).symm⟩
    rw [heq] at hid
    exact hmark hid

end HierarchicalNSW

end AwaDB.Index
