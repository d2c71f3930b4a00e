import AwaDB.Lib.Queue
import Mathlib.Data.Finset.Card
import Mathlib.Data.Finset.Filter
import Mathlib.Data.Finset.Range
import Mathlib.Data.List.Sort
import Mathlib.Logic.Function.Basic
import Mathlib.Order.WithBot

/-!
# The graph of the HNSW index (`index/impl/hnswlib/hnswalg.h`)

Every element has a list of links on each of its levels. The lists are bounded, and what is linked is
chosen by a heuristic.

* `Graph`: the state of `HierarchicalNSW`, and `Graph.Ordered`: what holds of its lists of links;
* `getNeighborsByHeuristic2`: which candidates are linked, and `heuristic_spec`: they are no more than
  `M`, the nearest one is among them, and what is left out is nearer to one of them;
* `mutuallyConnectNewElement`: an element is linked with the chosen ones in both directions, and
  `connect_spec`: this keeps the lists in order.
-/

namespace AwaDB.Index

open Lib

namespace HierarchicalNSW

/-- How a call can fail: memory is used that is not there, a `std::runtime_error` is thrown, or a loop
does not end. -/
inductive Fault
  | undefined
  | thrown (what : String)
  | hangs
  deriving DecidableEq, Repr

/-- The settings of the index. The count of a list of links is an `unsigned short`. -/
structure Params where
  M : ℕ
  efConstruction : ℕ
  M_pos : 0 < M
  M_lt : 2 * M < 65536

/-- `layer == 0 ? maxM0_ : maxM_` -/
def Params.Mcurmax (p : Params) (level : ℕ) : ℕ :=
  if level = 0 then 2 * p.M else p.M

/-- `ef_construction_ = std::max(ef_construction, M_)` -/
def Params.ef (p : Params) : ℕ :=
  max p.efConstruction p.M

/-- The queues of the standard library with `CompareByFirst`, over distances and over negated distances,
and the order in which an `unordered_set` is gone through. -/
structure Containers (D : Type) [LinearOrder D] where
  far : PriorityQueue (Prod.fst : D × ℕ → D)
  near : PriorityQueue (fun e : WithTop D × ℕ => OrderDual.toDual e.1)
  order : List ℕ → List ℕ
  order_perm : ∀ l, (order l).Perm l

/-- The state of `HierarchicalNSW`. The labels are the internal ids, which `AddVertices` gives in order.
`entry` is `enterpoint_node_` with `maxlevel_`, and `none` while both of them are `-1`; `data` are the
vectors that `getDataByInternalId` reads from the memory of the raw vectors. -/
structure Graph (V : Type) where
  data : ℕ → V
  maxElements : ℕ
  count : ℕ
  level : ℕ → ℕ
  links : ℕ → ℕ → List ℕ
  deleted : ℕ → Bool
  numDeleted : ℕ
  entry : Option (ℕ × ℕ)

variable {V D : Type} [LinearOrder D]

namespace Graph

/-- `get_linklist_at_level`: the list is there if the element is, and has that level. -/
def linkList (g : Graph V) (id level : ℕ) : Except Fault (List ℕ) :=
  if id < g.count ∧ level ≤ g.level id then .ok (g.links id level) else .error .undefined

/-- A list of links is written. -/
def setLinks (g : Graph V) (id level : ℕ) (js : List ℕ) : Graph V :=
  { g with links := Function.update g.links id (Function.update (g.links id) level js) }

/-- What holds of the lists of links: they are bounded and without repetitions, and lead to other
elements that have the level. -/
structure Ordered (p : Params) (g : Graph V) : Prop where
  size : ∀ id < g.count, ∀ level ≤ g.level id, (g.links id level).length ≤ p.Mcurmax level
  nodup : ∀ id < g.count, ∀ level ≤ g.level id, (g.links id level).Nodup
  closed : ∀ id < g.count, ∀ level ≤ g.level id, ∀ j ∈ g.links id level,
    j < g.count ∧ level ≤ g.level j ∧ j ≠ id

/-- The elements that have a level. -/
def onLevel (g : Graph V) (level : ℕ) : Finset ℕ :=
  (Finset.range g.count).filter fun id => level ≤ g.level id

@[simp] theorem mem_onLevel {g : Graph V} {level id : ℕ} :
    id ∈ g.onLevel level ↔ id < g.count ∧ level ≤ g.level id := by
  rw [onLevel, Finset.mem_filter, Finset.mem_range]

theorem linkList_of_mem {g : Graph V} {id level : ℕ} (h : id ∈ g.onLevel level) :
    g.linkList id level = .ok (g.links id level) :=
  if_pos (mem_onLevel.mp h)

/-- Graphs that differ in nothing but their lists of links. -/
structure SameElements (g g' : Graph V) : Prop where
  data : g'.data = g.data
  maxElements : g'.maxElements = g.maxElements
  count : g'.count = g.count
  level : g'.level = g.level
  deleted : g'.deleted = g.deleted
  numDeleted : g'.numDeleted = g.numDeleted
  entry : g'.entry = g.entry

theorem SameElements.refl (g : Graph V) : g.SameElements g :=
  ⟨rfl, rfl, rfl, rfl, rfl, rfl, rfl⟩

theorem SameElements.trans {g₁ g₂ g₃ : Graph V} (h : g₁.SameElements g₂) (h' : g₂.SameElements g₃) :
    g₁.SameElements g₃ :=
  ⟨h'.data.trans h.data, h'.maxElements.trans h.maxElements, h'.count.trans h.count,
    h'.level.trans h.level, h'.deleted.trans h.deleted, h'.numDeleted.trans h.numDeleted,
    h'.entry.trans h.entry⟩

theorem SameElements.onLevel_eq {g g' : Graph V} (h : g.SameElements g') (l : ℕ) :
    g'.onLevel l = g.onLevel l := by
  rw [onLevel, onLevel, h.count, h.level]

/-- Graphs that differ in nothing but their lists of links on one level. -/
structure SameBut (layer : ℕ) (g g' : Graph V) : Prop extends g.SameElements g' where
  links : ∀ id l, l ≠ layer → g'.links id l = g.links id l

theorem SameBut.refl (layer : ℕ) (g : Graph V) : SameBut layer g g :=
  ⟨.refl g, fun _ _ _ => rfl⟩

theorem SameBut.trans {layer : ℕ} {g₁ g₂ g₃ : Graph V} (h : SameBut layer g₁ g₂)
    (h' : SameBut layer g₂ g₃) : SameBut layer g₁ g₃ :=
  ⟨h.toSameElements.trans h'.toSameElements,
    fun id l hl => (h'.links id l hl).trans (h.links id l hl)⟩

theorem links_setLinks (g : Graph V) (id level : ℕ) (js : List ℕ) (i l : ℕ) :
    (g.setLinks id level js).links i l = if i = id ∧ l = level then js else g.links i l := by
  show Function.update g.links id (Function.update (g.links id) level js) i l = _
  by_cases hi : i = id
  · by_cases hl : l = level
    · rw [hi, hl, if_pos ⟨rfl, rfl⟩, Function.update_self, Function.update_self]
    · rw [hi, if_neg fun h => hl h.2, Function.update_self, Function.update_of_ne hl]
  · rw [if_neg fun h => hi h.1, Function.update_of_ne hi]

theorem sameBut_setLinks (g : Graph V) (id level : ℕ) (js : List ℕ) :
    SameBut level g (g.setLinks id level js) :=
  ⟨⟨rfl, rfl, rfl, rfl, rfl, rfl, rfl⟩,
    fun i l hl => by rw [links_setLinks, if_neg fun h => hl h.2]⟩

/-- A list that is in order is written. -/
theorem Ordered.setLinks {p : Params} {g : Graph V} (h : g.Ordered p) {id level : ℕ} {js : List ℕ}
    (hsize : js.length ≤ p.Mcurmax level) (hnodup : js.Nodup)
    (hclosed : ∀ j ∈ js, j ∈ g.onLevel level ∧ j ≠ id) : (g.setLinks id level js).Ordered p where
  size i hi l hl := by
    rw [links_setLinks]
    split
    · rename_i heq
      rw [heq.2]
      exact hsize
    · exact h.size i hi l hl
  nodup i hi l hl := by
    rw [links_setLinks]
    split
    · exact hnodup
    · exact h.nodup i hi l hl
  closed i hi l hl j hj := by
    rw [links_setLinks] at hj
    split at hj
    · rename_i heq
      obtain ⟨hmem, hne⟩ := hclosed j hj
      rw [heq.1, heq.2]
      exact ⟨(mem_onLevel.mp hmem).1, (mem_onLevel.mp hmem).2, hne⟩
    · exact h.closed i hi l hl j hj

end Graph

/-! ### The heuristic -/

/-- The order of `queue_closest`, a queue of pairs with negated distances: the nearest first, and of
those that are equally near the one with the greatest id. -/
def closestFirst (a b : D × ℕ) : Prop :=
  a.1 < b.1 ∨ a.1 = b.1 ∧ b.2 ≤ a.2

instance : DecidableRel (closestFirst : D × ℕ → D × ℕ → Prop) :=
  fun a b => inferInstanceAs (Decidable (a.1 < b.1 ∨ a.1 = b.1 ∧ b.2 ≤ a.2))

/-- The loop over `queue_closest`: a candidate is taken if no element taken before is nearer to it than
the query is. -/
def choose (dist : ℕ → ℕ → D) (M : ℕ) : List (D × ℕ) → List (D × ℕ) → List (D × ℕ)
  | [], returnList => returnList
  | curent :: queueClosest, returnList =>
    if M ≤ returnList.length then returnList
    else if returnList.any fun second => decide (dist second.2 curent.2 < curent.1) then
      choose dist M queueClosest returnList
    else choose dist M queueClosest (returnList ++ [curent])

/-- `getNeighborsByHeuristic2`, with the distances between the elements. -/
def getNeighborsByHeuristic2 (dist : ℕ → ℕ → D) (topCandidates : List (D × ℕ)) (M : ℕ) :
    List (D × ℕ) :=
  if topCandidates.length < M then topCandidates
  else choose dist M (topCandidates.insertionSort closestFirst) []

instance : Std.Total (closestFirst : D × ℕ → D × ℕ → Prop) where
  total a b := by
    rcases lt_trichotomy a.1 b.1 with hlt | heq | hgt
    · exact .inl (.inl hlt)
    · rcases le_total a.2 b.2 with hle | hle
      · exact .inr (.inr ⟨heq.symm, hle⟩)
      · exact .inl (.inr ⟨heq, hle⟩)
    · exact .inr (.inl hgt)

instance : IsTrans (D × ℕ) closestFirst where
  trans a b c := by
    rintro (hab | ⟨hab, hba⟩) (hbc | ⟨hbc, hcb⟩)
    · exact .inl (hab.trans hbc)
    · exact .inl (hbc ▸ hab)
    · exact .inl (hab ▸ hbc)
    · exact .inr ⟨hab.trans hbc, hcb.trans hba⟩

theorem le_of_closestFirst {a b : D × ℕ} (h : closestFirst a b) : a.1 ≤ b.1 := by
  rcases h with hlt | ⟨heq, -⟩
  · exact le_of_lt hlt
  · exact le_of_eq heq

/-- `s` does not stand in the way of `c`. -/
def Apart (dist : ℕ → ℕ → D) (s c : D × ℕ) : Prop :=
  ¬dist s.2 c.2 < c.1

/-- Why `c` is left out: an element taken before is nearer to it, or `M` are taken that are no farther. -/
def Covered (dist : ℕ → ℕ → D) (M : ℕ) (taken : List (D × ℕ)) (c : D × ℕ) : Prop :=
  (∃ s ∈ taken, dist s.2 c.2 < c.1 ∧ s.1 ≤ c.1) ∨ M ≤ taken.length ∧ ∀ s ∈ taken, s.1 ≤ c.1

section Choose

variable {dist : ℕ → ℕ → D} {M : ℕ} {queue ret : List (D × ℕ)}

theorem choose_sublist (dist : ℕ → ℕ → D) (M : ℕ) (queue ret : List (D × ℕ)) :
    ∃ more, choose dist M queue ret = ret ++ more ∧ more.Sublist queue := by
  induction queue generalizing ret with
  | nil => exact ⟨[], (List.append_nil ret).symm, .refl _⟩
  | cons c queue ih =>
    rw [choose]
    split
    · exact ⟨[], (List.append_nil ret).symm, List.nil_sublist _⟩
    · split
      · obtain ⟨more, heq, hsub⟩ := ih ret
        exact ⟨more, heq, hsub.cons c⟩
      · obtain ⟨more, heq, hsub⟩ := ih (ret ++ [c])
        exact ⟨c :: more, by rw [heq, List.append_assoc]; rfl, hsub.cons_cons c⟩

theorem length_choose_le (h : ret.length ≤ M) : (choose dist M queue ret).length ≤ M := by
  induction queue generalizing ret with
  | nil => exact h
  | cons c queue ih =>
    rw [choose]
    split
    · exact h
    · rename_i hlt
      split
      · exact ih h
      · refine ih ?_
        rw [List.length_append, List.length_singleton]
        omega

theorem apart_choose (h : ret.Pairwise (Apart dist)) :
    (choose dist M queue ret).Pairwise (Apart dist) := by
  induction queue generalizing ret with
  | nil => exact h
  | cons c queue ih =>
    rw [choose]
    split
    · exact h
    · split
      · exact ih h
      · rename_i hgood
        refine ih (List.pairwise_append.mpr ⟨h, List.pairwise_singleton _ c, fun s hs c' hc' => ?_⟩)
        rw [List.mem_singleton.mp hc']
        intro hnear
        exact hgood (List.any_eq_true.mpr ⟨s, hs, decide_eq_true hnear⟩)

/-- A candidate that is not taken is covered. -/
theorem covered_of_choose (hsorted : (ret ++ queue).Pairwise fun a b => a.1 ≤ b.1) :
    ∀ c ∈ queue, c ∈ choose dist M queue ret ∨ Covered dist M (choose dist M queue ret) c := by
  induction queue generalizing ret with
  | nil => exact fun c hc => absurd hc List.not_mem_nil
  | cons c queue ih =>
    have hbefore : ∀ c' ∈ c :: queue, ∀ s ∈ ret, s.1 ≤ c'.1 := fun c' hc' s hs =>
      (List.pairwise_append.mp hsorted).2.2 s hs c' hc'
    rw [choose]
    split
    · rename_i hfull
      exact fun c' hc' => .inr (.inr ⟨hfull, hbefore c' hc'⟩)
    split
    · rename_i hbad
      have hrest : (ret ++ queue).Pairwise fun a b => a.1 ≤ b.1 :=
        hsorted.sublist ((List.sublist_cons_self c queue).append_left ret)
      refine List.forall_mem_cons.mpr ⟨.inr (.inl ?_), ih hrest⟩
      obtain ⟨s, hs, hnear⟩ := List.any_eq_true.mp hbad
      obtain ⟨more, heq, -⟩ := choose_sublist dist M queue ret
      rw [heq]
      exact ⟨s, List.mem_append_left more hs, of_decide_eq_true hnear,
        hbefore c List.mem_cons_self s hs⟩
    · have hrest : (ret ++ [c] ++ queue).Pairwise fun a b => a.1 ≤ b.1 := by
        rw [List.append_assoc]
        exact hsorted
      refine List.forall_mem_cons.mpr ⟨.inl ?_, ih hrest⟩
      obtain ⟨more, heq, -⟩ := choose_sublist dist M queue (ret ++ [c])
      rw [heq]
      exact List.mem_append_left more (List.mem_append_right ret List.mem_cons_self)

end Choose

/-- What the heuristic returns is a part of the candidates, no more than `M` of them, and some of them if
there are any. -/
theorem heuristic_part (dist : ℕ → ℕ → D) (top : List (D × ℕ)) (M : ℕ) :
    (∃ dropped, (getNeighborsByHeuristic2 dist top M ++ dropped).Perm top) ∧
      (getNeighborsByHeuristic2 dist top M).length ≤ M ∧
      (0 < M → top ≠ [] → getNeighborsByHeuristic2 dist top M ≠ []) := by
  rw [getNeighborsByHeuristic2]
  split
  · rename_i hlt
    exact ⟨⟨[], by rw [List.append_nil]⟩, le_of_lt hlt, fun _ hne => hne⟩
  · have hperm := List.perm_insertionSort closestFirst top
    obtain ⟨more, heq, hsub⟩ :=
      choose_sublist dist M (top.insertionSort closestFirst) []
    obtain ⟨dropped, hdropped⟩ := hsub.exists_perm_append
    refine ⟨⟨dropped, ?_⟩, length_choose_le (Nat.zero_le M), fun hM hne => ?_⟩
    · rw [heq]
      exact hdropped.symm.trans hperm
    · cases hsort : top.insertionSort closestFirst with
      | nil =>
        rw [hsort] at hperm
        exact absurd hperm.nil_eq.symm hne
      | cons c queue =>
        rw [choose, List.length_nil, if_neg (Nat.not_le.mpr hM), List.any_nil, if_neg Bool.false_ne_true]
        obtain ⟨more, heq, -⟩ := choose_sublist dist M queue ([] ++ [c])
        rw [heq]
        exact List.append_ne_nil_of_left_ne_nil (List.cons_ne_nil c []) more

/-- **The heuristic.** Of at least `M` candidates no more than `M` are returned, the nearest first; none of
them is nearer to a later one than the query is; and a candidate that is left out is nearer to one of
them than to the query, or there are `M` of them that are no farther than it. -/
theorem heuristic_spec (dist : ℕ → ℕ → D) (top : List (D × ℕ)) (M : ℕ) (h : M ≤ top.length) :
    (getNeighborsByHeuristic2 dist top M).length ≤ M ∧
      (∃ dropped, (getNeighborsByHeuristic2 dist top M ++ dropped).Perm top) ∧
      (getNeighborsByHeuristic2 dist top M).Pairwise (fun a b => a.1 ≤ b.1 ∧ Apart dist a b) ∧
      ∀ c ∈ top, c ∈ getNeighborsByHeuristic2 dist top M ∨
        Covered dist M (getNeighborsByHeuristic2 dist top M) c := by
  obtain ⟨hpart, hlen, -⟩ := heuristic_part dist top M
  refine ⟨hlen, hpart, ?_⟩
  rw [getNeighborsByHeuristic2, if_neg (Nat.not_lt.mpr h)]
  have hsorted : (top.insertionSort closestFirst).Pairwise fun a b => a.1 ≤ b.1 :=
    (List.pairwise_insertionSort closestFirst top).imp le_of_closestFirst
  constructor
  · obtain ⟨more, heq, hsub⟩ :=
      choose_sublist dist M (top.insertionSort closestFirst) []
    refine List.Pairwise.and ?_ (apart_choose List.Pairwise.nil)
    rw [heq]
    exact hsorted.sublist hsub
  · intro c hc
    exact covered_of_choose hsorted c ((List.perm_insertionSort closestFirst top).mem_iff.mpr hc)

/-- Of three candidates on a line, the one behind the nearest is left out. -/
theorem heuristic_spec_line : ∃ r : List (ℕ × ℕ),
    r = getNeighborsByHeuristic2 (fun a b => (a - b) + (b - a)) [(3, 3), (1, 1), (5, 5)] 2 ∧
      r.length ≤ 2 ∧ (5, 5) ∉ r := by
  have h := heuristic_spec (fun a b => (a - b) + (b - a)) [(3, 3), (1, 1), (5, 5)] 2 (by decide)
  exact ⟨_, rfl, h.1, by decide⟩

/-! ### Links in both directions -/

/-- The ids in the order in which a queue gives them up. -/
def Containers.ids (std : Containers D) (l : List (D × ℕ)) : List ℕ :=
  (std.far.drained l).map Prod.snd

/-- The distance between two elements, with `fstdistfunc_`. -/
def Graph.dist (dist : V → V → D) (g : Graph V) (a b : ℕ) : D :=
  dist (g.data a) (g.data b)

/-- The element `cur_c` among the links of a selected neighbour. -/
def connectBack (p : Params) (std : Containers D) (dist : V → V → D) (cur_c level : ℕ) (isUpdate : Bool)
    (g : Graph V) (neighbor : ℕ) : Except Fault (Graph V) :=
  match g.linkList neighbor level with
  | .error e => .error e
  | .ok other =>
    if p.Mcurmax level < other.length then .error (.thrown "Bad value of sz_link_list_other")
    else if neighbor = cur_c then .error (.thrown "Trying to connect an element to itself")
    else if g.level neighbor < level then
      .error (.thrown "Trying to make a link on a non-existent level")
    else if isUpdate && other.contains cur_c then .ok g
    else if other.length < p.Mcurmax level then .ok (g.setLinks neighbor level (other ++ [cur_c]))
    else
      let candidates := (g.dist dist cur_c neighbor, cur_c) ::
        other.map fun j => (g.dist dist j neighbor, j)
      .ok (g.setLinks neighbor level
        (std.ids (getNeighborsByHeuristic2 (g.dist dist) candidates (p.Mcurmax level))))

/-- `mutuallyConnectNewElement`: the graph after it, and the entry point for the level below. The check of
the memory behind a new list, which `addPoint` has cleared, is left out. -/
def mutuallyConnectNewElement (p : Params) (std : Containers D) (dist : V → V → D) (g : Graph V)
    (cur_c : ℕ) (topCandidates : List (D × ℕ)) (level : ℕ) (isUpdate : Bool) :
    Except Fault (Graph V × ℕ) :=
  let top := getNeighborsByHeuristic2 (g.dist dist) topCandidates p.M
  if p.M < top.length then
    .error (.thrown "Should be not be more than M_ candidates returned by the heuristic")
  else
    let selectedNeighbors := std.ids top
    match selectedNeighbors.getLast?, g.linkList cur_c level with
    | none, _ => .error .undefined
    | _, .error e => .error e
    | some next, .ok own =>
      if (!own.isEmpty || level == 0 && g.deleted cur_c) && !isUpdate then
        .error (.thrown "The newly inserted element should have blank link list")
      else if selectedNeighbors.any fun j => decide (g.level j < level) then
        .error (.thrown "Trying to make a link on a non-existent level")
      else
        match selectedNeighbors.foldlM (connectBack p std dist cur_c level isUpdate)
            (g.setLinks cur_c level selectedNeighbors) with
        | .error e => .error e
        | .ok g => .ok (g, next)

section Connect

variable {p : Params} {std : Containers D} {dist : V → V → D} {g : Graph V} {cur_c level : ℕ}
  {isUpdate : Bool}

theorem ids_perm (std : Containers D) (l : List (D × ℕ)) : (std.ids l).Perm (l.map Prod.snd) :=
  (std.far.drained_perm l).map Prod.snd

/-- The ids that the heuristic leaves of some candidates. -/
theorem ids_heuristic (std : Containers D) (d : ℕ → ℕ → D) (top : List (D × ℕ)) (M : ℕ)
    (hnodup : (top.map Prod.snd).Nodup) :
    (std.ids (getNeighborsByHeuristic2 d top M)).length ≤ M ∧
      (std.ids (getNeighborsByHeuristic2 d top M)).Nodup ∧
      ∀ j ∈ std.ids (getNeighborsByHeuristic2 d top M), ∃ e ∈ top, e.2 = j := by
  obtain ⟨⟨dropped, hperm⟩, hlen, -⟩ := heuristic_part d top M
  have hids := ids_perm std (getNeighborsByHeuristic2 d top M)
  have hall := (hperm.map Prod.snd).nodup_iff.mpr hnodup
  rw [List.map_append] at hall
  refine ⟨?_, hids.nodup_iff.mpr (List.nodup_append.mp hall).1, fun j hj => ?_⟩
  · rw [hids.length_eq, List.length_map]
    exact hlen
  · obtain ⟨e, he, heq⟩ := List.mem_map.mp (hids.mem_iff.mp hj)
    exact ⟨e, hperm.mem_iff.mp (List.mem_append_left dropped he), heq⟩

/-- What one link back does: the list of one neighbour changes, and has the new link unless it was full. -/
structure LinkedBack (cur_c level neighbor : ℕ) (g g' : Graph V) (room : Prop) : Prop where
  same : g.SameBut level g'
  others : ∀ id, id ≠ neighbor → g'.links id level = g.links id level
  back : room → cur_c ∈ g'.links neighbor level

/-- **A link back is made.** -/
theorem connectBack_spec (std : Containers D) (dist : V → V → D) (h : g.Ordered p) {neighbor : ℕ} (hcur : cur_c ∈ g.onLevel level)
    (hneighbor : neighbor ∈ g.onLevel level) (hne : neighbor ≠ cur_c)
    (hnew : isUpdate = false → cur_c ∉ g.links neighbor level) :
    ∃ g', connectBack p std dist cur_c level isUpdate g neighbor = .ok g' ∧ g'.Ordered p ∧
      LinkedBack cur_c level neighbor g g' ((g.links neighbor level).length < p.Mcurmax level) := by
  obtain ⟨hlt, hlevel⟩ := Graph.mem_onLevel.mp hneighbor
  have hsize := h.size neighbor hlt level hlevel
  have hnodup := h.nodup neighbor hlt level hlevel
  have hclosed := h.closed neighbor hlt level hlevel
  have hothers : ∀ js id, id ≠ neighbor → (g.setLinks neighbor level js).links id level =
      g.links id level := fun js id hid => by
    rw [Graph.links_setLinks, if_neg fun heq => hid heq.1]
  simp only [connectBack, Graph.linkList_of_mem hneighbor, if_neg (Nat.not_lt.mpr hsize), if_neg hne,
    if_neg (Nat.not_lt.mpr hlevel)]
  split
  · rename_i hpresent
    have hmem := List.contains_iff_mem.mp (Bool.and_eq_true_iff.mp hpresent).2
    exact ⟨g, rfl, h, .refl level g, fun _ _ => rfl, fun _ => hmem⟩
  rename_i hpresent
  have hfresh : cur_c ∉ g.links neighbor level := by
    cases isUpdate with
    | false => exact hnew rfl
    | true => simpa using hpresent
  split
  · rename_i hroom
    refine ⟨_, rfl, h.setLinks ?_ ?_ ?_, Graph.sameBut_setLinks g _ _ _, hothers _, fun _ => ?_⟩
    · rw [List.length_append, List.length_singleton]
      exact hroom
    · refine hnodup.append (List.nodup_singleton _) (List.disjoint_singleton.mpr hfresh)
    · intro j hj
      cases List.mem_append.mp hj with
      | inl hold =>
        obtain ⟨hjlt, hjlevel, hjne⟩ := hclosed j hold
        exact ⟨Graph.mem_onLevel.mpr ⟨hjlt, hjlevel⟩, hjne⟩
      | inr hlast =>
        rw [List.mem_singleton.mp hlast]
        exact ⟨hcur, hne.symm⟩
    · rw [Graph.links_setLinks, if_pos ⟨rfl, rfl⟩]
      exact List.mem_append_right _ List.mem_cons_self
  · rename_i hfull
    have hcandidates : (((g.dist dist cur_c neighbor, cur_c) ::
        (g.links neighbor level).map fun j => (g.dist dist j neighbor, j)).map Prod.snd) =
        cur_c :: g.links neighbor level := by
      rw [List.map_cons, List.map_map]
      exact congrArg (cur_c :: ·) (List.map_id _)
    obtain ⟨hlen, hids, hpart⟩ := ids_heuristic std (g.dist dist)
      ((g.dist dist cur_c neighbor, cur_c) ::
        (g.links neighbor level).map fun j => (g.dist dist j neighbor, j)) (p.Mcurmax level)
      (by rw [hcandidates]; exact List.nodup_cons.mpr ⟨hfresh, hnodup⟩)
    refine ⟨_, rfl, h.setLinks hlen hids ?_, Graph.sameBut_setLinks g _ _ _, hothers _,
      fun hroom => absurd hroom hfull⟩
    intro j hj
    obtain ⟨e, he, heq⟩ := hpart j hj
    have hmem := List.mem_map_of_mem (f := Prod.snd) he
    rw [hcandidates, heq] at hmem
    cases List.mem_cons.mp hmem with
    | inl hself =>
      rw [hself]
      exact ⟨hcur, hne.symm⟩
    | inr hold =>
      obtain ⟨hjlt, hjlevel, hjne⟩ := hclosed j hold
      exact ⟨Graph.mem_onLevel.mpr ⟨hjlt, hjlevel⟩, hjne⟩

/-- All links back are made. -/
theorem foldlM_connectBack (std : Containers D) (dist : V → V → D) (isUpdate : Bool)
    {neighbors : List ℕ} (h : g.Ordered p) (hcur : cur_c ∈ g.onLevel level)
    (hneighbors : ∀ j ∈ neighbors, j ∈ g.onLevel level ∧ j ≠ cur_c) (hnodup : neighbors.Nodup)
    (hnew : isUpdate = false → ∀ j ∈ neighbors, cur_c ∉ g.links j level) :
    ∃ g', neighbors.foldlM (connectBack p std dist cur_c level isUpdate) g = .ok g' ∧ g'.Ordered p ∧
      g.SameBut level g' ∧ (∀ id, id ∉ neighbors → g'.links id level = g.links id level) ∧
      ∀ j ∈ neighbors, (g.links j level).length < p.Mcurmax level → cur_c ∈ g'.links j level := by
  induction neighbors generalizing g with
  | nil => exact ⟨g, rfl, h, .refl level g, fun _ _ => rfl, fun j hj => absurd hj List.not_mem_nil⟩
  | cons n rest ih =>
    obtain ⟨hn, hrest⟩ := List.forall_mem_cons.mp hneighbors
    obtain ⟨hfresh, hnodup⟩ := List.nodup_cons.mp hnodup
    obtain ⟨g₁, hstep, hordered, hback⟩ := connectBack_spec std dist h hcur hn.1 hn.2
      fun hno => hnew hno n List.mem_cons_self
    have hkept : ∀ j ∈ rest, g₁.links j level = g.links j level := fun j hj =>
      hback.others j fun heq => hfresh (heq ▸ hj)
    obtain ⟨g', hrun, hordered', hsame, hothers, hlinked⟩ := ih hordered
      (by rw [hback.same.onLevel_eq]; exact hcur)
      (fun j hj => by rw [hback.same.onLevel_eq]; exact hrest j hj) hnodup
      (fun hno j hj => by rw [hkept j hj]; exact hnew hno j (List.mem_cons_of_mem n hj))
    refine ⟨g', ?_, hordered', hback.same.trans hsame, fun id hid => ?_, ?_⟩
    · rw [List.foldlM_cons, hstep]
      exact hrun
    · rw [List.mem_cons, not_or] at hid
      rw [hothers id hid.2, hback.others id hid.1]
    · refine List.forall_mem_cons.mpr ⟨fun hroom => ?_, fun j hj hroom => ?_⟩
      · rw [hothers n hfresh]
        exact hback.back hroom
      · exact hlinked j hj (by rw [hkept j hj]; exact hroom)

theorem Params.M_le_Mcurmax (p : Params) (level : ℕ) : p.M ≤ p.Mcurmax level := by
  rw [Params.Mcurmax]
  split <;> omega

/-- The neighbours that `mutuallyConnectNewElement` selects. -/
def selected (p : Params) (std : Containers D) (dist : V → V → D) (g : Graph V) (top : List (D × ℕ)) :
    List ℕ :=
  std.ids (getNeighborsByHeuristic2 (g.dist dist) top p.M)

theorem selected_spec (p : Params) (std : Containers D) (dist : V → V → D) (g : Graph V)
    {top : List (D × ℕ)} (hnodup : (top.map Prod.snd).Nodup) :
    (selected p std dist g top).length ≤ p.M ∧ (selected p std dist g top).Nodup ∧
      ∀ j ∈ selected p std dist g top, ∃ e ∈ top, e.2 = j :=
  ids_heuristic std (g.dist dist) top p.M hnodup

/-- The checks before the links back. -/
theorem mutuallyConnect_eq (p : Params) (std : Containers D) (dist : V → V → D) (isUpdate : Bool)
    {top : List (D × ℕ)} (hcur : cur_c ∈ g.onLevel level)
    (htop : ∀ e ∈ top, e.2 ∈ g.onLevel level) (hnodup : (top.map Prod.snd).Nodup) (hne : top ≠ [])
    (hblank : isUpdate = false → g.links cur_c level = [] ∧ g.deleted cur_c = false) :
    ∃ next ∈ selected p std dist g top,
      mutuallyConnectNewElement p std dist g cur_c top level isUpdate =
        ((selected p std dist g top).foldlM (connectBack p std dist cur_c level isUpdate)
          (g.setLinks cur_c level (selected p std dist g top))).map fun g' => (g', next) := by
  obtain ⟨-, hlen, hsome⟩ := heuristic_part (g.dist dist) top p.M
  obtain ⟨-, -, hpart⟩ := ids_heuristic std (g.dist dist) top p.M hnodup
  unfold selected
  have hidsNe : std.ids (getNeighborsByHeuristic2 (g.dist dist) top p.M) ≠ [] := by
    intro hnil
    have hperm := ids_perm std (getNeighborsByHeuristic2 (g.dist dist) top p.M)
    rw [hnil] at hperm
    exact hsome p.M_pos hne (List.map_eq_nil_iff.mp hperm.nil_eq.symm)
  have hlast := List.getLast?_eq_some_getLast hidsNe
  have hown : ((!(g.links cur_c level).isEmpty || level == 0 && g.deleted cur_c) && !isUpdate) ≠ true := by
    cases isUpdate with
    | true => simp
    | false =>
      obtain ⟨hnil, hmark⟩ := hblank rfl
      simp [hnil, hmark]
  have hlevels : ((std.ids (getNeighborsByHeuristic2 (g.dist dist) top p.M)).any
      fun j => decide (g.level j < level)) ≠ true := by
    intro hany
    obtain ⟨j, hj, hlow⟩ := List.any_eq_true.mp hany
    obtain ⟨e, he, rfl⟩ := hpart j hj
    exact absurd (of_decide_eq_true hlow) (Nat.not_lt.mpr (Graph.mem_onLevel.mp (htop e he)).2)
  refine ⟨_, List.getLast_mem hidsNe, ?_⟩
  simp only [mutuallyConnectNewElement, if_neg (Nat.not_lt.mpr hlen), hlast,
    Graph.linkList_of_mem hcur, if_neg hown, if_neg hlevels]
  cases (std.ids (getNeighborsByHeuristic2 (g.dist dist) top p.M)).foldlM
    (connectBack p std dist cur_c level isUpdate)
    (g.setLinks cur_c level (std.ids (getNeighborsByHeuristic2 (g.dist dist) top p.M))) <;> rfl

/-- **An element is linked.** It gets the links that the heuristic selects, and each selected neighbour
links back unless its list was full. -/
theorem connect_spec (p : Params) (std : Containers D) (dist : V → V → D) (isUpdate : Bool)
    {top : List (D × ℕ)} (h : g.Ordered p) (hcur : cur_c ∈ g.onLevel level)
    (htop : ∀ e ∈ top, e.2 ∈ g.onLevel level) (hnodup : (top.map Prod.snd).Nodup) (hne : top ≠ [])
    (hself : cur_c ∉ selected p std dist g top)
    (hblank : isUpdate = false → g.links cur_c level = [] ∧ g.deleted cur_c = false ∧
      ∀ j ∈ g.onLevel level, cur_c ∉ g.links j level) :
    ∃ g' next, mutuallyConnectNewElement p std dist g cur_c top level isUpdate = .ok (g', next) ∧
      g'.Ordered p ∧ g.SameBut level g' ∧ next ∈ g'.links cur_c level ∧
      g'.links cur_c level = selected p std dist g top ∧
      ∀ j ∈ g'.links cur_c level, (g.links j level).length < p.Mcurmax level →
        cur_c ∈ g'.links j level := by
  obtain ⟨next, hnext, heq⟩ := mutuallyConnect_eq p std dist isUpdate hcur htop hnodup hne
    fun hno => ⟨(hblank hno).1, (hblank hno).2.1⟩
  obtain ⟨hids, hidsNodup, hpart⟩ := selected_spec p std dist g hnodup
  have hselected : ∀ j ∈ selected p std dist g top, j ∈ g.onLevel level ∧ j ≠ cur_c := by
    intro j hj
    obtain ⟨e, he, heq⟩ := hpart j hj
    exact ⟨heq ▸ htop e he, fun hcur => hself (hcur ▸ hj)⟩
  have hother : ∀ j, j ≠ cur_c → (g.setLinks cur_c level (selected p std dist g top)).links j level =
      g.links j level := fun j hj => by
    rw [Graph.links_setLinks, if_neg fun heq => hj heq.1]
  have hsame := Graph.sameBut_setLinks g cur_c level (selected p std dist g top)
  obtain ⟨g', hrun, hordered, hsame', hothers, hlinked⟩ := foldlM_connectBack std dist isUpdate
    (h.setLinks (Nat.le_trans hids (p.M_le_Mcurmax level)) hidsNodup hselected)
    (by rw [hsame.onLevel_eq]; exact hcur)
    (fun j hj => by rw [hsame.onLevel_eq]; exact hselected j hj) hidsNodup
    (fun hno j hj => by
      rw [hother j (hselected j hj).2]
      exact (hblank hno).2.2 j (hselected j hj).1)
  have hcurLinks : g'.links cur_c level = selected p std dist g top := by
    rw [hothers cur_c hself, Graph.links_setLinks, if_pos ⟨rfl, rfl⟩]
  refine ⟨g', next, ?_, hordered, hsame.trans hsame', hcurLinks ▸ hnext, hcurLinks, fun j hj hroom => ?_⟩
  · rw [heq]
    exact congrArg (Except.map fun g' => (g', next)) hrun
  · rw [hcurLinks] at hj
    exact hlinked j hj (by rw [hother j (hselected j hj).2]; exact hroom)

/-- If the element itself is among the selected ones, then the links back end with an error. -/
theorem foldlM_connectBack_self (std : Containers D) (dist : V → V → D) (isUpdate : Bool)
    {neighbors : List ℕ} (hsize : ∀ j ∈ neighbors, (g.links j level).length ≤ p.Mcurmax level)
    (hneighbors : ∀ j ∈ neighbors, j ∈ g.onLevel level) (hself : cur_c ∈ neighbors) :
    neighbors.foldlM (connectBack p std dist cur_c level isUpdate) g =
      .error (.thrown "Trying to connect an element to itself") := by
  induction neighbors generalizing g with
  | nil => exact absurd hself List.not_mem_nil
  | cons n rest ih =>
    obtain ⟨hn, hrest⟩ := List.forall_mem_cons.mp hneighbors
    obtain ⟨hnsize, hrestSize⟩ := List.forall_mem_cons.mp hsize
    rw [List.foldlM_cons]
    by_cases heq : n = cur_c
    · rw [connectBack, Graph.linkList_of_mem hn]
      simp only [if_neg (Nat.not_lt.mpr hnsize), if_pos heq]
      rfl
    · have hself := (List.mem_cons.mp hself).resolve_left (Ne.symm heq)
      -- whatever is written, the lists stay small enough to go on
      have hgo : ∀ js, js.length ≤ p.Mcurmax level →
          rest.foldlM (connectBack p std dist cur_c level isUpdate) (g.setLinks n level js) =
            .error (.thrown "Trying to connect an element to itself") := by
        intro js hjs
        have hsame := Graph.sameBut_setLinks g n level js
        refine ih (fun j hj => ?_) (fun j hj => by rw [hsame.onLevel_eq]; exact hrest j hj) hself
        rw [Graph.links_setLinks]
        split
        · exact hjs
        · exact hrestSize j hj
      have hlevel := (Graph.mem_onLevel.mp hn).2
      simp only [connectBack, Graph.linkList_of_mem hn, if_neg (Nat.not_lt.mpr hnsize), if_neg heq,
        if_neg (Nat.not_lt.mpr hlevel)]
      split
      · exact ih hrestSize hrest hself
      split
      · rename_i hroom
        refine hgo _ ?_
        rw [List.length_append, List.length_singleton]
        exact hroom
      · refine hgo _ ?_
        rw [(ids_perm std _).length_eq, List.length_map]
        exact (heuristic_part _ _ _).2.1

/-- **An element that is selected for itself** ends with an error. -/
theorem connect_self (p : Params) (std : Containers D) (dist : V → V → D) {top : List (D × ℕ)} (h : g.Ordered p) (hcur : cur_c ∈ g.onLevel level)
    (htop : ∀ e ∈ top, e.2 ∈ g.onLevel level) (hnodup : (top.map Prod.snd).Nodup)
    (hself : cur_c ∈ selected p std dist g top) :
    mutuallyConnectNewElement p std dist g cur_c top level true =
      .error (.thrown "Trying to connect an element to itself") := by
  obtain ⟨hids, -, hpart⟩ := selected_spec p std dist g hnodup
  have hne : top ≠ [] := by
    obtain ⟨e, he, -⟩ := hpart cur_c hself
    exact List.ne_nil_of_mem he
  have hselected : ∀ j ∈ selected p std dist g top, j ∈ g.onLevel level := by
    intro j hj
    obtain ⟨e, he, rfl⟩ := hpart j hj
    exact htop e he
  obtain ⟨next, -, heq⟩ := mutuallyConnect_eq p std dist true hcur htop hnodup hne nofun
  rw [heq, foldlM_connectBack_self std dist true (fun j hj => ?_) (fun j hj => ?_) hself]
  · rfl
  · rw [Graph.links_setLinks]
    split
    · exact hids.trans (p.M_le_Mcurmax level)
    · obtain ⟨hlt, hlevel⟩ := Graph.mem_onLevel.mp (hselected j hj)
      exact h.size j hlt level hlevel
  · rw [(Graph.sameBut_setLinks g cur_c level _).onLevel_eq]
    exact hselected j hj

end Connect

end HierarchicalNSW

end AwaDB.Index
