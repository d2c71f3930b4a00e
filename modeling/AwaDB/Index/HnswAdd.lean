import AwaDB.Index.HnswSearch

/-!
# Building the HNSW index (`addPoint` in `index/impl/hnswlib/hnswalg.h`)

A new element gets a level by chance. It is linked on every level it has in common with the graph, from
the top down, with what a search on that level finds.

* `addPoint`: the element is entered, the descent finds where to begin, and `linkLevels` links it;
* `Graph.Fresh`: on the levels that are still to come nothing leads to the new element;
* `linkLevels_spec`: the links of one level after the other;
* `addPoint_spec`: the graph stays valid; without a marked element the call never fails.
-/

namespace AwaDB.Index

open Lib

namespace HierarchicalNSW

variable {V D : Type} [LinearOrder D]

/-! ### The calls -/

/-- `top_candidates.emplace(…)`, and the farthest goes if there are more than `ef_construction_`. -/
def emplaceBounded (p : Params) (std : Containers D) (e : D × ℕ) (top : List (D × ℕ)) : List (D × ℕ) :=
  if p.ef < (e :: top).length then
    match std.far.pop (e :: top) with
    | none => e :: top
    | some (_, rest) => rest
  else e :: top

/-- The entry point is a candidate also when it is marked deleted. -/
def withEntry (p : Params) (std : Containers D) (dist : ℕ → D) (epDeleted : Bool) (enterpoint : ℕ)
    (top : List (D × ℕ)) : List (D × ℕ) :=
  if epDeleted then emplaceBounded p std (dist enterpoint, enterpoint) top else top

/-- The loop over the levels at which a new element is linked: `n` of them are left. -/
def linkLevels (p : Params) (std : Containers D) (dist : V → V → D) (dataPoint : V) (cur_c enterpoint : ℕ)
    (epDeleted : Bool) : ℕ → ℕ → Graph V → Except Fault (Graph V)
  | 0, _, g => .ok g
  | level + 1, currObj, g =>
    match searchBaseLayer p std g (fun id => dist dataPoint (g.data id)) currObj level with
    | .error e => .error e
    | .ok top =>
      match mutuallyConnectNewElement p std dist g cur_c
          (withEntry p std (fun id => dist dataPoint (g.data id)) epDeleted enterpoint top) level false with
      | .error e => .error e
      | .ok (g, next) => linkLevels p std dist dataPoint cur_c enterpoint epDeleted level next g

/-- The new element, without links. -/
def Graph.entered (g : Graph V) (curlevel : ℕ) : Graph V :=
  { g with
    count := g.count + 1
    level := Function.update g.level g.count curlevel
    links := Function.update g.links g.count fun _ => []
    deleted := Function.update g.deleted g.count false }

/-- `addPoint`. The level is the one that `getRandomLevel` draws, and the label is the next one. -/
def addPoint (p : Params) (std : Containers D) (dist : V → V → D) (g : Graph V) (dataPoint : V)
    (curlevel : ℕ) : Except Fault (Graph V) :=
  let cur_c := g.count
  let g₁ := g.entered curlevel
  match g.entry with
  | none => .ok { g₁ with entry := some (cur_c, curlevel) }
  | some (enterpoint, maxlevel) =>
    match descend g₁ true (fun id => dist dataPoint (g₁.data id)) curlevel (maxlevel - curlevel)
        enterpoint with
    | .error e => .error e
    | .ok currObj =>
      match linkLevels p std dist dataPoint cur_c enterpoint (g₁.deleted enterpoint)
          (min curlevel maxlevel + 1) currObj g₁ with
      | .error e => .error e
      | .ok g' =>
        .ok (if maxlevel < curlevel then { g' with entry := some (cur_c, curlevel) } else g')

/-! ### The candidates -/

theorem emplaceBounded_part (p : Params) (std : Containers D) (e : D × ℕ) (top : List (D × ℕ)) :
    ∃ dropped, (emplaceBounded p std e top ++ dropped).Perm (e :: top) ∧ emplaceBounded p std e top ≠ [] := by
  rw [emplaceBounded]
  split
  · rename_i hmany
    cases hpop : std.far.pop (e :: top) with
    | none => exact absurd (std.far.pop_eq_none.mp hpop) (List.cons_ne_nil e top)
    | some r =>
      have hperm := PriorityQueue.perm_of_pop hpop
      have hlen := PriorityQueue.length_of_pop hpop
      have hpos := p.ef_pos
      refine ⟨[r.1], List.perm_append_comm.trans hperm.symm, fun hnil => ?_⟩
      have hzero : r.2.length = 0 := by rw [show r.2 = [] from hnil]; rfl
      omega
  · exact ⟨[], by rw [List.append_nil], List.cons_ne_nil e top⟩

/-- What `withEntry` makes of candidates that are elements of a level and not marked. -/
theorem withEntry_spec (p : Params) (std : Containers D) (g : Graph V) (dist : ℕ → D) (enterpoint : ℕ)
    (top : List (D × ℕ)) {P : ℕ → Prop}
    (hentry : g.deleted enterpoint = true → P enterpoint)
    (htop : ∀ e ∈ top, P e.2 ∧ g.deleted e.2 = false)
    (hnodup : (top.map Prod.snd).Nodup) :
    (∀ e ∈ withEntry p std dist (g.deleted enterpoint) enterpoint top, P e.2) ∧
      ((withEntry p std dist (g.deleted enterpoint) enterpoint top).map Prod.snd).Nodup ∧
      (g.deleted enterpoint = true ∨ top ≠ [] →
        withEntry p std dist (g.deleted enterpoint) enterpoint top ≠ []) := by
  rw [withEntry]
  cases hmark : g.deleted enterpoint with
  | false =>
    rw [if_neg Bool.false_ne_true]
    exact ⟨fun e he => (htop e he).1, hnodup, fun h => h.resolve_left Bool.false_ne_true⟩
  | true =>
    rw [if_pos rfl]
    obtain ⟨dropped, hperm, hne⟩ := emplaceBounded_part p std (dist enterpoint, enterpoint) top
    have hall : (((dist enterpoint, enterpoint) :: top).map Prod.snd).Nodup := by
      rw [List.map_cons, List.nodup_cons]
      refine ⟨fun hmem => ?_, hnodup⟩
      obtain ⟨e, he, heq⟩ := List.mem_map.mp hmem
      have hunmarked := (htop e he).2
      rw [show e.2 = enterpoint from heq, hmark] at hunmarked
      cases hunmarked
    have hparts := (hperm.map Prod.snd).nodup_iff.mpr hall
    rw [List.map_append] at hparts
    refine ⟨fun e he => ?_, (List.nodup_append.mp hparts).1, fun _ => hne⟩
    cases List.mem_cons.mp (hperm.mem_iff.mp (List.mem_append_left dropped he)) with
    | inl heq => rw [heq]; exact hentry hmark
    | inr hmem => exact (htop e hmem).1

/-! ### Linking level by level -/

/-- On the levels below `n` the element `c` has no links, and no links lead to it. -/
def Graph.Fresh (g : Graph V) (c n : ℕ) : Prop :=
  ∀ l < n, g.links c l = [] ∧ ∀ id ∈ g.onLevel l, c ∉ g.links id l

variable {p : Params} {std : Containers D} {dist : V → V → D} {g : Graph V}

/-- The other elements, on the levels below `n`. -/
def Graph.others (g : Graph V) (c n l : ℕ) : Finset ℕ :=
  if l < n then (g.onLevel l).erase c else ∅

theorem Graph.mem_others {c n l id : ℕ} :
    id ∈ g.others c n l ↔ l < n ∧ id ≠ c ∧ id ∈ g.onLevel l := by
  rw [Graph.others]
  split
  · rename_i hlt
    rw [Finset.mem_erase, and_iff_right hlt]
  · rename_i hlt
    exact iff_of_false (Finset.notMem_empty id) fun h => hlt h.1

/-- What has no links to it can be left out. -/
theorem Graph.Fresh.region {c n : ℕ} (h : g.Ordered p) (hfresh : g.Fresh c n) :
    g.Region (g.others c n) where
  sub l id hid := (Graph.mem_others.mp hid).2.2
  closed l id hid j hj := by
    obtain ⟨hlt, -, hon⟩ := Graph.mem_others.mp hid
    refine Graph.mem_others.mpr ⟨hlt, fun heq => ?_, h.region.closed l id hon j hj⟩
    exact (hfresh l hlt).2 id hon (heq ▸ hj)
  mono l id hid := by
    obtain ⟨hlt, hne, hon⟩ := Graph.mem_others.mp hid
    exact Graph.mem_others.mpr ⟨by omega, hne, h.region.mono l hon⟩

/-- Without candidates there is no neighbour to begin with on the next level. -/
theorem connect_nil (cur_c level : ℕ) (isUpdate : Bool) :
    mutuallyConnectNewElement p std dist g cur_c [] level isUpdate = .error .undefined := by
  have hheur : getNeighborsByHeuristic2 (g.dist dist) [] p.M = [] := if_pos p.M_pos
  have hids : std.ids (D := D) [] = [] := List.map_eq_nil_iff.mpr (std.far.drained_perm []).eq_nil
  simp [mutuallyConnectNewElement, hheur, hids]

/-- A level stays as it is while lower ones are linked. -/
theorem Graph.Fresh.below {g' : Graph V} {c level : ℕ} (h : g.Fresh c (level + 1))
    (hsame : g.SameBut level g') : g'.Fresh c level := by
  intro l hl
  obtain ⟨hnil, hnone⟩ := h l (Nat.lt_succ_of_lt hl)
  have hne : l ≠ level := Nat.ne_of_lt hl
  refine ⟨by rw [hsame.links c l hne, hnil], fun id hid => ?_⟩
  rw [hsame.links id l hne]
  exact hnone id (by rw [hsame.onLevel_eq] at hid; exact hid)

theorem Graph.SameElements.mem_others {g' : Graph V} {c n m l id : ℕ} (h : g.SameElements g')
    (hid : id ∈ g.others c n l) (hl : l < m) : id ∈ g'.others c m l := by
  obtain ⟨-, hne, hon⟩ := Graph.mem_others.mp hid
  exact Graph.mem_others.mpr ⟨hl, hne, by rw [h.onLevel_eq]; exact hon⟩

/-- **The levels are linked.** The only way to fail is a level on which nothing but marked elements is
found, while the entry point is not marked. -/
theorem linkLevels_spec (std : Containers D) (dist : V → V → D) (dataPoint : V) {cur_c enterpoint n currObj : ℕ} (h : g.Ordered p)
    (hfresh : g.Fresh cur_c n) (hcur : ∀ l < n, cur_c ∈ g.onLevel l) (hmark : g.deleted cur_c = false)
    (hentry : ∀ l < n, enterpoint ∈ g.others cur_c n l)
    (hcurr : ∀ l, l + 1 = n → currObj ∈ g.others cur_c n l) :
    (∃ g', linkLevels p std dist dataPoint cur_c enterpoint (g.deleted enterpoint) n currObj g = .ok g' ∧
        g'.Ordered p ∧ g.SameElements g' ∧ (∀ id l, n ≤ l → g'.links id l = g.links id l) ∧
        ∀ l < n, g'.links cur_c l ≠ []) ∨
      linkLevels p std dist dataPoint cur_c enterpoint (g.deleted enterpoint) n currObj g =
          .error .undefined ∧
        g.deleted enterpoint = false ∧ ∃ id < g.count, g.deleted id = true := by
  induction n generalizing g currObj with
  | zero =>
    exact .inl ⟨g, rfl, h, .refl g, fun _ _ _ => rfl, fun l hl => absurd hl (Nat.not_lt_zero l)⟩
  | succ level ih =>
    have hstart := hcurr level rfl
    have hS := hfresh.region h
    obtain ⟨top, hsearch, htop, hnodup, -, hsome⟩ :=
      searchBaseLayer_spec p std hS (fun id => dist dataPoint (g.data id)) hstart
    obtain ⟨hon, honce, hne⟩ := withEntry_spec p std g
      (fun id => dist dataPoint (g.data id)) enterpoint top (fun _ => hentry level (Nat.lt_succ_self level))
      (fun e he => ⟨(htop e he).1, (htop e he).2.1⟩) hnodup
    rw [linkLevels, hsearch]
    by_cases hnil : withEntry p std (fun id => dist dataPoint (g.data id)) (g.deleted enterpoint)
        enterpoint top = []
    · simp only [hnil, connect_nil]
      have hempty := not_or.mp fun hany => hne hany hnil
      refine .inr ⟨trivial, Bool.not_eq_true _ ▸ hempty.1, currObj, ?_, ?_⟩
      · exact (Graph.mem_onLevel.mp (Graph.mem_others.mp hstart).2.2).1
      · by_contra hunmarked
        exact hempty.2 (hsome (Bool.not_eq_true _ ▸ hunmarked))
    · have hself : cur_c ∉ selected p std dist g (withEntry p std
          (fun id => dist dataPoint (g.data id)) (g.deleted enterpoint) enterpoint top) := by
        intro hmem
        obtain ⟨e, he, heq⟩ := (selected_spec p std dist g honce).2.2 cur_c hmem
        exact (Graph.mem_others.mp (hon e he)).2.1 heq
      obtain ⟨g₁, next, hconnect, hordered, hsame, hnext, -, -⟩ := connect_spec p std dist false h
        (hcur level (Nat.lt_succ_self level)) (fun e he => (Graph.mem_others.mp (hon e he)).2.2) honce
        hnil hself fun _ => ⟨(hfresh level (Nat.lt_succ_self level)).1, hmark,
          (hfresh level (Nat.lt_succ_self level)).2⟩
      simp only [hconnect]
      have hcurOn := hcur level (Nat.lt_succ_self level)
      rw [← hsame.onLevel_eq] at hcurOn
      obtain ⟨hcurlt, hcurlevel⟩ := Graph.mem_onLevel.mp hcurOn
      obtain ⟨hnextlt, hnextlevel, hnextne⟩ := hordered.closed cur_c hcurlt level hcurlevel next hnext
      have hbegin : ∀ l, l + 1 = level → next ∈ g₁.others cur_c level l := fun l hl =>
        Graph.mem_others.mpr ⟨by omega, hnextne, Graph.mem_onLevel.mpr ⟨hnextlt, by omega⟩⟩
      have hrest := ih hordered (hfresh.below hsame)
        (fun l hl => by rw [hsame.onLevel_eq]; exact hcur l (Nat.lt_succ_of_lt hl))
        (by rw [hsame.deleted]; exact hmark)
        (fun l hl => hsame.toSameElements.mem_others (hentry l (Nat.lt_succ_of_lt hl)) hl) hbegin
      rw [hsame.deleted, hsame.count] at hrest
      rcases hrest with ⟨g', hrun, hordered', hsame', hlinks, hlinked⟩ | hfail
      · refine .inl ⟨g', hrun, hordered', hsame.toSameElements.trans hsame', fun id l hl => ?_, fun l hl => ?_⟩
        · rw [hlinks id l (by omega), hsame.links id l (by omega)]
        · cases Nat.lt_succ_iff_lt_or_eq.mp hl with
          | inl hlt => exact hlinked l hlt
          | inr heq =>
            rw [heq, hlinks cur_c level (Nat.le_refl level)]
            exact List.ne_nil_of_mem hnext
      · exact .inr hfail

/-! ### The new element -/

theorem Graph.links_entered (g : Graph V) (curlevel id l : ℕ) :
    (g.entered curlevel).links id l = if id = g.count then [] else g.links id l := by
  show Function.update g.links g.count (fun _ => []) id l = _
  split
  · rename_i heq
    rw [heq, Function.update_self]
  · rename_i hne
    rw [Function.update_of_ne hne]

theorem Graph.level_entered (g : Graph V) (curlevel id : ℕ) :
    (g.entered curlevel).level id = if id = g.count then curlevel else g.level id :=
  Function.update_apply _ _ _ _

theorem Graph.deleted_entered (g : Graph V) (curlevel id : ℕ) :
    (g.entered curlevel).deleted id = if id = g.count then false else g.deleted id :=
  Function.update_apply _ _ _ _

/-- The elements of a level, with the new one if it has that level. -/
theorem Graph.mem_onLevel_entered {curlevel l id : ℕ} : id ∈ (g.entered curlevel).onLevel l ↔
    id = g.count ∧ l ≤ curlevel ∨ id ∈ g.onLevel l := by
  rw [mem_onLevel, mem_onLevel, level_entered]
  show id < g.count + 1 ∧ _ ↔ _
  split <;> omega

theorem Graph.Ordered.entered (h : g.Ordered p) (curlevel : ℕ) : (g.entered curlevel).Ordered p := by
  have hold : ∀ id < g.count + 1, id ≠ g.count → id < g.count := fun id hid hne => by omega
  have hlevel : ∀ id, id ≠ g.count → (g.entered curlevel).level id = g.level id := fun id hne => by
    rw [Graph.level_entered, if_neg hne]
  constructor
  · intro id hid l hl
    rw [Graph.links_entered]
    split
    · exact Nat.zero_le _
    · rename_i hne
      exact h.size id (hold id hid hne) l (hlevel id hne ▸ hl)
  · intro id hid l hl
    rw [Graph.links_entered]
    split
    · exact List.nodup_nil
    · rename_i hne
      exact h.nodup id (hold id hid hne) l (hlevel id hne ▸ hl)
  · intro id hid l hl j hj
    rw [Graph.links_entered] at hj
    split at hj
    · exact absurd hj List.not_mem_nil
    · rename_i hne
      obtain ⟨hjlt, hjlevel, hjne⟩ := h.closed id (hold id hid hne) l (hlevel id hne ▸ hl) j hj
      rw [hlevel j (Nat.ne_of_lt hjlt)]
      exact ⟨Nat.lt_succ_of_lt hjlt, hjlevel, hjne⟩

theorem Graph.Ordered.fresh_entered (h : g.Ordered p) (curlevel n : ℕ) :
    (g.entered curlevel).Fresh g.count n := by
  intro l _
  refine ⟨by rw [Graph.links_entered, if_pos rfl], fun id hid => ?_⟩
  rw [Graph.links_entered]
  split
  · exact List.not_mem_nil
  · rename_i hne
    obtain ⟨hlt, hlevel⟩ := Graph.mem_onLevel.mp
      ((Graph.mem_onLevel_entered.mp hid).resolve_left fun heq => hne heq.1)
    intro hmem
    exact absurd (h.closed id hlt l hlevel _ hmem).1 (Nat.lt_irrefl _)

/-- The new element is not marked. -/
theorem Graph.Valid.counted_entered (h : g.Valid p) (curlevel : ℕ) :
    (g.entered curlevel).numDeleted = ((Finset.range (g.entered curlevel).count).filter
      fun id => (g.entered curlevel).deleted id = true).card := by
  show g.numDeleted = ((Finset.range (g.count + 1)).filter _).card
  rw [Finset.range_add_one, Finset.filter_insert, Graph.deleted_entered, if_pos rfl,
    if_neg Bool.false_ne_true, h.counted]
  refine congrArg Finset.card (Finset.filter_congr fun id hid => ?_)
  rw [Graph.deleted_entered, if_neg (Nat.ne_of_lt (Finset.mem_range.mp hid))]

/-- Marks are counted. -/
theorem Graph.Valid.numDeleted_pos (h : g.Valid p) {id : ℕ} (hid : id < g.count)
    (hmark : g.deleted id = true) : 0 < g.numDeleted := by
  rw [h.counted]
  exact Finset.card_pos.mpr ⟨id, Finset.mem_filter.mpr ⟨Finset.mem_range.mpr hid, hmark⟩⟩

/-- What a call of `addPoint` leaves behind: one element more, with its level, and with links on every
level that another element has. -/
structure Added (p : Params) (g : Graph V) (curlevel : ℕ) (g' : Graph V) : Prop where
  valid : g'.Valid p
  count : g'.count = g.count + 1
  data : g'.data = g.data
  maxElements : g'.maxElements = g.maxElements
  numDeleted : g'.numDeleted = g.numDeleted
  deleted : ∀ id, g'.deleted id = if id = g.count then false else g.deleted id
  level : ∀ id, g'.level id = if id = g.count then curlevel else g.level id
  linked : ∀ l ≤ curlevel, (∃ id < g.count, l ≤ g.level id) → g'.links g.count l ≠ []

/-- A graph that differs from the one with the new element in its links and perhaps in its entry point. -/
theorem Added.of_same {curlevel : ℕ} {g' : Graph V} (h : g.Valid p) (hroom : g.count < g.maxElements)
    (hordered : g'.Ordered p) (hsame : (g.entered curlevel).SameElements { g' with entry := g.entry })
    (hentry : ∃ enterpoint maxlevel, g'.entry = some (enterpoint, maxlevel) ∧ enterpoint < g'.count ∧
      g'.level enterpoint = maxlevel ∧ ∀ id < g'.count, g'.level id ≤ maxlevel)
    (hlinked : ∀ l ≤ curlevel, (∃ id < g.count, l ≤ g.level id) → g'.links g.count l ≠ []) :
    Added p g curlevel g' where
  valid := {
    toOrdered := hordered
    entry_none := fun hnone => by
      obtain ⟨enterpoint, maxlevel, hsome, -⟩ := hentry
      rw [hnone] at hsome
      cases hsome
    entry_some := fun ep' maxlevel' hsome' => by
      obtain ⟨enterpoint, maxlevel, hsome, hrest⟩ := hentry
      rw [hsome] at hsome'
      cases hsome'
      exact hrest
    counted := by
      have hnum : g'.numDeleted = (g.entered curlevel).numDeleted := hsame.numDeleted
      have hcount : g'.count = (g.entered curlevel).count := hsame.count
      have hmarks : g'.deleted = (g.entered curlevel).deleted := hsame.deleted
      rw [hnum, hcount, hmarks]
      exact h.counted_entered curlevel
    room := by
      have hcount : g'.count = g.count + 1 := hsame.count
      have hmax : g'.maxElements = g.maxElements := hsame.maxElements
      omega }
  count := hsame.count
  data := hsame.data
  maxElements := hsame.maxElements
  numDeleted := hsame.numDeleted
  deleted id := by
    have hmarks : g'.deleted = (g.entered curlevel).deleted := hsame.deleted
    rw [hmarks, Graph.deleted_entered]
  level id := by
    have hlevels : g'.level = (g.entered curlevel).level := hsame.level
    rw [hlevels, Graph.level_entered]
  linked := hlinked

theorem Graph.Valid.entry_mem_others {curlevel enterpoint maxlevel n l : ℕ} (h : g.Valid p)
    (hentry : g.entry = some (enterpoint, maxlevel)) (hle : l ≤ maxlevel) (hl : l < n) :
    enterpoint ∈ (g.entered curlevel).others g.count n l := by
  obtain ⟨hep, hlevel, -⟩ := h.entry_some enterpoint maxlevel hentry
  refine Graph.mem_others.mpr ⟨hl, Nat.ne_of_lt hep, Graph.mem_onLevel_entered.mpr (.inr ?_)⟩
  exact Graph.mem_onLevel.mpr ⟨hep, hlevel ▸ hle⟩

/-- Where the levels in common begin. -/
theorem descend_entered (dist : V → V → D) (dataPoint : V) (curlevel : ℕ) {enterpoint maxlevel : ℕ}
    (h : g.Valid p) (hroom : g.count < g.maxElements) (hentry : g.entry = some (enterpoint, maxlevel)) :
    ∃ currObj ∈ (g.entered curlevel).others g.count (min curlevel maxlevel + 1) (min curlevel maxlevel),
      descend (g.entered curlevel) true (fun id => dist dataPoint ((g.entered curlevel).data id)) curlevel
        (maxlevel - curlevel) enterpoint = .ok currObj := by
  have hordered := h.toOrdered.entered curlevel
  cases Nat.lt_or_ge maxlevel curlevel with
  | inl hhigher =>
    have hmin : min curlevel maxlevel = maxlevel := Nat.min_eq_right (Nat.le_of_lt hhigher)
    refine ⟨enterpoint, ?_, ?_⟩
    · rw [hmin]
      exact h.entry_mem_others hentry (Nat.le_refl maxlevel) (Nat.lt_succ_self maxlevel)
    · rw [Nat.sub_eq_zero_of_le (Nat.le_of_lt hhigher)]
      rfl
  | inr hle =>
    have hS := (h.toOrdered.fresh_entered curlevel (maxlevel + 1)).region hordered
    have hstart : enterpoint ∈ (g.entered curlevel).others g.count (maxlevel + 1)
        (curlevel + (maxlevel - curlevel)) :=
      h.entry_mem_others hentry (by omega) (by omega)
    obtain ⟨currObj, hcurr, hdescend, -⟩ := descend_spec hS hroom true
      (fun id => dist dataPoint ((g.entered curlevel).data id)) curlevel (maxlevel - curlevel) hstart
    refine ⟨currObj, ?_, hdescend⟩
    rw [Nat.min_eq_left hle]
    obtain ⟨-, hne, hon⟩ := Graph.mem_others.mp hcurr
    exact Graph.mem_others.mpr ⟨Nat.lt_succ_self curlevel, hne, hon⟩

/-- **An element is added.** The graph stays valid. Where no element is marked deleted the call does not
fail, and where some are it fails at most for want of a candidate. -/
theorem addPoint_spec (p : Params) (std : Containers D) (dist : V → V → D) (dataPoint : V) (curlevel : ℕ)
    (h : g.Valid p) (hroom : g.count < g.maxElements) :
    (∃ g', addPoint p std dist g dataPoint curlevel = .ok g' ∧ Added p g curlevel g') ∨
      addPoint p std dist g dataPoint curlevel = .error .undefined ∧ 0 < g.numDeleted := by
  have hordered := h.toOrdered.entered curlevel
  cases hentry : g.entry with
  | none =>
    have hzero := h.entry_none hentry
    refine .inl ⟨{ g.entered curlevel with entry := some (g.count, curlevel) }, ?_, ?_⟩
    · simp only [addPoint, hentry]
    · refine .of_same h hroom ⟨hordered.size, hordered.nodup, hordered.closed⟩
        ⟨rfl, rfl, rfl, rfl, rfl, rfl, rfl⟩ ⟨g.count, curlevel, rfl, Nat.lt_succ_self _, ?_, fun id hid => ?_⟩
        fun l _ hex => ?_
      · exact (g.level_entered curlevel g.count).trans (if_pos rfl)
      · have hid : id < g.count + 1 := hid
        have heq : id = g.count := by omega
        exact ((g.level_entered curlevel id).trans (if_pos heq)).le
      · obtain ⟨id, hid, -⟩ := hex
        omega
  | some entry =>
    obtain ⟨enterpoint, maxlevel⟩ := entry
    obtain ⟨hep, hlevel, htop⟩ := h.entry_some enterpoint maxlevel hentry
    obtain ⟨currObj, hcurr, hdescend⟩ := descend_entered dist dataPoint curlevel h hroom hentry
    have hlinks := linkLevels_spec std dist dataPoint hordered
      (h.toOrdered.fresh_entered curlevel (min curlevel maxlevel + 1))
      (fun l hl => Graph.mem_onLevel_entered.mpr (.inl ⟨rfl, by omega⟩))
      (by rw [Graph.deleted_entered, if_pos rfl])
      (fun l hl => h.entry_mem_others hentry (by omega) hl)
      (fun l hl => by rw [Nat.succ_injective hl]; exact hcurr)
    simp only [addPoint, hentry, hdescend]
    rcases hlinks with ⟨g', hrun, hordered', hsame, -, hlinked⟩ | ⟨hrun, -, id, hid, hmark⟩
    · rw [hrun]
      have hlevels : ∀ id, g'.level id = if id = g.count then curlevel else g.level id := fun id => by
        rw [hsame.level, Graph.level_entered]
      have hcount : g'.count = g.count + 1 := hsame.count
      have hlinked' : ∀ l ≤ curlevel, (∃ id < g.count, l ≤ g.level id) → g'.links g.count l ≠ [] := by
        rintro l hl ⟨id, hid, hidlevel⟩
        have hle := htop id hid
        exact hlinked l (by omega)
      refine .inl ⟨_, rfl, ?_⟩
      split
      · rename_i hhigher
        refine .of_same h hroom ⟨hordered'.size, hordered'.nodup, hordered'.closed⟩
          ⟨hsame.data, hsame.maxElements, hsame.count, hsame.level, hsame.deleted, hsame.numDeleted, rfl⟩
          ⟨g.count, curlevel, rfl, ?_, ?_, fun id hid => ?_⟩ hlinked'
        · show g.count < g'.count
          omega
        · show g'.level g.count = curlevel
          rw [hlevels, if_pos rfl]
        · show g'.level id ≤ curlevel
          have hid : id < g'.count := hid
          rw [hlevels]
          split
          · exact le_refl _
          · exact (htop id (by omega)).trans (Nat.le_of_lt hhigher)
      · rename_i hnot
        have hsameEntry : g'.entry = some (enterpoint, maxlevel) := hsame.entry.trans hentry
        refine .of_same h hroom hordered'
          ⟨hsame.data, hsame.maxElements, hsame.count, hsame.level, hsame.deleted, hsame.numDeleted, rfl⟩
          ⟨enterpoint, maxlevel, hsameEntry, by omega, ?_, fun id hid => ?_⟩ hlinked'
        · rw [hlevels, if_neg (Nat.ne_of_lt hep)]
          exact hlevel
        · rw [hlevels]
          split
          · exact Nat.not_lt.mp hnot
          · exact htop id (by omega)
    · rw [hrun]
      rw [Graph.deleted_entered] at hmark
      split at hmark
      · cases hmark
      · have hid : id < g.count + 1 := hid
        exact .inr ⟨rfl, h.numDeleted_pos (by omega) hmark⟩

end HierarchicalNSW

end AwaDB.Index
