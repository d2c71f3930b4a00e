import AwaDB.Vector.Reindex

/-!
# What reaches the index (`VectorManager::AddRTVecsToIndex`, `RawVector::Update`)

The index is any `RetrievalModel`: each call of `Add`, `Update` and `Gets` may fail. `Add` gets the stored
vectors from `indexed_count_` on, which moves only behind a call that succeeds. The queue of the updated
vids is emptied before their vectors are read and handed to `Update`, and a failure there loses them.

* `Inv`: the vectors of the successful `Add`s are the stored ones in order, and each vid that was queued
  is in the queue, or its last update has its newest vector;
* `Inv.step`: every step keeps it, unless it takes vids from the queue and fails;
* `Inv.call_succeeds`: a call without failures indexes all that is stored, and shortens the queue;
* `all_indexed`: after enough calls without failures nothing is left to index.
-/

namespace AwaDB.Vector

open RetrievalModel

variable {Vec : Type}

/-- The stored vectors, the variables of the `RetrievalModel`, and what was handed to it: the vids and
vectors of the successful `Add`s and `Update`s. `queued` are the vids that were ever queued. -/
structure IndexState (Vec : Type) where
  stored : List Vec
  indexedCount : ℕ
  updatedVids : List ℕ
  deleted : ℕ → Bool
  added : List (ℕ × Vec)
  updated : List (ℕ × Vec)
  queued : List ℕ

/-- Which calls succeed: `Add` in each round, `Gets`, and `Update`. -/
structure Outcome where
  add : ℕ → Bool
  gets : Bool
  update : Bool

namespace IndexState

/-- An empty store, with the bits of its bitmap. -/
def create (deleted : ℕ → Bool) : IndexState Vec := ⟨[], 0, [], deleted, [], [], []⟩

/-- The variables of `AddRTVecsToIndex`. -/
structure Loop (Vec : Type) where
  state : IndexState Vec
  ret : ℤ
  indexIsDirty : Bool

/-- The vectors of some vids, as they are stored. -/
def vectors (s : IndexState Vec) (vids : List ℕ) : Option (List (ℕ × Vec)) :=
  vids.mapM fun vid => (s.stored[vid]?).map fun vec => (vid, vec)

/-- Round `i` of the loop. Reading behind the stored vectors is undefined. -/
def addRound (add : ℕ → Bool) (total indexCount : ℕ) (i : ℕ) (st : Loop Vec) : Option (Loop Vec) :=
  let start := st.state.indexedCount
  let count := if i = indexCount - 1 then total - start else maxNumPerIndex
  if count = 0 then some st
  else
    (st.state.vectors (List.range' start count)).map fun vecs =>
      if add i then
        { st with
          state := { st.state with indexedCount := start + count, added := st.state.added ++ vecs }
          indexIsDirty := true }
      else { st with ret := -2 }

/-- The vectors that are not indexed yet. -/
def addNewVecs (o : Outcome) (s : IndexState Vec) : Option (Loop Vec) :=
  let total := s.stored.length
  if s.indexedCount > total then some ⟨s, -1, false⟩
  else if s.indexedCount = total then some ⟨s, 0, false⟩
  else
    let indexCount := (total - s.indexedCount) / maxNumPerIndex + 1
    (Lib.runOps (addRound o.add total indexCount) (List.range indexCount) ⟨s, 0, false⟩).map fun st =>
      if st.ret = 0 then { st with ret := total - s.indexedCount } else st

/-- The vids that are taken from the queue. -/
def taken (s : IndexState Vec) : List ℕ := (popUpdated s.deleted s.indexedCount s.updatedVids []).2

/-- The updated vectors. -/
def applyUpdates (o : Outcome) (st : Loop Vec) : Option (Loop Vec) :=
  let s := { st.state with
    updatedVids := (popUpdated st.state.deleted st.state.indexedCount st.state.updatedVids []).1 }
  if st.state.taken = [] then some { st with state := s }
  else if !o.gets then some { st with state := s, ret := -3 }
  else
    (s.vectors st.state.taken).map fun vecs =>
      if o.update then
        { st with state := { s with updated := s.updated ++ vecs }, indexIsDirty := true }
      else { st with state := s, ret := -4, indexIsDirty := true }

/-- `AddRTVecsToIndex` for one index. -/
def addRTVecsToIndex (o : Outcome) (s : IndexState Vec) : Option (Loop Vec) :=
  (s.addNewVecs o).bind (applyUpdates o)

/-- What happens to a store and its index. -/
inductive Op (Vec : Type) where
  | store (vec : Vec)
  | update (vid : ℕ) (vec : Vec)
  | addRTVecs (o : Outcome)

/-- `RawVector::Add`, `RawVector::Update` with the queue behind it, and `AddRTVecsToIndex`. -/
def step : Op Vec → IndexState Vec → Option (IndexState Vec)
  | .store vec, s => some { s with stored := s.stored ++ [vec] }
  | .update vid vec, s =>
    if s.stored.length ≤ vid then some s
    else some { s with
      stored := s.stored.set vid vec
      updatedVids := s.updatedVids ++ [vid]
      queued := s.queued ++ [vid] }
  | .addRTVecs o, s => (s.addRTVecsToIndex o).map Loop.state

/-- The condition on a step: if vids are taken from the queue, they are read and updated. -/
def Delivers : Op Vec → IndexState Vec → Prop
  | .addRTVecs o, s => ∀ st, s.addNewVecs o = some st → st.state.taken ≠ [] →
      o.gets = true ∧ o.update = true
  | _, _ => True

/-- The vector of the last update of a vid. -/
def lastUpdate (s : IndexState Vec) (vid : ℕ) : Option Vec := s.updated.reverse.lookup vid

/-- What holds in every state. -/
structure Inv (s : IndexState Vec) : Prop where
  count : s.indexedCount ≤ s.stored.length
  added : s.added.map Prod.fst = List.range s.indexedCount
  waiting : ∀ vid ∈ s.updatedVids, vid ∈ s.queued
  inStore : ∀ vid ∈ s.queued, vid < s.stored.length
  reached : ∀ vid ∈ s.queued, s.deleted vid = false →
    vid ∈ s.updatedVids ∨ s.lastUpdate vid = s.stored[vid]?

/-! ### The queue -/

variable {deleted : ℕ → Bool} {n : ℕ} {queue vids : List ℕ}

/-- A vid that is not deleted is taken, or stays in the queue. -/
theorem taken_or_left {v : ℕ} (hdeleted : deleted v = false) (h : v ∈ vids ∨ v ∈ queue) :
    v ∈ (popUpdated deleted n queue vids).2 ∨ v ∈ (popUpdated deleted n queue vids).1 := by
  induction queue generalizing vids with
  | nil => exact .inl (h.resolve_right List.not_mem_nil)
  | cons vid queue ih =>
    rw [popUpdated]
    split
    · rename_i hvid
      refine ih (h.imp_right fun hmem => ?_)
      rcases List.mem_cons.mp hmem with rfl | hmem
      · rw [hvid] at hdeleted
        cases hdeleted
      · exact hmem
    · split
      · refine h.imp_right fun hmem => ?_
        rcases List.mem_cons.mp hmem with rfl | hmem
        · exact List.mem_append_right _ (List.mem_singleton_self _)
        · exact List.mem_append_left _ hmem
      · have hshift : v ∈ vids ++ [vid] ∨ v ∈ queue := by
          rcases h with h | h
          · exact .inl (List.mem_append_left _ h)
          · rcases List.mem_cons.mp h with rfl | h
            · exact .inl (List.mem_append_right _ (List.mem_singleton_self _))
            · exact .inr h
        split
        · exact hshift
        · exact ih hshift

/-- What stays in the queue was there. -/
theorem mem_left {v : ℕ} (h : v ∈ (popUpdated deleted n queue vids).1) : v ∈ queue := by
  induction queue generalizing vids with
  | nil => exact absurd h List.not_mem_nil
  | cons vid queue ih =>
    rw [popUpdated] at h
    split at h
    · exact List.mem_cons_of_mem _ (ih h)
    · split at h
      · rcases List.mem_append.mp h with h | h
        · exact List.mem_cons_of_mem _ h
        · rw [List.mem_singleton.mp h]
          exact List.mem_cons_self
      · split at h
        · exact List.mem_cons_of_mem _ h
        · exact List.mem_cons_of_mem _ (ih h)

/-- A queue of indexed vids gets shorter by 20000, or empty. -/
theorem length_left (hqueue : ∀ v ∈ queue, v < n) :
    (popUpdated deleted n queue vids).1.length ≤ queue.length - (20000 - vids.length) := by
  induction queue generalizing vids with
  | nil => exact Nat.zero_le _
  | cons vid queue ih =>
    have hrest : ∀ v ∈ queue, v < n := fun v hv => hqueue v (List.mem_cons_of_mem vid hv)
    have hvid := hqueue vid List.mem_cons_self
    rw [popUpdated, List.length_cons]
    split
    · have hle := @ih vids hrest
      omega
    · rw [if_neg (by omega)]
      split
      · show queue.length ≤ _
        omega
      · have hle := @ih (vids ++ [vid]) hrest
        rw [List.length_append, List.length_singleton] at hle
        omega

/-! ### What is handed on -/

/-- Stored vids have vectors. -/
theorem vectors_isSome (s : IndexState Vec) (vids : List ℕ)
    (h : ∀ vid ∈ vids, vid < s.stored.length) : ∃ vecs, s.vectors vids = some vecs := by
  refine Option.isSome_iff_exists.mp (Lib.mapM_isSome_iff.mpr fun vid hvid => ?_)
  rw [List.getElem?_eq_getElem (h vid hvid)]
  rfl

theorem mem_vectors {s : IndexState Vec} {vids : List ℕ} {vecs : List (ℕ × Vec)}
    (h : s.vectors vids = some vecs) {p : ℕ × Vec} :
    p ∈ vecs ↔ p.1 ∈ vids ∧ s.stored[p.1]? = some p.2 := by
  rw [Lib.mem_of_mapM h]
  constructor
  · rintro ⟨vid, hvid, hp⟩
    obtain ⟨vec, hvec, rfl⟩ := Option.map_eq_some_iff.mp hp
    exact ⟨hvid, hvec⟩
  · rintro ⟨hvid, hvec⟩
    exact ⟨p.1, hvid, by rw [hvec]; rfl⟩

theorem map_fst_vectors {s : IndexState Vec} {vids : List ℕ} {vecs : List (ℕ × Vec)}
    (h : s.vectors vids = some vecs) : vecs.map Prod.fst = vids := by
  induction vids generalizing vecs with
  | nil =>
    cases h
    rfl
  | cons vid vids ih =>
    rw [vectors, List.mapM_cons] at h
    obtain ⟨p, hp, hrest⟩ := Option.bind_eq_some_iff.mp h
    obtain ⟨rest, htail, hcons⟩ := Option.bind_eq_some_iff.mp hrest
    obtain rfl := Option.some.inj hcons
    obtain ⟨vec, -, rfl⟩ := Option.map_eq_some_iff.mp hp
    rw [List.map_cons, ih htail]

/-- The last update of a vid that was handed on has the stored vector. -/
theorem lookup_vectors {s : IndexState Vec} {vids : List ℕ} {vecs old : List (ℕ × Vec)}
    (h : s.vectors vids = some vecs) (vid : ℕ) :
    (old ++ vecs).reverse.lookup vid =
      if vid ∈ vids then s.stored[vid]? else old.reverse.lookup vid := by
  rw [List.reverse_append, List.lookup_append]
  by_cases hvid : vid ∈ vids
  · rw [if_pos hvid]
    have hfst := map_fst_vectors h
    rw [← hfst] at hvid
    obtain ⟨p, hp, rfl⟩ := List.mem_map.mp hvid
    cases hlookup : vecs.reverse.lookup p.1 with
    | none =>
      have hno := List.lookup_eq_none_iff.mp hlookup p (List.mem_reverse.mpr hp)
      exact absurd rfl (bne_iff_ne.mp hno)
    | some vec =>
      obtain ⟨l₁, l₂, heq, -⟩ := List.lookup_eq_some_iff.mp hlookup
      have hmem : (p.1, vec) ∈ vecs := by
        rw [← List.mem_reverse, heq]
        exact List.mem_append_right _ List.mem_cons_self
      rw [((mem_vectors h).mp hmem).2]
      rfl
  · rw [if_neg hvid]
    have hnone : vecs.reverse.lookup vid = none := by
      refine List.lookup_eq_none_iff.mpr fun p hp => ?_
      rw [bne_iff_ne]
      rintro rfl
      exact hvid ((mem_vectors h).mp (List.mem_reverse.mp hp)).1
    rw [hnone]
    rfl

/-! ### The rounds -/

/-- Between the rounds: only the index gets more, and not more than 1000 vectors a round. -/
structure Rounds (o : Outcome) (s : IndexState Vec) (rounds : ℕ) (st : Loop Vec) : Prop where
  inv : st.state.Inv
  same : st.state = { s with indexedCount := st.state.indexedCount, added := st.state.added }
  le : st.state.indexedCount ≤ s.indexedCount + rounds * 1000
  all : (∀ i, o.add i = true) → st.state.indexedCount = s.indexedCount + rounds * 1000

/-- Handing on the next vectors. -/
theorem Inv.add {s : IndexState Vec} (h : s.Inv) {count : ℕ} {vecs : List (ℕ × Vec)}
    (hroom : s.indexedCount + count ≤ s.stored.length)
    (hvecs : s.vectors (List.range' s.indexedCount count) = some vecs) :
    Inv { s with indexedCount := s.indexedCount + count, added := s.added ++ vecs } where
  count := hroom
  added := by
    rw [List.map_append, h.added, map_fst_vectors hvecs, List.range_eq_range', List.range_eq_range',
      ← List.range'_append_1, Nat.zero_add]
  waiting := h.waiting
  inStore := h.inStore
  reached := h.reached

/-- One round is defined, and keeps the invariant; if `Add` succeeds the vectors are indexed. -/
theorem addRound_spec (o : Outcome) (indexCount i : ℕ) {st : Loop Vec} (h : st.state.Inv)
    (hroom : i ≠ indexCount - 1 → st.state.indexedCount + 1000 ≤ st.state.stored.length) :
    ∃ st', addRound o.add st.state.stored.length indexCount i st = some st' ∧ st'.state.Inv ∧
      st'.state = { st.state with
        indexedCount := st'.state.indexedCount
        added := st'.state.added } ∧
      (i ≠ indexCount - 1 → st'.state.indexedCount ≤ st.state.indexedCount + 1000) ∧
      (o.add i = true → st'.state.indexedCount =
        if i = indexCount - 1 then st.state.stored.length else st.state.indexedCount + 1000) := by
  have hcount := h.count
  rw [addRound]
  obtain ⟨count, hdef⟩ : ∃ count, count = if i = indexCount - 1 then
      st.state.stored.length - st.state.indexedCount else maxNumPerIndex := ⟨_, rfl⟩
  rw [← hdef]
  dsimp only
  have hlast : (i = indexCount - 1 → st.state.indexedCount + count = st.state.stored.length) ∧
      (i ≠ indexCount - 1 → count = 1000) := by
    constructor
    · intro hi
      rw [hdef, if_pos hi]
      omega
    · intro hi
      rw [hdef, if_neg hi]
      rfl
  have hfit : st.state.indexedCount + count ≤ st.state.stored.length := by
    by_cases hi : i = indexCount - 1
    · exact Nat.le_of_eq (hlast.1 hi)
    · rw [hlast.2 hi]
      exact hroom hi
  have hend : st.state.indexedCount + count =
      if i = indexCount - 1 then st.state.stored.length else st.state.indexedCount + 1000 := by
    split
    · rename_i hi
      exact hlast.1 hi
    · rename_i hi
      rw [hlast.2 hi]
  split
  · rename_i hzero
    refine ⟨st, rfl, h, rfl, fun _ => Nat.le_add_right _ _, fun _ => ?_⟩
    rw [← hend, hzero, Nat.add_zero]
  · obtain ⟨vecs, hvecs⟩ := vectors_isSome st.state
      (List.range' st.state.indexedCount count) fun vid hvid => by
        have hlt := (List.mem_range'_1.mp hvid).2
        omega
    rw [hvecs, Option.map_some]
    by_cases hadd : o.add i = true
    · rw [if_pos hadd]
      refine ⟨_, rfl, h.add hfit hvecs, rfl, fun hi => ?_, fun _ => hend⟩
      show st.state.indexedCount + count ≤ _
      rw [hlast.2 hi]
    · rw [if_neg hadd]
      exact ⟨_, rfl, h, rfl, fun _ => Nat.le_add_right _ _, fun hno => absurd hno hadd⟩

/-- The rounds before the last one. -/
theorem rounds_spec {o : Outcome} {s : IndexState Vec} (h : s.Inv) (rounds : ℕ)
    (hrounds : s.indexedCount + rounds * 1000 ≤ s.stored.length) {indexCount : ℕ}
    (hcount : rounds < indexCount) :
    ∃ st, Lib.runOps (addRound o.add s.stored.length indexCount) (List.range rounds) ⟨s, 0, false⟩ =
      some st ∧ Rounds o s rounds st := by
  induction rounds with
  | zero =>
    refine ⟨_, rfl, h, rfl, Nat.le_add_right _ _, fun _ => ?_⟩
    rw [Nat.zero_mul]
    rfl
  | succ rounds ih =>
    have hmul : rounds * 1000 ≤ (rounds + 1) * 1000 := Nat.mul_le_mul_right 1000 (Nat.le_succ rounds)
    obtain ⟨st, hst, hround⟩ := ih (Nat.le_trans (Nat.add_le_add_left hmul _) hrounds)
      (Nat.lt_of_succ_lt hcount)
    have hstored : st.state.stored = s.stored := by rw [hround.same]
    have hle := hround.le
    have hnext : rounds ≠ indexCount - 1 := by omega
    obtain ⟨st', hst', hinv, hsame, hbound, hall⟩ := addRound_spec o indexCount rounds
      hround.inv fun _ => by
        rw [hstored]
        omega
    rw [hstored] at hst'
    refine ⟨st', ?_, hinv, ?_, ?_, fun hadd => ?_⟩
    · rw [List.range_succ, Lib.runOps_append, hst, Option.bind_some, Lib.runOps_cons, hst',
        Option.bind_some, Lib.runOps_nil]
    · rw [hsame, hround.same]
    · have hstep := hbound hnext
      omega
    · rw [hall (hadd rounds), if_neg hnext, hround.all hadd]
      omega

/-- **The first half of a call** is defined and keeps the invariant; without failures everything that is
stored is indexed. -/
theorem addNewVecs_spec (o : Outcome) {s : IndexState Vec} (h : s.Inv) :
    ∃ st, s.addNewVecs o = some st ∧ st.state.Inv ∧
      st.state = { s with indexedCount := st.state.indexedCount, added := st.state.added } ∧
      ((∀ i, o.add i = true) → st.state.indexedCount = s.stored.length) := by
  have hle := h.count
  rw [addNewVecs]
  dsimp only
  rw [if_neg (Nat.not_lt.mpr hle)]
  split
  · rename_i heq
    exact ⟨_, rfl, h, rfl, fun _ => heq⟩
  · have hrounds : s.indexedCount + (s.stored.length - s.indexedCount) / maxNumPerIndex * 1000 ≤
        s.stored.length := by
      have hmul := Nat.div_mul_le_self (s.stored.length - s.indexedCount) maxNumPerIndex
      have hmax : maxNumPerIndex = 1000 := rfl
      rw [hmax] at hmul ⊢
      omega
    obtain ⟨st, hst, hround⟩ := rounds_spec (o := o) h _ hrounds (Nat.lt_succ_self _)
    have hstored : st.state.stored = s.stored := by rw [hround.same]
    obtain ⟨st', hst', hinv, hsame, -, hall⟩ := addRound_spec o
      ((s.stored.length - s.indexedCount) / maxNumPerIndex + 1)
      ((s.stored.length - s.indexedCount) / maxNumPerIndex) hround.inv
      fun hno => absurd rfl hno
    rw [hstored] at hst'
    rw [List.range_succ, Lib.runOps_append, hst, Option.bind_some, Lib.runOps_cons, hst',
      Option.bind_some, Lib.runOps_nil, Option.map_some]
    have hstate : (if st'.ret = 0 then { st' with ret := (s.stored.length : ℤ) - s.indexedCount }
        else st').state = st'.state := by
      split <;> rfl
    refine ⟨_, rfl, ?_⟩
    rw [hstate]
    refine ⟨hinv, ?_, fun hadd => ?_⟩
    · rw [hsame, hround.same]
    · rw [hall (hadd _), hstored]
      exact if_pos rfl

/-! ### The updates -/

/-- Taking vids from the queue and updating them. -/
theorem Inv.take {s : IndexState Vec} (h : s.Inv) {vecs : List (ℕ × Vec)}
    (hvecs : s.vectors s.taken = some vecs) :
    Inv { s with
      updatedVids := (popUpdated s.deleted s.indexedCount s.updatedVids []).1
      updated := s.updated ++ vecs } where
  count := h.count
  added := h.added
  waiting := fun vid hvid => h.waiting vid (mem_left hvid)
  inStore := h.inStore
  reached := by
    intro vid hvid hdeleted
    show _ ∨ (s.updated ++ vecs).reverse.lookup vid = s.stored[vid]?
    rw [lookup_vectors hvecs]
    by_cases htaken : vid ∈ s.taken
    · exact .inr (if_pos htaken)
    · rw [if_neg htaken]
      refine (h.reached vid hvid hdeleted).imp_left fun hmem => ?_
      exact (taken_or_left hdeleted (.inr hmem)).resolve_left htaken

/-- **The second half of a call** is defined; unless vids are taken and a call fails, it keeps the
invariant, and the queue of indexed vids gets shorter. -/
theorem applyUpdates_spec (o : Outcome) {st : Loop Vec} (h : st.state.Inv) :
    ∃ st', applyUpdates o st = some st' ∧ st'.state.stored = st.state.stored ∧
      st'.state.deleted = st.state.deleted ∧
      st'.state.queued = st.state.queued ∧ st'.state.indexedCount = st.state.indexedCount ∧
      st'.state.updatedVids =
        (popUpdated st.state.deleted st.state.indexedCount st.state.updatedVids []).1 ∧
      ((st.state.taken ≠ [] → o.gets = true ∧ o.update = true) → st'.state.Inv) := by
  have hnone : st.state.vectors [] = some [] := rfl
  rw [applyUpdates]
  dsimp only
  split
  · rename_i htaken
    refine ⟨_, rfl, rfl, rfl, rfl, rfl, rfl, fun _ => ?_⟩
    have hinv := h.take (htaken ▸ hnone)
    rwa [List.append_nil] at hinv
  · rename_i htaken
    split
    · rename_i hgets
      refine ⟨_, rfl, rfl, rfl, rfl, rfl, rfl, fun hok => ?_⟩
      rw [(hok htaken).1] at hgets
      cases hgets
    · obtain ⟨vecs, hvecs⟩ := vectors_isSome st.state st.state.taken fun vid hvid => by
        have hlt := ((Process.mem_popUpdated hvid).resolve_left List.not_mem_nil).2
        exact Nat.lt_of_lt_of_le hlt h.count
      have hvecs' : vectors { st.state with
          updatedVids := (popUpdated st.state.deleted st.state.indexedCount st.state.updatedVids []).1 }
          st.state.taken = some vecs := hvecs
      rw [hvecs', Option.map_some]
      by_cases hupdate : o.update = true
      · rw [if_pos hupdate]
        exact ⟨_, rfl, rfl, rfl, rfl, rfl, rfl, fun _ => h.take hvecs⟩
      · rw [if_neg hupdate]
        exact ⟨_, rfl, rfl, rfl, rfl, rfl, rfl, fun hok => absurd (hok htaken).2 hupdate⟩

/-! ### Steps and runs -/

theorem inv_create (deleted : ℕ → Bool) : (create deleted : IndexState Vec).Inv where
  count := Nat.le_refl 0
  added := rfl
  waiting := fun _ h => absurd h List.not_mem_nil
  inStore := fun _ h => absurd h List.not_mem_nil
  reached := fun _ h => absurd h List.not_mem_nil

theorem Inv.store {s : IndexState Vec} (h : s.Inv) (vec : Vec) :
    Inv { s with stored := s.stored ++ [vec] } where
  count := by
    rw [List.length_append, List.length_singleton]
    exact Nat.le_succ_of_le h.count
  added := h.added
  waiting := h.waiting
  inStore := fun vid hvid => by
    rw [List.length_append, List.length_singleton]
    exact Nat.lt_succ_of_lt (h.inStore vid hvid)
  reached := fun vid hvid hdeleted => by
    rw [List.getElem?_append_left (h.inStore vid hvid)]
    exact h.reached vid hvid hdeleted

theorem Inv.update {s : IndexState Vec} (h : s.Inv) {vid : ℕ} (hvid : vid < s.stored.length) (vec : Vec) :
    Inv { s with
      stored := s.stored.set vid vec
      updatedVids := s.updatedVids ++ [vid]
      queued := s.queued ++ [vid] } where
  count := by
    rw [List.length_set]
    exact h.count
  added := h.added
  waiting := fun v hv => by
    rw [List.mem_append] at hv ⊢
    exact hv.imp_left (h.waiting v)
  inStore := fun v hv => by
    rw [List.length_set]
    rcases List.mem_append.mp hv with hv | hv
    · exact h.inStore v hv
    · rw [List.mem_singleton.mp hv]
      exact hvid
  reached := fun v hv hdeleted => by
    by_cases heq : v = vid
    · rw [heq]
      exact .inl (List.mem_append_right _ (List.mem_singleton_self vid))
    · have hold := (List.mem_append.mp hv).resolve_right fun hno => heq (List.mem_singleton.mp hno)
      rw [List.getElem?_set_ne (Ne.symm heq)]
      exact (h.reached v hold hdeleted).imp_left (List.mem_append_left [vid])

/-- A call is defined, and keeps the invariant if it delivers what it takes. -/
theorem Inv.call {s : IndexState Vec} (h : s.Inv) (o : Outcome) :
    ∃ st, s.addRTVecsToIndex o = some st ∧ st.state.stored = s.stored ∧
      st.state.deleted = s.deleted ∧ st.state.queued = s.queued ∧
      ((∀ i, o.add i = true) → st.state.indexedCount = s.stored.length ∧
        st.state.updatedVids.length ≤ s.updatedVids.length - 20000) ∧
      (Delivers (.addRTVecs o) s → st.state.Inv) := by
  obtain ⟨st, hst, hinv, hsame, hall⟩ := addNewVecs_spec o h
  obtain ⟨st', hst', hstored, hdeleted, hqueued, hcount, hqueue, hkeep⟩ := applyUpdates_spec o hinv
  have hfields : st.state.stored = s.stored ∧ st.state.deleted = s.deleted ∧
      st.state.queued = s.queued ∧ st.state.updatedVids = s.updatedVids := by
    rw [hsame]
    exact ⟨rfl, rfl, rfl, rfl⟩
  refine ⟨st', by rw [addRTVecsToIndex, hst, Option.bind_some, hst'], hstored.trans hfields.1,
    hdeleted.trans hfields.2.1, hqueued.trans hfields.2.2.1, fun hadd => ?_, fun hok => ?_⟩
  · have hindexed := hall hadd
    refine ⟨hcount.trans hindexed, ?_⟩
    rw [hqueue, ← hfields.2.2.2]
    refine length_left fun v hv => ?_
    rw [hindexed, ← hfields.1]
    exact hinv.inStore v (hinv.waiting v hv)
  · exact hkeep (hok st hst)

/-- **Every step** is defined, and keeps the invariant unless it takes vids and fails. -/
theorem Inv.step {s : IndexState Vec} (h : s.Inv) (op : Op Vec) :
    ∃ s', step op s = some s' ∧ (Delivers op s → s'.Inv) ∧ s'.deleted = s.deleted := by
  cases op with
  | store vec => exact ⟨_, rfl, fun _ => h.store vec, rfl⟩
  | update vid vec =>
    rw [IndexState.step]
    split
    · exact ⟨s, rfl, fun _ => h, rfl⟩
    · rename_i hvid
      exact ⟨_, rfl, fun _ => h.update (Nat.not_le.mp hvid) vec, rfl⟩
  | addRTVecs o =>
    obtain ⟨st, hst, -, hdeleted, -, -, hkeep⟩ := h.call o
    exact ⟨st.state, by rw [IndexState.step, hst]; rfl, hkeep, hdeleted⟩

/-- A call without failures. -/
def succeeds : Outcome := ⟨fun _ => true, true, true⟩

/-- Calls without failures index what is stored, and empty the queue by 20000 vids each. -/
theorem Inv.drain {s : IndexState Vec} (h : s.Inv) (calls : ℕ) :
    ∃ s', Lib.runOps IndexState.step (List.replicate calls (.addRTVecs succeeds)) s = some s' ∧ s'.Inv ∧
      s'.stored = s.stored ∧ s'.deleted = s.deleted ∧ s'.queued = s.queued ∧
      (0 < calls → s'.indexedCount = s.stored.length) ∧
      s'.updatedVids.length ≤ s.updatedVids.length - calls * 20000 := by
  induction calls generalizing s with
  | zero =>
    refine ⟨s, rfl, h, rfl, rfl, rfl, fun hno => absurd hno (Nat.lt_irrefl 0), ?_⟩
    rw [Nat.zero_mul]
    exact Nat.le_refl _
  | succ calls ih =>
    obtain ⟨st, hst, hstored, hdeleted, hqueued, hall, hkeep⟩ := h.call succeeds
    obtain ⟨hcount, hqueue⟩ := hall fun _ => rfl
    obtain ⟨s', hrun, hinv, hstored', hdeleted', hqueued', hcount', hqueue'⟩ :=
      ih (hkeep fun _ _ _ => ⟨rfl, rfl⟩)
    refine ⟨s', ?_, hinv, hstored'.trans hstored, hdeleted'.trans hdeleted, hqueued'.trans hqueued,
      fun _ => ?_, ?_⟩
    · rw [List.replicate_succ, Lib.runOps_cons, IndexState.step, hst, Option.map_some, Option.bind_some,
        hrun]
    · cases calls with
      | zero =>
        obtain rfl := Option.some.inj hrun
        exact hcount
      | succ calls =>
        rw [hcount' (Nat.succ_pos calls), hstored]
    · rw [Nat.succ_mul, Nat.add_comm, ← Nat.sub_sub]
      exact Nat.le_trans hqueue' (Nat.sub_le_sub_right hqueue _)

/-- **Every stored vector and every update reach the index.** In a run whose calls deliver what they take
from the queue, the invariant holds in every state; and after enough calls without failures all stored
vectors were added once, in order, and the last update of each queued vid had its newest vector. -/
theorem all_indexed (deleted : ℕ → Bool) {ops : List (Op Vec)}
    (hops : Lib.Guarded step Delivers ops (create deleted)) :
    Lib.Always step Inv ops (create deleted) ∧
    ∃ s, Lib.runOps step ops (create deleted) = some s ∧
      ∀ calls, 0 < calls → s.updatedVids.length ≤ calls * 20000 →
        ∃ s', Lib.runOps step (List.replicate calls (.addRTVecs succeeds)) s = some s' ∧
          s'.added.map Prod.fst = List.range s.stored.length ∧
          ∀ vid ∈ s.queued, s.deleted vid = false → s'.lastUpdate vid = s.stored[vid]? := by
  obtain ⟨⟨s, hs⟩, halways⟩ := Lib.always_of_guarded (P := Inv) (fun op s h hguard => by
    obtain ⟨s', hs', hkeep, -⟩ := h.step op
    exact ⟨s', hs', hkeep hguard⟩) (inv_create deleted) hops
  refine ⟨halways, s, hs, fun calls hcalls hqueue => ?_⟩
  obtain ⟨s', hrun, hinv, hstored, hdeleted, hqueued, hcount, hleft⟩ := (halways.last hs).drain calls
  refine ⟨s', hrun, by rw [hinv.added, hcount hcalls], fun vid hvid hlive => ?_⟩
  have hempty : s'.updatedVids = [] := by
    rw [Nat.sub_eq_zero_of_le hqueue] at hleft
    exact List.length_eq_zero_iff.mp (Nat.le_zero.mp hleft)
  have hreached := hinv.reached vid (hqueued ▸ hvid) (hdeleted ▸ hlive)
  rw [hempty, hstored] at hreached
  exact hreached.resolve_left List.not_mem_nil

/-! One vector that is updated. -/

/-- A store, a call whose first `Add` fails, an update, and the call `o`. -/
def updateRun (o : Outcome) : List (Op ℕ) :=
  [.store 5, .addRTVecs ⟨fun _ => false, true, true⟩, .addRTVecs succeeds, .update 0 7, .addRTVecs o]

theorem all_indexed_update : ∃ s s', Lib.runOps step (updateRun succeeds) (create fun _ => false) = some s ∧
    Lib.runOps step (List.replicate 1 (.addRTVecs succeeds)) s = some s' ∧
    s'.added.map Prod.fst = [0] ∧ s'.lastUpdate 0 = some 7 := by
  have hguard : Lib.Guarded step Delivers (updateRun succeeds) (create fun _ => false) :=
    ⟨trivial, fun _ _ => ⟨fun _ _ _ => ⟨rfl, rfl⟩, fun _ _ => ⟨fun _ _ _ => ⟨rfl, rfl⟩,
      fun _ _ => ⟨trivial, fun _ _ => ⟨fun _ _ _ => ⟨rfl, rfl⟩, fun _ _ => trivial⟩⟩⟩⟩⟩
  obtain ⟨-, s, hs, hcalls⟩ := all_indexed (fun _ => false) hguard
  have hrun : Lib.runOps step (updateRun succeeds) (create fun _ => false) =
      some ⟨[7], 1, [], fun _ => false, [(0, 5)], [(0, 7)], [0]⟩ := rfl
  obtain rfl := Option.some.inj (hs.symm.trans hrun)
  obtain ⟨s', hs', hadded, hlast⟩ := hcalls 1 (by decide) (by decide)
  exact ⟨_, s', hs, hs', hadded, hlast 0 (by decide) rfl⟩

/-- **An update that fails is lost**: no number of calls without failures hands the vid on again. -/
theorem update_lost : ∃ s, Lib.runOps step (updateRun ⟨fun _ => true, true, false⟩)
      (create fun _ => false) = some s ∧ 0 ∈ s.queued ∧ s.deleted 0 = false ∧
    ∀ calls s', Lib.runOps step (List.replicate calls (.addRTVecs succeeds)) s = some s' →
      s'.lastUpdate 0 ≠ s'.stored[0]? := by
  have hrun : Lib.runOps step (updateRun ⟨fun _ => true, true, false⟩) (create fun _ => false) =
      some ⟨[7], 1, [], fun _ => false, [(0, 5)], [], [0]⟩ := rfl
  refine ⟨_, hrun, by decide, rfl, fun calls s' hcalls => ?_⟩
  -- nothing is left to do
  have hsame : s' = ⟨[7], 1, [], fun _ => false, [(0, 5)], [], [0]⟩ := by
    induction calls with
    | zero => exact (Option.some.inj hcalls).symm
    | succ calls ih =>
      rw [List.replicate_succ, Lib.runOps_cons] at hcalls
      exact ih hcalls
  rw [hsame]
  exact fun hno => by cases hno

end IndexState

end AwaDB.Vector
