import AwaDB.Index.IVFPQ
import AwaDB.Lib.Run

/-!
# Indexing the stored vectors (`VectorManager::AddRTVecsToIndex` in `vector/vector_manager.cc`)

`AddRTVecsToIndex` hands the vectors that are stored and not yet indexed to the index in batches of
1000, the last one being whatever is left. After a batch that failed the next one starts again at
`indexed_count_`, so that a failed batch is retried within the call, and by the calls that follow.

* `OnceEach`: the vectors from `start` on that have been indexed have one unmasked slot each, and
  the others none;
* `onceEach_iff_allOrNothing`: when the retries have succeeded this holds exactly when every batch
  on the way found room in all of its buckets or none in the lowest one.
-/

namespace AwaDB.Vector

open Realtime Realtime.RealTimeMemData Index

/-- `MAX_NUM_PER_INDEX`. -/
def maxNumPerIndex : ℕ := 1000

/-- A `RetrievalModel` with its index, and the vectors of the `RawVector` it indexes. -/
structure RetrievalModel (nlist : ℕ) (Vec Code : Type) where
  index : GammaIVFPQIndex nlist Code
  indexedCount : ℕ
  updatedVids : List ℕ
  stored : List Vec

namespace RetrievalModel

variable {nlist : ℕ} {Vec Code : Type}

/-! ### Adding the new vectors -/

/-- The variables of the `for` loop. -/
structure Loop (nlist : ℕ) (Vec Code : Type) where
  model : RetrievalModel nlist Vec Code
  ret : ℤ
  indexIsDirty : Bool

/-- `count_per_index`: `MAX_NUM_PER_INDEX`, or what is left of `total` in the last round. -/
def countPerIndex (total : ℕ) (last : Bool) (x : RetrievalModel nlist Vec Code) : ℕ :=
  if last then total - x.indexedCount else maxNumPerIndex

/-- The vectors of a round. -/
def chunk (total : ℕ) (last : Bool) (x : RetrievalModel nlist Vec Code) : List Vec :=
  (x.stored.drop x.indexedCount).take (x.countPerIndex total last)

section Add

variable [NeZero nlist] [Inhabited Code] (F : FloatOps) (q : Quantizer nlist Vec Code)

/-- One round of the loop: whether it is the last, and how its allocations end. The `break` on an
empty round can only be taken in the last one. -/
def addChunk (total : ℕ) (round : Bool × (Fin nlist → Alloc)) (st : Loop nlist Vec Code) :
    Option (Loop nlist Vec Code) :=
  let vecs := st.model.chunk total round.1
  if vecs.length ≠ st.model.countPerIndex total round.1 then none
  else if vecs = [] then some st
  else
    match st.model.index.add F q vecs round.2 with
    | none => none
    | some (index, false) => some { st with model := { st.model with index := index }, ret := -2 }
    | some (index, true) =>
      some { st with
        model := { st.model with
          index := index
          indexedCount := st.model.indexedCount + vecs.length }
        indexIsDirty := true }

/-- The rounds of the loop: `(total - indexed) / MAX_NUM_PER_INDEX + 1` of them. -/
def rounds (as : ℕ → Fin nlist → Alloc) (x : RetrievalModel nlist Vec Code) :
    List (Bool × (Fin nlist → Alloc)) :=
  let indexCount := (x.stored.length - x.indexedCount) / maxNumPerIndex + 1
  (List.range indexCount).map fun i => (i == indexCount - 1, as i)

/-- The first half of `AddRTVecsToIndex`. -/
def addNewVecs (as : ℕ → Fin nlist → Alloc) (x : RetrievalModel nlist Vec Code) :
    Option (Loop nlist Vec Code) :=
  if x.indexedCount > x.stored.length then some ⟨x, -1, false⟩
  else if x.indexedCount = x.stored.length then some ⟨x, 0, false⟩
  else
    (Lib.runOps (addChunk F q x.stored.length) (x.rounds as) ⟨x, 0, false⟩).map fun st =>
      if st.ret = 0 then { st with ret := x.stored.length - x.indexedCount } else st

end Add

/-! ### Updating the changed vectors -/

/-- The `while` loop over `updated_vids_`: what is left of the queue, and the vectors to update. -/
def popUpdated (deleted : ℕ → Bool) (indexedCount : ℕ) : List ℕ → List ℕ → List ℕ × List ℕ
  | [], vids => ([], vids)
  | vid :: queue, vids =>
    if deleted vid then popUpdated deleted indexedCount queue vids
    else if vid ≥ indexedCount then (queue ++ [vid], vids)
    else if vids.length + 1 ≥ 20000 then (queue, vids ++ [vid])
    else popUpdated deleted indexedCount queue (vids ++ [vid])

section Call

variable [NeZero nlist] [Inhabited Code] (F : FloatOps) (q : Quantizer nlist Vec Code)

/-- The second half of `AddRTVecsToIndex`; `Gets` fails on an id that is not stored. -/
def applyUpdates (aus : ℕ → Alloc) (ac : Fin nlist → Alloc) (st : Loop nlist Vec Code) :
    Option (Loop nlist Vec Code) :=
  let x := st.model
  let popped := popUpdated x.index.rt.isDeleted x.indexedCount x.updatedVids []
  let x := { x with updatedVids := popped.1 }
  if popped.2 = [] then some { st with model := x }
  else
    match popped.2.mapM fun vid => x.stored[vid]? with
    | none => some { st with model := x, ret := -3 }
    | some vecs => (x.index.update F q (popped.2.zip vecs) aus ac).map fun index =>
        { st with model := { x with index := index }, indexIsDirty := true }

/-- How the allocations of one call end: in its rounds, its updates and its compaction. -/
structure CallAllocs (nlist : ℕ) where
  rounds : ℕ → Fin nlist → Alloc
  updates : ℕ → Alloc
  compact : Fin nlist → Alloc

/-- `VectorManager::AddRTVecsToIndex` for one index. -/
def addRTVecsToIndex (as : CallAllocs nlist) (x : RetrievalModel nlist Vec Code) :
    Option (Loop nlist Vec Code) :=
  (x.addNewVecs F q as.rounds).bind (applyUpdates F q as.updates as.compact)

end Call

/-! ### Retrying until everything is indexed -/

/-- What happens while a batch is retried: calls of `AddRTVecsToIndex`, more vectors stored, and
documents deleted. -/
inductive Op (nlist : ℕ) (Vec : Type) where
  | addRTVecs (as : CallAllocs nlist)
  | store (vec : Vec)
  | setBit (docid : ℕ)
  | delete (vids : List ℕ)

/-- The vectors from `start` on: those that are indexed have one unmasked slot, the others none. -/
def OnceEach (start : ℕ) (x : RetrievalModel nlist Vec Code) : Prop :=
  ∀ v, start ≤ v → x.index.rt.slotCount v = if v < x.indexedCount then 1 else 0

/-- The batch has not been touched: both counters agree on where it starts, no vid from there on
has a slot, and no vid waits for an update. -/
structure Untouched (x : RetrievalModel nlist Vec Code) : Prop where
  counters_eq : x.index.indexedVecCount = x.indexedCount
  count_le : x.indexedCount ≤ x.stored.length
  noSlot : ∀ v, x.indexedCount ≤ v → x.index.rt.slotCount v = 0
  noUpdate : x.updatedVids = []

/-- What holds throughout, failures or not: no vector is lost, and none that is not stored is
indexed. -/
structure NoneLost (start : ℕ) (x : RetrievalModel nlist Vec Code) : Prop where
  counters_eq : x.index.indexedVecCount = x.indexedCount
  start_le : start ≤ x.indexedCount
  count_le : x.indexedCount ≤ x.stored.length
  noUpdate : x.updatedVids = []
  slot_of_indexed : ∀ v, start ≤ v → v < x.indexedCount → 1 ≤ x.index.rt.slotCount v
  stored_of_slot : ∀ v, start ≤ v → x.index.rt.slotCount v ≠ 0 → v < x.stored.length

theorem Untouched.noneLost {x : RetrievalModel nlist Vec Code} (h : x.Untouched) :
    x.NoneLost x.indexedCount where
  counters_eq := h.counters_eq
  start_le := Nat.le_refl _
  count_le := h.count_le
  noUpdate := h.noUpdate
  slot_of_indexed _ hle hlt := absurd hle (Nat.not_le.mpr hlt)
  stored_of_slot v hle hv := absurd (h.noSlot v hle) hv

theorem Untouched.onceEach {x : RetrievalModel nlist Vec Code} (h : x.Untouched) :
    x.OnceEach x.indexedCount := by
  intro v hv
  rw [h.noSlot v hv, if_neg (Nat.not_lt.mpr hv)]

theorem chunk_length_le (total : ℕ) (last : Bool) {x : RetrievalModel nlist Vec Code}
    (h : x.indexedCount ≤ x.stored.length) :
    x.indexedCount + (x.chunk total last).length ≤ x.stored.length := by
  have hle : (x.chunk total last).length ≤ x.stored.length - x.indexedCount := by
    rw [chunk, List.length_take, List.length_drop]
    exact Nat.min_le_right _ _
  omega

/-- What a step does to the count of slots: it loses nothing, it can only destroy `OnceEach`, and it
keeps it exactly when it meets its guard. -/
structure Progress (start : ℕ) (guard : Prop) (x x' : RetrievalModel nlist Vec Code) : Prop where
  noneLost : x'.NoneLost start
  onceEach_of : x'.OnceEach start → x.OnceEach start
  onceEach_iff : x.OnceEach start → (x'.OnceEach start ↔ guard)

/-- A step that leaves the slots and both counters. -/
theorem progress_of_eq {start : ℕ} {x x' : RetrievalModel nlist Vec Code} (h : x.NoneLost start)
    (hslots : ∀ v, x'.index.rt.slotCount v = x.index.rt.slotCount v)
    (hcount : x'.index.indexedVecCount = x.index.indexedVecCount)
    (hindexed : x'.indexedCount = x.indexedCount) (hupd : x'.updatedVids = x.updatedVids)
    (hstored : x.stored.length ≤ x'.stored.length) : Progress start True x x' := by
  have honce : x'.OnceEach start ↔ x.OnceEach start := by
    unfold OnceEach
    rw [hindexed]
    simp only [hslots]
  refine ⟨⟨?_, ?_, ?_, ?_, ?_, ?_⟩, honce.mp, fun h => iff_of_true (honce.mpr h) trivial⟩
  · rw [hcount, hindexed, h.counters_eq]
  · rw [hindexed]; exact h.start_le
  · rw [hindexed]; exact Nat.le_trans h.count_le hstored
  · rw [hupd]; exact h.noUpdate
  · intro v hv hlt
    rw [hslots]
    exact h.slot_of_indexed v hv (by rw [← hindexed]; exact hlt)
  · intro v hv hne
    exact Nat.lt_of_lt_of_le (h.stored_of_slot v hv (by rw [← hslots]; exact hne)) hstored

theorem applyUpdates_of_nil [Inhabited Code] {F : FloatOps} {q : Quantizer nlist Vec Code}
    (aus : ℕ → Alloc) (ac : Fin nlist → Alloc) {st : Loop nlist Vec Code}
    (h : st.model.updatedVids = []) : applyUpdates F q aus ac st = some st := by
  obtain ⟨⟨index, count, updated, stored⟩, ret, dirty⟩ := st
  cases h
  rfl

section Retry

variable [NeZero nlist] [Inhabited Code] (F : FloatOps) (q : Quantizer nlist Vec Code)

/-- One step of the retries. -/
def stepOp : Op nlist Vec → RetrievalModel nlist Vec Code → Option (RetrievalModel nlist Vec Code)
  | .addRTVecs as, x => (x.addRTVecsToIndex F q as).map Loop.model
  | .store vec, x => some { x with stored := x.stored ++ [vec] }
  | .setBit docid, x =>
    let rt := { x.index.rt with docidsBitmap := x.index.rt.docidsBitmap.set docid }
    some { x with index := { x.index with rt := rt } }
  | .delete vids, x => some { x with index := { x.index with rt := x.index.rt.delete vids } }

/-- The guard of a round: its batch finds room in every bucket it goes to, or none in the lowest
of them. -/
def roundGuard (total : ℕ) (round : Bool × (Fin nlist → Alloc)) (st : Loop nlist Vec Code) : Prop :=
  GammaIVFPQIndex.AllOrNothing F q (st.model.chunk total round.1) round.2 st.model.index

/-- The guard of a step: every round of a call meets its own. -/
def allOrNothing : Op nlist Vec → RetrievalModel nlist Vec Code → Prop
  | .addRTVecs as, x => x.indexedCount < x.stored.length →
    Lib.EachStep (addChunk F q x.stored.length) (roundGuard F q x.stored.length)
      (x.rounds as.rounds) ⟨x, 0, false⟩
  | _, _ => True

variable {F q}

/-- A batch that fails is counted on top of what is there. -/
theorem progress_of_failed {start : ℕ} {x : RetrievalModel nlist Vec Code} (h : x.NoneLost start)
    {vecs : List Vec} {a : Fin nlist → Alloc} {index : GammaIVFPQIndex nlist Code}
    (hlen : x.indexedCount + vecs.length ≤ x.stored.length)
    (hadd : x.index.add F q vecs a = some (index, false)) :
    Progress start (x.index.AllOrNothing F q vecs a) x { x with index := index } := by
  obtain ⟨hcount, extra, hslots, hextra, hnothing⟩ := GammaIVFPQIndex.add_failed hadd
  rw [h.counters_eq] at hextra
  refine ⟨⟨hcount.trans h.counters_eq, h.start_le, h.count_le, h.noUpdate, ?_, ?_⟩, ?_, ?_⟩
  · intro v hv hlt
    have hone := h.slot_of_indexed v hv hlt
    rw [hslots]
    omega
  · intro v hv hne
    rw [hslots] at hne
    by_cases hextra0 : extra v = 0
    · exact h.stored_of_slot v hv (by omega)
    · exact Nat.lt_of_lt_of_le (hextra v hextra0).2 hlen
  · intro honce v hv
    have hnew : index.rt.slotCount v = if v < x.indexedCount then 1 else 0 := honce v hv
    rw [hslots] at hnew
    split
    · next hlt =>
      have hone := h.slot_of_indexed v hv hlt
      rw [if_pos hlt] at hnew
      omega
    · next hlt =>
      rw [if_neg hlt] at hnew
      omega
  · intro honce
    rw [← hnothing]
    constructor
    · intro honce' v
      by_contra hne
      have hv : start ≤ v := Nat.le_trans h.start_le (hextra v hne).1
      have hnew : index.rt.slotCount v = if v < x.indexedCount then 1 else 0 := honce' v hv
      rw [hslots, honce v hv] at hnew
      omega
    · intro hzero v hv
      show index.rt.slotCount v = _
      rw [hslots, hzero, Nat.add_zero]
      exact honce v hv

/-- A batch that is taken moves both counters past it. -/
theorem progress_of_ok {start : ℕ} {x : RetrievalModel nlist Vec Code} (h : x.NoneLost start)
    {vecs : List Vec} {a : Fin nlist → Alloc} {index : GammaIVFPQIndex nlist Code}
    (hlen : x.indexedCount + vecs.length ≤ x.stored.length)
    (hadd : x.index.add F q vecs a = some (index, true)) :
    Progress start (x.index.AllOrNothing F q vecs a) x
      { x with index := index, indexedCount := x.indexedCount + vecs.length } := by
  obtain ⟨hcount, hguard, hslots⟩ := GammaIVFPQIndex.add_ok hadd
  rw [h.counters_eq] at hslots hcount
  refine ⟨⟨hcount, Nat.le_trans h.start_le (Nat.le_add_right _ _), hlen, h.noUpdate, ?_, ?_⟩, ?_, ?_⟩
  · intro v hv hlt
    have hlt : v < x.indexedCount + vecs.length := hlt
    rw [hslots]
    by_cases hold : v < x.indexedCount
    · exact Nat.le_trans (h.slot_of_indexed v hv hold) (Nat.le_add_right _ _)
    · rw [if_pos ⟨Nat.not_lt.mp hold, hlt⟩]
      exact Nat.le_add_left _ _
  · intro v hv hne
    rw [hslots] at hne
    show v < x.stored.length
    by_cases hold : x.index.rt.slotCount v = 0
    · split at hne <;> omega
    · exact h.stored_of_slot v hv hold
  · intro honce v hv
    have hnew : index.rt.slotCount v = if v < x.indexedCount + vecs.length then 1 else 0 :=
      honce v hv
    rw [hslots] at hnew
    split at hnew <;> split at hnew <;> split <;> omega
  · intro honce
    refine iff_of_true (fun v hv => ?_) hguard
    show index.rt.slotCount v = if v < x.indexedCount + vecs.length then 1 else 0
    rw [hslots, honce v hv]
    split <;> split <;> split <;> omega

/-- **One round.** -/
theorem addChunk_progress {start total : ℕ} {round : Bool × (Fin nlist → Alloc)}
    {st st' : Loop nlist Vec Code} (h : st.model.NoneLost start)
    (hstep : addChunk F q total round st = some st') :
    Progress start (roundGuard F q total round st) st.model st'.model := by
  have hlen := chunk_length_le total round.1 h.count_le
  unfold addChunk at hstep
  dsimp only at hstep
  split at hstep
  · cases hstep
  · split at hstep
    · next hnil =>
      cases hstep
      refine ⟨h, id, fun honce => iff_of_true honce ?_⟩
      unfold roundGuard
      rw [hnil]
      exact .inl fun b keys hk => by cases hk
    · split at hstep
      · cases hstep
      · next index hadd => cases hstep; exact progress_of_failed h hlen hadd
      · next index hadd => cases hstep; exact progress_of_ok h hlen hadd

/-- **A run of rounds** makes progress as a single one does. -/
theorem rounds_progress {start total : ℕ} {rs : List (Bool × (Fin nlist → Alloc))}
    {st st' : Loop nlist Vec Code} (h : st.model.NoneLost start)
    (hrun : Lib.runOps (addChunk F q total) rs st = some st') :
    Progress start (Lib.EachStep (addChunk F q total) (roundGuard F q total) rs st)
      st.model st'.model := by
  have haux : ∀ (r : Bool × (Fin nlist → Alloc)) (s s' : Loop nlist Vec Code),
      s.model.NoneLost start → addChunk F q total r s = some s' → s'.model.NoneLost start :=
    fun r s s' hs hstep => (addChunk_progress hs hstep).noneLost
  have hlast := Lib.always_iff_last haux
    (fun r s s' hs hstep => (addChunk_progress hs hstep).onceEach_of) h hrun
  refine ⟨Lib.runOps_invariant (fun r s s' hs => haux r s s' hs) h hrun, ?_, ?_⟩
  · exact fun honce => (hlast.mpr honce).here
  · intro honce
    rw [← hlast]
    exact Lib.always_iff_guard haux
      (fun r s s' hs honce hstep => (addChunk_progress hs hstep).onceEach_iff honce) h honce

/-- **One step of the retries.** -/
theorem step_progress {start : ℕ} (o : Op nlist Vec) {x x' : RetrievalModel nlist Vec Code}
    (h : x.NoneLost start) (hstep : stepOp F q o x = some x') :
    Progress start (allOrNothing F q o x) x x' := by
  cases o with
  | addRTVecs as =>
    obtain ⟨st, hcall, rfl⟩ := Option.map_eq_some_iff.mp hstep
    obtain ⟨st₁, hnew, hupd⟩ := Option.bind_eq_some_iff.mp hcall
    have hprog : Progress start (allOrNothing F q (.addRTVecs as) x) x st₁.model := by
      unfold addNewVecs at hnew
      rw [if_neg (Nat.not_lt.mpr h.count_le)] at hnew
      split at hnew
      · next heq =>
        cases hnew
        exact ⟨h, id, fun honce => iff_of_true honce fun hlt => absurd heq (Nat.ne_of_lt hlt)⟩
      · next hne =>
        obtain ⟨st₂, hrun, heq⟩ := Option.map_eq_some_iff.mp hnew
        have hmodel : st₁.model = st₂.model := by rw [← heq]; split <;> rfl
        have hprog := rounds_progress h hrun
        rw [hmodel]
        refine ⟨hprog.noneLost, hprog.onceEach_of, fun honce => ?_⟩
        rw [hprog.onceEach_iff honce]
        have hlt : x.indexedCount < x.stored.length := Nat.lt_of_le_of_ne h.count_le hne
        exact ⟨fun hg _ => hg, fun hg => hg hlt⟩
    rw [applyUpdates_of_nil _ _ hprog.noneLost.noUpdate] at hupd
    cases hupd
    exact hprog
  | store vec =>
    cases hstep
    exact progress_of_eq h (fun _ => rfl) rfl rfl rfl (by rw [List.length_append]; omega)
  | setBit docid =>
    cases hstep
    exact progress_of_eq h (fun _ => rfl) rfl rfl rfl (Nat.le_refl _)
  | delete vids =>
    cases hstep
    exact progress_of_eq h (slotCount_of_sameSlots (delete_sameSlots vids x.index.rt)) rfl rfl rfl
      (Nat.le_refl _)

/-- **When a failed batch can be retried.** Take any number of calls of `AddRTVecsToIndex`, some of
them failing, with vectors stored and documents deleted in between, after which every stored vector
is indexed. Each vector that was new has exactly one unmasked slot if and only if every batch on the
way found room in all of its buckets or none in the lowest one. -/
theorem onceEach_iff_allOrNothing (F : FloatOps) (q : Quantizer nlist Vec Code)
    (ops : List (Op nlist Vec)) (x y : RetrievalModel nlist Vec Code) (hx : x.Untouched)
    (hrun : Lib.runOps (stepOp F q) ops x = some y) (hdone : y.indexedCount = y.stored.length) :
    (∀ v, x.indexedCount ≤ v → v < y.stored.length → y.index.rt.slotCount v = 1) ↔
      Lib.EachStep (stepOp F q) (allOrNothing F q) ops x := by
  have haux : ∀ (o : Op nlist Vec) (s s' : RetrievalModel nlist Vec Code),
      s.NoneLost x.indexedCount → stepOp F q o s = some s' → s'.NoneLost x.indexedCount :=
    fun o s s' hs hstep => (step_progress o hs hstep).noneLost
  have hy := Lib.runOps_invariant (fun o s s' hs => haux o s s' hs) hx.noneLost hrun
  have hend : (∀ v, x.indexedCount ≤ v → v < y.stored.length → y.index.rt.slotCount v = 1) ↔
      y.OnceEach x.indexedCount := by
    constructor
    · intro hone v hv
      rw [hdone]
      split
      · next hlt => exact hone v hv hlt
      · next hge =>
        by_contra hne
        exact hge (hy.stored_of_slot v hv hne)
    · intro honce v hv hlt
      rw [honce v hv, if_pos (by omega)]
  rw [hend, ← Lib.always_iff_last haux
    (fun o s s' hs hstep => (step_progress o hs hstep).onceEach_of) hx.noneLost hrun]
  exact Lib.always_iff_guard haux
    (fun o s s' hs honce hstep => (step_progress o hs hstep).onceEach_iff honce) hx.noneLost
    hx.onceEach

end Retry

/-- A quantizer that sends even vectors to bucket `0` and odd ones to bucket `1`. -/
def parity : Quantizer 2 ℕ ℕ where
  assign v := some (Fin.ofNat 2 v)
  encode v _ := v

/-- Three vectors to index into two empty buckets of one slot: one goes to the first bucket, and
the other two to the second, which has to grow. -/
def threeVecs : RetrievalModel 2 ℕ ℕ where
  index := { rt := init 1 1000 one_lt_maxSlots (.init 16) (.init false 0), indexedVecCount := 0 }
  indexedCount := 0
  updatedVids := []
  stored := [70, 71, 73]

theorem threeVecs_untouched : threeVecs.Untouched := by
  refine ⟨rfl, by decide, fun v _ => ?_, rfl⟩
  simp [threeVecs, slotCount, entries, init]

/-- A call in which the second bucket cannot get memory for its codes, and one in which it can. -/
def failThenSucceed : List (Op 2 ℕ) :=
  [.addRTVecs ⟨fun _ b => if b = 1 then .noCodes else .ok, fun _ => .ok, fun _ => .ok⟩,
    .addRTVecs ⟨fun _ _ => .ok, fun _ => .ok, fun _ => .ok⟩]

/-- The index after both calls. -/
def afterRetry : RetrievalModel 2 ℕ ℕ :=
  (Lib.runOps (stepOp FloatOps.rational parity) failThenSucceed threeVecs).getD threeVecs

set_option maxRecDepth 4000 in
/-- The first call fails after the first bucket has taken its vector, and the second call starts the
batch again: vector `0` is there twice. -/
theorem retry_duplicates :
    Lib.runOps (stepOp FloatOps.rational parity) failThenSucceed threeVecs = some afterRetry ∧
      afterRetry.indexedCount = afterRetry.stored.length ∧
      afterRetry.index.rt.entries 0 = [(0#64, 70), (0#64, 70)] ∧
      afterRetry.index.rt.entries 1 = [(1#64, 71), (2#64, 73)] ∧
      afterRetry.index.rt.slotCount 0 = 2 :=
  ⟨rfl, rfl, rfl, rfl, rfl⟩

set_option maxRecDepth 4000 in
/-- So the first call breaks the guard. -/
theorem onceEach_iff_allOrNothing_retry :
    ¬Lib.EachStep (stepOp FloatOps.rational parity) (allOrNothing FloatOps.rational parity)
      failThenSucceed threeVecs := by
  intro hguard
  have hone := (onceEach_iff_allOrNothing FloatOps.rational parity failThenSucceed threeVecs
    afterRetry threeVecs_untouched rfl rfl).mpr hguard 0 (Nat.le_refl _) (by decide)
  have htwo : afterRetry.index.rt.slotCount 0 = 2 := rfl
  omega

end RetrievalModel

end AwaDB.Vector
