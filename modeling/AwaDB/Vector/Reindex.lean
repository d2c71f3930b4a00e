import AwaDB.Index.BatchInv
import AwaDB.Index.RoundTrip
import AwaDB.Vector.AddRTVecs

/-!
# The index after a restart (`VectorManager::Update`, `VectorManager::Dump`, `VectorManager::Load`)

An update reaches the vector file at once and the index through `updated_vids_`, which
`AddRTVecsToIndex` drains. The queue is not dumped: a loaded index has the codes of the vectors it
was handed before the dump, and nothing is queued.

* `Tracked`: the index holds the codes of the vectors it was last handed, and so does the dumped one;
* `encodes_load_iff`: a loaded index encodes the stored vectors exactly when each vid it counts was
  handed over before the dump, with a vector of the bucket and code of the one that is stored now.
-/

namespace AwaDB.Vector

open Realtime Realtime.RealTimeMemData Index GammaIVFPQIndex

/-- The inverted lists hold one code for the vector, in one bucket. -/
def HoldsCode {n : ℕ} {Code : Type} (s : RealTimeMemData n Code) (v : ℕ) (place : Fin n × Code) :
    Prop :=
  (∃ (p : ℕ) (e : Long × Code), (s.entries place.1)[p]? = some e ∧ isDel e.1 = false ∧
    recoverVid e.1 = v ∧ e.2 = place.2) ∧
  ∀ (b : Fin n) (p : ℕ) (e : Long × Code), (s.entries b)[p]? = some e → isDel e.1 = false →
    recoverVid e.1 = v → b = place.1 ∧ e.2 = place.2

/-- A dump of the index, with the vector that each vid was last handed over with. -/
structure DumpedIndex (nlist cb : ℕ) (Vec : Type) where
  index : GammaIVFPQIndex nlist (CodeBytes cb)
  handed : ℕ → Option Vec

/-- A process with its last dump. `handed` is the vector that each vid was last handed to the index
with. -/
structure Process (nlist cb : ℕ) (Vec : Type) where
  model : RetrievalModel nlist Vec (CodeBytes cb)
  handed : ℕ → Option Vec
  dumped : Option (DumpedIndex nlist cb Vec)

namespace Process

variable {nlist cb : ℕ} {Vec : Type}

/-- What happens until the stop. -/
inductive Op (nlist : ℕ) (Vec : Type) where
  | call (op : RetrievalModel.Op nlist Vec)
  | update (vid : ℕ) (vec : Vec)
  | dump

/-- `VectorManager::Update`: the stored vector changes and the vid is queued. -/
def update (vid : ℕ) (vec : Vec) (x : RetrievalModel nlist Vec (CodeBytes cb)) :
    RetrievalModel nlist Vec (CodeBytes cb) :=
  if x.stored.length ≤ vid then x
  else { x with stored := x.stored.set vid vec, updatedVids := x.updatedVids ++ [vid] }

/-- The vids that one call of `AddRTVecsToIndex` takes off the queue to update them. -/
def taken (x x' : RetrievalModel nlist Vec (CodeBytes cb)) : List ℕ :=
  (RetrievalModel.popUpdated x.index.rt.isDeleted x'.indexedCount x.updatedVids []).2

/-- What has been handed over once a call has turned `x` into `x'`: the vectors that were added, and
those that were updated. -/
def handOver (x x' : RetrievalModel nlist Vec (CodeBytes cb)) (handed : ℕ → Option Vec) :
    ℕ → Option Vec := fun v =>
  if (x.indexedCount ≤ v ∧ v < x'.indexedCount) ∨ v ∈ taken x x' then x.stored[v]? else handed v

/-- A call other than `AddRTVecsToIndex` hands nothing over. -/
def handedAfter :
    RetrievalModel.Op nlist Vec → RetrievalModel nlist Vec (CodeBytes cb) →
      RetrievalModel nlist Vec (CodeBytes cb) → (ℕ → Option Vec) → ℕ → Option Vec
  | .addRTVecs _, x, x', handed => handOver x x' handed
  | _, _, _, handed => handed

/-- A process that has indexed nothing yet. -/
def start (bucketKeys limit : ℕ) (hk : bucketKeys < 2 ^ 31) (docids : BitmapManager)
    (vidMgr : VIDMgr) : Process nlist cb Vec where
  model :=
    { index := ⟨init bucketKeys limit hk docids vidMgr, 0⟩
      indexedCount := 0
      updatedVids := []
      stored := [] }
  handed := fun _ => none
  dumped := none

section Step

variable [NeZero nlist] (F : FloatOps)
  (q : Quantizer nlist Vec (CodeBytes cb))

/-- One step. -/
def step : Op nlist Vec → Process nlist cb Vec → Option (Process nlist cb Vec)
  | .call op, s => (RetrievalModel.stepOp F q op s.model).map fun x =>
      { s with model := x, handed := handedAfter op s.model x s.handed }
  | .update vid vec, s => some { s with model := update vid vec s.model }
  | .dump, s => some { s with dumped := some ⟨s.model.index, s.handed⟩ }

/-- The guard of a step: each batch of a call finds room in every bucket it goes to, or none in the
lowest of them, and each of its updates stays in its bucket or finds room in the new one. -/
def fits : Op nlist Vec → Process nlist cb Vec → Prop
  | .call (.addRTVecs as), s =>
    RetrievalModel.allOrNothing F q (.addRTVecs as) s.model ∧
      ∀ st vecs, RetrievalModel.addNewVecs F q as.rounds s.model = some st →
        (taken st.model st.model).mapM (fun vid => st.model.stored[vid]?) = some vecs →
          UpdatesFit F q as.updates 0 ((taken st.model st.model).zip vecs) st.model.index.rt
  | _, _ => True

end Step

section Load

variable (F : FloatOps) (a : Fin nlist → Alloc)

/-- `VectorManager::Load` in a new process that keeps `num` vectors, with the bitmap that the old one
has written through. Without a dump the index is empty and has to be trained again. -/
def load (bucketKeys limit : ℕ) (hk : bucketKeys < 2 ^ 31) (num : ℕ) (s : Process nlist cb Vec) :
    Option (RetrievalModel nlist Vec (CodeBytes cb)) :=
  let stored := s.model.stored.take num
  let fresh := init bucketKeys limit hk s.model.index.rt.docidsBitmap s.model.index.rt.vidMgr
  match s.dumped with
  | none => some ⟨⟨fresh, 0⟩, 0, [], stored⟩
  | some d =>
    match readInvertedLists F a (writeInvertedLists d.index.rt) fresh 0 with
    | some (st, .ok) =>
      if st.indexedVecCount < 0 ∨ st.indexedVecCount > stored.length then none
      else some ⟨⟨st.data, st.indexedVecCount.toNat⟩, st.indexedVecCount.toNat, [], stored⟩
    | some (st, .formatErr) => some ⟨⟨st.data, 0⟩, 0, [], stored⟩
    | _ => none

end Load

/-- **The property.** For every vid below the indexed count that is not deleted, the code in the
inverted lists is that of the stored vector, or the vid is queued to be indexed again. -/
def Encodes [NeZero nlist] (q : Quantizer nlist Vec (CodeBytes cb)) (deleted : ℕ → Bool)
    (x : RetrievalModel nlist Vec (CodeBytes cb)) : Prop :=
  ∀ v < x.indexedCount, deleted v = false →
    (∃ vec, x.stored[v]? = some vec ∧ HoldsCode x.index.rt v (placeOf q v vec)) ∨
      v ∈ x.updatedVids

/-- The places of the vectors that were handed over. -/
def places [NeZero nlist] (q : Quantizer nlist Vec (CodeBytes cb)) (handed : ℕ → Option Vec) :
    Stored nlist (CodeBytes cb) := fun v => (handed v).map (placeOf q v)

/-- The index holds what it was handed, and the dumped one what it had been handed by then. -/
structure Tracked [NeZero nlist] (q : Quantizer nlist Vec (CodeBytes cb))
    (s : Process nlist cb Vec) : Prop where
  inv : Inv s.model.index.rt (places q s.handed)
  counters_eq : s.model.index.indexedVecCount = s.model.indexedCount
  count_le : s.model.indexedCount ≤ s.model.stored.length
  handed_iff : ∀ v, (s.handed v).isSome ↔ v < s.model.indexedCount
  dumped : ∀ d, s.dumped = some d → Inv d.index.rt (places q d.handed) ∧
    ∀ v, d.index.rt.isDeleted v = true → s.model.index.rt.isDeleted v = true

/-! ### The rounds of a call -/

/-- What the rounds of a call have done to `x`. -/
structure Indexed [NeZero nlist] (q : Quantizer nlist Vec (CodeBytes cb)) (handed : ℕ → Option Vec)
    (x y : RetrievalModel nlist Vec (CodeBytes cb)) : Prop where
  inv : Inv y.index.rt (places q fun v =>
    if x.indexedCount ≤ v ∧ v < y.indexedCount then x.stored[v]? else handed v)
  counters_eq : y.index.indexedVecCount = y.indexedCount
  le_count : x.indexedCount ≤ y.indexedCount
  count_le : y.indexedCount ≤ x.stored.length
  stored_eq : y.stored = x.stored
  updated_eq : y.updatedVids = x.updatedVids
  deleted_eq : y.index.rt.isDeleted = x.index.rt.isDeleted

/-- The places of one more chunk. -/
theorem placesFrom_or [NeZero nlist] (q : Quantizer nlist Vec (CodeBytes cb))
    (handed : ℕ → Option Vec) {x y : RetrievalModel nlist Vec (CodeBytes cb)}
    (hstored : y.stored = x.stored) (hle : x.indexedCount ≤ y.indexedCount) {total : ℕ}
    {last : Bool} (v : ℕ) :
    (placesFrom q y.indexedCount (y.chunk total last) v).or (places q (fun v =>
      if x.indexedCount ≤ v ∧ v < y.indexedCount then x.stored[v]? else handed v) v) =
      places q (fun v => if x.indexedCount ≤ v ∧
        v < y.indexedCount + (y.chunk total last).length then x.stored[v]? else handed v) v := by
  by_cases hnew : y.indexedCount ≤ v ∧ v < y.indexedCount + (y.chunk total last).length
  · have hget : (y.chunk total last)[v - y.indexedCount]? = x.stored[v]? := by
      have hlt : v - y.indexedCount < (y.chunk total last).length := by omega
      rw [RetrievalModel.chunk, List.length_take] at hlt
      rw [RetrievalModel.chunk, List.getElem?_take_of_lt (by omega), List.getElem?_drop, hstored,
        Nat.add_sub_cancel' hnew.1]
    have hsome := (placesFrom_isSome q y.indexedCount (y.chunk total last) v).mpr hnew
    rw [Option.or_of_isSome hsome, placesFrom, if_pos hnew.1, hget, places,
      if_pos ⟨by omega, hnew.2⟩]
  · have hnone := (placesFrom_isSome q y.indexedCount (y.chunk total last) v).not.mpr hnew
    rw [Option.not_isSome_iff_eq_none] at hnone
    rw [hnone, Option.none_or]
    simp only [places]
    congr 1
    by_cases hold : x.indexedCount ≤ v ∧ v < y.indexedCount
    · rw [if_pos hold, if_pos ⟨hold.1, by omega⟩]
    · rw [if_neg hold, if_neg (by omega)]

section Rounds

variable [NeZero nlist] {F : FloatOps}
  {q : Quantizer nlist Vec (CodeBytes cb)}

/-- **One round.** -/
theorem Indexed.addChunk {handed : ℕ → Option Vec} {x : RetrievalModel nlist Vec (CodeBytes cb)}
    (hhanded : ∀ v, (handed v).isSome ↔ v < x.indexedCount) {total : ℕ}
    {round : Bool × (Fin nlist → Alloc)} {st st' : RetrievalModel.Loop nlist Vec (CodeBytes cb)}
    (h : Indexed q handed x st.model)
    (hguard : RetrievalModel.roundGuard F q total round st)
    (hstep : RetrievalModel.addChunk F q total round st = some st') :
    Indexed q handed x st'.model := by
  have hcount : st.model.indexedCount ≤ st.model.stored.length := by
    rw [h.stored_eq]
    exact h.count_le
  have hlen := RetrievalModel.chunk_length_le total round.1 hcount
  unfold RetrievalModel.addChunk at hstep
  dsimp only at hstep
  split at hstep
  · cases hstep
  · split at hstep
    · cases hstep
      exact h
    · split at hstep
      · cases hstep
      · next index hadd =>
        cases hstep
        have hsame := add_failed_sameSlots hguard hadd
        exact
          { h with
            inv := h.inv.of_sameSlots hsame
            counters_eq := (add_failed hadd).1.trans h.counters_eq
            deleted_eq := (add_deleted_eq hadd).trans h.deleted_eq }
      · next index hadd =>
        cases hstep
        have hfresh : ∀ v, st.model.index.indexedVecCount ≤ v → places q (fun v =>
            if x.indexedCount ≤ v ∧ v < st.model.indexedCount then x.stored[v]? else handed v) v =
              none := by
          intro v hv
          rw [h.counters_eq] at hv
          have hnone : handed v = none := by
            have hle := h.le_count
            have hnot := (hhanded v).not.mpr (by omega)
            rwa [Option.not_isSome_iff_eq_none] at hnot
          simp only [places]
          rw [if_neg (by omega), hnone, Option.map_none]
        have hinv := add_inv h.inv hfresh hadd
        refine
          { inv := cast (congrArg (Inv index.rt) ?_) hinv
            counters_eq := (add_ok hadd).1.trans (by rw [h.counters_eq])
            le_count := Nat.le_trans h.le_count (Nat.le_add_right _ _)
            count_le := by rw [← h.stored_eq]; exact hlen
            stored_eq := h.stored_eq
            updated_eq := h.updated_eq
            deleted_eq := (add_deleted_eq hadd).trans h.deleted_eq }
        funext v
        rw [h.counters_eq]
        exact placesFrom_or q handed h.stored_eq h.le_count v

/-- **The rounds of a call.** -/
theorem indexed_addNewVecs {handed : ℕ → Option Vec} {x : RetrievalModel nlist Vec (CodeBytes cb)}
    (hinv : Inv x.index.rt (places q handed)) (hcounters : x.index.indexedVecCount = x.indexedCount)
    (hcount : x.indexedCount ≤ x.stored.length)
    (hhanded : ∀ v, (handed v).isSome ↔ v < x.indexedCount)
    {as : RetrievalModel.CallAllocs nlist}
    (hguard : RetrievalModel.allOrNothing F q (.addRTVecs as) x)
    {st : RetrievalModel.Loop nlist Vec (CodeBytes cb)}
    (hnew : RetrievalModel.addNewVecs F q as.rounds x = some st) : Indexed q handed x st.model := by
  have hstart : Indexed q handed x x := by
    refine ⟨cast (congrArg (Inv x.index.rt) ?_) hinv, hcounters, Nat.le_refl _, hcount, rfl, rfl, rfl⟩
    funext v
    simp only [places]
    rw [if_neg (by omega)]
  unfold RetrievalModel.addNewVecs at hnew
  rw [if_neg (Nat.not_lt.mpr hcount)] at hnew
  split at hnew
  · cases hnew
    exact hstart
  · next hne =>
    obtain ⟨st', hrun, heq⟩ := Option.map_eq_some_iff.mp hnew
    have hmodel : st.model = st'.model := by rw [← heq]; split <;> rfl
    have halways := Lib.always_of_guard
      (P := fun st : RetrievalModel.Loop nlist Vec (CodeBytes cb) => Indexed q handed x st.model)
      (fun round s s' hs hg hstep => hs.addChunk hhanded hg hstep) hstart
      (hguard (Nat.lt_of_le_of_ne hcount hne))
    rw [hmodel]
    exact halways.last hrun

end Rounds

/-! ### The updates of a call -/

/-- What is popped to be updated is stored, indexed and not deleted. -/
theorem mem_popUpdated {deleted : ℕ → Bool} {indexedCount : ℕ} {queue vids : List ℕ} {v : ℕ}
    (hv : v ∈ (RetrievalModel.popUpdated deleted indexedCount queue vids).2) :
    v ∈ vids ∨ (deleted v = false ∧ v < indexedCount) := by
  induction queue generalizing vids with
  | nil => exact .inl hv
  | cons vid queue ih =>
    unfold RetrievalModel.popUpdated at hv
    have happend : v ∈ vids ++ [vid] → deleted vid = false → vid < indexedCount →
        v ∈ vids ∨ (deleted v = false ∧ v < indexedCount) := by
      intro hmem hdel hlt
      rcases List.mem_append.mp hmem with hold | hnew
      · exact .inl hold
      · cases List.mem_singleton.mp hnew
        exact .inr ⟨hdel, hlt⟩
    split at hv
    · exact ih hv
    · next hdel =>
      rw [Bool.not_eq_true] at hdel
      split at hv
      · exact .inl hv
      · next hlt =>
        split at hv
        · exact happend hv hdel (Nat.not_le.mp hlt)
        · rcases ih hv with hmem | hnew
          · exact happend hmem hdel (Nat.not_le.mp hlt)
          · exact .inr hnew

theorem of_mem_taken {x : RetrievalModel nlist Vec (CodeBytes cb)} {v : ℕ} (hv : v ∈ taken x x) :
    x.index.rt.isDeleted v = false ∧ v < x.indexedCount :=
  (mem_popUpdated hv).resolve_left List.not_mem_nil

/-- The vectors of stored ids can be read. -/
theorem exists_mapM_stored {stored : List Vec} {vids : List ℕ}
    (h : ∀ v ∈ vids, v < stored.length) :
    ∃ vecs, vids.mapM (fun vid => stored[vid]?) = some vecs := by
  induction vids with
  | nil => exact ⟨[], rfl⟩
  | cons vid vids ih =>
    obtain ⟨vecs, hvecs⟩ := ih fun v hv => h v (List.mem_cons_of_mem vid hv)
    have hget := List.getElem?_eq_getElem (h vid List.mem_cons_self)
    exact ⟨stored.get ⟨vid, h vid List.mem_cons_self⟩ :: vecs, by
      simp [List.mapM_cons, hget, hvecs]⟩

/-- Recording the updates hands over the stored vectors. -/
theorem recordUpdates_places [NeZero nlist] (q : Quantizer nlist Vec (CodeBytes cb))
    {stored : List Vec} {vids : List ℕ} {vecs : List Vec}
    (hvecs : vids.mapM (fun vid => stored[vid]?) = some vecs) (handed : ℕ → Option Vec) :
    recordUpdates q (vids.zip vecs) (places q handed) =
      places q fun v => if v ∈ vids then stored[v]? else handed v := by
  induction vids generalizing vecs handed with
  | nil =>
    cases hvecs
    funext v
    simp [places, recordUpdates]
  | cons vid vids ih =>
    rw [List.mapM_cons] at hvecs
    obtain ⟨vec, hvec, hrest⟩ := Option.bind_eq_some_iff.mp hvecs
    obtain ⟨vecs', hvecs', heq⟩ := Option.bind_eq_some_iff.mp hrest
    cases heq
    have hone : Function.update (places q handed) vid (some (placeOf q vid vec)) =
        places q (Function.update handed vid (some vec)) := by
      funext v
      by_cases hv : v = vid
      · subst hv
        simp [places]
      · simp [places, Function.update_of_ne hv]
    rw [List.zip_cons_cons, recordUpdates, List.foldl_cons, hone]
    refine (ih hvecs' (Function.update handed vid (some vec))).trans ?_
    funext v
    simp only [places]
    congr 1
    by_cases hmem : v ∈ vids
    · rw [if_pos hmem, if_pos (List.mem_cons_of_mem vid hmem)]
    · rw [if_neg hmem]
      by_cases hv : v = vid
      · subst hv
        rw [Function.update_self, if_pos List.mem_cons_self, hvec]
      · rw [Function.update_of_ne hv, if_neg fun h => (List.mem_cons.mp h).elim hv hmem]

section Tracked

variable [NeZero nlist] {F : FloatOps}
  {q : Quantizer nlist Vec (CodeBytes cb)}

/-- What every outcome of the updates has to keep. -/
theorem Tracked.of_updates {s : Process nlist cb Vec} (h : Tracked q s)
    {x y : RetrievalModel nlist Vec (CodeBytes cb)} (hidx : Indexed q s.handed s.model x)
    (hcount : y.indexedCount = x.indexedCount) (hvecs : y.stored = x.stored)
    (hcounter : y.index.indexedVecCount = x.index.indexedVecCount)
    (hdel : ∀ v, y.index.rt.isDeleted v = x.index.rt.isDeleted v)
    (hinv : Inv y.index.rt (places q fun v => if v ∈ taken x x then x.stored[v]? else
      if s.model.indexedCount ≤ v ∧ v < x.indexedCount then s.model.stored[v]? else s.handed v)) :
    Tracked q { s with model := y, handed := handOver s.model y s.handed } := by
  -- the queue that the updates see is the one of the call
  have htaken : taken s.model y = taken x x := by
    rw [taken, taken, hcount, hidx.updated_eq, hidx.deleted_eq]
  have hhand : (handOver s.model y s.handed) = fun v => if v ∈ taken x x then x.stored[v]? else
      if s.model.indexedCount ≤ v ∧ v < x.indexedCount then s.model.stored[v]? else s.handed v := by
    funext v
    unfold handOver
    rw [htaken, hcount, hidx.stored_eq]
    by_cases hmem : v ∈ taken x x
    · rw [if_pos (.inr hmem), if_pos hmem]
    · rw [if_neg hmem]
      simp only [hmem, or_false]
  have hle := hidx.le_count
  have hbound := hidx.count_le
  refine ⟨?_, ?_, ?_, fun v => ?_, fun d hd => ?_⟩
  · show Inv y.index.rt (places q (handOver s.model y s.handed))
    rw [hhand]
    exact hinv
  · exact hcounter.trans (hidx.counters_eq.trans hcount.symm)
  · show y.indexedCount ≤ y.stored.length
    rw [hcount, hvecs, hidx.stored_eq]
    exact hbound
  · show (handOver s.model y s.handed v).isSome ↔ v < y.indexedCount
    rw [hhand, hcount]
    dsimp only
    split
    · next hmem =>
      have hlt := (of_mem_taken hmem).2
      rw [hidx.stored_eq, List.getElem?_eq_getElem (by omega)]
      exact iff_of_true rfl hlt
    · split
      · next hin =>
        rw [List.getElem?_eq_getElem (by omega)]
        exact iff_of_true rfl hin.2
      · next hout =>
        rw [h.handed_iff]
        omega
  · refine ⟨(h.dumped d hd).1, fun v hv => ?_⟩
    show y.index.rt.isDeleted v = true
    rw [hdel, hidx.deleted_eq]
    exact (h.dumped d hd).2 v hv

/-- **One call of `AddRTVecsToIndex`.** -/
theorem Tracked.addRTVecs {s : Process nlist cb Vec} (h : Tracked q s)
    {as : RetrievalModel.CallAllocs nlist} (hguard : fits F q (.call (.addRTVecs as)) s)
    {st : RetrievalModel.Loop nlist Vec (CodeBytes cb)}
    (hcall : RetrievalModel.addRTVecsToIndex F q as s.model = some st) :
    Tracked q { s with model := st.model, handed := handOver s.model st.model s.handed } := by
  obtain ⟨st₁, hnew, hupd⟩ := Option.bind_eq_some_iff.mp hcall
  have hidx := indexed_addNewVecs h.inv h.counters_eq h.count_le h.handed_iff hguard.1 hnew
  have hfit := hguard.2 st₁
  have hbound := hidx.count_le
  unfold RetrievalModel.applyUpdates at hupd
  dsimp only at hupd
  split at hupd
  · next hnil =>
    cases hupd
    refine h.of_updates hidx rfl rfl rfl (fun _ => rfl) ?_
    have hempty : taken st₁.model st₁.model = [] := hnil
    simp only [hempty, List.not_mem_nil, if_false]
    exact hidx.inv
  · have hlt : ∀ v ∈ taken st₁.model st₁.model, v < st₁.model.stored.length := by
      intro v hv
      rw [hidx.stored_eq]
      exact Nat.lt_of_lt_of_le (of_mem_taken hv).2 hbound
    obtain ⟨vecs, hvecs⟩ := exists_mapM_stored hlt
    have hread : (RetrievalModel.popUpdated st₁.model.index.rt.isDeleted st₁.model.indexedCount
        st₁.model.updatedVids []).2.mapM (fun vid => st₁.model.stored[vid]?) = some vecs := hvecs
    rw [hread] at hupd
    obtain ⟨index, hindex, rfl⟩ := Option.map_eq_some_iff.mp hupd
    have hknown : ∀ e ∈ (taken st₁.model st₁.model).zip vecs, (places q (fun v =>
        if s.model.indexedCount ≤ v ∧ v < st₁.model.indexedCount then s.model.stored[v]?
        else s.handed v) e.1).isSome ∧ st₁.model.index.rt.isDeleted e.1 = false := by
      intro e he
      have hmem := of_mem_taken (List.of_mem_zip he).1
      refine ⟨?_, hmem.1⟩
      simp only [places, Option.isSome_map]
      split
      · next hin =>
        rw [List.getElem?_eq_getElem (by omega)]
        rfl
      · next hout => exact (h.handed_iff e.1).mpr (by omega)
    obtain ⟨hinv, hcounter, hdel⟩ := updates_inv hidx.inv hknown (hfit vecs hnew hvecs) hindex
    refine h.of_updates hidx rfl rfl hcounter hdel ?_
    rw [← recordUpdates_places q hvecs]
    exact hinv

/-- **One step.** -/
theorem Tracked.step {s s' : Process nlist cb Vec} (h : Tracked q s) (o : Op nlist Vec)
    (hguard : fits F q o s) (hstep : Process.step F q o s = some s') : Tracked q s' := by
  cases o with
  | call op =>
    obtain ⟨x, hx, rfl⟩ := Option.map_eq_some_iff.mp hstep
    cases op with
    | addRTVecs as =>
      obtain ⟨st, hcall, rfl⟩ := Option.map_eq_some_iff.mp hx
      exact h.addRTVecs hguard hcall
    | store vec =>
      cases hx
      refine ⟨h.inv, h.counters_eq, ?_, h.handed_iff, h.dumped⟩
      show s.model.indexedCount ≤ (s.model.stored ++ [vec]).length
      have hle := h.count_le
      rw [List.length_append]
      omega
    | setBit docid =>
      cases hx
      refine ⟨h.inv.setBit docid, h.counters_eq, h.count_le, h.handed_iff, fun d hd => ?_⟩
      refine ⟨(h.dumped d hd).1, fun v hv => ?_⟩
      exact BitmapManager.test_set_of_test docid ((h.dumped d hd).2 v hv)
    | delete vids =>
      cases hx
      have hsame := delete_sameSlots vids s.model.index.rt
      refine ⟨h.inv.of_sameSlots hsame, h.counters_eq, h.count_le, h.handed_iff, fun d hd => ?_⟩
      refine ⟨(h.dumped d hd).1, fun v hv => ?_⟩
      exact (hsame.isDeleted_eq v).trans ((h.dumped d hd).2 v hv)
  | update vid vec =>
    cases hstep
    have hindex : (update vid vec s.model).index = s.model.index := by
      unfold update
      split <;> rfl
    have hcount : (update vid vec s.model).indexedCount = s.model.indexedCount := by
      unfold update
      split <;> rfl
    have hlen : (update vid vec s.model).stored.length = s.model.stored.length := by
      unfold update
      split
      · rfl
      · exact List.length_set
    refine ⟨?_, ?_, ?_, fun v => ?_, fun d hd => ?_⟩
    · show Inv (update vid vec s.model).index.rt _
      rw [hindex]
      exact h.inv
    · show (update vid vec s.model).index.indexedVecCount = (update vid vec s.model).indexedCount
      rw [hindex, hcount]
      exact h.counters_eq
    · show (update vid vec s.model).indexedCount ≤ (update vid vec s.model).stored.length
      rw [hcount, hlen]
      exact h.count_le
    · show (s.handed v).isSome ↔ v < (update vid vec s.model).indexedCount
      rw [hcount]
      exact h.handed_iff v
    · show _ ∧ ∀ v, d.index.rt.isDeleted v = true →
        (update vid vec s.model).index.rt.isDeleted v = true
      rw [hindex]
      exact h.dumped d hd
  | dump =>
    cases hstep
    refine ⟨h.inv, h.counters_eq, h.count_le, h.handed_iff, fun d hd => ?_⟩
    cases hd
    exact ⟨h.inv, fun v hv => hv⟩

theorem tracked_start (q : Quantizer nlist Vec (CodeBytes cb)) (bucketKeys limit : ℕ)
    (hk : bucketKeys < 2 ^ 31) (docids : BitmapManager) (vidMgr : VIDMgr) :
    Tracked q (start bucketKeys limit hk docids vidMgr) where
  inv := inv_init bucketKeys limit hk docids vidMgr
  counters_eq := rfl
  count_le := Nat.le_refl _
  handed_iff v := iff_of_false (by simp [start]) (Nat.not_lt_zero v)
  dumped d hd := by cases hd

end Tracked

/-! ### The load -/

/-- The number of vectors that a load of the dumped index counts. -/
def loadCount (x : GammaIVFPQIndex nlist (CodeBytes cb)) : ℤ :=
  ((x.maskedSlots + x.unmaskedSlots : ℕ) : ℤ) - x.pairs

/-- **The condition.** Each vid that the load of the last dump counts and that is not deleted was
handed to the index before that dump, with a vector that has the bucket and the code of the one
that is stored now. -/
def HandedBeforeDump [NeZero nlist] (q : Quantizer nlist Vec (CodeBytes cb))
    (s : Process nlist cb Vec) : Prop :=
  ∀ d, s.dumped = some d → ∀ v : ℕ, (v : ℤ) < loadCount d.index →
    s.model.index.rt.isDeleted v = false → ∃ vec vec', d.handed v = some vec ∧
      s.model.stored[v]? = some vec' ∧ placeOf q v vec = placeOf q v vec'

section Load

variable [NeZero nlist] {F : FloatOps}
  {q : Quantizer nlist Vec (CodeBytes cb)} {a : Fin nlist → Alloc}

omit [NeZero nlist] in
theorem loadBuckets_ne_formatErr (size : Fin nlist → ℕ) (bs : List (Fin nlist))
    (st st' : LoadState nlist cb) : loadBuckets F a size bs st ≠ some (st', .formatErr) := by
  induction bs generalizing st with
  | nil => simp [loadBuckets]
  | cons b bs ih =>
    unfold loadBuckets
    split
    · simp
    · exact ih _
    · simp

omit [NeZero nlist] in
/-- What loading a dump gives: its slots, and the count. -/
theorem load_dumped {bucketKeys limit : ℕ} {hk : bucketKeys < 2 ^ 31} (hpos : 0 < bucketKeys)
    (hn : nlist < 2 ^ 31) (hcb : cb < 2 ^ 31) {num : ℕ} {s : Process nlist cb Vec}
    {d : DumpedIndex nlist cb Vec} (hd : s.dumped = some d)
    {y : RetrievalModel nlist Vec (CodeBytes cb)}
    (hload : load F a bucketKeys limit hk num s = some y) :
    (∀ b, y.index.rt.entries b = d.index.rt.entries b) ∧
      (y.indexedCount : ℤ) = loadCount d.index ∧ y.indexedCount ≤ y.stored.length ∧
      y.stored = s.model.stored.take num ∧ y.updatedVids = [] := by
  have hstart := loading_init bucketKeys limit hk hpos s.model.index.rt.docidsBitmap
    s.model.index.rt.vidMgr d.index.rt
  have hnodup := List.nodup_finRange nlist
  simp only [load, hd] at hload
  rw [readInvertedLists_write _ _ hn hcb] at hload
  by_cases hfits : LoadFits F a (init bucketKeys limit hk s.model.index.rt.docidsBitmap
      s.model.index.rt.vidMgr) d.index.rt
  · obtain ⟨st, hst, hloaded, hcount⟩ := loadBuckets_spec hnodup hfits hstart
    rw [sum_recount, Int.zero_add] at hcount
    rw [hst] at hload
    dsimp only at hload
    split at hload
    · cases hload
    · cases hload
      refine ⟨fun b => ?_, ?_, ?_, rfl, rfl⟩
      · show st.data.entries b = _
        rw [hloaded.entries_eq, if_neg List.not_mem_nil]
      · show ((st.indexedVecCount.toNat : ℕ) : ℤ) = _
        rw [loadCount, ← hcount]
        omega
      · show st.indexedVecCount.toNat ≤ (s.model.stored.take num).length
        omega
  · unfold LoadFits at hfits
    push Not at hfits
    obtain ⟨b, hne, hno⟩ := hfits
    have hstuck := loadBuckets_noRoom hnodup hstart (List.mem_finRange b) hne hno
    split at hload
    · next st hst => exact absurd hst (hstuck st)
    · next st hst => exact absurd hst (loadBuckets_ne_formatErr _ _ _ st)
    · cases hload

/-- **One load.** -/
theorem Tracked.load_iff {bucketKeys limit : ℕ} {hk : bucketKeys < 2 ^ 31}
    (hpos : 0 < bucketKeys) (hn : nlist < 2 ^ 31) (hcb : cb < 2 ^ 31) {num : ℕ}
    {s : Process nlist cb Vec} (h : Tracked q s) {y : RetrievalModel nlist Vec (CodeBytes cb)}
    (hload : load F a bucketKeys limit hk num s = some y) :
    Encodes q s.model.index.rt.isDeleted y ↔ HandedBeforeDump q s := by
  cases hd : s.dumped with
  | none =>
    simp only [load, hd] at hload
    cases hload
    refine iff_of_true (fun v hv => absurd hv (Nat.not_lt_zero v)) fun d hd' => ?_
    rw [hd] at hd'
    cases hd'
  | some d =>
    obtain ⟨hentries, hcount, hle, hstored, hqueue⟩ := load_dumped hpos hn hcb hd hload
    obtain ⟨hinv, hgrow⟩ := h.dumped d hd
    have hget : ∀ v < y.indexedCount, y.stored[v]? = s.model.stored[v]? := by
      intro v hv
      rw [hstored] at hle ⊢
      rw [List.length_take] at hle
      exact List.getElem?_take_of_lt (by omega)
    have hlive : ∀ v, s.model.index.rt.isDeleted v = false → d.index.rt.isDeleted v = false := by
      intro v hv
      by_contra hdel
      rw [Bool.not_eq_false] at hdel
      rw [hgrow v hdel] at hv
      cases hv
    constructor
    · intro henc d' hd' v hv hdel
      rw [hd] at hd'
      cases hd'
      have hlt : v < y.indexedCount := by omega
      rcases henc v hlt hdel with ⟨vec', hvec', ⟨p, e, he, hm, hrec, hcode⟩, -⟩ | hmem
      · rw [hentries] at he
        have hsome := (hinv.stored_of_slot _ p e he hm).1
        rw [hrec, places, Option.isSome_map, Option.isSome_iff_exists] at hsome
        obtain ⟨vec, hvec⟩ := hsome
        obtain ⟨p', hslot, -⟩ := hinv.slot_of_stored v (placeOf q v vec).1 (placeOf q v vec).2
          (by rw [places, hvec]; rfl) (hlive v hdel)
        have hvlt : v < 2 ^ 63 := hinv.vid_lt v (by rw [places, hvec]; rfl)
        obtain ⟨hb, hp⟩ := hinv.slot_unique he hslot hm (isDel_ofVid hvlt)
          ((recoverVid_ofVid hvlt).trans hrec.symm) (by rw [hrec]; exact hlive v hdel)
        rw [hb, hp, he] at hslot
        refine ⟨vec, vec', hvec, by rw [← hget v hlt, hvec'], Prod.ext hb ?_⟩
        rw [← hcode, Option.some.inj hslot]
      · rw [hqueue] at hmem
        cases hmem
    · intro hcond v hv hdel
      obtain ⟨vec, vec', hvec, hvec', hplace⟩ := hcond d hd v (by omega) hdel
      refine .inl ⟨vec', by rw [hget v hv, hvec'], ?_⟩
      have hg : places q d.handed v = some ((placeOf q v vec).1, (placeOf q v vec).2) := by
        rw [places, hvec]
        rfl
      obtain ⟨p, id, hslot, hm, hrec, -, hunique⟩ := hinv.occupiesOneSlot hg (hlive v hdel)
      rw [← hplace]
      refine ⟨⟨p, (id, _), by rw [hentries]; exact hslot, hm, hrec, rfl⟩, ?_⟩
      intro b' p' e' he' hm' hrec'
      rw [hentries] at he'
      obtain ⟨hb, hp⟩ := hunique b' p' e' he' hm' hrec'
      rw [hb, hp, hslot] at he'
      exact ⟨hb, by rw [← Option.some.inj he']⟩

/-- **When a loaded index encodes the stored vectors.** Take any adds, vector updates, deletes, calls
of `AddRTVecsToIndex` and dumps in which no batch is half taken and no moved vector is left without
room, then a stop and a load that succeeds. Every vid below the loaded count that is not deleted has
the code of its stored vector, or is queued, if and only if each of those vids was handed to the
index before the last dump, with a vector that has the bucket and code of the stored one. -/
theorem encodes_load_iff (F : FloatOps) (q : Quantizer nlist Vec (CodeBytes cb))
    (a : Fin nlist → Alloc) (bucketKeys limit : ℕ) (hk : bucketKeys < 2 ^ 31) (hpos : 0 < bucketKeys)
    (hn : nlist < 2 ^ 31) (hcb : cb < 2 ^ 31) (docids : BitmapManager) (vidMgr : VIDMgr)
    (ops : List (Op nlist Vec)) (num : ℕ) (s : Process nlist cb Vec)
    (y : RetrievalModel nlist Vec (CodeBytes cb))
    (hfits : Lib.EachStep (step F q) (fits F q) ops (start bucketKeys limit hk docids vidMgr))
    (hrun : Lib.runOps (step F q) ops (start bucketKeys limit hk docids vidMgr) = some s)
    (hload : load F a bucketKeys limit hk num s = some y) :
    Encodes q s.model.index.rt.isDeleted y ↔ HandedBeforeDump q s := by
  have halways := Lib.always_of_guard (P := Tracked q) (fun o t t' ht hg hstep => ht.step o hg hstep)
    (tracked_start q bucketKeys limit hk docids vidMgr) hfits
  exact (halways.last hrun).load_iff hpos hn hcb hload

end Load

/-! ### An update after the dump -/

/-- Two empty buckets of four slots. -/
def emptyProcess : Process 2 1 ℕ := start 4 1000 four_lt_maxSlots (.init 16) (.init false 0)

/-- One vector is stored, indexed and dumped, and then updated. -/
def updateAfterDump : List (Op 2 ℕ) :=
  [.call (.store 70), .call (.addRTVecs ⟨fun _ _ => .ok, fun _ => .ok, fun _ => .ok⟩), .dump,
    .update 0 72]

/-- The load after it. -/
def loadAfter (s : Process 2 1 ℕ) : Option (RetrievalModel 2 ℕ (CodeBytes 1)) :=
  load FloatOps.rational (fun _ => .ok) 4 1000 four_lt_maxSlots 1 s

/-- **A stale code.** The loaded index has the code of the first vector, the store has the second
one, the vid is not deleted and nothing is queued. -/
theorem stale_after_load : ∃ s y,
    Lib.runOps (step FloatOps.rational parityBytes) updateAfterDump emptyProcess = some s ∧
      loadAfter s = some y ∧ y.indexedCount = 1 ∧ y.stored = [72] ∧ y.updatedVids = [] ∧
      y.index.rt.entries 0 = [(0#64, ⟨[70], rfl⟩)] ∧
      ¬Encodes parityBytes s.model.index.rt.isDeleted y := by
  have hfacts : ((Lib.runOps (step FloatOps.rational parityBytes) updateAfterDump
      emptyProcess).bind fun s => (loadAfter s).map fun y =>
        (y.indexedCount, y.stored, y.updatedVids, s.model.index.rt.isDeleted 0)) =
      some (1, [72], [], false) := by decide +kernel
  have hslots : ((Lib.runOps (step FloatOps.rational parityBytes) updateAfterDump
      emptyProcess).bind fun s => (loadAfter s).map fun y => y.index.rt.entries 0) =
      some [(0#64, ⟨[70], rfl⟩)] := by decide +kernel
  obtain ⟨s, hs, hload⟩ := Option.bind_eq_some_iff.mp hfacts
  obtain ⟨y, hy, heq⟩ := Option.map_eq_some_iff.mp hload
  rw [hs, Option.bind_some, hy, Option.map_some] at hslots
  have hentries := Option.some.inj hslots
  simp only [Prod.mk.injEq] at heq
  obtain ⟨hcount, hstored, hqueue, hdel⟩ := heq
  refine ⟨s, y, hs, hy, hcount, hstored, hqueue, hentries, fun henc => ?_⟩
  rcases henc 0 (by omega) hdel with ⟨vec, hvec, -, hcodes⟩ | hmem
  · rw [hstored] at hvec
    cases hvec
    have hcode := (hcodes 0 0 (0#64, ⟨[70], rfl⟩) (by rw [hentries]; rfl) (by decide)
      (by decide)).2
    exact absurd hcode (by decide +kernel)
  · rw [hqueue] at hmem
    cases hmem

/-- A call with nothing queued makes no updates. -/
theorem fits_of_noUpdate {nlist cb : ℕ} {Vec : Type} [NeZero nlist] {F : FloatOps}
    {q : Quantizer nlist Vec (CodeBytes cb)} {s : Process nlist cb Vec} (h : Tracked q s)
    {as : RetrievalModel.CallAllocs nlist}
    (hrounds : RetrievalModel.allOrNothing F q (.addRTVecs as) s.model)
    (hqueue : s.model.updatedVids = []) : fits F q (.call (.addRTVecs as)) s := by
  refine ⟨hrounds, fun st vecs hnew _ => ?_⟩
  have hidx := indexed_addNewVecs h.inv h.counters_eq h.count_le h.handed_iff hrounds hnew
  have hnone : taken st.model st.model = [] := by
    rw [taken, hidx.updated_eq, hqueue]
    rfl
  rw [hnone, List.zip_nil_left]
  trivial

/-- The steps meet their guards. -/
theorem updateAfterDump_fits : Lib.EachStep (step FloatOps.rational parityBytes)
    (fits FloatOps.rational parityBytes) updateAfterDump emptyProcess := by
  intro s₁ hs₁
  refine ⟨trivial, fun s₂ hs₂ => ⟨?_, fun s₃ _ => ⟨trivial, fun s₄ _ => ⟨trivial, trivial⟩⟩⟩⟩
  have htracked := (tracked_start parityBytes 4 1000 (by decide) (.init 16) (.init false 0)).step
    (.call (.store 70)) trivial hs₁
  cases hs₁
  refine fits_of_noUpdate htracked (fun _ st _ => ⟨.inl ?_, trivial⟩) rfl
  intro b keys hkeys
  revert keys
  revert b
  decide +kernel

/-- The theorem says that the condition fails. -/
theorem encodes_load_iff_stale : ∃ s : Process 2 1 ℕ, ¬HandedBeforeDump parityBytes s := by
  obtain ⟨s, y, hs, hy, -, -, -, -, hstale⟩ := stale_after_load
  exact ⟨s, fun hcond => hstale ((encodes_load_iff FloatOps.rational parityBytes (fun _ => .ok) 4 1000
    (by decide) (by decide) (by decide) (by decide) (.init 16) (.init false 0) updateAfterDump 1 s y
    updateAfterDump_fits hs hy).mpr hcond)⟩

end Process

end AwaDB.Vector
