import AwaDB.Index.InvertedListsIO
import AwaDB.Realtime.ReverseMap
import Mathlib.Algebra.Order.BigOperators.Group.Finset

/-!
# When a dump and a load give the same index

Loading a dump into a fresh index brings back the slots and points the reverse map at them. The
indexed vector count is worked out anew, from numbers that do not determine it.

* `present_le`: an indexed vector that is still in the index has an unmasked slot;
* `roundTrips_iff`: the count too comes back exactly when masked and surplus slots make up for the
  pairs that are taken off twice and for the indexed vectors that are gone;
* `surplus_eq_zero`: there are no surplus slots where no vector is stored twice.
-/

namespace AwaDB.Index

open Realtime Realtime.RealTimeMemData

namespace GammaIVFPQIndex

variable {n cb : ℕ}

/-! ### Counting slots -/

section Count

variable {Code : Type}

/-- The masked slots over all buckets. -/
def maskedSlots (x : GammaIVFPQIndex n Code) : ℕ :=
  ∑ b, (x.rt.entries b).countP fun e => isDel e.1

/-- The unmasked slots over all buckets. -/
def unmaskedSlots (x : GammaIVFPQIndex n Code) : ℕ :=
  ∑ b, (x.rt.entries b).countP fun e => !isDel e.1

/-- The pairs of a masked slot and an unmasked slot after it in the same bucket. -/
def pairs (x : GammaIVFPQIndex n Code) : ℕ := ∑ b, maskedPairs ((x.rt.entries b).map Prod.fst)

/-- The indexed vectors that have an unmasked slot. -/
def present (x : GammaIVFPQIndex n Code) : ℕ :=
  ((Finset.range x.indexedVecCount).filter fun v => x.rt.slotCount v ≠ 0).card

/-- The indexed vectors that have none: compacted away, or masked by an update that failed. -/
def lost (x : GammaIVFPQIndex n Code) : ℕ :=
  ((Finset.range x.indexedVecCount).filter fun v => x.rt.slotCount v = 0).card

/-- The unmasked slots beyond one for each indexed vector that has any. -/
def surplus (x : GammaIVFPQIndex n Code) : ℕ := x.unmaskedSlots - x.present

theorem lost_add_present (x : GammaIVFPQIndex n Code) : x.lost + x.present = x.indexedVecCount := by
  have h : x.lost + x.present = (Finset.range x.indexedVecCount).card :=
    Finset.card_filter_add_card_filter_not _
  rwa [Finset.card_range] at h

/-- One slot counts for one vector, if it is unmasked and its vector is among the first `N`. -/
theorem sum_holds_slot (N : ℕ) (e : Long × Code) :
    (∑ v ∈ Finset.range N, if holds v e then 1 else 0) =
      if !isDel e.1 ∧ recoverVid e.1 < N then 1 else 0 := by
  by_cases hdel : isDel e.1 = true
  · simp [holds, hdel]
  · rw [Bool.not_eq_true] at hdel
    simp [holds, hdel]

/-- The slots of the first `N` vectors are among the unmasked ones, and all of them where no other
vector has an unmasked slot. -/
theorem sum_holds_le (N : ℕ) (es : List (Long × Code)) :
    ∑ v ∈ Finset.range N, es.countP (holds v) ≤ (es.countP fun e => !isDel e.1) ∧
      ((∀ e ∈ es, isDel e.1 = false → recoverVid e.1 < N) →
        ∑ v ∈ Finset.range N, es.countP (holds v) = es.countP fun e => !isDel e.1) := by
  induction es with
  | nil => simp
  | cons e es ih =>
    simp only [List.countP_cons, Finset.sum_add_distrib, sum_holds_slot]
    refine ⟨Nat.add_le_add ih.1 ?_, fun hlt => ?_⟩
    · split <;> split <;> simp_all
    · rw [ih.2 fun e' he' => hlt e' (List.mem_cons_of_mem e he')]
      have hhead := hlt e List.mem_cons_self
      cases hdel : isDel e.1 <;> simp_all

theorem sum_slotCount_le (x : GammaIVFPQIndex n Code) :
    ∑ v ∈ Finset.range x.indexedVecCount, x.rt.slotCount v ≤ x.unmaskedSlots := by
  simp only [slotCount, unmaskedSlots]
  rw [Finset.sum_comm]
  exact Finset.sum_le_sum fun b _ => (sum_holds_le _ _).1

theorem present_le (x : GammaIVFPQIndex n Code) : x.present ≤ x.unmaskedSlots := by
  refine le_trans ?_ x.sum_slotCount_le
  rw [present, Finset.card_filter]
  refine Finset.sum_le_sum fun v _ => ?_
  split <;> omega

/-- **No surplus.** Where every vector has one unmasked slot at most and only indexed vectors have
one, each of them belongs to a vector of its own. -/
theorem surplus_eq_zero {x : GammaIVFPQIndex n Code} (hone : ∀ v, x.rt.slotCount v ≤ 1)
    (hnone : ∀ b, ∀ e ∈ x.rt.entries b, isDel e.1 = false → recoverVid e.1 < x.indexedVecCount) :
    x.surplus = 0 := by
  have hsum : x.unmaskedSlots = ∑ v ∈ Finset.range x.indexedVecCount, x.rt.slotCount v := by
    simp only [slotCount, unmaskedSlots]
    rw [Finset.sum_comm]
    exact Finset.sum_congr rfl fun b _ => ((sum_holds_le _ _).2 (hnone b)).symm
  have hpresent : x.present = ∑ v ∈ Finset.range x.indexedVecCount, x.rt.slotCount v := by
    rw [present, Finset.card_filter]
    refine Finset.sum_congr rfl fun v _ => ?_
    have hle := hone v
    split <;> omega
  rw [surplus, hsum, hpresent, Nat.sub_self]

end Count

/-! ### The round trip -/

/-- The masked and the surplus slots, which are counted though they are no indexed vectors, make up
for the pairs, which are taken off, and the lost vectors, which are not counted. -/
def Balanced (x : GammaIVFPQIndex n (CodeBytes cb)) : Prop :=
  x.maskedSlots + x.surplus = x.pairs + x.lost

/-- Loading the dump of `x` into the fresh index `s₀` succeeds and brings back the slots of every
bucket (ids with their mask bits and codes, and with their number the retrieve position), a reverse
map that points every vector with an unmasked slot to it, and the indexed vector count. -/
def RoundTrips (F : FloatOps) (a : Fin n → Alloc) (s₀ : RealTimeMemData n (CodeBytes cb))
    (x : GammaIVFPQIndex n (CodeBytes cb)) : Prop :=
  ∃ st, readInvertedLists F a (writeInvertedLists x.rt) s₀ 0 = some (st, .ok) ∧
    (∀ b, st.data.entries b = x.rt.entries b) ∧ MapsLive st.data ∧
    st.indexedVecCount = x.indexedVecCount

/-- The count that a load works out: the slots in use less the pairs. -/
theorem sum_recount (x : GammaIVFPQIndex n (CodeBytes cb)) :
    ((List.finRange n).map (recount x.rt)).sum =
      ((x.maskedSlots + x.unmaskedSlots : ℕ) : ℤ) - x.pairs := by
  have hlen : ∀ b, ((x.rt.entries b).length : ℤ) =
      (((x.rt.entries b).countP fun e => isDel e.1) : ℤ) +
        ((x.rt.entries b).countP fun e => !isDel e.1) := by
    intro b
    rw [List.length_eq_countP_add_countP fun e : Long × CodeBytes cb => isDel e.1]
    simp
  rw [← Fin.sum_univ_def]
  simp only [recount, hlen, Finset.sum_sub_distrib, Finset.sum_add_distrib, maskedSlots,
    unmaskedSlots, pairs]
  push_cast
  ring

theorem loading_init (bucketKeys limit : ℕ) (hk : bucketKeys < 2 ^ 31) (hpos : 0 < bucketKeys)
    (docids : BitmapManager) (vidMgr : VIDMgr) (s : RealTimeMemData n (CodeBytes cb)) :
    Loading (init bucketKeys limit hk docids vidMgr) s (List.finRange n)
      ⟨init bucketKeys limit hk docids vidMgr, 0,
        (List.finRange n).flatMap fun b => bucketBytes (s.entries b)⟩ where
  entries_eq b := by
    rw [if_pos (List.mem_finRange b)]
    simp [entries, init]
  shape b _ := SameShape.refl b _
  deleted_eq b _ := rfl
  map_pos hn := by
    show 0 < (List.replicate (n * bucketKeys) (-1 : ℤ)).length
    rw [List.length_replicate]
    exact Nat.mul_pos hn hpos
  mapsLive v b p e he := by simp [entries, init] at he
  f_eq := rfl

/-- **When the inverted lists survive a dump and a load.** The dump of any state of the index, loaded
into a fresh index, brings back the slots, a reverse map to them and the indexed vector count if and
only if every bucket fits and the state is balanced. -/
theorem roundTrips_iff (F : FloatOps) (a : Fin n → Alloc) (bucketKeys limit : ℕ)
    (hk : bucketKeys < 2 ^ 31) (hpos : 0 < bucketKeys) (hn : n < 2 ^ 31) (hcb : cb < 2 ^ 31)
    (docids : BitmapManager) (vidMgr : VIDMgr) (x : GammaIVFPQIndex n (CodeBytes cb)) :
    x.RoundTrips F a (init bucketKeys limit hk docids vidMgr) ↔
      LoadFits F a (init bucketKeys limit hk docids vidMgr) x.rt ∧ x.Balanced := by
  have hload := loading_init bucketKeys limit hk hpos docids vidMgr x.rt
  have hnodup := List.nodup_finRange n
  unfold RoundTrips
  rw [readInvertedLists_write _ _ hn hcb]
  by_cases hfits : LoadFits F a (init bucketKeys limit hk docids vidMgr) x.rt
  · obtain ⟨st, hst, hloaded, hcount⟩ := loadBuckets_spec hnodup hfits hload
    rw [sum_recount, Int.zero_add] at hcount
    have hbalance : st.indexedVecCount = x.indexedVecCount ↔ x.Balanced := by
      have hle := x.present_le
      have hsum := x.lost_add_present
      rw [hcount, Balanced, surplus]
      omega
    rw [← hbalance]
    constructor
    · rintro ⟨st', hst', -, -, heq⟩
      rw [hst] at hst'
      cases hst'
      exact ⟨hfits, heq⟩
    · rintro ⟨-, heq⟩
      refine ⟨st, hst, fun b => ?_, hloaded.mapsLive, heq⟩
      rw [hloaded.entries_eq, if_neg (by simp)]
  · refine iff_of_false ?_ fun h => hfits h.1
    rintro ⟨st, hst, -⟩
    refine hfits fun b hne => ?_
    by_contra hno
    exact loadBuckets_noRoom hnodup hload (List.mem_finRange b) hne hno st hst

/-! ### Four vectors -/

/-- Even vectors go to bucket `0`, odd ones to bucket `1`; the code is the vector itself. -/
def parityBytes : Quantizer 2 ℕ (CodeBytes 1) where
  assign v := some (Fin.ofNat 2 v)
  encode v _ := ⟨[UInt8.ofNat v], rfl⟩

/-- Two empty buckets of four slots. -/
def twoBuckets : RealTimeMemData 2 (CodeBytes 1) :=
  init 4 1000 four_lt_maxSlots (.init 16) (.init false 0)

/-- Four vectors in the first bucket. -/
def fourIndexed : GammaIVFPQIndex 2 (CodeBytes 1) :=
  (((⟨twoBuckets, 0⟩ : GammaIVFPQIndex 2 (CodeBytes 1)).add FloatOps.rational parityBytes
    [70, 72, 74, 76] fun _ => .ok).map Prod.fst).getD ⟨twoBuckets, 0⟩

/-- The first of them has moved to the second bucket. -/
def oneMoved : GammaIVFPQIndex 2 (CodeBytes 1) :=
  (fourIndexed.update FloatOps.rational parityBytes [(0, 71)] (fun _ => .ok) fun _ => .ok).getD
    fourIndexed

/-- Vectors that were only added come back, and so does their number. -/
theorem roundTrips_iff_added : fourIndexed.RoundTrips FloatOps.rational (fun _ => .ok) twoBuckets := by
  refine (roundTrips_iff FloatOps.rational (fun _ => .ok) 4 1000 (by decide) (by decide) (by decide)
    (by decide) (.init 16) (.init false 0) fourIndexed).mpr ⟨?_, ?_⟩
  · intro b _
    revert b
    decide +kernel
  · unfold Balanced
    decide +kernel

/-- After one update that changes the bucket four vectors are indexed and the load counts two: the
masked slot is counted, and then taken off once for each of the three unmasked slots after it. -/
theorem load_miscounts :
    oneMoved.rt.entries 0 =
        [(kDelIdxMask, ⟨[70], rfl⟩), (1#64, ⟨[72], rfl⟩), (2#64, ⟨[74], rfl⟩), (3#64, ⟨[76], rfl⟩)] ∧
      oneMoved.rt.entries 1 = [(0#64, ⟨[71], rfl⟩)] ∧ oneMoved.indexedVecCount = 4 ∧
      (readInvertedLists FloatOps.rational (fun _ => .ok) (writeInvertedLists oneMoved.rt) twoBuckets
        0).map (fun r => (r.1.indexedVecCount, r.2)) = some (2, .ok) ∧
      ¬oneMoved.RoundTrips FloatOps.rational (fun _ => .ok) twoBuckets := by
  have hload : (readInvertedLists FloatOps.rational (fun _ => .ok) (writeInvertedLists oneMoved.rt)
      twoBuckets 0).map (fun r => (r.1.indexedVecCount, r.2)) = some (2, .ok) := by decide +kernel
  refine ⟨by decide +kernel, by decide +kernel, by decide +kernel, hload, ?_⟩
  rintro ⟨st, hst, -, -, hcount⟩
  have hfour : oneMoved.indexedVecCount = 4 := by decide +kernel
  rw [hst, Option.map_some, hcount, hfour] at hload
  simp at hload

end GammaIVFPQIndex

end AwaDB.Index
