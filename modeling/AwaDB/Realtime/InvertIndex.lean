import AwaDB.Realtime.ExactlyOnce
import Mathlib.Algebra.BigOperators.Fin

/-!
# Adding a batch to many buckets (`RTInvertIndex` in `realtime/realtime_invert_index.cc`)

`RTInvertIndex::AddKeys` goes through a `std::map` from bucket numbers to keys in ascending order
and returns `false` at the first bucket that cannot take its keys; what the buckets before it have
taken stays.

* `Room`: the bucket can take the keys, a condition on the state before the batch, since no bucket's
  shape depends on another bucket (`addKeys_sameShape`);
* `slotCount`: the number of unmasked slots of a vector over all buckets;
* `addKeysFrom_spec`: a batch adds to the slot counts what the buckets before the failing one take.
-/

namespace AwaDB.Realtime

namespace RealTimeMemData

variable {n : ℕ} {Code : Type}

/-! ### Slot counts -/

/-- An unmasked slot of vector `v`. -/
def holds (v : ℕ) (e : Long × Code) : Bool := !isDel e.1 && recoverVid e.1 == v

/-- The number of unmasked slots of vector `v` over all buckets. -/
def slotCount (s : RealTimeMemData n Code) (v : ℕ) : ℕ := ∑ b, (s.entries b).countP (holds v)

theorem slotCount_of_sameSlots {s s' : RealTimeMemData n Code} (h : SameSlots s s') (v : ℕ) :
    s'.slotCount v = s.slotCount v := by
  simp only [slotCount, h.entries_eq]

theorem countP_holds_zip {keys : List ℕ} {codes : List Code} (hlen : codes.length = keys.length)
    (hlt : ∀ key ∈ keys, key < 2 ^ 63) (v : ℕ) :
    ((keys.map ofVid).zip codes).countP (holds v) = keys.count v := by
  induction keys generalizing codes with
  | nil => rfl
  | cons key keys ih =>
    cases codes with
    | nil => simp at hlen
    | cons c codes =>
      have hkey := hlt key List.mem_cons_self
      have hrest := ih (Nat.succ.inj hlen) fun k hk => hlt k (List.mem_cons_of_mem _ hk)
      have hholds : holds v (ofVid key, c) = (key == v) := by
        rw [holds, isDel_ofVid hkey, recoverVid_ofVid hkey, Bool.not_false, Bool.true_and]
      rw [List.map_cons, List.zip_cons_cons, List.countP_cons, hrest, hholds, List.count_cons]

/-- **A successful `AddKeys` gives each key one slot more.** -/
theorem slotCount_of_added {b : Fin n} {keys : List ℕ} {codes : List Code}
    {s s' : RealTimeMemData n Code} (h : Added b keys codes s s') (v : ℕ) :
    s'.slotCount v = s.slotCount v + keys.count v := by
  have hterm : ∀ b', (s'.entries b').countP (holds v) =
      (s.entries b').countP (holds v) + if b' = b then keys.count v else 0 := by
    intro b'
    rw [h.entries_eq]
    by_cases hb : b' = b
    · rw [if_pos hb, if_pos hb, List.countP_append,
        countP_holds_zip h.codes_length fun k hk => (h.key_lt k hk).2]
    · rw [if_neg hb, if_neg hb, Nat.add_zero]
  simp only [slotCount, hterm, Finset.sum_add_distrib, Finset.sum_ite_eq', Finset.mem_univ, if_true]

/-! ### The shape of a bucket -/

/-- What decides whether bucket `b` can take more keys. -/
structure SameShape (b : Fin n) (s s' : RealTimeMemData n Code) : Prop where
  pos_eq : (s'.buckets b).retrieveIdxPos = (s.buckets b).retrieveIdxPos
  keys_eq : (s'.buckets b).curBucketKeys = (s.buckets b).curBucketKeys
  time_eq : (s'.buckets b).bucketExtendTime = (s.buckets b).bucketExtendTime
  limit_eq : s'.bucketKeysLimit = s.bucketKeysLimit

theorem SameShape.refl (b : Fin n) (s : RealTimeMemData n Code) : SameShape b s s :=
  ⟨rfl, rfl, rfl, rfl⟩

theorem SameShape.trans {b : Fin n} {s s' s'' : RealTimeMemData n Code} (h : SameShape b s s')
    (h' : SameShape b s' s'') : SameShape b s s'' where
  pos_eq := h'.pos_eq.trans h.pos_eq
  keys_eq := h'.keys_eq.trans h.keys_eq
  time_eq := h'.time_eq.trans h.time_eq
  limit_eq := h'.limit_eq.trans h.limit_eq

theorem sameShape_setBucket_of_ne {b b' : Fin n} (hne : b' ≠ b) (s : RealTimeMemData n Code)
    (x : Bucket Code) : SameShape b' s (s.setBucket b x) := by
  have hb : (s.setBucket b x).buckets b' = s.buckets b' := by rw [buckets_setBucket, if_neg hne]
  exact ⟨by rw [hb], by rw [hb], by rw [hb], rfl⟩

theorem deleteVid_sameShape (b : Fin n) (vid : ℕ) (s : RealTimeMemData n Code) :
    SameShape b s (s.deleteVid vid) := by
  unfold deleteVid
  split
  · exact SameShape.refl b s
  · split
    · next h =>
      by_cases hb : b = ⟨_, h⟩
      · have hx : (s.setBucket ⟨_, h⟩ (s.buckets ⟨_, h⟩).countDeleted).buckets b =
            (s.buckets b).countDeleted := by
          rw [buckets_setBucket, if_pos hb, ← hb]
        exact ⟨by rw [hx]; rfl, by rw [hx]; rfl, by rw [hx]; rfl, rfl⟩
      · exact sameShape_setBucket_of_ne hb s _
    · exact SameShape.refl b s

theorem recordKeys_sameShape {listNo : Fin n} {keys : List ℕ} {pos : ℕ}
    {s s' : RealTimeMemData n Code} (h : recordKeys listNo keys pos s = some s') (b : Fin n) :
    SameShape b s s' := by
  induction keys generalizing pos s with
  | nil => cases h; exact SameShape.refl b _
  | cons key keys ih =>
    unfold recordKeys at h
    split at h
    · split at h
      · cases h
      · next map hmap =>
        dsimp only at h
        generalize hs1 : { s with vidBucketNoPos := map.set key (encodePos listNo pos) } = s1 at h
        have hs : SameShape b s s1 := by subst hs1; exact ⟨rfl, rfl, rfl, rfl⟩
        refine (hs.trans ?_).trans (ih h)
        split
        · exact deleteVid_sameShape b key s1
        · exact SameShape.refl b s1
    · cases h

section Add

variable [Inhabited Code] (F : FloatOps)

/-- Bucket `b` can take `k` more keys. -/
def Room (b : Fin n) (k : ℕ) (a : Alloc) (s : RealTimeMemData n Code) : Prop :=
  (s.extendBucketIfNeed F b k a).map Prod.snd = some 0

instance (b : Fin n) (k : ℕ) (a : Alloc) (s : RealTimeMemData n Code) : Decidable (Room F b k a s) :=
  inferInstanceAs (Decidable (_ = _))

/-- How `ExtendBucketMem` ends, from the numbers it looks at. -/
def extendOutcome (pos keys time increment : ℕ) (a : Alloc) : Option Bool :=
  match extendLoop F (extendFuel (pos + increment)) ((time + 1) % 256)
      (F.extendSize ((time + 1) % 256) keys) (pos + increment) with
  | none => none
  | some (_, size) => if keys ≤ size ∧ size < 2 ^ 31 then some (decide (a = .ok)) else none

theorem extendMem_snd (b : Bucket Code) (increment : ℕ) (a : Alloc) :
    (b.extendMem F increment a).map Prod.snd =
      extendOutcome F b.retrieveIdxPos b.curBucketKeys b.bucketExtendTime increment a := by
  unfold Bucket.extendMem extendOutcome
  dsimp only
  cases extendLoop F (extendFuel (b.retrieveIdxPos + increment)) ((b.bucketExtendTime + 1) % 256)
      (F.extendSize ((b.bucketExtendTime + 1) % 256) b.curBucketKeys)
      (b.retrieveIdxPos + increment) with
  | none => rfl
  | some r =>
    obtain ⟨time, size⟩ := r
    dsimp only
    by_cases hsize : b.curBucketKeys ≤ size ∧ size < 2 ^ 31
    · rw [dif_pos hsize, if_pos hsize]
      cases a <;> rfl
    · rw [dif_neg hsize, if_neg hsize]
      rfl

theorem extendBucketIfNeed_snd (b : Fin n) (k : ℕ) (a : Alloc) (s : RealTimeMemData n Code) :
    (s.extendBucketIfNeed F b k a).map Prod.snd =
      if (s.buckets b).retrieveIdxPos + k ≤ (s.buckets b).curBucketKeys then some 0
      else if (s.buckets b).curBucketKeys * 2 ≥ s.bucketKeysLimit then some (-1)
      else if a = .noHeader then some (-2)
      else (extendOutcome F (s.buckets b).retrieveIdxPos (s.buckets b).curBucketKeys
        (s.buckets b).bucketExtendTime k a).map fun ok => if ok then 0 else -2 := by
  unfold extendBucketIfNeed
  split
  · rfl
  · split
    · rfl
    · rw [← extendMem_snd]
      cases a <;> simp [extendBucketMem, Function.comp_def]

/-- Room depends on the bucket's shape only. -/
theorem room_congr {b : Fin n} {s s' : RealTimeMemData n Code} (h : SameShape b s s') (k : ℕ)
    (a : Alloc) : Room F b k a s' ↔ Room F b k a s := by
  unfold Room
  rw [extendBucketIfNeed_snd, extendBucketIfNeed_snd, h.pos_eq, h.keys_eq, h.time_eq, h.limit_eq]

theorem extendBucketIfNeed_sameShape {b b' : Fin n} (hne : b' ≠ b) {k : ℕ} {a : Alloc}
    {s s' : RealTimeMemData n Code} {r : ℤ} (h : s.extendBucketIfNeed F b k a = some (s', r)) :
    SameShape b' s s' := by
  unfold extendBucketIfNeed at h
  split at h
  · cases h; exact SameShape.refl b' s
  · split at h
    · cases h; exact SameShape.refl b' s
    · obtain ⟨⟨t, ok⟩, ht, heq⟩ := Option.map_eq_some_iff.mp h
      cases heq
      unfold extendBucketMem at ht
      split at ht
      · cases ht; exact SameShape.refl b' s
      · obtain ⟨⟨x, okx⟩, hx, heq⟩ := Option.map_eq_some_iff.mp ht
        cases heq
        exact sameShape_setBucket_of_ne hne s x

/-- `AddKeys` on one bucket leaves the shape of every other bucket. -/
theorem addKeys_sameShape {b b' : Fin n} (hne : b' ≠ b) {k : ℕ} {keys : List ℕ} {codes : List Code}
    {a : Alloc} {s s' : RealTimeMemData n Code} {ok : Bool}
    (h : s.addKeys F b k keys codes a = some (s', ok)) : SameShape b' s s' := by
  unfold addKeys at h
  split at h
  · cases h
  · next s1 ret hext =>
    have hshape := extendBucketIfNeed_sameShape F hne hext
    split at h
    · cases h; exact hshape
    · split at h
      · split at h
        · obtain ⟨s2, hrec, heq⟩ := Option.map_eq_some_iff.mp h
          cases heq
          exact (hshape.trans (sameShape_setBucket_of_ne hne s1 _)).trans
            (recordKeys_sameShape hrec b')
        · cases h
      · cases h; exact hshape

/-- With a code for every key, `AddKeys` succeeds exactly when there is room. -/
theorem addKeys_ok_iff_room {b : Fin n} {k : ℕ} {keys : List ℕ} {codes : List Code} {a : Alloc}
    {s s' : RealTimeMemData n Code} {ok : Bool} (hlen : codes.length = keys.length)
    (h : s.addKeys F b k keys codes a = some (s', ok)) : ok = true ↔ Room F b k a s := by
  unfold addKeys at h
  unfold Room
  split at h
  · cases h
  · next s1 ret hext =>
    rw [hext]
    by_cases hret : ret = 0
    · rw [if_neg (not_not.mpr hret), dif_pos hlen] at h
      split at h
      · obtain ⟨s2, hrec, heq⟩ := Option.map_eq_some_iff.mp h
        cases heq
        subst hret
        exact iff_of_true rfl rfl
      · cases h
    · rw [if_pos hret] at h
      cases h
      refine iff_of_false (by decide) fun hroom => hret ?_
      exact Option.some.inj hroom

end Add

end RealTimeMemData

/-! ### A batch -/

namespace RTInvertIndex

open RealTimeMemData

variable {n : ℕ} {Code : Type} [Inhabited Code] (F : FloatOps)

/-- The loop of `RTInvertIndex::AddKeys` over the buckets still to visit; `none` in `newKeys` and
`newCodes` is a bucket that the `std::map` does not have. -/
def addKeysFrom (newKeys : Fin n → Option (List ℕ)) (newCodes : Fin n → Option (List Code))
    (a : Fin n → Alloc) :
    List (Fin n) → RealTimeMemData n Code → Option (RealTimeMemData n Code × Bool)
  | [], s => some (s, true)
  | b :: bs, s =>
    match newKeys b, newCodes b with
    | none, _ => addKeysFrom newKeys newCodes a bs s
    | some _, none => addKeysFrom newKeys newCodes a bs s
    | some keys, some codes =>
      if keys.length ≠ codes.length then addKeysFrom newKeys newCodes a bs s
      else
        match s.addKeys F b keys.length keys codes (a b) with
        | none => none
        | some (s, true) => addKeysFrom newKeys newCodes a bs s
        | some (s, false) => some (s, false)

/-- `RTInvertIndex::AddKeys`. -/
def addKeys (newKeys : Fin n → Option (List ℕ)) (newCodes : Fin n → Option (List Code))
    (a : Fin n → Alloc) (s : RealTimeMemData n Code) : Option (RealTimeMemData n Code × Bool) :=
  addKeysFrom F newKeys newCodes a (List.finRange n) s

/-- Bucket `b` has room for its part of the batch. -/
def HasRoom (newKeys : Fin n → Option (List ℕ)) (a : Fin n → Alloc) (s : RealTimeMemData n Code)
    (b : Fin n) : Prop :=
  ∀ keys ∈ newKeys b, Room F b keys.length (a b) s

/-- Every bucket of the batch has room, or the lowest one has none. -/
def AllOrNothing (newKeys : Fin n → Option (List ℕ)) (a : Fin n → Alloc)
    (s : RealTimeMemData n Code) : Prop :=
  (∀ b, HasRoom F newKeys a s b) ∨ ∃ b, ¬HasRoom F newKeys a s b ∧ ∀ b' < b, newKeys b' = none

/-- Every key has its code. -/
def Paired (newKeys : Fin n → Option (List ℕ)) (newCodes : Fin n → Option (List Code)) : Prop :=
  ∀ b keys, newKeys b = some keys → ∃ codes, newCodes b = some codes ∧ codes.length = keys.length

/-- What a batch does: the buckets `done` take their keys, and on failure the next one has no
room. -/
structure Inserted (newKeys : Fin n → Option (List ℕ)) (a : Fin n → Alloc) (bs : List (Fin n))
    (s s' : RealTimeMemData n Code) (ok : Bool) (done rest : List (Fin n)) : Prop where
  split_eq : bs = done ++ rest
  room : ∀ b ∈ done, HasRoom F newKeys a s b
  ok_iff : ok = true ↔ rest = []
  stuck : ∀ b, rest.head? = some b → ¬HasRoom F newKeys a s b
  count_eq : ∀ v, s'.slotCount v =
    s.slotCount v + (done.map fun b => ((newKeys b).getD []).count v).sum

variable {F}

/-- A bucket that takes its keys, in front of the rest of the batch. -/
theorem Inserted.cons {newKeys : Fin n → Option (List ℕ)} {a : Fin n → Alloc} {b : Fin n}
    {bs : List (Fin n)} {s s₁ s' : RealTimeMemData n Code} {ok : Bool} {done rest : List (Fin n)}
    (hb : HasRoom F newKeys a s b) (hshape : ∀ b' ∈ bs, SameShape b' s s₁)
    (hcount : ∀ v, s₁.slotCount v = s.slotCount v + ((newKeys b).getD []).count v)
    (h : Inserted F newKeys a bs s₁ s' ok done rest) :
    Inserted F newKeys a (b :: bs) s s' ok (b :: done) rest where
  split_eq := by rw [h.split_eq]; rfl
  room b' hb' := by
    rcases List.mem_cons.mp hb' with rfl | hmem
    · exact hb
    · have hmem' : b' ∈ bs := by rw [h.split_eq]; exact List.mem_append_left _ hmem
      exact fun keys hk => (room_congr F (hshape b' hmem') _ _).mp (h.room b' hmem keys hk)
  ok_iff := h.ok_iff
  stuck b' hb' hroom := by
    have hmem' : b' ∈ bs := by
      rw [h.split_eq]; exact List.mem_append_right _ (List.mem_of_mem_head? hb')
    exact h.stuck b' hb' fun keys hk => (room_congr F (hshape b' hmem') _ _).mpr (hroom keys hk)
  count_eq v := by
    rw [h.count_eq, hcount, List.map_cons, List.sum_cons, Nat.add_assoc]

/-- **A batch, bucket by bucket.** -/
theorem addKeysFrom_spec {newKeys : Fin n → Option (List ℕ)} {newCodes : Fin n → Option (List Code)}
    (hpair : Paired newKeys newCodes) {a : Fin n → Alloc} {bs : List (Fin n)} (hnodup : bs.Nodup)
    {s s' : RealTimeMemData n Code} {ok : Bool}
    (h : addKeysFrom F newKeys newCodes a bs s = some (s', ok)) :
    ∃ done rest, Inserted F newKeys a bs s s' ok done rest := by
  induction bs generalizing s with
  | nil =>
    cases h
    exact ⟨[], [], rfl, by simp, by simp, by simp, fun v => rfl⟩
  | cons b bs ih =>
    have hnodup' := List.nodup_cons.mp hnodup
    unfold addKeysFrom at h
    cases hkeys : newKeys b with
    | none =>
      rw [hkeys] at h
      obtain ⟨done, rest, hrest⟩ := ih hnodup'.2 h
      refine ⟨b :: done, rest, hrest.cons ?_ (fun b' _ => SameShape.refl b' s) ?_⟩
      · intro keys hk
        rw [hkeys] at hk
        cases hk
      · intro v
        rw [hkeys]
        rfl
    | some keys =>
      obtain ⟨codes, hcodes, hlen⟩ := hpair b keys hkeys
      rw [hkeys, hcodes] at h
      dsimp only at h
      rw [if_neg (not_not.mpr hlen.symm)] at h
      split at h
      · cases h
      · next s₁ hadd =>
        have hroom := (addKeys_ok_iff_room F hlen hadd).mp rfl
        obtain ⟨done, rest, hrest⟩ := ih hnodup'.2 h
        refine ⟨b :: done, rest, hrest.cons ?_ ?_ ?_⟩
        · intro keys' hk
          rw [hkeys] at hk
          cases hk
          exact hroom
        · intro b' hb'
          have hne : b' ≠ b := fun heq => hnodup'.1 (heq ▸ hb')
          exact addKeys_sameShape F hne hadd
        · intro v
          rcases addKeys_cases F hadd with ⟨hfalse, -⟩ | ⟨-, hadded⟩
          · cases hfalse
          · rw [slotCount_of_added hadded, hkeys]
            rfl
      · next s₁ hadd =>
        cases h
        have hroom := (addKeys_ok_iff_room F hlen hadd).not.mp (by decide)
        refine ⟨[], b :: bs, rfl, by simp, by simp, ?_, ?_⟩
        · intro b' hb' hhas
          cases hb'
          exact hroom (hhas keys hkeys)
        · intro v
          rcases addKeys_cases F hadd with ⟨-, hgrown⟩ | ⟨htrue, -⟩
          · rw [slotCount_of_sameSlots hgrown.toSameSlots]
            rfl
          · cases htrue

/-- **A failing batch leaves nothing behind** exactly when it met `AllOrNothing`. -/
theorem Inserted.nothing_iff {newKeys : Fin n → Option (List ℕ)} {a : Fin n → Alloc}
    {s s' : RealTimeMemData n Code} {done rest : List (Fin n)}
    (h : Inserted F newKeys a (List.finRange n) s s' false done rest)
    (hne : ∀ b, newKeys b ≠ some []) :
    (∀ v, (done.map fun b => ((newKeys b).getD []).count v).sum = 0) ↔
      AllOrNothing F newKeys a s := by
  have hrest : rest ≠ [] := fun heq => by simpa using h.ok_iff.mpr heq
  obtain ⟨b, tail, rfl⟩ := List.exists_cons_of_ne_nil hrest
  have hstuck := h.stuck b rfl
  -- the buckets before the failing one are the lower ones
  have hsorted := List.pairwise_lt_finRange n
  rw [h.split_eq, List.pairwise_append, List.pairwise_cons] at hsorted
  have hlower : ∀ b' ∈ done, b' < b := fun b' hb' => hsorted.2.2 b' hb' b List.mem_cons_self
  have hmem : ∀ b', b' < b → b' ∈ done := by
    intro b' hlt
    have hin := List.mem_finRange b'
    rw [h.split_eq, List.mem_append, List.mem_cons] at hin
    rcases hin with hdone | rfl | htail
    · exact hdone
    · exact absurd hlt (lt_irrefl _)
    · exact absurd (hsorted.2.1.1 b' htail) (lt_asymm hlt)
  constructor
  · intro hzero
    refine .inr ⟨b, hstuck, fun b' hlt => ?_⟩
    cases hkeys : newKeys b' with
    | none => rfl
    | some keys =>
      cases keys with
      | nil => exact absurd hkeys (hne b')
      | cons v keys =>
        have hterm := List.sum_eq_zero_iff_forall_eq_nat.mp (hzero v) (((newKeys b').getD []).count v)
          (List.mem_map_of_mem (hmem b' hlt))
        rw [hkeys, Option.getD_some, List.count_cons_self] at hterm
        omega
  · rintro (hall | ⟨b₀, hno, hbelow⟩) v
    · exact absurd (hall b) hstuck
    · apply List.sum_eq_zero_iff_forall_eq_nat.mpr
      intro c hc
      obtain ⟨b', hb', rfl⟩ := List.mem_map.mp hc
      have hle : b ≤ b₀ := by
        by_contra hlt
        exact hno (h.room b₀ (hmem b₀ (not_le.mp hlt)))
      rw [hbelow b' (lt_of_lt_of_le (hlower b' hb') hle)]
      rfl

end RTInvertIndex

end AwaDB.Realtime
