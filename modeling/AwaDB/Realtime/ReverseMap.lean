import AwaDB.Lib.Run
import AwaDB.Realtime.ExactlyOnce

/-!
# The reverse map of the realtime inverted index

`CompactOne` enters the new position of every slot it keeps into `vid_bucket_no_pos_`, and does
nothing for a slot it drops: the dropped vector's entry still points at its old position, where
another vector may stand after the compaction. `SafeMap` is the property one wants, and
`keepsMapped` the guard on compactions under which it holds; the guard is exact, step by step and
over every run of adds, updates, deletes, bitmap changes and compactions.
-/

namespace AwaDB.Realtime.RealTimeMemData

variable {n : ℕ} {Code : Type}

/-- The operations on the index and on the bitmap it reads. -/
inductive Op (n : ℕ) (Code : Type) where
  | addKeys (listNo : Fin n) (k : ℕ) (keys : List ℕ) (codes : List Code) (a : Alloc)
  | update (bucketNo : Fin n) (vid : ℕ) (code : Code) (a : Alloc)
  | delete (vids : List ℕ)
  | setBit (docid : ℕ)
  | unsetBit (docid : ℕ)
  | compactBucket (bucketNo : Fin n) (a : Alloc)
deriving DecidableEq, Repr

/-- One operation, whatever it returns. -/
def stepOp [Inhabited Code] (F : FloatOps) :
    Op n Code → RealTimeMemData n Code → Option (RealTimeMemData n Code)
  | .addKeys b k keys codes a, s => (s.addKeys F b k keys codes a).map Prod.fst
  | .update b vid code a, s => (s.update F b vid code a).map Prod.fst
  | .delete vids, s => some (s.delete vids)
  | .setBit docid, s => some { s with docidsBitmap := s.docidsBitmap.set docid }
  | .unsetBit docid, s => some { s with docidsBitmap := s.docidsBitmap.unset docid }
  | .compactBucket b a, s => some (s.compactBucket b a).1

/-- Every entry of the reverse map is `-1` or encodes a slot in use that holds the vector's id, up
to the mask bit. -/
def MapSound (s : RealTimeMemData n Code) : Prop :=
  ∀ v, s.bucketNoPos v = -1 ∨ ∃ (b : Fin n) (p : ℕ) (e : Long × Code),
    s.bucketNoPos v = encodePos b p ∧ p < (s.buckets b).retrieveIdxPos ∧
      (s.entries b)[p]? = some e ∧ recoverVid e.1 = v

/-- `Update` leaves every slot of another vector as it is. -/
def UpdateFrame [Inhabited Code] (s : RealTimeMemData n Code) : Prop :=
  ∀ (F : FloatOps) (b : Fin n) (v : ℕ) (c : Code) (a : Alloc) (s' : RealTimeMemData n Code) (r : ℤ),
    s.update F b v c a = some (s', r) →
      ∀ (b' : Fin n) (p : ℕ) (e : Long × Code), (s.entries b')[p]? = some e → recoverVid e.1 ≠ v →
        (s'.entries b')[p]? = some e

/-- The reverse map is never dangling, and so an update never touches a foreign slot. -/
def SafeMap [Inhabited Code] (s : RealTimeMemData n Code) : Prop := s.MapSound ∧ s.UpdateFrame

/-- A compaction of `b` keeps a slot of every vector that the reverse map sends into `b`: its
document is not deleted and one of its slots there is unmasked. -/
def KeepsMapped (s : RealTimeMemData n Code) (b : Fin n) : Prop :=
  ∀ v, s.bucketNoPos v ≠ -1 → bucketOf (s.bucketNoPos v) = b →
    s.isDeleted v = false ∧ ∃ e ∈ s.entries b, recoverVid e.1 = v ∧ isDel e.1 = false

/-- The guard of a run: every compaction that takes place keeps what the map points at. -/
def keepsMapped : Op n Code → RealTimeMemData n Code → Prop
  | .compactBucket b a, s => a ≠ .noHeader → s.KeepsMapped b
  | _, _ => True

/-! ### Masking and overwriting -/

theorem entries_setCode_of_ne (s : RealTimeMemData n Code) {ob b : Fin n} {pos p : ℕ} (c : Code)
    (hne : ¬(b = ob ∧ p = pos)) :
    ((s.setBucket ob ((s.buckets ob).setCode pos c)).entries b)[p]? = (s.entries b)[p]? := by
  rw [entries_setBucket]
  by_cases hb : b = ob
  · subst hb
    rw [if_pos rfl, Bucket.getElem?_entries_setCode, if_neg (fun hp => hne ⟨rfl, hp⟩)]
    rfl
  · rw [if_neg hb]

theorem entries_setCode_self (s : RealTimeMemData n Code) (b : Fin n) (p : ℕ) (c : Code)
    {e : Long × Code} (he : (s.entries b)[p]? = some e) :
    ((s.setBucket b ((s.buckets b).setCode p c)).entries b)[p]? = some (e.1, c) := by
  rw [entries_setBucket, if_pos rfl, Bucket.getElem?_entries_setCode, if_pos rfl]
  change (s.entries b)[p]?.map _ = _
  rw [he]
  rfl

theorem entries_maskSlot_self (s : RealTimeMemData n Code) (b : Fin n) (p : ℕ) {e : Long × Code}
    (he : (s.entries b)[p]? = some e) :
    ((s.setBucket b ((s.buckets b).maskSlot p)).entries b)[p]? =
      some (e.1 ||| kDelIdxMask, e.2) := by
  rw [entries_setBucket, if_pos rfl, Bucket.getElem?_entries_maskSlot, if_pos rfl]
  change (s.entries b)[p]?.map _ = _
  rw [he]
  rfl

/-- A sound map stays sound when every slot it can point at keeps a slot of the same vector. -/
theorem MapSound.of_slots {s s' : RealTimeMemData n Code} (h : s.MapSound)
    (hmap : s'.vidBucketNoPos = s.vidBucketNoPos)
    (hslot : ∀ (b : Fin n) (p : ℕ) (e : Long × Code), (s.entries b)[p]? = some e →
      ∃ e', (s'.entries b)[p]? = some e' ∧ recoverVid e'.1 = recoverVid e.1) : s'.MapSound := by
  intro v
  have hv : s'.bucketNoPos v = s.bucketNoPos v := by rw [bucketNoPos, bucketNoPos, hmap]
  rw [hv]
  rcases h v with hneg | ⟨b, p, e, henc, -, he, hrec⟩
  · exact .inl hneg
  · obtain ⟨e', he', hrec'⟩ := hslot b p e he
    have hlt := ((s'.buckets b).getElem?_entries p e').mp he'
    exact .inr ⟨b, p, e', henc, hlt.1, he', hrec'.trans hrec⟩

theorem MapSound.of_sameSlots {s s' : RealTimeMemData n Code} (h : s.MapSound)
    (hs : SameSlots s s') : s'.MapSound :=
  h.of_slots hs.map_eq fun b p e he => ⟨e, by rw [hs.entries_eq]; exact he, rfl⟩

theorem MapSound.of_setCode {s : RealTimeMemData n Code} (h : s.MapSound) (ob : Fin n) (pos : ℕ)
    (c : Code) : (s.setBucket ob ((s.buckets ob).setCode pos c)).MapSound := by
  have hmap : (s.setBucket ob ((s.buckets ob).setCode pos c)).vidBucketNoPos = s.vidBucketNoPos := rfl
  apply h.of_slots hmap
  intro b p e he
  by_cases hpos : b = ob ∧ p = pos
  · obtain ⟨rfl, rfl⟩ := hpos
    exact ⟨(e.1, c), entries_setCode_self s b p c he, rfl⟩
  · exact ⟨e, by rw [entries_setCode_of_ne s c hpos]; exact he, rfl⟩

theorem MapSound.of_maskSlot {s : RealTimeMemData n Code} (h : s.MapSound) (ob : Fin n) (pos : ℕ) :
    (s.setBucket ob ((s.buckets ob).maskSlot pos)).MapSound := by
  have hmap : (s.setBucket ob ((s.buckets ob).maskSlot pos)).vidBucketNoPos = s.vidBucketNoPos := rfl
  apply h.of_slots hmap
  intro b p e he
  by_cases hpos : b = ob ∧ p = pos
  · obtain ⟨rfl, rfl⟩ := hpos
    exact ⟨_, entries_maskSlot_self s b p he, recoverVid_mask e.1⟩
  · exact ⟨e, slot_maskSlot_of_ne hpos he, rfl⟩

theorem MapSound.of_added {s s' : RealTimeMemData n Code} (h : s.MapSound) {b : Fin n}
    {keys : List ℕ} {codes : List Code} (hadd : Added b keys codes s s') : s'.MapSound := by
  intro v
  by_cases hv : v ∈ keys
  · obtain ⟨i, hi, hmap⟩ := hadd.map_of_mem v hv
    have hlt : i < codes.length := by
      rw [hadd.codes_length]
      exact (List.getElem?_eq_some_iff.mp hi).1
    have hslot := hadd.slot_of_key hi (List.getElem?_eq_getElem hlt)
    have hpos := ((s'.buckets b).getElem?_entries _ _).mp hslot
    exact .inr ⟨b, _, _, hmap, hpos.1, hslot, recoverVid_ofVid (hadd.key_lt v hv).2⟩
  · rw [hadd.map_of_notMem v hv]
    rcases h v with hneg | ⟨bv, p, e, henc, -, he, hrec⟩
    · exact .inl hneg
    · have he' := hadd.slot_of_old he
      have hpos := ((s'.buckets bv).getElem?_entries _ _).mp he'
      exact .inr ⟨bv, p, e, henc, hpos.1, he', hrec⟩

theorem idsInRange_setCode {s : RealTimeMemData n Code} (h : s.IdsInRange) (ob : Fin n) (pos : ℕ)
    (c : Code) : (s.setBucket ob ((s.buckets ob).setCode pos c)).IdsInRange := by
  intro b e he
  obtain ⟨p, hp⟩ := List.mem_iff_getElem?.mp he
  obtain ⟨e₀, h₀, hid, -⟩ := slot_setCode hp
  rw [hid]
  exact h b e₀ (List.mem_of_getElem? h₀)

theorem idsInRange_maskSlot {s : RealTimeMemData n Code} (h : s.IdsInRange) (ob : Fin n) (pos : ℕ) :
    (s.setBucket ob ((s.buckets ob).maskSlot pos)).IdsInRange := by
  intro b e he
  obtain ⟨p, hp⟩ := List.mem_iff_getElem?.mp he
  obtain ⟨e₀, h₀, -, hid⟩ := slot_maskSlot hp
  have hrec : recoverVid e.1 = recoverVid e₀.1 := by rw [hid]; split <;> simp
  rw [hrec]
  exact h b e₀ (List.mem_of_getElem? h₀)

/-- **Compaction is the only danger.** A compaction keeps a sound map sound exactly when it keeps a
slot of every vector the map sends into the bucket. -/
theorem mapSound_compacted_iff {s s' : RealTimeMemData n Code} {b : Fin n} (h : s.MapSound)
    (hc : Compacted b s s') : s'.MapSound ↔ s.KeepsMapped b := by
  constructor
  · intro h' v hpos hbv
    by_contra hdrop
    have hnone : ∀ e ∈ s.survivors b, recoverVid e.1 ≠ v := by
      intro e he hrec
      obtain ⟨hmem, hm, hdel⟩ := mem_survivors.mp he
      rw [hrec] at hdel
      exact hdrop ⟨hdel, e, hmem, hrec, hm⟩
    rcases hc.map_eq v with ⟨p, e, hp, hrec, -⟩ | ⟨-, hold⟩
    · exact hnone e (List.mem_of_getElem? hp) hrec
    · rcases h' v with hneg | ⟨b', p', e', henc, -, he', hrec'⟩
      · exact hpos (hold.symm.trans hneg)
      · have hlt := Bucket.lt_of_getElem? he'
        rw [← hold, henc, bucketOf_encodePos hlt] at hbv
        have hb' : b' = b := Fin.ext hbv
        subst hb'
        rw [hc.entries_eq, if_pos rfl] at he'
        exact hnone e' (List.mem_of_getElem? he') hrec'
  · intro hkeep v
    rcases hc.map_eq v with ⟨p, e, hp, hrec, hmap⟩ | ⟨hnone, hold⟩
    · have he : (s'.entries b)[p]? = some e := by rw [hc.entries_eq, if_pos rfl]; exact hp
      have hlt := ((s'.buckets b).getElem?_entries p e).mp he
      exact .inr ⟨b, p, e, hmap, hlt.1, he, hrec⟩
    · rw [hold]
      rcases h v with hneg | ⟨b', p', e', henc, -, he', hrec'⟩
      · exact .inl hneg
      · have hb' : b' ≠ b := by
          rintro rfl
          have hpos : s.bucketNoPos v ≠ -1 := by rw [henc]; exact encodePos_ne_neg_one _ _
          obtain ⟨hdel, e, hmem, hrec, hm⟩ :=
            hkeep v hpos (by rw [henc, bucketOf_encodePos (Bucket.lt_of_getElem? he')])
          exact hnone e (mem_survivors.mpr ⟨hmem, hm, by rw [hrec]; exact hdel⟩) hrec
        have he : (s'.entries b')[p']? = some e' := by rw [hc.entries_eq, if_neg hb']; exact he'
        have hlt := ((s'.buckets b').getElem?_entries p' e').mp he
        exact .inr ⟨b', p', e', henc, hlt.1, he, hrec'⟩

/-! ### Steps -/

section Step

variable [Inhabited Code] {F : FloatOps}

theorem mapSound_of_addKeys {s s' : RealTimeMemData n Code} {b : Fin n} {k : ℕ} {keys : List ℕ}
    {codes : List Code} {a : Alloc} {ok : Bool} (h : s.MapSound)
    (hadd : s.addKeys F b k keys codes a = some (s', ok)) : s'.MapSound := by
  rcases addKeys_cases F hadd with ⟨-, hgrown⟩ | ⟨-, hadded⟩
  · exact h.of_sameSlots hgrown.toSameSlots
  · exact h.of_added hadded

theorem idsInRange_of_addKeys {s s' : RealTimeMemData n Code} {b : Fin n} {k : ℕ} {keys : List ℕ}
    {codes : List Code} {a : Alloc} {ok : Bool} (h : s.IdsInRange)
    (hadd : s.addKeys F b k keys codes a = some (s', ok)) : s'.IdsInRange := by
  rcases addKeys_cases F hadd with ⟨-, hgrown⟩ | ⟨-, hadded⟩
  · exact h.of_sameSlots hgrown.toSameSlots
  · exact h.of_added hadded

theorem idsInRange_step (o : Op n Code) (s s' : RealTimeMemData n Code) (h : s.IdsInRange)
    (hstep : stepOp F o s = some s') : s'.IdsInRange := by
  cases o with
  | addKeys b k keys codes a =>
    obtain ⟨⟨t, ok⟩, ht, rfl⟩ := Option.map_eq_some_iff.mp hstep
    exact idsInRange_of_addKeys h ht
  | update b vid code a =>
    obtain ⟨⟨t, r⟩, ht, rfl⟩ := Option.map_eq_some_iff.mp hstep
    rcases update_cases F ht with ⟨-, rfl, -⟩ | ⟨ob, -, -, ⟨-, -, rfl⟩ | ⟨-, ok, hadd, -⟩⟩
    · exact h
    · exact idsInRange_setCode h ob _ code
    · exact idsInRange_of_addKeys (idsInRange_maskSlot h ob _) hadd
  | delete vids => cases hstep; exact h.of_sameSlots (delete_sameSlots vids s)
  | setBit docid => cases hstep; exact h
  | unsetBit docid => cases hstep; exact h
  | compactBucket b a =>
    cases hstep
    unfold compactBucket
    split
    · exact h
    · exact h.of_compacted (compactSlots_spec h b)

/-- **A sound map confines updates.** -/
theorem MapSound.updateFrame {s : RealTimeMemData n Code} (h : s.MapSound) : s.UpdateFrame := by
  intro F b v c a s' r hup b' p e he hne
  rcases update_cases F hup with ⟨-, rfl, -⟩ | ⟨ob, hpos, hob, hcase⟩
  · exact he
  · rcases h v with hneg | ⟨bv, pv, ev, henc, -, hev, hrec⟩
    · exact absurd hneg hpos
    · have hlt := Bucket.lt_of_getElem? hev
      rw [henc, bucketOf_encodePos hlt] at hob
      have hob : bv = ob := Fin.ext hob
      subst hob
      rw [henc, posOf_encodePos hlt] at hcase
      -- the slot the map names is the vector's own
      have hother : ¬(b' = bv ∧ p = pv) := by
        rintro ⟨rfl, rfl⟩
        rw [hev] at he
        cases he
        exact hne hrec
      rcases hcase with ⟨-, -, rfl⟩ | ⟨-, ok, hadd, -⟩
      · rw [entries_setCode_of_ne s c hother]
        exact he
      · have hmask := slot_maskSlot_of_ne hother he
        rcases addKeys_cases F hadd with ⟨-, hgrown⟩ | ⟨-, hadded⟩
        · rw [hgrown.entries_eq]; exact hmask
        · exact hadded.slot_of_old hmask

/-- One step keeps the map sound exactly when it meets the guard. -/
theorem mapSound_step_iff (o : Op n Code) (s s' : RealTimeMemData n Code) (hids : s.IdsInRange)
    (h : s.MapSound) (hstep : stepOp F o s = some s') : s'.MapSound ↔ keepsMapped o s := by
  cases o with
  | addKeys b k keys codes a =>
    obtain ⟨⟨t, ok⟩, ht, rfl⟩ := Option.map_eq_some_iff.mp hstep
    exact iff_of_true (mapSound_of_addKeys h ht) trivial
  | update b vid code a =>
    obtain ⟨⟨t, r⟩, ht, rfl⟩ := Option.map_eq_some_iff.mp hstep
    refine iff_of_true ?_ trivial
    rcases update_cases F ht with ⟨-, rfl, -⟩ | ⟨ob, -, -, ⟨-, -, rfl⟩ | ⟨-, ok, hadd, -⟩⟩
    · exact h
    · exact h.of_setCode ob _ code
    · exact mapSound_of_addKeys (h.of_maskSlot ob _) hadd
  | delete vids =>
    cases hstep
    exact iff_of_true (h.of_sameSlots (delete_sameSlots vids s)) trivial
  | setBit docid => cases hstep; exact iff_of_true h trivial
  | unsetBit docid => cases hstep; exact iff_of_true h trivial
  | compactBucket b a =>
    cases hstep
    unfold compactBucket
    by_cases ha : a = .noHeader
    · rw [if_pos ha]
      exact iff_of_true h (fun hne => absurd ha hne)
    · rw [if_neg ha, mapSound_compacted_iff h (compactSlots_spec hids b)]
      exact ⟨fun hk _ => hk, fun hk => hk ha⟩

theorem safeMap_iff (s : RealTimeMemData n Code) : s.SafeMap ↔ s.MapSound :=
  ⟨And.left, fun h => ⟨h, h.updateFrame⟩⟩

/-- A freshly initialised map is all `-1`. -/
theorem mapSound_init (bucketKeys limit : ℕ) (hk : bucketKeys < 2 ^ 31) (docids : BitmapManager)
    (vidMgr : VIDMgr) : (init bucketKeys limit hk docids vidMgr : RealTimeMemData n Code).MapSound := by
  intro v
  left
  simp only [bucketNoPos, init, List.getD_eq_getElem?_getD, List.getElem?_replicate]
  split <;> rfl

/-- **When the reverse map is never dangling.** In a run from `Init` the map is sound, and updates
stay within their vector's slots, in every state reached exactly when every compaction of the run
keeps a slot of each vector the map sends into the compacted bucket. -/
theorem safeMap_always_iff (F : FloatOps) (bucketKeys limit : ℕ) (hk : bucketKeys < 2 ^ 31)
    (docids : BitmapManager) (vidMgr : VIDMgr) (ops : List (Op n Code)) :
    Lib.Always (stepOp F) SafeMap ops (init bucketKeys limit hk docids vidMgr) ↔
      Lib.EachStep (stepOp F) keepsMapped ops (init bucketKeys limit hk docids vidMgr) := by
  have hids : (init bucketKeys limit hk docids vidMgr : RealTimeMemData n Code).IdsInRange :=
    (inv_init bucketKeys limit hk docids vidMgr).idsInRange
  refine Lib.always_iff_guard (A := IdsInRange) idsInRange_step ?_ hids
    ((safeMap_iff _).mpr (mapSound_init bucketKeys limit hk docids vidMgr))
  intro o s s' hidss hs hstep
  rw [safeMap_iff]
  exact mapSound_step_iff o s s' hidss hs.1 hstep

/-- Two vectors share a bucket, the first one's document is deleted and the bucket compacted: the
run breaks the guard, and so the property. -/
theorem safeMap_always_iff_compacted :
    ¬Lib.Always (stepOp FloatOps.rational) SafeMap
      [.addKeys 0 2 [0, 1] [70, 71] .ok, .setBit 0, .compactBucket 0 .ok]
      (init 2 8 (by decide) (.init 16) (.init false 0) : RealTimeMemData 1 ℕ) := by
  rw [safeMap_always_iff _ 2 8 (by decide)]
  intro h
  have hkeep := ((((h _ rfl).2 _ rfl).2) _ rfl).1 (by decide) 0 (by decide) (by decide)
  exact absurd hkeep.1 (by decide)

/-- The same run, seen from the other vector: the map sends the dropped vector `0` to slot `0`, where
vector `1` now is, and once the document is added again an update of vector `0` overwrites the code
of vector `1`. -/
theorem dangling_after_compaction : ∃ s s' : RealTimeMemData 1 ℕ,
    Lib.runOps (stepOp FloatOps.rational)
        [.addKeys 0 2 [0, 1] [70, 71] .ok, .setBit 0, .compactBucket 0 .ok, .unsetBit 0]
        (init 2 8 (by decide) (.init 16) (.init false 0)) = some s ∧
      s.bucketNoPos 0 = 0 ∧ s.entries 0 = [(1#64, 71)] ∧ ¬s.SafeMap ∧
      s.update FloatOps.rational 0 0 99 .ok = some (s', 0) ∧ s'.entries 0 = [(1#64, 99)] := by
  refine ⟨_, _, rfl, rfl, rfl, ?_, rfl, rfl⟩
  rintro ⟨hsound, -⟩
  rcases hsound 0 with h | ⟨b, p, e, henc, hp, he, hrec⟩
  · exact absurd h (by decide)
  · have hb : b = 0 := Subsingleton.elim _ _
    have hp0 : p = 0 := Nat.lt_one_iff.mp (by subst hb; exact hp)
    subst hb hp0
    have heq : e = (1#64, 71) := (Option.some.inj he).symm
    subst heq
    exact absurd hrec (by decide)

end Step

end AwaDB.Realtime.RealTimeMemData
