import AwaDB.Realtime.ReverseMap

/-!
# What a failing `RealTimeMemData::Update` leaves behind

`Update` masks the old slot and counts it as deleted before `AddKeys` has found room in the new
bucket, and it returns the `bool` of `AddKeys` from a function whose other exits, like every other
`int` function of the class, return `0` for success.

* `update_moved`: the two outcomes of an update that leaves its bucket;
* `updateIsAtomic_iff`: the update is atomic on failure, and reports truthfully, exactly when the
  vector stays in its bucket.
-/

namespace AwaDB.Realtime.RealTimeMemData

variable {n : ℕ} {Code : Type}

/-- The reverse map sends `v` to an unmasked slot that holds `v` and the code `c`. -/
def StoredAt (s : RealTimeMemData n Code) (v : ℕ) (b : Fin n) (p : ℕ) (c : Code) : Prop :=
  s.bucketNoPos v = encodePos b p ∧
    ∃ id, (s.entries b)[p]? = some (id, c) ∧ isDel id = false ∧ recoverVid id = v

/-- The code has been placed: the vector stands in bucket `b`, wherever, with code `c`. -/
def Placed (s : RealTimeMemData n Code) (v : ℕ) (b : Fin n) (c : Code) : Prop :=
  ∃ p, s.StoredAt v b p c

/-- `0`, as for `Delete`, `ExtendBucketIfNeed` and `CompactIfNeed`. -/
def ReportsSuccess (r : ℤ) : Prop := r = 0

/-- An update of `v`, stored in slot `p₀` of `b₀` with code `c₀`, that went from `s` to `s'` and
returned `r`: if the code was not placed the call reports failure and the vector and the deleted
counter of its bucket are as before, and success is reported exactly when the code was placed. -/
def UpdateIsAtomic (s s' : RealTimeMemData n Code) (r : ℤ) (v : ℕ) (b₀ : Fin n) (p₀ : ℕ) (c₀ : Code)
    (b : Fin n) (c : Code) : Prop :=
  (¬s'.Placed v b c → ¬ReportsSuccess r ∧ s'.StoredAt v b₀ p₀ c₀ ∧
    (s'.buckets b₀).deletedNum = (s.buckets b₀).deletedNum) ∧
  (ReportsSuccess r ↔ s'.Placed v b c)

/-- Exactly-once storage provides the hypothesis. -/
theorem OccupiesOneSlot.storedAt {s : RealTimeMemData n Code} {v : ℕ} {b : Fin n} {c : Code}
    (h : s.OccupiesOneSlot v b c) : ∃ p, s.StoredAt v b p c := by
  obtain ⟨p, id, hslot, hdel, hrec, hmap, -⟩ := h
  exact ⟨p, hmap, id, hslot, hdel, hrec⟩

/-- The reverse map names one slot only. -/
theorem StoredAt.unique {s : RealTimeMemData n Code} {v : ℕ} {b b' : Fin n} {p p' : ℕ}
    {e : Long × Code} {c' : Code} (hmap : s.bucketNoPos v = encodePos b p)
    (he : (s.entries b)[p]? = some e) (h : s.StoredAt v b' p' c') :
    isDel e.1 = false ∧ e.2 = c' := by
  obtain ⟨hmap', id, he', hdel, -⟩ := h
  obtain ⟨hb, hp⟩ := encodePos_inj (Bucket.lt_of_getElem? he) (Bucket.lt_of_getElem? he')
    (hmap.symm.trans hmap')
  have hb : b = b' := Fin.ext hb
  subst hb hp
  rw [he] at he'
  cases he'
  exact ⟨hdel, rfl⟩

section Update

variable [Inhabited Code] {F : FloatOps}

/-- A vector that stays in its bucket has its code replaced, and `0` is returned. -/
theorem update_same {s s' : RealTimeMemData n Code} {v : ℕ} {b : Fin n} {p : ℕ} {c₀ c : Code}
    {a : Alloc} {r : ℤ} (h : s.StoredAt v b p c₀) (hup : s.update F b v c a = some (s', r)) :
    r = 0 ∧ s'.StoredAt v b p c := by
  obtain ⟨hmap, id, hslot, hdel, hrec⟩ := h
  have hp := Bucket.lt_of_getElem? hslot
  rcases update_cases_of_slot F hmap hp hup with ⟨-, hr, rfl⟩ | ⟨hne, -⟩
  · exact ⟨hr, hmap, id, entries_setCode_self s b p c hslot, hdel, hrec⟩
  · exact absurd rfl hne

/-- **An update that leaves its bucket.** Either the code is placed and `1` is returned, or `0` is
returned, the old slot is masked, the vector has no slot of its own left, and the old bucket counts
one more deleted vector. -/
theorem update_moved {s s' : RealTimeMemData n Code} {v : ℕ} {b₀ b : Fin n} {p₀ : ℕ} {c₀ c : Code}
    {a : Alloc} {r : ℤ} (h : s.StoredAt v b₀ p₀ c₀) (hne : b ≠ b₀)
    (hup : s.update F b v c a = some (s', r)) :
    (r = 1 ∧ s'.Placed v b c) ∨
    (r = 0 ∧ (∀ b' p' c', ¬s'.StoredAt v b' p' c') ∧
      (s'.buckets b₀).deletedNum = (s.buckets b₀).deletedNum + 1) := by
  obtain ⟨hmap, id, hslot, hdel, hrec⟩ := h
  have hp := Bucket.lt_of_getElem? hslot
  rcases update_cases_of_slot F hmap hp hup with ⟨heq, -, -⟩ | ⟨-, ok, hadd, hr⟩
  · exact absurd heq.symm hne
  · rcases addKeys_cases F hadd with ⟨rfl, hgrown⟩ | ⟨rfl, hadded⟩
    · refine .inr ⟨by simpa using hr, ?_, ?_⟩
      · intro b' p' c' hstored
        have hmask := entries_maskSlot_self s b₀ p₀ hslot
        rw [← hgrown.entries_eq] at hmask
        have hmap' : s'.bucketNoPos v = encodePos b₀ p₀ := by
          rw [hgrown.bucketNoPos_eq, bucketNoPos_setBucket, hmap]
        have hunmasked := (StoredAt.unique hmap' hmask hstored).1
        rw [isDel_mask] at hunmasked
        cases hunmasked
      · rw [hgrown.deleted_eq, buckets_setBucket, if_pos rfl]
        rfl
    · refine .inl ⟨by simpa using hr, ?_⟩
      obtain ⟨i, hi, hmap'⟩ := hadded.map_of_mem v List.mem_cons_self
      have hlt := (hadded.key_lt v List.mem_cons_self).2
      have hi0 : i = 0 := by
        have := (List.getElem?_eq_some_iff.mp hi).1
        simpa using this
      subst hi0
      exact ⟨_, hmap', ofVid v, hadded.slot_of_key hi rfl, isDel_ofVid hlt, recoverVid_ofVid hlt⟩

/-- **When an update is atomic.** The update of a stored vector changes nothing on failure and
reports success exactly when it placed the code if and only if the vector stays in its bucket. -/
theorem updateIsAtomic_iff (F : FloatOps) (s s' : RealTimeMemData n Code) (r : ℤ) (v : ℕ)
    (b₀ : Fin n) (p₀ : ℕ) (c₀ : Code) (b : Fin n) (c : Code) (a : Alloc)
    (hstored : s.StoredAt v b₀ p₀ c₀) (hup : s.update F b v c a = some (s', r)) :
    UpdateIsAtomic s s' r v b₀ p₀ c₀ b c ↔ b = b₀ := by
  constructor
  · rintro ⟨hfail, hreport⟩
    by_contra hne
    rcases update_moved hstored hne hup with ⟨hr, hplaced⟩ | ⟨hr, hlost, -⟩
    · have hzero : r = 0 := hreport.mpr hplaced
      omega
    · have hnot : ¬s'.Placed v b c := fun ⟨p, h⟩ => hlost b p c h
      exact (hfail hnot).1 hr
  · rintro rfl
    obtain ⟨hr, hplaced⟩ := update_same hstored hup
    exact ⟨fun hnot => absurd ⟨p₀, hplaced⟩ hnot, fun _ => ⟨p₀, hplaced⟩, fun _ => hr⟩

/-- Two buckets of one slot each that may not grow, each with its vector. -/
def twoFullBuckets : RealTimeMemData 2 ℕ :=
  (Lib.runOps (stepOp FloatOps.rational) [.addKeys 0 1 [0] [70] .ok, .addKeys 1 1 [1] [71] .ok]
    (init 1 2 one_lt_maxSlots (.init 16) (.init false 0))).getD
      (init 1 2 one_lt_maxSlots (.init 16) (.init false 0))

theorem twoFullBuckets_storedAt : twoFullBuckets.StoredAt 0 0 0 70 :=
  ⟨rfl, 0#64, rfl, by decide, by decide⟩

/-- Vector `0` is moved to the full bucket: the theorem says that the update is not atomic. -/
theorem updateIsAtomic_iff_full : ∃ s', twoFullBuckets.update FloatOps.rational 1 0 77 .ok =
    some (s', 0) ∧ ¬UpdateIsAtomic twoFullBuckets s' 0 0 0 0 70 1 77 := by
  refine ⟨_, rfl, ?_⟩
  rw [updateIsAtomic_iff FloatOps.rational twoFullBuckets _ 0 0 0 0 70 1 77 .ok
    twoFullBuckets_storedAt rfl]
  decide

/-- The same update in the arrays: `0` is returned, the only slot of vector `0` is masked and its
bucket counts it as deleted, and the new code is nowhere. -/
theorem update_into_full_bucket : ∃ s',
    Lib.runOps (stepOp FloatOps.rational)
        [.addKeys 0 1 [0] [70] .ok, .addKeys 1 1 [1] [71] .ok, .update 1 0 77 .ok]
        (init 1 2 (by decide) (.init 16) (.init false 0)) = some s' ∧
      twoFullBuckets.update FloatOps.rational 1 0 77 .ok = some (s', 0) ∧
      twoFullBuckets.entries 0 = [(0#64, 70)] ∧ s'.entries 0 = [(kDelIdxMask, 70)] ∧
      s'.entries 1 = [(1#64, 71)] ∧ (s'.buckets 0).deletedNum = 1 ∧
      ¬UpdateIsAtomic twoFullBuckets s' 0 0 0 0 70 1 77 := by
  refine ⟨_, rfl, rfl, rfl, by decide, by decide, rfl, ?_⟩
  rintro ⟨hfail, -⟩
  refine (hfail ?_).1 rfl
  rintro ⟨p, -, id, hslot, -, hrec⟩
  have hp : p = 0 := Nat.lt_one_iff.mp (List.getElem?_eq_some_iff.mp hslot).1
  subst hp
  cases hslot

end Update

end AwaDB.Realtime.RealTimeMemData
