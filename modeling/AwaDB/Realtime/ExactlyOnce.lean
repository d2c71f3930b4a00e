import AwaDB.Lib.Lists
import AwaDB.Realtime.MemData

/-!
# Exactly-once storage in the realtime inverted index

The purpose of the index, stated without its arrays, is a map from a vector id to the bucket and
the code it was last given (`Stored`). `Reaches` pairs every state that successful calls can reach
with that map, and `Inv` ties the two together: a stored vector that is not deleted stands in its
slot and the reverse map knows it, and no unmasked slot belongs to anything else. One step lemma
per operation keeps `Inv`; `occupiesOneSlot_of_reaches` reads the guarantee off it.
-/

namespace AwaDB.Realtime.RealTimeMemData

variable {n : ℕ} {Code : Type}

/-- The bucket and the code each vector was last given. -/
abbrev Stored (n : ℕ) (Code : Type) := ℕ → Option (Fin n × Code)

/-- The map after one `AddKeys`. -/
def Stored.record (g : Stored n Code) (b : Fin n) (keys : List ℕ) (codes : List Code) :
    Stored n Code := fun v =>
  match (keys.zip codes).lookup v with
  | some c => some (b, c)
  | none => g v

section Reaches

variable [Inhabited Code] (F : FloatOps)

/-- The states reached from `s₀` by calls that succeed, with what each vector was last given: added
vectors are fresh, and only stored vectors that are not deleted are updated. `setBit` is the engine
marking a document as deleted. -/
inductive Reaches (s₀ : RealTimeMemData n Code) :
    RealTimeMemData n Code → Stored n Code → Prop
  | start : Reaches s₀ s₀ (fun _ => none)
  | addKeys {s s' g b k keys codes a} : Reaches s₀ s g → (∀ key ∈ keys, g key = none) →
      keys.Nodup → s.addKeys F b k keys codes a = some (s', true) →
      Reaches s₀ s' (g.record b keys codes)
  | update {s s' g b v c a r} {b₀ : Fin n} {c₀ : Code} : Reaches s₀ s g → g v = some (b₀, c₀) →
      s.isDeleted v = false → s.update F b v c a = some (s', r) → (b = b₀ ∨ r = 1) →
      Reaches s₀ s' (Function.update g v (some (b, c)))
  | delete {s g} (vids : List ℕ) : Reaches s₀ s g → Reaches s₀ (s.delete vids) g
  | setBit {s g} (docid : ℕ) : Reaches s₀ s g →
      Reaches s₀ { s with docidsBitmap := s.docidsBitmap.set docid } g
  | compactBucket {s s' g b a} : Reaches s₀ s g → s.compactBucket b a = (s', true) →
      Reaches s₀ s' g
  | compactIfNeed {s s' g a} : Reaches s₀ s g → s.compactIfNeed F a = (s', 0) → Reaches s₀ s' g
  | extendBucketMem {s s' g b k a} : Reaches s₀ s g →
      s.extendBucketMem F b k a = some (s', true) → Reaches s₀ s' g
  | extendBucketIfNeed {s s' g b k a} : Reaches s₀ s g →
      s.extendBucketIfNeed F b k a = some (s', 0) → Reaches s₀ s' g

end Reaches

/-- Vector `v` occupies exactly one slot whose mask bit is clear, in bucket `b` and with code `c`,
and the reverse map encodes that bucket and slot. -/
def OccupiesOneSlot (s : RealTimeMemData n Code) (v : ℕ) (b : Fin n) (c : Code) : Prop :=
  ∃ p id, (s.entries b)[p]? = some (id, c) ∧ isDel id = false ∧ recoverVid id = v ∧
    s.bucketNoPos v = encodePos b p ∧
    ∀ (b' : Fin n) (p' : ℕ) (e : Long × Code), (s.entries b')[p']? = some e → isDel e.1 = false →
      recoverVid e.1 = v → b' = b ∧ p' = p

/-- The invariant that ties the index to the map of what is stored. -/
structure Inv (s : RealTimeMemData n Code) (g : Stored n Code) : Prop where
  idsInRange : s.IdsInRange
  /-- A stored vector that is not deleted is in its slot, and the reverse map says so. -/
  slot_of_stored : ∀ v b c, g v = some (b, c) → s.isDeleted v = false →
    ∃ p, (s.entries b)[p]? = some (ofVid v, c) ∧ s.bucketNoPos v = encodePos b p
  /-- An unmasked slot belongs to a stored vector, and is its only one unless it is deleted. -/
  stored_of_slot : ∀ (b : Fin n) (p : ℕ) (e : Long × Code), (s.entries b)[p]? = some e →
    isDel e.1 = false → (g (recoverVid e.1)).isSome ∧
      (s.isDeleted (recoverVid e.1) = false →
        s.bucketNoPos (recoverVid e.1) = encodePos b p)
  vid_lt : ∀ v, (g v).isSome → v < 2 ^ 63

/-- Two unmasked slots of one vector that is not deleted are the same slot. -/
theorem Inv.slot_unique {s : RealTimeMemData n Code} {g : Stored n Code} (h : Inv s g)
    {b b' : Fin n} {p p' : ℕ} {e e' : Long × Code} (he : (s.entries b)[p]? = some e)
    (he' : (s.entries b')[p']? = some e') (hm : isDel e.1 = false) (hm' : isDel e'.1 = false)
    (hv : recoverVid e'.1 = recoverVid e.1) (hdel : s.isDeleted (recoverVid e.1) = false) :
    b' = b ∧ p' = p := by
  have hmap := (h.stored_of_slot b p e he hm).2 hdel
  have hmap' := (h.stored_of_slot b' p' e' he' hm').2 (by rw [hv]; exact hdel)
  rw [hv, hmap] at hmap'
  obtain ⟨hb, hp⟩ := encodePos_inj (Bucket.lt_of_getElem? he) (Bucket.lt_of_getElem? he') hmap'
  exact ⟨Fin.ext hb.symm, hp.symm⟩

/-- The invariant gives the guarantee. -/
theorem Inv.occupiesOneSlot {s : RealTimeMemData n Code} {g : Stored n Code} (h : Inv s g) {v : ℕ}
    {b : Fin n} {c : Code} (hg : g v = some (b, c)) (hdel : s.isDeleted v = false) :
    s.OccupiesOneSlot v b c := by
  obtain ⟨p, hslot, hmap⟩ := h.slot_of_stored v b c hg hdel
  have hlt : v < 2 ^ 63 := h.vid_lt v (by rw [hg]; rfl)
  have hrec := recoverVid_ofVid hlt
  refine ⟨p, ofVid v, hslot, isDel_ofVid hlt, hrec, hmap, ?_⟩
  intro b' p' e he hm hv
  exact h.slot_unique hslot he (isDel_ofVid hlt) hm (hv.trans hrec.symm) (by rw [hrec]; exact hdel)

/-! ### Steps that keep the slots -/

theorem IdsInRange.of_sameSlots {s s' : RealTimeMemData n Code} (h : s.IdsInRange)
    (hs : SameSlots s s') : s'.IdsInRange := by
  intro b e he
  rw [hs.entries_eq] at he
  rw [hs.map_eq]
  exact h b e he

theorem Inv.of_sameSlots {s s' : RealTimeMemData n Code} {g : Stored n Code} (h : Inv s g)
    (hs : SameSlots s s') : Inv s' g where
  idsInRange := h.idsInRange.of_sameSlots hs
  slot_of_stored v b c hg hdel := by
    rw [hs.entries_eq, hs.bucketNoPos_eq]
    exact h.slot_of_stored v b c hg (by rw [← hs.isDeleted_eq]; exact hdel)
  stored_of_slot b p e he hm := by
    rw [hs.entries_eq] at he
    rw [hs.bucketNoPos_eq, hs.isDeleted_eq]
    exact h.stored_of_slot b p e he hm
  vid_lt := h.vid_lt

/-- Marking one more document as deleted asks less of the index. -/
theorem Inv.setBit {s : RealTimeMemData n Code} {g : Stored n Code} (h : Inv s g) (docid : ℕ) :
    Inv { s with docidsBitmap := s.docidsBitmap.set docid } g where
  idsInRange := h.idsInRange
  slot_of_stored v b c hg hdel :=
    h.slot_of_stored v b c hg (BitmapManager.test_of_test_set docid hdel)
  stored_of_slot b p e he hm := by
    refine ⟨(h.stored_of_slot b p e he hm).1, fun hdel => ?_⟩
    exact (h.stored_of_slot b p e he hm).2 (BitmapManager.test_of_test_set docid hdel)
  vid_lt := h.vid_lt

/-! ### Adding -/

theorem isDeleted_of_added {b : Fin n} {keys : List ℕ} {codes : List Code}
    {s s' : RealTimeMemData n Code} (h : Added b keys codes s s') (v : ℕ) :
    s'.isDeleted v = s.isDeleted v := by
  rw [isDeleted, isDeleted, h.bitmap_eq, h.vidMgr_eq]

/-- A slot after `AddKeys` is an old one, or the slot of the `i`-th key. -/
theorem Added.slot_cases {b : Fin n} {keys : List ℕ} {codes : List Code}
    {s s' : RealTimeMemData n Code} (h : Added b keys codes s s') {b' : Fin n} {p : ℕ}
    {e : Long × Code} (he : (s'.entries b')[p]? = some e) :
    (s.entries b')[p]? = some e ∨
      ∃ i key, b' = b ∧ p = (s.entries b).length + i ∧ keys[i]? = some key ∧
        codes[i]? = some e.2 ∧ e.1 = ofVid key := by
  rw [h.entries_eq] at he
  by_cases hb : b' = b
  · rw [if_pos hb] at he
    subst hb
    by_cases hp : p < (s.entries b').length
    · rw [List.getElem?_append_left hp] at he
      exact .inl he
    · rw [List.getElem?_append_right (by omega), List.getElem?_zip_eq_some, List.getElem?_map,
        Option.map_eq_some_iff] at he
      obtain ⟨⟨key, hkey, hid⟩, hcode⟩ := he
      exact .inr ⟨p - (s.entries b').length, key, rfl, by omega, hkey, hcode, hid.symm⟩
  · rw [if_neg hb] at he
    exact .inl he

theorem Added.slot_of_old {b : Fin n} {keys : List ℕ} {codes : List Code}
    {s s' : RealTimeMemData n Code} (h : Added b keys codes s s') {b' : Fin n} {p : ℕ}
    {e : Long × Code} (he : (s.entries b')[p]? = some e) : (s'.entries b')[p]? = some e := by
  rw [h.entries_eq]
  by_cases hb : b' = b
  · rw [if_pos hb, List.getElem?_append_left (List.getElem?_eq_some_iff.mp he).1]
    exact he
  · rw [if_neg hb]
    exact he

theorem Added.slot_of_key {b : Fin n} {keys : List ℕ} {codes : List Code}
    {s s' : RealTimeMemData n Code} (h : Added b keys codes s s') {i key : ℕ} {c : Code}
    (hkey : keys[i]? = some key) (hc : codes[i]? = some c) :
    (s'.entries b)[(s.entries b).length + i]? = some (ofVid key, c) := by
  rw [h.entries_eq, if_pos rfl, List.getElem?_append_right (by omega), List.getElem?_zip_eq_some,
    List.getElem?_map, Nat.add_sub_cancel_left, hkey]
  exact ⟨rfl, hc⟩

theorem IdsInRange.of_added {b : Fin n} {keys : List ℕ} {codes : List Code}
    {s s' : RealTimeMemData n Code} (hids : s.IdsInRange) (h : Added b keys codes s s') :
    s'.IdsInRange := by
  intro b' e he
  obtain ⟨p, hp⟩ := List.mem_iff_getElem?.mp he
  rcases h.slot_cases hp with hold | ⟨i, key, -, -, hkey, -, hid⟩
  · exact Nat.lt_of_lt_of_le (hids b' e (List.mem_of_getElem? hold)) h.length_le
  · have hlt := h.key_lt key (List.mem_of_getElem? hkey)
    rw [hid, recoverVid_ofVid hlt.2]
    exact hlt.1

theorem Inv.of_added {b : Fin n} {keys : List ℕ} {codes : List Code} {g : Stored n Code}
    {s s' : RealTimeMemData n Code} (hinv : Inv s g) (hfresh : ∀ key ∈ keys, g key = none)
    (hnodup : keys.Nodup) (h : Added b keys codes s s') : Inv s' (g.record b keys codes) where
  idsInRange := hinv.idsInRange.of_added h
  slot_of_stored v bv c hg hdel := by
    rw [isDeleted_of_added h] at hdel
    unfold Stored.record at hg
    split at hg
    · next c' hlook =>
      cases hg
      obtain ⟨i, hi, hci⟩ := Lib.lookup_zip_eq_some hlook
      obtain ⟨j, hj, hmap⟩ := h.map_of_mem v (List.mem_of_getElem? hi)
      have hij := Lib.index_unique_of_nodup hnodup hi hj
      subst hij
      exact ⟨_, h.slot_of_key hi hci, hmap⟩
    · next hlook =>
      have hnot := (Lib.lookup_zip_eq_none h.codes_length v).mp hlook
      obtain ⟨p, hslot, hmap⟩ := hinv.slot_of_stored v bv c hg hdel
      exact ⟨p, h.slot_of_old hslot, by rw [h.map_of_notMem v hnot, hmap]⟩
  stored_of_slot b' p e he hm := by
    rw [isDeleted_of_added h]
    rcases h.slot_cases he with hold | ⟨i, key, rfl, rfl, hkey, hcode, hid⟩
    · obtain ⟨hsome, hmap⟩ := hinv.stored_of_slot b' p e hold hm
      have hnot : recoverVid e.1 ∉ keys := by
        intro hmem
        rw [hfresh _ hmem] at hsome
        cases hsome
      have hlook := (Lib.lookup_zip_eq_none h.codes_length _).mpr hnot
      refine ⟨?_, fun hdel => by rw [h.map_of_notMem _ hnot]; exact hmap hdel⟩
      unfold Stored.record
      rw [hlook]
      exact hsome
    · have hmem := List.mem_of_getElem? hkey
      have hrec : recoverVid e.1 = key := by rw [hid, recoverVid_ofVid (h.key_lt key hmem).2]
      rw [hrec]
      refine ⟨?_, fun _ => ?_⟩
      · unfold Stored.record
        split
        · rfl
        · next hlook => exact absurd hmem ((Lib.lookup_zip_eq_none h.codes_length key).mp hlook)
      · obtain ⟨j, hj, hmap⟩ := h.map_of_mem key hmem
        rw [hmap, Lib.index_unique_of_nodup hnodup hkey hj]
  vid_lt v hg := by
    unfold Stored.record at hg
    split at hg
    · next hlook =>
      obtain ⟨i, hi, -⟩ := Lib.lookup_zip_eq_some hlook
      exact (h.key_lt v (List.mem_of_getElem? hi)).2
    · exact hinv.vid_lt v hg

/-! ### Updating -/

/-- A slot after the code of slot `(ob, pos)` is replaced. -/
theorem slot_setCode {s : RealTimeMemData n Code} {ob b : Fin n} {pos p : ℕ} {c : Code}
    {e : Long × Code}
    (he : ((s.setBucket ob ((s.buckets ob).setCode pos c)).entries b)[p]? = some e) :
    ∃ e₀, (s.entries b)[p]? = some e₀ ∧ e.1 = e₀.1 ∧
      e.2 = if b = ob ∧ p = pos then c else e₀.2 := by
  rw [entries_setBucket] at he
  by_cases hb : b = ob
  · subst hb
    rw [if_pos rfl, Bucket.getElem?_entries_setCode] at he
    by_cases hp : p = pos
    · rw [if_pos hp, Option.map_eq_some_iff] at he
      obtain ⟨e₀, h₀, rfl⟩ := he
      exact ⟨e₀, h₀, rfl, by simp [hp]⟩
    · rw [if_neg hp] at he
      exact ⟨e, he, rfl, by simp [hp]⟩
  · rw [if_neg hb] at he
    exact ⟨e, he, rfl, by simp [hb]⟩

/-- A slot after slot `(ob, pos)` is masked. -/
theorem slot_maskSlot {s : RealTimeMemData n Code} {ob b : Fin n} {pos p : ℕ} {e : Long × Code}
    (he : ((s.setBucket ob ((s.buckets ob).maskSlot pos)).entries b)[p]? = some e) :
    ∃ e₀, (s.entries b)[p]? = some e₀ ∧ e.2 = e₀.2 ∧
      e.1 = if b = ob ∧ p = pos then e₀.1 ||| kDelIdxMask else e₀.1 := by
  rw [entries_setBucket] at he
  by_cases hb : b = ob
  · subst hb
    rw [if_pos rfl, Bucket.getElem?_entries_maskSlot] at he
    by_cases hp : p = pos
    · rw [if_pos hp, Option.map_eq_some_iff] at he
      obtain ⟨e₀, h₀, rfl⟩ := he
      exact ⟨e₀, h₀, rfl, by simp [hp]⟩
    · rw [if_neg hp] at he
      exact ⟨e, he, rfl, by simp [hp]⟩
  · rw [if_neg hb] at he
    exact ⟨e, he, rfl, by simp [hb]⟩

/-- Slots other than `(ob, pos)` are not touched by masking it. -/
theorem slot_maskSlot_of_ne {s : RealTimeMemData n Code} {ob b : Fin n} {pos p : ℕ}
    {e : Long × Code} (hne : ¬(b = ob ∧ p = pos)) (he : (s.entries b)[p]? = some e) :
    ((s.setBucket ob ((s.buckets ob).maskSlot pos)).entries b)[p]? = some e := by
  rw [entries_setBucket]
  by_cases hb : b = ob
  · subst hb
    rw [if_pos rfl, Bucket.getElem?_entries_maskSlot, if_neg (fun hp => hne ⟨rfl, hp⟩)]
    exact he
  · rw [if_neg hb]
    exact he

/-- The slot of one vector is not that of another one. -/
theorem Inv.eq_of_slot {s : RealTimeMemData n Code} {g : Stored n Code} (h : Inv s g) {v w : ℕ}
    (hv : (g v).isSome) (hw : (g w).isSome) {b : Fin n} {p : ℕ} {c c' : Code}
    (hslot : (s.entries b)[p]? = some (ofVid v, c)) (hslot' : (s.entries b)[p]? = some (ofVid w, c')) :
    w = v := by
  rw [hslot] at hslot'
  have hvid := congrArg (fun e : Option (Long × Code) => e.map fun e => recoverVid e.1) hslot'
  simp only [Option.map_some, Option.some.injEq] at hvid
  rw [recoverVid_ofVid (h.vid_lt v hv), recoverVid_ofVid (h.vid_lt w hw)] at hvid
  exact hvid.symm

theorem Inv.setCode {s : RealTimeMemData n Code} {g : Stored n Code} (h : Inv s g) {v : ℕ}
    {b : Fin n} {p : ℕ} {c c₀ : Code} (hg : g v = some (b, c₀)) (hdel : s.isDeleted v = false)
    (hmap : s.bucketNoPos v = encodePos b p) (hslot : (s.entries b)[p]? = some (ofVid v, c₀)) :
    Inv (s.setBucket b ((s.buckets b).setCode p c)) (Function.update g v (some (b, c))) where
  idsInRange := by
    intro b' e he
    obtain ⟨q, hq⟩ := List.mem_iff_getElem?.mp he
    obtain ⟨e₀, h₀, hid, -⟩ := slot_setCode hq
    rw [hid]
    exact h.idsInRange b' e₀ (List.mem_of_getElem? h₀)
  slot_of_stored w bw cw hw hdw := by
    by_cases hwv : w = v
    · subst hwv
      rw [Function.update_self] at hw
      cases hw
      refine ⟨p, ?_, hmap⟩
      rw [entries_setBucket, if_pos rfl, Bucket.getElem?_entries_setCode, if_pos rfl]
      change (s.entries b)[p]?.map _ = _
      rw [hslot]
      rfl
    · rw [Function.update_of_ne hwv] at hw
      obtain ⟨q, hq, hmq⟩ := h.slot_of_stored w bw cw hw hdw
      refine ⟨q, ?_, hmq⟩
      -- the slot of `w` is not the slot of `v`
      have hne : ¬(bw = b ∧ q = p) := by
        rintro ⟨rfl, rfl⟩
        exact hwv (h.eq_of_slot (by rw [hg]; rfl) (by rw [hw]; rfl) hslot hq)
      rw [entries_setBucket]
      by_cases hb : bw = b
      · subst hb
        rw [if_pos rfl, Bucket.getElem?_entries_setCode, if_neg (fun hqp => hne ⟨rfl, hqp⟩)]
        exact hq
      · rw [if_neg hb]
        exact hq
  stored_of_slot b' q e he hm := by
    obtain ⟨e₀, h₀, hid, -⟩ := slot_setCode he
    rw [hid] at hm ⊢
    obtain ⟨hsome, hmq⟩ := h.stored_of_slot b' q e₀ h₀ hm
    refine ⟨?_, hmq⟩
    by_cases hv : recoverVid e₀.1 = v
    · rw [hv, Function.update_self]; rfl
    · rw [Function.update_of_ne hv]; exact hsome
  vid_lt w hw := by
    by_cases hwv : w = v
    · subst hwv; exact h.vid_lt w (by rw [hg]; rfl)
    · rw [Function.update_of_ne hwv] at hw; exact h.vid_lt w hw

/-- Masking the slot of a vector takes it out of what is stored: it is fresh again. -/
theorem Inv.maskSlot {s : RealTimeMemData n Code} {g : Stored n Code} (h : Inv s g) {v : ℕ}
    {b : Fin n} {p : ℕ} {c₀ : Code} (hg : g v = some (b, c₀)) (hdel : s.isDeleted v = false)
    (hslot : (s.entries b)[p]? = some (ofVid v, c₀)) :
    Inv (s.setBucket b ((s.buckets b).maskSlot p)) (Function.update g v none) where
  idsInRange := by
    intro b' e he
    obtain ⟨q, hq⟩ := List.mem_iff_getElem?.mp he
    obtain ⟨e₀, h₀, -, hid⟩ := slot_maskSlot hq
    have hrec : recoverVid e.1 = recoverVid e₀.1 := by rw [hid]; split <;> simp
    rw [hrec]
    exact h.idsInRange b' e₀ (List.mem_of_getElem? h₀)
  slot_of_stored w bw cw hw hdw := by
    by_cases hwv : w = v
    · subst hwv; rw [Function.update_self] at hw; cases hw
    · rw [Function.update_of_ne hwv] at hw
      obtain ⟨q, hq, hmq⟩ := h.slot_of_stored w bw cw hw hdw
      refine ⟨q, slot_maskSlot_of_ne ?_ hq, hmq⟩
      rintro ⟨rfl, rfl⟩
      exact hwv (h.eq_of_slot (by rw [hg]; rfl) (by rw [hw]; rfl) hslot hq)
  stored_of_slot b' q e he hm := by
    obtain ⟨e₀, h₀, -, hid⟩ := slot_maskSlot he
    by_cases hpos : b' = b ∧ q = p
    · rw [hid, if_pos hpos, isDel_mask] at hm
      cases hm
    · rw [if_neg hpos] at hid
      rw [hid] at hm ⊢
      obtain ⟨hsome, hmq⟩ := h.stored_of_slot b' q e₀ h₀ hm
      refine ⟨?_, hmq⟩
      -- a second unmasked slot of `v` would contradict the invariant
      have hv : recoverVid e₀.1 ≠ v := by
        intro hv
        have hlt := h.vid_lt v (by rw [hg]; rfl)
        exact hpos (h.slot_unique hslot h₀ (isDel_ofVid hlt) hm (hv.trans (recoverVid_ofVid hlt).symm)
          (by rw [recoverVid_ofVid hlt]; exact hdel))
      rw [Function.update_of_ne hv]
      exact hsome
  vid_lt w hw := by
    by_cases hwv : w = v
    · subst hwv; rw [Function.update_self] at hw; cases hw
    · rw [Function.update_of_ne hwv] at hw; exact h.vid_lt w hw

theorem Inv.update [Inhabited Code] {F : FloatOps} {s s' : RealTimeMemData n Code}
    {g : Stored n Code} (h : Inv s g) {b b₀ : Fin n} {v : ℕ} {c c₀ : Code} {a : Alloc} {r : ℤ}
    (hg : g v = some (b₀, c₀)) (hdel : s.isDeleted v = false)
    (hup : s.update F b v c a = some (s', r)) (hok : b = b₀ ∨ r = 1) :
    Inv s' (Function.update g v (some (b, c))) := by
  obtain ⟨p, hslot, hmap⟩ := h.slot_of_stored v b₀ c₀ hg hdel
  have hp := Bucket.lt_of_getElem? hslot
  rcases update_cases_of_slot F hmap hp hup with ⟨rfl, -, rfl⟩ | ⟨hne, ok, hadd, hr⟩
  · exact h.setCode hg hdel hmap hslot
  · have hok : ok = true := by
      rcases hok with heq | hone
      · exact absurd heq.symm hne
      · cases ok
        · rw [hr] at hone; simp at hone
        · rfl
    rcases addKeys_cases F hadd with ⟨hfalse, -⟩ | ⟨-, hadded⟩
    · rw [hok] at hfalse; cases hfalse
    · have hinv := (h.maskSlot hg hdel hslot).of_added (by simp) (List.nodup_singleton v) hadded
      have hrec : Stored.record (Function.update g v none) b [v] [c] =
          Function.update g v (some (b, c)) := by
        funext w
        by_cases hw : w = v
        · subst hw; simp [Stored.record]
        · have hbeq : (w == v) = false := beq_eq_false_iff_ne.mpr hw
          simp [Stored.record, List.lookup_cons, hbeq, Function.update_of_ne hw]
      rwa [hrec] at hinv

/-! ### Compaction -/

theorem IdsInRange.of_compacted {b : Fin n} {s s' : RealTimeMemData n Code} (hids : s.IdsInRange)
    (h : Compacted b s s') : s'.IdsInRange := by
  intro b' e he
  rw [h.entries_eq] at he
  rw [h.length_eq]
  split at he
  · next hb => subst hb; exact hids b' e (List.mem_of_mem_filter he)
  · exact hids b' e he

theorem isDeleted_of_compacted {b : Fin n} {s s' : RealTimeMemData n Code} (h : Compacted b s s')
    (v : ℕ) : s'.isDeleted v = s.isDeleted v := by
  rw [isDeleted, isDeleted, h.bitmap_eq, h.vidMgr_eq]

/-- A kept slot was an unmasked slot of a vector that is not deleted. -/
theorem mem_survivors {s : RealTimeMemData n Code} {b : Fin n} {e : Long × Code} :
    e ∈ s.survivors b ↔
      e ∈ s.entries b ∧ isDel e.1 = false ∧ s.isDeleted (recoverVid e.1) = false := by
  simp [survivors, keepSlot, List.mem_filter]

/-- The invariant leaves each vector that is not deleted one unmasked slot in a bucket at most. -/
theorem Inv.atMostOne {s : RealTimeMemData n Code} {g : Stored n Code} (h : Inv s g) (b : Fin n)
    {v : ℕ} (hdel : s.isDeleted v = false) :
    Lib.AtMostOne (fun e : Long × Code => isDel e.1 = false ∧ recoverVid e.1 = v) (s.entries b) := by
  rintro i j e e' hi hj ⟨hm, hv⟩ ⟨hm', hv'⟩
  exact ((h.slot_unique hi hj hm hm' (hv'.trans hv.symm) (by rw [hv]; exact hdel)).2).symm

theorem Inv.of_compacted {b : Fin n} {g : Stored n Code} {s s' : RealTimeMemData n Code}
    (hinv : Inv s g) (h : Compacted b s s') : Inv s' g where
  idsInRange := hinv.idsInRange.of_compacted h
  slot_of_stored v bv c hg hdel := by
    rw [isDeleted_of_compacted h] at hdel
    obtain ⟨p, hslot, hmap⟩ := hinv.slot_of_stored v bv c hg hdel
    have hlt := hinv.vid_lt v (by rw [hg]; rfl)
    have hrec := recoverVid_ofVid hlt
    have hm := isDel_ofVid hlt
    rw [h.entries_eq]
    rcases h.map_eq v with ⟨q, e, hq, he, hmap'⟩ | ⟨hnone, hmap'⟩
    · -- the kept slot of `v` is its slot before
      obtain ⟨hmem, hm', -⟩ := mem_survivors.mp (List.mem_of_getElem? hq)
      obtain ⟨i, hi⟩ := List.mem_iff_getElem?.mp hmem
      obtain ⟨rfl, rfl⟩ := hinv.slot_unique hslot hi hm hm' (he.trans hrec.symm)
        (by rw [hrec]; exact hdel)
      rw [hslot] at hi
      cases hi
      exact ⟨q, by rw [if_pos rfl]; exact hq, hmap'⟩
    · by_cases hb : bv = b
      · subst hb
        have hkept : (ofVid v, c) ∈ s.survivors bv :=
          mem_survivors.mpr ⟨List.mem_of_getElem? hslot, hm, by rw [hrec]; exact hdel⟩
        exact absurd hrec (hnone _ hkept)
      · exact ⟨p, by rw [if_neg hb]; exact hslot, by rw [hmap', hmap]⟩
  stored_of_slot b' p e he hm := by
    rw [isDeleted_of_compacted h]
    rw [h.entries_eq] at he
    by_cases hb : b' = b
    · subst hb
      rw [if_pos rfl] at he
      obtain ⟨hmem, -, hdel⟩ := mem_survivors.mp (List.mem_of_getElem? he)
      obtain ⟨i, hi⟩ := List.mem_iff_getElem?.mp hmem
      refine ⟨(hinv.stored_of_slot b' i e hi hm).1, fun _ => ?_⟩
      rcases h.map_eq (recoverVid e.1) with ⟨q, e', hq, he', hmap'⟩ | ⟨hnone, -⟩
      · have hm' := (mem_survivors.mp (List.mem_of_getElem? hq)).2.1
        have huniq := (hinv.atMostOne b' hdel).filter (keepSlot s.isDeleted)
        rw [hmap', huniq q p e' e hq he ⟨hm', he'⟩ ⟨hm, rfl⟩]
      · exact absurd rfl (hnone e (List.mem_of_getElem? he))
    · rw [if_neg hb] at he
      obtain ⟨hsome, hmap⟩ := hinv.stored_of_slot b' p e he hm
      refine ⟨hsome, fun hdel => ?_⟩
      rcases h.map_eq (recoverVid e.1) with ⟨q, e', hq, he', -⟩ | ⟨-, hmap'⟩
      · -- a slot of the same vector in the compacted bucket would be a second one
        obtain ⟨hmem', hm', -⟩ := mem_survivors.mp (List.mem_of_getElem? hq)
        obtain ⟨j, hj⟩ := List.mem_iff_getElem?.mp hmem'
        exact absurd (hinv.slot_unique he hj hm hm' he' hdel).1.symm hb
      · rw [hmap', hmap hdel]
  vid_lt := hinv.vid_lt

section Compact

variable [Inhabited Code]

theorem Inv.compactSlots {g : Stored n Code} {s : RealTimeMemData n Code} (h : Inv s g)
    (b : Fin n) : Inv (s.compactSlots b) g :=
  h.of_compacted (compactSlots_spec h.idsInRange b)

theorem Inv.compactIfNeed {F : FloatOps} {g : Stored n Code} {s : RealTimeMemData n Code}
    (h : Inv s g) (a : Fin n → Alloc) : Inv (s.compactIfNeed F a).1 g := by
  obtain ⟨cs, hcs⟩ := compactFrom_eq_foldl F a (List.finRange n) s
  rw [RealTimeMemData.compactIfNeed, hcs]
  clear hcs
  induction cs generalizing s with
  | nil => exact h
  | cons c cs ih => exact ih (h.compactSlots c)

/-! ### Runs -/

/-- A freshly initialised index stores nothing. -/
theorem inv_init (bucketKeys limit : ℕ) (hk : bucketKeys < 2 ^ 31) (docids : BitmapManager)
    (vidMgr : VIDMgr) :
    Inv (init bucketKeys limit hk docids vidMgr : RealTimeMemData n Code) (fun _ => none) where
  idsInRange b e he := by simp [entries, init] at he
  slot_of_stored v b c hg := by cases hg
  stored_of_slot b p e he := by simp [entries, init] at he
  vid_lt v hg := by cases hg

theorem inv_of_reaches {F : FloatOps} {s₀ s : RealTimeMemData n Code} {g : Stored n Code}
    (h₀ : Inv s₀ (fun _ => none)) (h : Reaches F s₀ s g) : Inv s g := by
  induction h with
  | start => exact h₀
  | addKeys _ hfresh hnodup hadd ih =>
    rcases addKeys_cases F hadd with ⟨hfalse, -⟩ | ⟨-, hadded⟩
    · cases hfalse
    · exact ih.of_added hfresh hnodup hadded
  | update _ hg hdel hup hok ih => exact ih.update hg hdel hup hok
  | delete vids _ ih => exact ih.of_sameSlots (delete_sameSlots vids _)
  | setBit docid _ ih => exact ih.setBit docid
  | compactBucket _ hc ih =>
    unfold RealTimeMemData.compactBucket at hc
    split at hc
    · cases hc
    · cases hc; exact ih.compactSlots _
  | @compactIfNeed _ _ _ a _ hc ih =>
    have hs := ih.compactIfNeed (F := F) a
    rw [hc] at hs
    exact hs
  | extendBucketMem _ hext ih => exact ih.of_sameSlots (extendBucketMem_spec F hext).1.toSameSlots
  | extendBucketIfNeed _ hext ih =>
    exact ih.of_sameSlots (extendBucketIfNeed_spec F hext).1.toSameSlots

/-- **Exactly-once storage.** Whatever successful calls an index has seen since `Init`, a vector
that was added and not deleted occupies exactly one unmasked slot: in the bucket of its last add or
update, with the code of that add or update, where the reverse map says. -/
theorem occupiesOneSlot_of_reaches (F : FloatOps) (bucketKeys limit : ℕ)
    (hk : bucketKeys < 2 ^ 31) (docids : BitmapManager) (vidMgr : VIDMgr)
    (s : RealTimeMemData n Code) (g : Stored n Code)
    (hreach : Reaches F (init bucketKeys limit hk docids vidMgr) s g) (v : ℕ) (b : Fin n) (c : Code)
    (hg : g v = some (b, c)) (hdel : s.isDeleted v = false) : s.OccupiesOneSlot v b c :=
  (inv_of_reaches (inv_init bucketKeys limit hk docids vidMgr) hreach).occupiesOneSlot hg hdel

/-- Two empty buckets with room for two vectors each. -/
def twoBuckets : RealTimeMemData 2 ℕ := init 2 8 (by decide) (.init 16) (.init false 0)

/-- Two vectors are added to the first of two buckets, one is moved to the second bucket, and the
first is compacted: the moved vector is in the second bucket only. -/
theorem occupiesOneSlot_moved : ∃ (s : RealTimeMemData 2 ℕ) (g : Stored 2 ℕ),
    Reaches FloatOps.rational twoBuckets s g ∧ s.OccupiesOneSlot 0 1 77 := by
  have hadd : ∀ s, twoBuckets.addKeys FloatOps.rational 0 2 [0, 1] [70, 71] .ok = some (s, true) →
      Reaches FloatOps.rational twoBuckets s (Stored.record (fun _ => none) 0 [0, 1] [70, 71]) :=
    fun _ h => .addKeys .start (fun _ _ => rfl) (by decide) h
  have hadd := hadd _ rfl
  have hmove := Reaches.update hadd rfl rfl
    (show RealTimeMemData.update FloatOps.rational 1 0 77 .ok _ = some (_, 1) from rfl) (.inr rfl)
  have hcomp := Reaches.compactBucket hmove
    (show RealTimeMemData.compactBucket 0 .ok _ = (_, true) from rfl)
  exact ⟨_, _, hcomp,
    occupiesOneSlot_of_reaches _ 2 8 (by decide) (.init 16) (.init false 0) _ _ hcomp 0 1 77 rfl rfl⟩

end Compact

end AwaDB.Realtime.RealTimeMemData
