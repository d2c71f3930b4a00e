import AwaDB.Index.IVFPQ
import AwaDB.Lib.Codec
import Mathlib.Data.Vector.Basic
import Mathlib.Tactic.Ring

/-!
# Dumping and loading the inverted lists (`index/gamma_index_io.cc`)

`WriteInvertedLists` writes the slots in use of every bucket; `ReadInvertedLists` reads them into a
freshly initialised index, rebuilds the reverse map and the deleted counters, and works out the
indexed vector count, which is not written.

* `loadBuckets_spec`: slots and reverse map come back, and the count is the number of slots in use
  less `maskedPairs`, the pairs of a masked slot and an unmasked one after it in the same bucket;
* `readInvertedLists_write`: the header and the sizes are read back.
-/

namespace AwaDB.Index

open Realtime Realtime.RealTimeMemData

/-- One code of `code_bytes_per_vec_` bytes. -/
abbrev CodeBytes (cb : ℕ) := List.Vector UInt8 cb

instance (cb : ℕ) : Inhabited (CodeBytes cb) := ⟨List.Vector.replicate cb 0⟩

/-- `fourcc`: four characters in one word. -/
def fourcc (a b c d : Char) : ℕ :=
  a.toNat ||| b.toNat <<< 8 ||| c.toNat <<< 16 ||| d.toNat <<< 24

variable {n cb : ℕ}

/-! ### Writing -/

/-- The codes and then the ids of one bucket; nothing for an empty one. -/
def bucketBytes (slots : List (Long × CodeBytes cb)) : List UInt8 :=
  (slots.map Prod.snd).flatMap (fun code => code.toList) ++
    (slots.map Prod.fst).flatMap (fun id => Lib.leWord 8 id.toNat)

/-- `sizes` in `WriteInvertedLists`. -/
def sizes (s : RealTimeMemData n (CodeBytes cb)) : List ℕ :=
  (List.finRange n).map fun b => (s.entries b).length

/-- `WriteInvertedLists`. -/
def writeInvertedLists (s : RealTimeMemData n (CodeBytes cb)) : List UInt8 :=
  Lib.leWord 4 (fourcc 'i' 'l' 'a' 'r') ++ (Lib.leWord 8 n ++ (Lib.leWord 8 cb ++
    (Lib.leWord 4 (fourcc 'f' 'u' 'l' 'l') ++ (Lib.leWord 8 n ++
      ((sizes s).flatMap (Lib.leWord 8) ++
        (List.finRange n).flatMap fun b => bucketBytes (s.entries b))))))

/-! ### Reading -/

/-- Read one code. -/
def readCode (cb : ℕ) : Lib.Reader (CodeBytes cb) := fun f =>
  if h : (f.take cb).length = cb then some (⟨f.take cb, h⟩, f.drop cb) else none

/-- Read one id. -/
def readId : Lib.Reader Long := fun f => (Lib.readWord 8 f).map fun r => (BitVec.ofNat 64 r.1, r.2)

/-- The two arrays of a bucket after its codes and ids were read, with the retrieve position and the
deleted counter that `ReadInvertedLists` leaves. -/
def loadedBucket (b : Bucket (CodeBytes cb)) (ids : List Long) (codes : List (CodeBytes cb))
    (hc : codes.length = ids.length) (hk : ids.length ≤ b.curBucketKeys) (deleted : ℕ) :
    Bucket (CodeBytes cb) :=
  { b with
    idxArray := Lib.patch b.idxArray 0 ids
    codesArray := Lib.patch b.codesArray 0 codes
    retrieveIdxPos := ids.length
    deletedNum := deleted
    pos_le := hk
    idx_len := by
      have hlen := b.idx_len
      rw [Lib.patch_length] <;> omega
    codes_len := by
      have hlen := b.codes_len
      rw [Lib.patch_length] <;> omega }

/-- What the loop over the slots of a bucket changes: the reverse map, the deleted counter of the
bucket and the indexed vector count, which may well become negative. -/
structure SlotCursor where
  vidBucketNoPos : List ℤ
  deletedNum : ℕ
  indexedVecCount : ℤ

/-- The loop over the slots of bucket `bno`. The deleted counter is taken off the count at every
unmasked slot. -/
def loadSlots (bno : ℕ) : List Long → ℕ → SlotCursor → Option SlotCursor
  | [], _, c => some c
  | id :: ids, pos, c =>
    if isDel id then loadSlots bno ids (pos + 1) { c with deletedNum := c.deletedNum + 1 }
    else
      match extendIDsLoop (id.toNat + 1) id.toNat c.vidBucketNoPos with
      | none => none
      | some map =>
        loadSlots bno ids (pos + 1)
          { c with
            vidBucketNoPos := map.set id.toNat (encodePos bno pos)
            indexedVecCount := c.indexedVecCount - c.deletedNum }

/-- The index, the count and the unread bytes. -/
structure LoadState (n cb : ℕ) where
  data : RealTimeMemData n (CodeBytes cb)
  indexedVecCount : ℤ
  f : List UInt8

/-- The return values of `ReadInvertedLists` (`search/error_code.h`). -/
inductive LoadResult where
  | ok | formatErr | internalErr
deriving DecidableEq, Repr

section Read

variable (F : FloatOps) (a : Fin n → Alloc)

/-- One round of the loop over the buckets: `false` is `INTERNAL_ERR`. -/
def loadBucket (bno : Fin n) (size : ℕ) (st : LoadState n cb) : Option (LoadState n cb × Bool) :=
  if size = 0 then some (st, true)
  else
    match st.data.extendBucketIfNeed F bno size (a bno) with
    | none => none
    | some (data, ret) =>
      if ret ≠ 0 then some ({ st with data := data, indexedVecCount := st.indexedVecCount + size }, false)
      else
        (Lib.readList (readCode cb) size st.f).bind fun (codes, f) =>
        (Lib.readList readId size f).bind fun (ids, f) =>
        if h : codes.length = ids.length ∧ ids.length ≤ (data.buckets bno).curBucketKeys then
          (loadSlots bno ids 0
              ⟨data.vidBucketNoPos, (data.buckets bno).deletedNum, st.indexedVecCount + size⟩).map
            fun c =>
              let bucket := loadedBucket (data.buckets bno) ids codes h.1 h.2 c.deletedNum
              (⟨{ data.setBucket bno bucket with vidBucketNoPos := c.vidBucketNoPos },
                c.indexedVecCount, f⟩, true)
        else none

/-- The loop over the buckets still to read. -/
def loadBuckets (size : Fin n → ℕ) :
    List (Fin n) → LoadState n cb → Option (LoadState n cb × LoadResult)
  | [], st => some (st, .ok)
  | bno :: bnos, st =>
    match loadBucket F a bno (size bno) st with
    | none => none
    | some (st, true) => loadBuckets size bnos st
    | some (st, false) => some (st, .internalErr)

/-- `ReadInvertedLists`; `none` is a failed assertion or an exception of the reader. -/
def readInvertedLists (f : List UInt8) (s : RealTimeMemData n (CodeBytes cb)) (count : ℤ) :
    Option (LoadState n cb × LoadResult) :=
  (Lib.readWord 4 f).bind fun (h, f) =>
  (Lib.readWord 8 f).bind fun (bucketsNum, f) =>
  (Lib.readWord 8 f).bind fun (codeBytes, f) =>
  (Lib.readWord 4 f).bind fun (listType, f) =>
  if h ≠ fourcc 'i' 'l' 'a' 'r' ∨ listType ≠ fourcc 'f' 'u' 'l' 'l' then none
  else if bucketsNum ≠ n ∨ codeBytes ≠ cb then some (⟨s, count, f⟩, .formatErr)
  else
    (Lib.readWord 8 f).bind fun (size, f) =>
    if size ≥ 2 ^ 40 then none
    else
      (Lib.readList (Lib.readWord 8) size f).bind fun (sizes, f) =>
      if sizes.length ≠ n then none
      else loadBuckets F a (fun b => sizes.getD b 0) (List.finRange n) ⟨s, count, f⟩

end Read

/-! ### The loop over the slots of a bucket -/

/-- The pairs of a masked slot and an unmasked slot after it. -/
def maskedPairs : List Long → ℕ
  | [] => 0
  | id :: ids => (if isDel id then ids.countP fun id => !isDel id else 0) + maskedPairs ids

/-- What the loop over the slots of a bucket does. -/
structure SlotsLoaded (bno : ℕ) (ids : List Long) (pos : ℕ) (c c' : SlotCursor) : Prop where
  length_le : c.vidBucketNoPos.length ≤ c'.vidBucketNoPos.length
  count_eq : c'.indexedVecCount = c.indexedVecCount -
    ((c.deletedNum * ids.countP (fun id => !isDel id) + maskedPairs ids : ℕ) : ℤ)
  map_eq : ∀ v,
    (∃ i id, ids[i]? = some id ∧ isDel id = false ∧ recoverVid id = v ∧
      c'.vidBucketNoPos.getD v (-1) = encodePos bno (pos + i)) ∨
    ((∀ id ∈ ids, isDel id = false → recoverVid id ≠ v) ∧
      c'.vidBucketNoPos.getD v (-1) = c.vidBucketNoPos.getD v (-1))

/-- A slot that is masked is counted. -/
theorem SlotsLoaded.masked {bno pos : ℕ} {id : Long} {ids : List Long} {c c' : SlotCursor}
    (hdel : isDel id = true)
    (h : SlotsLoaded bno ids (pos + 1) { c with deletedNum := c.deletedNum + 1 } c') :
    SlotsLoaded bno (id :: ids) pos c c' where
  length_le := h.length_le
  count_eq := by
    rw [h.count_eq]
    simp only [maskedPairs, List.countP_cons, hdel, Bool.not_true, if_true]
    push_cast
    ring
  map_eq := by
    intro v
    rcases h.map_eq v with ⟨i, id', hi, hm, hv, hget⟩ | ⟨hnone, hget⟩
    · exact .inl ⟨i + 1, id', hi, hm, hv, by rw [hget, Nat.add_assoc, Nat.add_comm 1]⟩
    · refine .inr ⟨fun id' hid' hm => ?_, hget⟩
      rcases List.mem_cons.mp hid' with rfl | hmem
      · rw [hdel] at hm
        cases hm
      · exact hnone id' hmem hm

/-- A slot that is not masked is entered into the reverse map, which may have grown. -/
theorem SlotsLoaded.unmasked {bno pos : ℕ} {id : Long} {ids : List Long} {c c' : SlotCursor}
    {map : List ℤ} (hdel : isDel id = false)
    (hext : extendIDsLoop (id.toNat + 1) id.toNat c.vidBucketNoPos = some map)
    (h : SlotsLoaded bno ids (pos + 1)
      { c with
        vidBucketNoPos := map.set id.toNat (encodePos bno pos)
        indexedVecCount := c.indexedVecCount - c.deletedNum } c') :
    SlotsLoaded bno (id :: ids) pos c c' := by
  obtain ⟨hlt, hle, hold⟩ := extendIDsLoop_spec hext
  have hlen := h.length_le
  dsimp only at hlen
  rw [List.length_set] at hlen
  refine ⟨Nat.le_trans hle hlen, ?_, fun v => ?_⟩
  · rw [h.count_eq]
    simp only [maskedPairs, List.countP_cons, hdel, Bool.not_false, if_true]
    push_cast
    ring
  · rcases h.map_eq v with ⟨i, id', hi, hm, hv, hget⟩ | ⟨hnone, hget⟩
    · exact .inl ⟨i + 1, id', hi, hm, hv, by rw [hget, Nat.add_assoc, Nat.add_comm 1]⟩
    · rw [getD_set_map hlt, hold] at hget
      by_cases hv : v = id.toNat
      · -- no later slot of the bucket is an unmasked one of `v`
        rw [if_pos hv] at hget
        exact .inl ⟨0, id, rfl, hdel, by rw [recoverVid_of_unmasked hdel, hv], hget⟩
      · rw [if_neg hv] at hget
        refine .inr ⟨fun id' hid' hm => ?_, hget⟩
        rcases List.mem_cons.mp hid' with rfl | hmem
        · rw [recoverVid_of_unmasked hm]
          exact fun heq => hv heq.symm
        · exact hnone id' hmem hm

theorem loadSlots_spec (bno : ℕ) (ids : List Long) (pos : ℕ) (c : SlotCursor)
    (hpos : 0 < c.vidBucketNoPos.length) :
    ∃ c', loadSlots bno ids pos c = some c' ∧ SlotsLoaded bno ids pos c c' := by
  induction ids generalizing pos c with
  | nil => exact ⟨c, rfl, Nat.le_refl _, by simp [maskedPairs], fun v => .inr ⟨by simp, rfl⟩⟩
  | cons id ids ih =>
    unfold loadSlots
    by_cases hdel : isDel id = true
    · rw [if_pos hdel]
      obtain ⟨c', hc', hloaded⟩ := ih (pos + 1) { c with deletedNum := c.deletedNum + 1 } hpos
      exact ⟨c', hc', hloaded.masked hdel⟩
    · rw [Bool.not_eq_true] at hdel
      rw [if_neg (by rw [hdel]; decide)]
      have hfuel : id.toNat < c.vidBucketNoPos.length + (id.toNat + 1) := by omega
      obtain ⟨map, hext⟩ := extendIDsLoop_isSome hpos hfuel
      have hgrown : 0 < (map.set id.toNat (encodePos bno pos)).length := by
        rw [List.length_set]
        exact Nat.lt_of_lt_of_le hpos (extendIDsLoop_spec hext).2.1
      rw [hext]
      obtain ⟨c', hc', hloaded⟩ := ih (pos + 1)
        { c with
          vidBucketNoPos := map.set id.toNat (encodePos bno pos)
          indexedVecCount := c.indexedVecCount - c.deletedNum } hgrown
      exact ⟨c', hc', hloaded.unmasked hdel hext⟩

/-! ### One bucket -/

theorem entries_loadedBucket (b : Bucket (CodeBytes cb)) (ids : List Long)
    (codes : List (CodeBytes cb)) (hc : codes.length = ids.length)
    (hk : ids.length ≤ b.curBucketKeys) (deleted : ℕ) :
    (loadedBucket b ids codes hc hk deleted).entries = ids.zip codes := by
  have hids := Lib.patch_take_end b.idxArray ids (Nat.zero_le _)
  have hcodes := Lib.patch_take_end b.codesArray codes (Nat.zero_le _)
  rw [Nat.zero_add, List.take_zero, List.nil_append] at hids hcodes
  simp only [Bucket.entries, loadedBucket]
  rw [hids, ← hc, hcodes]

theorem readCode_reads (code : CodeBytes cb) : Lib.Reads (readCode cb) code.toList code := by
  intro rest
  have htake : (code.toList ++ rest).take cb = code.toList := by
    rw [List.take_append_of_le_length (by rw [code.toList_length]),
      List.take_of_length_le (by rw [code.toList_length])]
  have hdrop : (code.toList ++ rest).drop cb = rest := by
    have h : (code.toList ++ rest).drop code.toList.length = rest := List.drop_left
    rwa [code.toList_length] at h
  unfold readCode
  rw [dif_pos (by rw [htake, code.toList_length]), hdrop]
  congr 2
  exact Subtype.ext htake

theorem readId_reads (id : Long) : Lib.Reads readId (Lib.leWord 8 id.toNat) id := by
  intro rest
  unfold readId
  rw [Lib.readWord_leWord (show id.toNat < 256 ^ 8 from id.isLt) rest, Option.map_some]
  congr 2
  exact BitVec.ofNat_toNat 64 id

/-- What reading one bucket does, its slots being `slots`. -/
structure BucketLoaded (b : Fin n) (slots : List (Long × CodeBytes cb)) (rest : List UInt8)
    (st st' : LoadState n cb) : Prop where
  entries_eq : ∀ b', st'.data.entries b' = if b' = b then slots else st.data.entries b'
  shape : ∀ b', b' ≠ b → SameShape b' st.data st'.data
  deleted_eq : ∀ b', b' ≠ b → (st'.data.buckets b').deletedNum = (st.data.buckets b').deletedNum
  length_le : st.data.vidBucketNoPos.length ≤ st'.data.vidBucketNoPos.length
  f_eq : st'.f = rest
  count_eq : st'.indexedVecCount =
    st.indexedVecCount + slots.length - maskedPairs (slots.map Prod.fst)
  map_eq : ∀ v,
    (∃ (p : ℕ) (e : Long × CodeBytes cb), slots[p]? = some e ∧ isDel e.1 = false ∧
      recoverVid e.1 = v ∧ st'.data.bucketNoPos v = encodePos b p) ∨
    ((∀ e ∈ slots, isDel e.1 = false → recoverVid e.1 ≠ v) ∧
      st'.data.bucketNoPos v = st.data.bucketNoPos v)

section Bucket

variable {F : FloatOps} {a : Fin n → Alloc}

/-- Reading a bucket that has no room for its slots fails. -/
theorem loadBucket_noRoom {b : Fin n} {size : ℕ} {st : LoadState n cb} (hsize : size ≠ 0)
    (hroom : ¬Room F b size (a b) st.data) (st' : LoadState n cb) :
    loadBucket F a b size st ≠ some (st', true) := by
  intro h
  unfold loadBucket at h
  rw [if_neg hsize] at h
  split at h
  · cases h
  · next data ret hext =>
    have hret : ret ≠ 0 := by
      rintro rfl
      exact hroom (by rw [Room, hext]; rfl)
    rw [if_pos hret] at h
    cases h

/-- **Reading a bucket back.** -/
theorem loadBucket_spec {b : Fin n} {slots : List (Long × CodeBytes cb)} {rest : List UInt8}
    {st : LoadState n cb} (hpos : 0 < st.data.vidBucketNoPos.length)
    (hempty : st.data.entries b = []) (hdeleted : (st.data.buckets b).deletedNum = 0)
    (hroom : slots ≠ [] → Room F b slots.length (a b) st.data)
    (hf : st.f = bucketBytes slots ++ rest) :
    ∃ st', loadBucket F a b slots.length st = some (st', true) ∧
      BucketLoaded b slots rest st st' := by
  unfold loadBucket
  by_cases hnil : slots = []
  · subst hnil
    refine ⟨st, rfl, ⟨fun b' => ?_, fun b' _ => SameShape.refl b' _, fun _ _ => rfl, Nat.le_refl _,
      hf, by simp [maskedPairs], fun v => .inr ⟨by simp, rfl⟩⟩⟩
    split
    · next hb => rw [hb, hempty]
    · rfl
  · rw [if_neg (by rwa [List.length_eq_zero_iff])]
    obtain ⟨⟨data, ret⟩, hext, hret⟩ := Option.map_eq_some_iff.mp (hroom hnil)
    dsimp only at hret
    subst hret
    obtain ⟨hgrown, hcap⟩ := extendBucketIfNeed_spec F hext
    have hcap := hcap rfl
    have hcodes : Lib.Reads (Lib.readList (readCode cb) (slots.map Prod.snd).length) _ _ :=
      Lib.readList_flatMap fun code _ => readCode_reads code
    have hids : Lib.Reads (Lib.readList readId (slots.map Prod.fst).length) _ _ :=
      Lib.readList_flatMap fun id _ => readId_reads id
    rw [List.length_map] at hcodes hids
    rw [hext, hf, bucketBytes, List.append_assoc]
    dsimp only
    rw [if_neg (not_not.mpr rfl), hcodes, Option.bind_some, hids, Option.bind_some]
    dsimp only
    rw [dif_pos (by rw [List.length_map, List.length_map]; exact ⟨rfl, by omega⟩)]
    have hdel0 : (data.buckets b).deletedNum = 0 := (hgrown.deleted_eq b).trans hdeleted
    obtain ⟨c, hc, hlen, hcount, hmap⟩ := loadSlots_spec b (slots.map Prod.fst) 0
      ⟨data.vidBucketNoPos, (data.buckets b).deletedNum, st.indexedVecCount + slots.length⟩
      (by rw [hgrown.map_eq]; exact hpos)
    rw [hc, Option.map_some]
    refine ⟨_, rfl, ⟨fun b' => ?_, fun b' hb' => ?_, fun b' hb' => ?_, ?_, rfl, ?_, fun v => ?_⟩⟩
    · show (data.setBucket b _).entries b' = _
      rw [entries_setBucket, entries_loadedBucket]
      split
      · exact (List.zip_of_prod rfl rfl).symm
      · exact hgrown.entries_eq b'
    · refine (extendBucketIfNeed_sameShape F hb' hext).trans ?_
      obtain ⟨h1, h2, h3, h4⟩ := sameShape_setBucket_of_ne hb' data
        (loadedBucket (data.buckets b) (slots.map Prod.fst) (slots.map Prod.snd) (by simp)
          (by rw [List.length_map]; omega) c.deletedNum)
      exact ⟨h1, h2, h3, h4⟩
    · show ((data.setBucket b _).buckets b').deletedNum = _
      rw [buckets_setBucket, if_neg hb', hgrown.deleted_eq]
    · show _ ≤ c.vidBucketNoPos.length
      rw [← hgrown.map_eq]
      exact hlen
    · show c.indexedVecCount = _
      rw [hcount, hdel0, Nat.zero_mul, Nat.zero_add]
    · rcases hmap v with ⟨i, id, hi, hm, hv, hget⟩ | ⟨hnone, hget⟩
      · rw [List.getElem?_map, Option.map_eq_some_iff] at hi
        obtain ⟨e, he, rfl⟩ := hi
        exact .inl ⟨i, e, he, hm, hv, by rw [Nat.zero_add] at hget; exact hget⟩
      · refine .inr ⟨fun e he hm => hnone e.1 (List.mem_map_of_mem he) hm, ?_⟩
        rw [← hgrown.bucketNoPos_eq]
        exact hget

/-! ### All buckets -/

/-- The map points every vector with an unmasked slot to such a slot. -/
def MapsLive (s : RealTimeMemData n (CodeBytes cb)) : Prop :=
  ∀ (v : ℕ) (b : Fin n) (p : ℕ) (e : Long × CodeBytes cb), (s.entries b)[p]? = some e →
    isDel e.1 = false → recoverVid e.1 = v →
      ∃ (b' : Fin n) (p' : ℕ) (e' : Long × CodeBytes cb), (s.entries b')[p']? = some e' ∧
        isDel e'.1 = false ∧ recoverVid e'.1 = v ∧ s.bucketNoPos v = encodePos b' p'

/-- The state between two buckets: those in `bs` are still to be read from the dump of `s`, and are
as in the fresh index `s₀`; the others are back. -/
structure Loading (s₀ s : RealTimeMemData n (CodeBytes cb)) (bs : List (Fin n))
    (st : LoadState n cb) : Prop where
  entries_eq : ∀ b, st.data.entries b = if b ∈ bs then [] else s.entries b
  shape : ∀ b ∈ bs, SameShape b s₀ st.data
  deleted_eq : ∀ b ∈ bs, (st.data.buckets b).deletedNum = 0
  map_pos : 0 < n → 0 < st.data.vidBucketNoPos.length
  mapsLive : MapsLive st.data
  f_eq : st.f = bs.flatMap fun b => bucketBytes (s.entries b)

/-- Reading the next bucket of the dump. -/
theorem Loading.next {s₀ s : RealTimeMemData n (CodeBytes cb)} {b : Fin n} {bs : List (Fin n)}
    {st st' : LoadState n cb} (h : Loading s₀ s (b :: bs) st) (hnodup : (b :: bs).Nodup)
    (hload : BucketLoaded b (s.entries b) (bs.flatMap fun b => bucketBytes (s.entries b)) st st') :
    Loading s₀ s bs st' where
  entries_eq b' := by
    rw [hload.entries_eq]
    by_cases hb : b' = b
    · subst hb
      rw [if_pos rfl, if_neg (List.nodup_cons.mp hnodup).1]
    · rw [if_neg hb, h.entries_eq]
      simp only [List.mem_cons, hb, false_or]
  shape b' hb' := by
    have hne : b' ≠ b := fun heq => (List.nodup_cons.mp hnodup).1 (heq ▸ hb')
    exact (h.shape b' (List.mem_cons_of_mem b hb')).trans (hload.shape b' hne)
  deleted_eq b' hb' := by
    have hne : b' ≠ b := fun heq => (List.nodup_cons.mp hnodup).1 (heq ▸ hb')
    rw [hload.deleted_eq b' hne]
    exact h.deleted_eq b' (List.mem_cons_of_mem b hb')
  map_pos hn := Nat.lt_of_lt_of_le (h.map_pos hn) hload.length_le
  mapsLive v b' p e he hm hv := by
    rcases hload.map_eq v with ⟨p', e', he', hm', hv', hget⟩ | ⟨hnone, hget⟩
    · exact ⟨b, p', e', by rw [hload.entries_eq, if_pos rfl]; exact he', hm', hv', hget⟩
    · rw [hload.entries_eq] at he
      split at he
      · exact absurd hv (hnone e (List.mem_of_getElem? he) hm)
      · obtain ⟨b₁, p₁, e₁, he₁, hm₁, hv₁, hget₁⟩ := h.mapsLive v b' p e he hm hv
        refine ⟨b₁, p₁, e₁, ?_, hm₁, hv₁, hget.trans hget₁⟩
        have hne : b₁ ≠ b := by
          rintro rfl
          rw [h.entries_eq, if_pos List.mem_cons_self] at he₁
          cases he₁
        rw [hload.entries_eq, if_neg hne]
        exact he₁
  f_eq := hload.f_eq

/-- The count that a bucket contributes. -/
def recount (s : RealTimeMemData n (CodeBytes cb)) (b : Fin n) : ℤ :=
  ((s.entries b).length : ℤ) - maskedPairs ((s.entries b).map Prod.fst)

/-- Every bucket with slots fits into the fresh index. -/
def LoadFits (F : FloatOps) (a : Fin n → Alloc) (s₀ s : RealTimeMemData n (CodeBytes cb)) : Prop :=
  ∀ b, s.entries b ≠ [] → Room F b (s.entries b).length (a b) s₀

/-- **Reading all buckets back.** -/
theorem loadBuckets_spec {s₀ s : RealTimeMemData n (CodeBytes cb)} {bs : List (Fin n)}
    (hnodup : bs.Nodup) (hfits : LoadFits F a s₀ s) {st : LoadState n cb}
    (h : Loading s₀ s bs st) :
    ∃ st', loadBuckets F a (fun b => (s.entries b).length) bs st = some (st', .ok) ∧
      Loading s₀ s [] st' ∧ st'.indexedVecCount = st.indexedVecCount + (bs.map (recount s)).sum := by
  induction bs generalizing st with
  | nil => exact ⟨st, rfl, h, by simp⟩
  | cons b bs ih =>
    have hroom : s.entries b ≠ [] → Room F b (s.entries b).length (a b) st.data := fun hne =>
      (room_congr F (h.shape b List.mem_cons_self) _ _).mpr (hfits b hne)
    obtain ⟨st₁, hst₁, hload⟩ := loadBucket_spec (h.map_pos b.pos)
      (by rw [h.entries_eq, if_pos List.mem_cons_self]) (h.deleted_eq b List.mem_cons_self) hroom
      h.f_eq
    obtain ⟨st', hst', hloading, hcount⟩ := ih (List.nodup_cons.mp hnodup).2 (h.next hnodup hload)
    refine ⟨st', by rw [loadBuckets, hst₁]; exact hst', hloading, ?_⟩
    rw [hcount, hload.count_eq, List.map_cons, List.sum_cons, recount]
    ring

/-- A bucket that does not fit stops the load. -/
theorem loadBuckets_noRoom {s₀ s : RealTimeMemData n (CodeBytes cb)} {bs : List (Fin n)}
    (hnodup : bs.Nodup) {st : LoadState n cb} (h : Loading s₀ s bs st) {b₀ : Fin n} (hb₀ : b₀ ∈ bs)
    (hne : s.entries b₀ ≠ []) (hno : ¬Room F b₀ (s.entries b₀).length (a b₀) s₀)
    (st' : LoadState n cb) :
    loadBuckets F a (fun b => (s.entries b).length) bs st ≠ some (st', .ok) := by
  induction bs generalizing st with
  | nil => cases hb₀
  | cons b bs ih =>
    intro hload
    have hshape := h.shape b List.mem_cons_self
    have hroom : s.entries b ≠ [] → Room F b (s.entries b).length (a b) st.data := by
      intro hnil
      by_contra hno'
      have hlen : (s.entries b).length ≠ 0 := fun h0 => hnil (List.length_eq_zero_iff.mp h0)
      rw [loadBuckets] at hload
      split at hload
      · cases hload
      · next st₁ hst₁ => exact loadBucket_noRoom hlen hno' st₁ hst₁
      · cases hload
    have hne₀ : b₀ ≠ b := by
      rintro rfl
      exact hno ((room_congr F hshape _ _).mp (hroom hne))
    obtain ⟨st₁, hst₁, hloaded⟩ := loadBucket_spec (h.map_pos b.pos)
      (by rw [h.entries_eq, if_pos List.mem_cons_self]) (h.deleted_eq b List.mem_cons_self) hroom
      h.f_eq
    rw [loadBuckets, hst₁] at hload
    exact ih (List.nodup_cons.mp hnodup).2 (h.next hnodup hloaded)
      ((List.mem_cons.mp hb₀).resolve_left hne₀) hload

/-- Reading a dump comes down to its buckets. -/
theorem readInvertedLists_write (s s₀ : RealTimeMemData n (CodeBytes cb)) (hn : n < 2 ^ 31)
    (hcb : cb < 2 ^ 31) :
    readInvertedLists F a (writeInvertedLists s) s₀ 0 =
      loadBuckets F a (fun b => (s.entries b).length) (List.finRange n)
        ⟨s₀, 0, (List.finRange n).flatMap fun b => bucketBytes (s.entries b)⟩ := by
  have hlen : (sizes s).length = n := by rw [sizes, List.length_map, List.length_finRange]
  have hsizes : Lib.Reads (Lib.readList (Lib.readWord 8) (sizes s).length)
      ((sizes s).flatMap (Lib.leWord 8)) (sizes s) := by
    refine Lib.readList_flatMap fun x hx => Lib.readWord_leWord ?_
    obtain ⟨b, -, rfl⟩ := List.mem_map.mp hx
    have hpos := (s.buckets b).pos_le
    have hkeys := (s.buckets b).keys_lt
    show (s.buckets b).entries.length < 256 ^ 8
    rw [Bucket.entries_length]
    omega
  have hget : (fun b : Fin n => (sizes s).getD b 0) = fun b => (s.entries b).length := by
    funext b
    rw [sizes, List.getD_eq_getElem?_getD, List.getElem?_map,
      List.getElem?_eq_getElem (by rw [List.length_finRange]; exact b.isLt), List.getElem_finRange]
    rfl
  unfold readInvertedLists writeInvertedLists
  rw [Lib.readWord_leWord (by decide), Option.bind_some]
  dsimp only
  rw [Lib.readWord_leWord (by omega), Option.bind_some]
  dsimp only
  rw [Lib.readWord_leWord (by omega), Option.bind_some]
  dsimp only
  rw [Lib.readWord_leWord (by decide), Option.bind_some]
  dsimp only
  rw [if_neg (by simp), if_neg (by simp), Lib.readWord_leWord (by omega), Option.bind_some]
  dsimp only
  rw [if_neg (by omega)]
  rw [hlen] at hsizes
  rw [hsizes, Option.bind_some]
  dsimp only
  rw [if_neg (not_not.mpr hlen), hget]

end Bucket

end AwaDB.Index
