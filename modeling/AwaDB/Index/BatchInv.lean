import AwaDB.Index.IVFPQ
import AwaDB.Realtime.ReverseMap
import Mathlib.Algebra.Order.BigOperators.Group.Finset

/-!
# What a batch stores

`GammaIVFPQIndex::Add` and `GammaIVFPQIndex::Update` in terms of exactly-once storage: a batch that
is taken stores each of its vectors in its bucket with its code, one that found no room in its lowest
bucket stores nothing, and updates that fit replace what they are given.

* `add_inv` and `add_failed_inv`: a batch;
* `update_inv`: a list of updates and the compaction after it.
-/

namespace AwaDB.Realtime.RealTimeMemData

variable {n : ℕ} {Code : Type}

/-- What is stored once the buckets `bs` have taken their part of a batch. -/
def Stored.merge (new : Stored n Code) (bs : List (Fin n)) (g : Stored n Code) : Stored n Code :=
  fun v =>
    match new v with
    | some (b, c) => if b ∈ bs then some (b, c) else g v
    | none => g v

/-- The groups of a batch are the buckets and codes that `new` gives to its ids. -/
structure Describes (new : Stored n Code) (newKeys : Fin n → Option (List ℕ))
    (newCodes : Fin n → Option (List Code)) : Prop where
  lookup_eq : ∀ b v, (((newKeys b).getD []).zip ((newCodes b).getD [])).lookup v =
    (new v).bind fun e => if e.1 = b then some e.2 else none
  length_eq : ∀ b, (newCodes b).map List.length = (newKeys b).map List.length
  nodup : ∀ b, ((newKeys b).getD []).Nodup

/-- A key that stands in a zipped list is found in it. -/
theorem exists_lookup_zip {keys : List ℕ} {codes : List Code} (hlen : codes.length = keys.length)
    {key : ℕ} (hkey : key ∈ keys) : ∃ c, (keys.zip codes).lookup key = some c := by
  induction keys generalizing codes with
  | nil => cases hkey
  | cons k keys ih =>
    cases codes with
    | nil => cases hlen
    | cons c codes =>
      rw [List.zip_cons_cons, List.lookup_cons]
      by_cases heq : key = k
      · exact ⟨c, by rw [heq, beq_self_eq_true]⟩
      · rw [beq_eq_false_iff_ne.mpr heq]
        exact ih (Nat.succ.inj hlen) ((List.mem_cons.mp hkey).resolve_left heq)

section Describes

variable {new g : Stored n Code} {newKeys : Fin n → Option (List ℕ)}
  {newCodes : Fin n → Option (List Code)}

theorem Describes.paired (h : Describes new newKeys newCodes) :
    RTInvertIndex.Paired newKeys newCodes := by
  intro b keys hkeys
  have hlen := h.length_eq b
  rw [hkeys, Option.map_some, Option.map_eq_some_iff] at hlen
  exact hlen

theorem Describes.mem (h : Describes new newKeys newCodes) {b : Fin n} {keys : List ℕ}
    (hkeys : newKeys b = some keys) {key : ℕ} (hkey : key ∈ keys) :
    ∃ c, new key = some (b, c) := by
  obtain ⟨codes, hcodes, hlen⟩ := h.paired b keys hkeys
  obtain ⟨c, hc⟩ := exists_lookup_zip hlen hkey
  have hfound := h.lookup_eq b key
  rw [hkeys, hcodes, Option.getD_some, Option.getD_some, hc] at hfound
  obtain ⟨⟨b', c'⟩, hnew, hif⟩ := Option.bind_eq_some_iff.mp hfound.symm
  split at hif
  · next heq =>
    subst heq
    exact ⟨c', hnew⟩
  · cases hif

theorem Stored.merge_cons {new g : Stored n Code} {b : Fin n} {bs : List (Fin n)} (hb : b ∉ bs) :
    Stored.merge new bs (Stored.merge new [b] g) = Stored.merge new (b :: bs) g := by
  funext v
  unfold Stored.merge
  cases new v with
  | none => rfl
  | some e =>
    obtain ⟨b', c⟩ := e
    by_cases hmem : b' ∈ bs
    · simp [hmem]
    · by_cases heq : b' = b
      · subst heq
        simp
      · simp [hmem, heq]

/-- A bucket that has no group takes nothing. -/
theorem Describes.merge_none (h : Describes new newKeys newCodes) {b : Fin n}
    (hb : newKeys b = none) : Stored.merge new [b] g = g := by
  funext v
  have hfound := h.lookup_eq b v
  rw [hb, Option.getD_none, List.zip_nil_left, List.lookup_nil] at hfound
  unfold Stored.merge
  cases hv : new v with
  | none => rfl
  | some e =>
    rw [hv, Option.bind_some] at hfound
    refine if_neg fun hmem => ?_
    rw [if_pos (List.mem_singleton.mp hmem)] at hfound
    cases hfound

/-- A bucket that takes its group stores it. -/
theorem Describes.record_eq (h : Describes new newKeys newCodes) {b : Fin n} {keys : List ℕ}
    {codes : List Code} (hkeys : newKeys b = some keys) (hcodes : newCodes b = some codes) :
    g.record b keys codes = Stored.merge new [b] g := by
  funext v
  have hfound := h.lookup_eq b v
  rw [hkeys, hcodes, Option.getD_some, Option.getD_some] at hfound
  unfold Stored.record Stored.merge
  rw [hfound]
  cases hv : new v with
  | none => rfl
  | some e =>
    obtain ⟨b', c⟩ := e
    by_cases heq : b' = b
    · subst heq
      simp
    · simp [heq]

end Describes

section Batch

variable [Inhabited Code] {F : FloatOps}

/-- **A batch that is taken**, bucket by bucket. -/
theorem Inv.addKeysFrom {new g : Stored n Code} {newKeys : Fin n → Option (List ℕ)}
    {newCodes : Fin n → Option (List Code)} (hnew : Describes new newKeys newCodes)
    {a : Fin n → Alloc} {bs : List (Fin n)}
    (hnodup : bs.Nodup) {s s' : RealTimeMemData n Code} (h : Inv s g)
    (hfresh : ∀ b ∈ bs, ∀ keys, newKeys b = some keys → ∀ key ∈ keys, g key = none)
    (hadd : RTInvertIndex.addKeysFrom F newKeys newCodes a bs s = some (s', true)) :
    Inv s' (Stored.merge new bs g) := by
  induction bs generalizing s g with
  | nil =>
    cases hadd
    have hsame : Stored.merge new [] g = g := by
      funext v
      unfold Stored.merge
      cases new v <;> simp
    rwa [hsame]
  | cons b bs ih =>
    have hnodup' := List.nodup_cons.mp hnodup
    rw [← Stored.merge_cons hnodup'.1]
    unfold RTInvertIndex.addKeysFrom at hadd
    cases hkeys : newKeys b with
    | none =>
      rw [hkeys] at hadd
      rw [hnew.merge_none hkeys]
      exact ih hnodup'.2 h (fun b' hb' => hfresh b' (List.mem_cons_of_mem b hb')) hadd
    | some keys =>
      obtain ⟨codes, hcodes, hlen⟩ := hnew.paired b keys hkeys
      rw [hkeys, hcodes] at hadd
      dsimp only at hadd
      rw [if_neg (not_not.mpr hlen.symm)] at hadd
      split at hadd
      · cases hadd
      · next s₁ hone =>
        have hnodupKeys := hnew.nodup b
        rw [hkeys, Option.getD_some] at hnodupKeys
        rcases addKeys_cases F hone with ⟨hfalse, -⟩ | ⟨-, hadded⟩
        · cases hfalse
        · have hinv := h.of_added (hfresh b List.mem_cons_self keys hkeys) hnodupKeys hadded
          rw [hnew.record_eq hkeys hcodes] at hinv
          refine ih hnodup'.2 hinv (fun b' hb' keys' hkeys' key hkey => ?_) hadd
          -- the group of another bucket is not touched by this one
          obtain ⟨c, hc⟩ := hnew.mem hkeys' hkey
          have hne : b' ∉ [b] := fun hmem => hnodup'.1 (List.mem_singleton.mp hmem ▸ hb')
          show Stored.merge new [b] g key = none
          unfold Stored.merge
          rw [hc]
          exact (if_neg hne).trans (hfresh b' (List.mem_cons_of_mem b hb') keys' hkeys' key hkey)
      · cases hadd

/-- A batch deletes nothing. -/
theorem isDeleted_addKeysFrom {newKeys : Fin n → Option (List ℕ)}
    {newCodes : Fin n → Option (List Code)} {a : Fin n → Alloc} {bs : List (Fin n)}
    {s s' : RealTimeMemData n Code} {ok : Bool}
    (hadd : RTInvertIndex.addKeysFrom F newKeys newCodes a bs s = some (s', ok)) (v : ℕ) :
    s'.isDeleted v = s.isDeleted v := by
  induction bs generalizing s with
  | nil =>
    cases hadd
    rfl
  | cons b bs ih =>
    unfold RTInvertIndex.addKeysFrom at hadd
    split at hadd
    · exact ih hadd
    · exact ih hadd
    · next keys codes _ _ =>
      split at hadd
      · exact ih hadd
      · have hone : ∀ s₁ ok₁, s.addKeys F b keys.length keys codes (a b) = some (s₁, ok₁) →
            s₁.isDeleted v = s.isDeleted v := by
          intro s₁ ok₁ hs₁
          rcases addKeys_cases F hs₁ with ⟨-, hgrown⟩ | ⟨-, hadded⟩
          · exact hgrown.toSameSlots.isDeleted_eq v
          · exact isDeleted_of_added hadded v
        split at hadd
        · cases hadd
        · next s₁ hs₁ => exact (ih hadd).trans (hone s₁ true hs₁)
        · next s₁ hs₁ =>
          cases hadd
          exact hone _ false hs₁

/-- **A batch that fails at its first group** leaves the slots as they are. -/
theorem sameSlots_addKeysFrom {newKeys : Fin n → Option (List ℕ)}
    {newCodes : Fin n → Option (List Code)} (hpair : RTInvertIndex.Paired newKeys newCodes)
    {a : Fin n → Alloc} {pre post : List (Fin n)} {b : Fin n} {s s' : RealTimeMemData n Code}
    (hpre : ∀ b' ∈ pre, newKeys b' = none) (hroom : ¬RTInvertIndex.HasRoom F newKeys a s b)
    (hadd : RTInvertIndex.addKeysFrom F newKeys newCodes a (pre ++ b :: post) s =
      some (s', false)) : SameSlots s s' := by
  induction pre with
  | nil =>
    rw [List.nil_append] at hadd
    unfold RTInvertIndex.addKeysFrom at hadd
    cases hkeys : newKeys b with
    | none =>
      refine absurd (fun keys hk => ?_) hroom
      rw [hkeys] at hk
      cases hk
    | some keys =>
      obtain ⟨codes, hcodes, hlen⟩ := hpair b keys hkeys
      rw [hkeys, hcodes] at hadd
      dsimp only at hadd
      rw [if_neg (not_not.mpr hlen.symm)] at hadd
      split at hadd
      · cases hadd
      · next s₁ hone =>
        refine absurd (fun keys' hk => ?_) hroom
        rw [hkeys] at hk
        cases hk
        exact (addKeys_ok_iff_room F hlen hone).mp rfl
      · next s₁ hone =>
        cases hadd
        rcases addKeys_cases F hone with ⟨-, hgrown⟩ | ⟨htrue, -⟩
        · exact hgrown.toSameSlots
        · cases htrue
  | cons b' pre ih =>
    rw [List.cons_append] at hadd
    unfold RTInvertIndex.addKeysFrom at hadd
    rw [hpre b' List.mem_cons_self] at hadd
    exact ih (fun b'' hb'' => hpre b'' (List.mem_cons_of_mem b' hb'')) hadd

end Batch

end AwaDB.Realtime.RealTimeMemData

namespace AwaDB.Index.GammaIVFPQIndex

open Realtime Realtime.RealTimeMemData

variable {nlist : ℕ} {Vec Code : Type}

section Groups

variable [NeZero nlist]

/-- The bucket and the code that a vector belongs to under a vid. -/
def placeOf (q : Quantizer nlist Vec Code) (vid : ℕ) (vec : Vec) : Fin nlist × Code :=
  (keyOf q vid vec, q.encode vec (q.assign vec))

/-- The places of a batch whose first vector gets the id `vid`. -/
def placesFrom (q : Quantizer nlist Vec Code) (vid : ℕ) (vecs : List Vec) : Stored nlist Code :=
  fun v => if vid ≤ v then (vecs[v - vid]?).map (placeOf q v) else none

theorem placesFrom_append (q : Quantizer nlist Vec Code) (vid : ℕ) (vecs : List Vec) (vec : Vec) :
    placesFrom q vid (vecs ++ [vec]) =
      Function.update (placesFrom q vid vecs) (vid + vecs.length)
        (some (placeOf q (vid + vecs.length) vec)) := by
  funext v
  unfold placesFrom
  by_cases hv : v = vid + vecs.length
  · subst hv
    rw [Function.update_self, if_pos (Nat.le_add_right _ _), Nat.add_sub_cancel_left,
      List.getElem?_concat_length, Option.map_some]
  · rw [Function.update_of_ne hv]
    by_cases hle : vid ≤ v
    · rw [if_pos hle, if_pos hle]
      by_cases hlt : v - vid < vecs.length
      · rw [List.getElem?_append_left hlt]
      · rw [List.getElem?_eq_none (by rw [List.length_append, List.length_singleton]; omega),
          List.getElem?_eq_none (by omega)]
    · rw [if_neg hle, if_neg hle]

theorem placesFrom_isSome (q : Quantizer nlist Vec Code) (vid : ℕ) (vecs : List Vec) (v : ℕ) :
    (placesFrom q vid vecs v).isSome ↔ vid ≤ v ∧ v < vid + vecs.length := by
  unfold placesFrom
  split
  · next hle =>
    rw [Option.isSome_map, Option.isSome_iff_exists]
    simp only [List.getElem?_eq_some_iff]
    constructor
    · rintro ⟨vec, hlt, -⟩
      exact ⟨hle, by omega⟩
    · rintro ⟨-, hlt⟩
      exact ⟨_, by omega, rfl⟩
  · next hle => simp [hle]

/-- The next vector of the batch joins the group of its bucket. -/
theorem describes_pushKey {q : Quantizer nlist Vec Code} {vid : ℕ} {vecs : List Vec}
    {g : Groups nlist Code} (hg : Gathered vid vecs.length g)
    (h : Describes (placesFrom q vid vecs) g.newKeys g.newCodes) (vec : Vec) :
    Describes (placesFrom q vid (vecs ++ [vec])) (pushKey q g vec).newKeys
      (pushKey q g vec).newCodes where
  length_eq := (hg.pushKey vec).length_eq
  nodup b := by
    rw [List.nodup_iff_count_le_one]
    intro v
    have hsum := (hg.pushKey (q := q) vec).count_eq v
    have hle : (((pushKey q g vec).newKeys b).getD []).count v ≤
        ∑ b, (((pushKey q g vec).newKeys b).getD []).count v :=
      Finset.single_le_sum (f := fun b => (((pushKey q g vec).newKeys b).getD []).count v)
        (fun b _ => Nat.zero_le _) (Finset.mem_univ b)
    split at hsum <;> omega
  lookup_eq b v := by
    have hfresh : placesFrom q vid vecs g.vid = none := by
      have hnot := (placesFrom_isSome q vid vecs g.vid).not.mpr (by rw [hg.vid_eq]; omega)
      rwa [Option.not_isSome_iff_eq_none] at hnot
    have hold := h.lookup_eq b v
    rw [placesFrom_append, ← hg.vid_eq]
    simp only [pushKey]
    by_cases hb : b = keyOf q g.vid vec
    · subst hb
      have hlen : ((g.newKeys (keyOf q g.vid vec)).getD []).length =
          ((g.newCodes (keyOf q g.vid vec)).getD []).length := by
        have hlen := h.length_eq (keyOf q g.vid vec)
        cases hkeys : g.newKeys (keyOf q g.vid vec) <;>
          cases hcodes : g.newCodes (keyOf q g.vid vec) <;> simp_all
      rw [Function.update_self, Function.update_self, Option.getD_some, Option.getD_some,
        List.zip_append hlen, List.lookup_append, hold]
      by_cases hv : v = g.vid
      · subst hv
        rw [hfresh, Function.update_self]
        simp [placeOf]
      · rw [Function.update_of_ne hv]
        simp [List.lookup_cons, beq_eq_false_iff_ne.mpr hv]
    · rw [Function.update_of_ne hb, Function.update_of_ne hb, hold]
      by_cases hv : v = g.vid
      · subst hv
        rw [hfresh, Function.update_self]
        simp [placeOf, Ne.symm hb]
      · rw [Function.update_of_ne hv]

/-- **The groups of a batch** are the places of its vectors. -/
theorem describes_gather (q : Quantizer nlist Vec Code) (vid : ℕ) (vecs : List Vec) :
    Describes (placesFrom q vid vecs) (gather q vid vecs).newKeys (gather q vid vecs).newCodes := by
  induction vecs using List.reverseRecOn with
  | nil =>
    refine ⟨fun b v => ?_, fun b => rfl, fun b => List.nodup_nil⟩
    have hnone : placesFrom q vid [] v = none := by simp [placesFrom]
    rw [hnone]
    rfl
  | append_singleton vecs vec ih =>
    have hgather : gather q vid (vecs ++ [vec]) = pushKey q (gather q vid vecs) vec := by
      rw [gather, List.foldl_append]
      rfl
    rw [hgather]
    exact describes_pushKey (gathered_gather q vid vecs) ih vec

end Groups

/-! ### A batch -/

section Add

variable [NeZero nlist] [Inhabited Code] {F : FloatOps} {q : Quantizer nlist Vec Code}

/-- **A batch that is taken** stores its vectors where they belong. -/
theorem add_inv {g : Stored nlist Code} {vecs : List Vec} {a : Fin nlist → Alloc}
    {x x' : GammaIVFPQIndex nlist Code} (h : Inv x.rt g)
    (hfresh : ∀ v, x.indexedVecCount ≤ v → g v = none) (hadd : x.add F q vecs a = some (x', true)) :
    Inv x'.rt fun v => (placesFrom q x.indexedVecCount vecs v).or (g v) := by
  have hdesc := describes_gather q x.indexedVecCount vecs
  unfold add at hadd
  dsimp only at hadd
  split at hadd
  · cases hadd
  · cases hadd
  · next rt hkeys =>
    cases hadd
    have hinv := h.addKeysFrom hdesc (List.nodup_finRange nlist) (fun b _ keys hk key hkey => ?_)
      hkeys
    · refine cast (congrArg (Inv rt) ?_) hinv
      funext v
      unfold Stored.merge
      cases placesFrom q x.indexedVecCount vecs v with
      | none => rfl
      | some e => exact if_pos (List.mem_finRange e.1)
    · obtain ⟨c, hc⟩ := hdesc.mem hk hkey
      have hsome := (placesFrom_isSome q x.indexedVecCount vecs key).mp (by rw [hc]; rfl)
      exact hfresh key hsome.1

theorem add_deleted_eq {vecs : List Vec} {a : Fin nlist → Alloc}
    {x x' : GammaIVFPQIndex nlist Code} {ok : Bool} (hadd : x.add F q vecs a = some (x', ok)) :
    x'.rt.isDeleted = x.rt.isDeleted := by
  funext v
  unfold add at hadd
  dsimp only at hadd
  split at hadd
  · cases hadd
  · next rt hkeys =>
    cases hadd
    exact isDeleted_addKeysFrom hkeys v
  · next rt hkeys =>
    cases hadd
    exact isDeleted_addKeysFrom hkeys v

/-- **A batch that fails** and met `AllOrNothing` leaves the slots as they are. -/
theorem add_failed_sameSlots {vecs : List Vec} {a : Fin nlist → Alloc}
    {x x' : GammaIVFPQIndex nlist Code} (hroom : AllOrNothing F q vecs a x)
    (hadd : x.add F q vecs a = some (x', false)) : SameSlots x.rt x'.rt := by
  have hdesc := describes_gather q x.indexedVecCount vecs
  unfold add at hadd
  dsimp only at hadd
  split at hadd
  · cases hadd
  · next rt hkeys =>
    cases hadd
    rcases hroom with hall | ⟨b, hno, hlower⟩
    · obtain ⟨done, rest, hins⟩ :=
        RTInvertIndex.addKeysFrom_spec hdesc.paired (List.nodup_finRange nlist) hkeys
      have hrest : rest ≠ [] := fun heq => by simpa using hins.ok_iff.mpr heq
      obtain ⟨b, tail, rfl⟩ := List.exists_cons_of_ne_nil hrest
      exact absurd (hall b) (hins.stuck b rfl)
    · obtain ⟨pre, post, hsplit⟩ := List.append_of_mem (List.mem_finRange b)
      have hsorted := List.pairwise_lt_finRange nlist
      rw [hsplit, List.pairwise_append] at hsorted
      unfold RTInvertIndex.addKeys at hkeys
      rw [hsplit] at hkeys
      exact sameSlots_addKeysFrom hdesc.paired
        (fun b' hb' => hlower b' (hsorted.2.2 b' hb' b List.mem_cons_self)) hno hkeys
  · cases hadd

end Add

/-! ### Updates -/

section Update

variable [Inhabited Code]

/-- **One update that fits** puts the vector where it goes, and deletes nothing. -/
theorem update_inv {F : FloatOps} {g : Stored nlist Code} {rt rt' : RealTimeMemData nlist Code}
    {b : Fin nlist} {vid : ℕ} {c : Code} {a : Alloc} {r : ℤ} (h : Inv rt g)
    (hstored : (g vid).isSome) (hdel : rt.isDeleted vid = false)
    (hfit : bucketOf (rt.bucketNoPos vid) = b ∨ Room F b 1 a rt)
    (hup : rt.update F b vid c a = some (rt', r)) :
    Inv rt' (Function.update g vid (some (b, c))) ∧ ∀ v, rt'.isDeleted v = rt.isDeleted v := by
  obtain ⟨⟨b₀, c₀⟩, hg⟩ := Option.isSome_iff_exists.mp hstored
  obtain ⟨p, hslot, hmap⟩ := h.slot_of_stored vid b₀ c₀ hg hdel
  have hp := Bucket.lt_of_getElem? hslot
  rcases update_cases_of_slot F hmap hp hup with ⟨rfl, -, hset⟩ | ⟨hne, ok, hadd, hr⟩
  · refine ⟨h.update hg hdel hup (.inl rfl), fun v => ?_⟩
    rw [hset, isDeleted_setBucket]
  · have hroom : Room F b 1 a rt := by
      refine hfit.resolve_left fun heq => hne (Fin.ext ?_)
      rw [← heq, hmap, bucketOf_encodePos hp]
    have hshape : SameShape b rt (rt.setBucket b₀
        ((rt.buckets b₀).maskSlot p)) :=
      sameShape_setBucket_of_ne (Ne.symm hne) _ _
    have hlen : [c].length = [vid].length := rfl
    have hok : ok = true := (addKeys_ok_iff_room F hlen hadd).mpr
      ((room_congr F hshape 1 a).mpr hroom)
    subst hok
    refine ⟨h.update hg hdel hup (.inr (by rw [hr]; rfl)), fun v => ?_⟩
    rcases addKeys_cases F hadd with ⟨hfalse, -⟩ | ⟨-, hadded⟩
    · cases hfalse
    · rw [isDeleted_of_added hadded, isDeleted_setBucket]

variable [NeZero nlist] (F : FloatOps) (q : Quantizer nlist Vec Code)

/-- Every update of the list stays in its bucket, or finds room in the one it moves to. -/
def UpdatesFit (as : ℕ → Alloc) : ℕ → List (ℕ × Vec) → RealTimeMemData nlist Code → Prop
  | _, [], _ => True
  | i, (vid, vec) :: rest, rt =>
    (∀ b, q.assign vec = some b →
      bucketOf (rt.bucketNoPos vid) = b ∨ Room F b 1 (as i) rt) ∧
    ∀ rt' r, rt.update F (keyOf q vid vec) vid (placeOf q vid vec).2 (as i) = some (rt', r) →
      UpdatesFit as (i + 1) rest rt'

variable {F q}

/-- What is stored after a list of updates. -/
def recordUpdates (q : Quantizer nlist Vec Code) (vids : List (ℕ × Vec)) (g : Stored nlist Code) :
    Stored nlist Code :=
  vids.foldl (fun g e => Function.update g e.1 (some (placeOf q e.1 e.2))) g

/-- **A list of updates.** -/
theorem updateFrom_inv {as : ℕ → Alloc} {i : ℕ} {vids : List (ℕ × Vec)}
    {rt rt' : RealTimeMemData nlist Code} {g : Stored nlist Code} (h : Inv rt g)
    (hstored : ∀ e ∈ vids, (g e.1).isSome ∧ rt.isDeleted e.1 = false)
    (hfit : UpdatesFit F q as i vids rt) (hup : updateFrom F q as i vids rt = some rt') :
    Inv rt' (recordUpdates q vids g) ∧ ∀ v, rt'.isDeleted v = rt.isDeleted v := by
  induction vids generalizing i rt g with
  | nil =>
    cases hup
    exact ⟨h, fun _ => rfl⟩
  | cons e rest ih =>
    obtain ⟨vid, vec⟩ := e
    obtain ⟨hsome, hdel⟩ := hstored (vid, vec) List.mem_cons_self
    unfold updateFrom at hup
    cases hassign : q.assign vec with
    | none =>
      rw [hassign] at hup
      dsimp only at hup
      split at hup
      · next hneg =>
        -- a stored vector is in the reverse map
        obtain ⟨⟨b, c⟩, hg⟩ := Option.isSome_iff_exists.mp hsome
        obtain ⟨p, -, hmap⟩ := h.slot_of_stored vid b c hg hdel
        exact absurd (hmap.symm.trans hneg) (encodePos_ne_neg_one _ _)
      · cases hup
    | some b =>
      have hkey : keyOf q vid vec = b := by rw [keyOf, hassign, Option.getD_some]
      have hplace : placeOf q vid vec = (b, q.encode vec (some b)) := by
        rw [placeOf, hkey, hassign]
      rw [hassign] at hup
      dsimp only at hup
      split at hup
      · cases hup
      · next rt₁ r hone =>
        obtain ⟨hinv, hsame⟩ := update_inv h hsome hdel (hfit.1 b hassign) hone
        have hrest := hfit.2 rt₁ r (by rw [hkey, hplace]; exact hone)
        rw [← hplace] at hinv
        have hstored' : ∀ e ∈ rest, (Function.update g vid (some (placeOf q vid vec)) e.1).isSome ∧
            rt₁.isDeleted e.1 = false := by
          intro e he
          have hold := hstored e (List.mem_cons_of_mem _ he)
          refine ⟨?_, (hsame e.1).trans hold.2⟩
          by_cases heq : e.1 = vid
          · rw [heq, Function.update_self]
            rfl
          · rw [Function.update_of_ne heq]
            exact hold.1
        obtain ⟨hend, hdels⟩ := ih hinv hstored' hrest hup
        exact ⟨hend, fun v => (hdels v).trans (hsame v)⟩

omit [NeZero nlist] in
theorem isDeleted_compactIfNeed {F : FloatOps} {rt : RealTimeMemData nlist Code}
    (a : Fin nlist → Alloc) (v : ℕ) : (rt.compactIfNeed F a).1.isDeleted v = rt.isDeleted v := by
  obtain ⟨cs, hcs⟩ := compactFrom_eq_foldl F a (List.finRange nlist) rt
  rw [RealTimeMemData.compactIfNeed, hcs]
  clear hcs
  induction cs generalizing rt with
  | nil => rfl
  | cons c cs ih => exact ih

/-- **`GammaIVFPQIndex::Update`** with updates that fit. -/
theorem updates_inv {vids : List (ℕ × Vec)} {as : ℕ → Alloc} {ac : Fin nlist → Alloc}
    {x x' : GammaIVFPQIndex nlist Code} {g : Stored nlist Code} (h : Inv x.rt g)
    (hstored : ∀ e ∈ vids, (g e.1).isSome ∧ x.rt.isDeleted e.1 = false)
    (hfit : UpdatesFit F q as 0 vids x.rt) (hup : x.update F q vids as ac = some x') :
    Inv x'.rt (recordUpdates q vids g) ∧ x'.indexedVecCount = x.indexedVecCount ∧
      ∀ v, x'.rt.isDeleted v = x.rt.isDeleted v := by
  obtain ⟨rt, hrt, rfl⟩ := Option.map_eq_some_iff.mp hup
  obtain ⟨hinv, hdel⟩ := updateFrom_inv h hstored hfit hrt
  refine ⟨hinv.compactIfNeed ac, rfl, fun v => ?_⟩
  show (rt.compactIfNeed F ac).1.isDeleted v = x.rt.isDeleted v
  rw [isDeleted_compactIfNeed, hdel]

end Update

end AwaDB.Index.GammaIVFPQIndex
