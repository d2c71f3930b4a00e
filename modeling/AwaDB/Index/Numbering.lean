import AwaDB.Index.BatchInv

/-!
# How vectors are numbered (`index/impl/gamma_index_ivfflat.cc`, `gamma_index_binary_ivf.cc`, `gamma_index_ivfpq.cc`)

The quantizer may find no list for a vector. `GammaIVFPQIndex::Add` takes one by the number of the vector
then; `GammaIndexIVFFlat::Add` and `GammaIndexBinaryIVF::Add` go on with the next vector, and do not count
the one without list. `Update` of all three hands on the list as it is.

* `addAssigned`: the `Add` that goes on;
* `taken_addKeysFrom`: where the vectors of a batch end up, whatever was stored before;
* `numbered_addAssigned_iff`: when that `Add` numbers the vectors as they are stored;
* `leavesBuckets_iff`: when an update goes to the bucket `-1`;
* `numbered_iff`: both, for the three indexes, and `shifted`: a batch whose first vector has no list.
-/

namespace AwaDB.Realtime.RealTimeMemData

variable {n : ℕ} {Code : Type}

/-! ### Where a batch ends up -/

/-- The buckets `bs` have taken their part of a batch: each vector is in a slot of its bucket, with its
code, and the reverse map says so. The other slots stay. -/
structure Taken (new : Stored n Code) (bs : List (Fin n)) (s s' : RealTimeMemData n Code) : Prop where
  kept : ∀ (b : Fin n) (p : ℕ) (e : Long × Code), (s.entries b)[p]? = some e → (s'.entries b)[p]? = some e
  map_kept : ∀ v, (∀ b c, new v = some (b, c) → b ∉ bs) → s'.bucketNoPos v = s.bucketNoPos v
  slot : ∀ v b c, new v = some (b, c) → b ∈ bs →
    ∃ p, (s'.entries b)[p]? = some (ofVid v, c) ∧ s'.bucketNoPos v = encodePos b p

section Taken

variable {new : Stored n Code} {newKeys : Fin n → Option (List ℕ)} {newCodes : Fin n → Option (List Code)}
  {b : Fin n} {bs : List (Fin n)} {s s₁ s' : RealTimeMemData n Code}

theorem Taken.nil (s : RealTimeMemData n Code) : Taken new [] s s where
  kept _ _ _ he := he
  map_kept _ _ := rfl
  slot _ _ _ _ hmem := absurd hmem List.not_mem_nil

/-- A bucket without a group takes nothing. -/
theorem Taken.skip (hdesc : Describes new newKeys newCodes) (hb : newKeys b = none)
    (h : Taken new bs s s') : Taken new (b :: bs) s s' := by
  have hne : ∀ v b' c, new v = some (b', c) → b' ≠ b := by
    intro v b' c hv heq
    have hfound := hdesc.lookup_eq b v
    rw [hb, Option.getD_none, List.zip_nil_left, List.lookup_nil, hv, Option.bind_some, if_pos heq] at hfound
    cases hfound
  constructor
  · exact h.kept
  · intro v hv
    exact h.map_kept v fun b' c hc hmem => hv b' c hc (List.mem_cons_of_mem b hmem)
  · intro v b' c hv hmem
    exact h.slot v b' c hv (List.mem_of_ne_of_mem (hne v b' c hv) hmem)

/-- A bucket takes its group, and the others take theirs. -/
theorem Taken.cons (hdesc : Describes new newKeys newCodes) {keys : List ℕ} {codes : List Code}
    (hkeys : newKeys b = some keys) (hcodes : newCodes b = some codes) (hb : b ∉ bs)
    (hadded : Added b keys codes s s₁) (h : Taken new bs s₁ s') : Taken new (b :: bs) s s' := by
  have hlook : ∀ v, (keys.zip codes).lookup v = (new v).bind fun e => if e.1 = b then some e.2 else none := by
    intro v
    have hfound := hdesc.lookup_eq b v
    rwa [hkeys, hcodes] at hfound
  have hnodup : keys.Nodup := by
    have hnodup := hdesc.nodup b
    rwa [hkeys] at hnodup
  have hself : ∀ v c, new v = some (b, c) → ∃ p, (s₁.entries b)[p]? = some (ofVid v, c) ∧
      s₁.bucketNoPos v = encodePos b p := by
    intro v c hv
    have hfound := hlook v
    rw [hv, Option.bind_some, if_pos rfl] at hfound
    obtain ⟨i, hi, hci⟩ := Lib.lookup_zip_eq_some hfound
    obtain ⟨j, hj, hmap⟩ := hadded.map_of_mem v (List.mem_of_getElem? hi)
    have hij := Lib.index_unique_of_nodup hnodup hi hj
    subst hij
    exact ⟨_, hadded.slot_of_key hi hci, hmap⟩
  constructor
  · intro b' p e he
    exact h.kept b' p e (hadded.slot_of_old he)
  · intro v hv
    have hnot : v ∉ keys := by
      refine (Lib.lookup_zip_eq_none hadded.codes_length v).mp ?_
      rw [hlook v]
      cases hnew : new v with
      | none => rfl
      | some e =>
        refine if_neg fun heq => hv e.1 e.2 hnew ?_
        rw [heq]
        exact List.mem_cons_self
    rw [h.map_kept v fun b' c hc hmem => hv b' c hc (List.mem_cons_of_mem b hmem)]
    exact hadded.map_of_notMem v hnot
  · intro v b' c hv hmem
    by_cases heq : b' = b
    · subst heq
      obtain ⟨p, hslot, hmap⟩ := hself v c hv
      have hstays : s'.bucketNoPos v = s₁.bucketNoPos v := by
        refine h.map_kept v fun b'' c' hc hmem' => hb ?_
        rw [hv] at hc
        cases hc
        exact hmem'
      exact ⟨p, h.kept b' p _ hslot, hstays.trans hmap⟩
    · exact h.slot v b' c hv (List.mem_of_ne_of_mem heq hmem)

/-- **A batch that is taken**, bucket by bucket. -/
theorem taken_addKeysFrom [Inhabited Code] {F : FloatOps} (hdesc : Describes new newKeys newCodes)
    {a : Fin n → Alloc} (hnodup : bs.Nodup)
    (hadd : RTInvertIndex.addKeysFrom F newKeys newCodes a bs s = some (s', true)) :
    Taken new bs s s' := by
  induction bs generalizing s with
  | nil =>
    cases hadd
    exact Taken.nil _
  | cons b bs ih =>
    have hnodup' := List.nodup_cons.mp hnodup
    unfold RTInvertIndex.addKeysFrom at hadd
    cases hkeys : newKeys b with
    | none =>
      rw [hkeys] at hadd
      exact Taken.skip hdesc hkeys (ih hnodup'.2 hadd)
    | some keys =>
      obtain ⟨codes, hcodes, hlen⟩ := hdesc.paired b keys hkeys
      rw [hkeys, hcodes] at hadd
      dsimp only at hadd
      rw [if_neg (not_not.mpr hlen.symm)] at hadd
      split at hadd
      · cases hadd
      · next s₁ hone =>
        rcases addKeys_cases F hone with ⟨hfalse, -⟩ | ⟨-, hadded⟩
        · cases hfalse
        · exact Taken.cons hdesc hkeys hcodes hnodup'.1 hadded (ih hnodup'.2 hadd)
      · cases hadd

end Taken

end AwaDB.Realtime.RealTimeMemData

namespace AwaDB.Index

open Realtime Realtime.RealTimeMemData

namespace GammaIVFPQIndex

variable {nlist : ℕ} {Vec Code : Type}

/-! ### Vectors without list -/

/-- One round of the loop that fills the groups; a vector without list is passed over. -/
def passKey (q : Quantizer nlist Vec Code) (g : Groups nlist Code) (vec : Vec) : Groups nlist Code :=
  match q.assign vec with
  | none => g
  | some key =>
    { newKeys := Function.update g.newKeys key (some ((g.newKeys key).getD [] ++ [g.vid]))
      newCodes := Function.update g.newCodes key
        (some ((g.newCodes key).getD [] ++ [q.encode vec (some key)]))
      vid := g.vid + 1 }

/-- The groups of a batch whose first vector gets the id `vid`. -/
def gatherAssigned (q : Quantizer nlist Vec Code) (vid : ℕ) (vecs : List Vec) : Groups nlist Code :=
  vecs.foldl (passKey q) ⟨fun _ => none, fun _ => none, vid⟩

/-- Stage 2 of `Add`: the groups go to the inverted lists. -/
def addGroups [Inhabited Code] (F : FloatOps) (g : Groups nlist Code) (a : Fin nlist → Alloc)
    (x : GammaIVFPQIndex nlist Code) : Option (GammaIVFPQIndex nlist Code × Bool) :=
  match RTInvertIndex.addKeys F g.newKeys g.newCodes a x.rt with
  | none => none
  | some (rt, false) => some ({ x with rt := rt }, false)
  | some (rt, true) => some ({ rt := rt, indexedVecCount := g.vid }, true)

/-- An `Add` that passes over the vectors without list. -/
def addAssigned [Inhabited Code] (F : FloatOps) (q : Quantizer nlist Vec Code) (vecs : List Vec)
    (a : Fin nlist → Alloc) (x : GammaIVFPQIndex nlist Code) :
    Option (GammaIVFPQIndex nlist Code × Bool) :=
  addGroups F (gatherAssigned q x.indexedVecCount vecs) a x

end GammaIVFPQIndex

/-- The codes of an index that keeps the vectors themselves. -/
def ownBytes {nlist : ℕ} {Vec : Type} (assign : Vec → Option (Fin nlist)) : Quantizer nlist Vec Vec :=
  ⟨assign, fun vec _ => vec⟩

/-- `GammaIndexIVFFlat::Add`. -/
def GammaIndexIVFFlat.add {nlist : ℕ} {Vec : Type} [Inhabited Vec] (F : FloatOps)
    (assign : Vec → Option (Fin nlist)) :=
  GammaIVFPQIndex.addAssigned F (ownBytes assign)

/-- `GammaIndexBinaryIVF::Add`, what `ntotal` counts left out. -/
def GammaIndexBinaryIVF.add {nlist : ℕ} {Vec : Type} [Inhabited Vec] (F : FloatOps)
    (assign : Vec → Option (Fin nlist)) :=
  GammaIVFPQIndex.addAssigned F (ownBytes assign)

namespace GammaIVFPQIndex

variable {nlist : ℕ} {Vec Code : Type}

/-! ### Numbers -/

/-- **A batch is numbered as it is stored**: the count goes up by its length, and every vector that has a
list is in a slot of that list, under its number and with its code. What was stored before stays. -/
structure Numbered (q : Quantizer nlist Vec Code) (vecs : List Vec) (x x' : GammaIVFPQIndex nlist Code) :
    Prop where
  count : x'.indexedVecCount = x.indexedVecCount + vecs.length
  kept : ∀ (b : Fin nlist) (p : ℕ) (e : Long × Code),
    (x.rt.entries b)[p]? = some e → (x'.rt.entries b)[p]? = some e
  stored : ∀ i vec b, vecs[i]? = some vec → q.assign vec = some b →
    ∃ p, (x'.rt.entries b)[p]? = some (ofVid (x.indexedVecCount + i), q.encode vec (some b)) ∧
      x'.rt.bucketNoPos (x.indexedVecCount + i) = encodePos b p

variable {q : Quantizer nlist Vec Code} {vecs : List Vec}

/-- `IVFPQ` numbers every batch. -/
theorem numbered_add [NeZero nlist] [Inhabited Code] {F : FloatOps} {a : Fin nlist → Alloc}
    {x x' : GammaIVFPQIndex nlist Code} (hadd : x.add F q vecs a = some (x', true)) :
    Numbered q vecs x x' := by
  have hcount := (add_ok hadd).1
  unfold GammaIVFPQIndex.add at hadd
  dsimp only at hadd
  split at hadd
  · cases hadd
  · cases hadd
  · next rt hkeys =>
    cases hadd
    have htaken := taken_addKeysFrom (describes_gather q x.indexedVecCount vecs)
      (List.nodup_finRange nlist) hkeys
    constructor
    · exact hcount
    · exact htaken.kept
    · intro i vec b hvec hassign
      refine htaken.slot _ b _ ?_ (List.mem_finRange b)
      unfold placesFrom
      rw [if_pos (Nat.le_add_right _ _), Nat.add_sub_cancel_left, hvec, Option.map_some, placeOf, keyOf,
        hassign, Option.getD_some]

/-- The loop counts the vectors that have a list. -/
theorem foldl_passKey_vid (q : Quantizer nlist Vec Code) (vecs : List Vec) (groups : Groups nlist Code) :
    (vecs.foldl (passKey q) groups).vid =
      groups.vid + vecs.countP fun vec => (q.assign vec).isSome := by
  induction vecs generalizing groups with
  | nil => rfl
  | cons vec vecs ih =>
    rw [List.foldl_cons, ih, List.countP_cons]
    unfold passKey
    cases q.assign vec with
    | none => rfl
    | some key =>
      show groups.vid + 1 + _ = _
      rw [Nat.add_assoc, Nat.add_comm 1]
      rfl

/-- Where every vector has a list, the two loops do the same. -/
theorem foldl_passKey_eq [NeZero nlist] (hall : ∀ vec ∈ vecs, q.assign vec ≠ none)
    (groups : Groups nlist Code) : vecs.foldl (passKey q) groups = vecs.foldl (pushKey q) groups := by
  induction vecs generalizing groups with
  | nil => rfl
  | cons vec vecs ih =>
    have hstep : passKey q groups vec = pushKey q groups vec := by
      cases hassign : q.assign vec with
      | none => exact absurd hassign (hall vec List.mem_cons_self)
      | some key =>
        unfold passKey pushKey keyOf
        rw [hassign]
        rfl
    rw [List.foldl_cons, List.foldl_cons, hstep]
    exact ih (fun vec hmem => hall vec (List.mem_cons_of_mem _ hmem)) _

/-- **The `Add` that goes on** numbers a batch exactly when all of its vectors have a list. -/
theorem numbered_addAssigned_iff [NeZero nlist] [Inhabited Code] {F : FloatOps} {a : Fin nlist → Alloc}
    {x x' : GammaIVFPQIndex nlist Code} (hadd : addAssigned F q vecs a x = some (x', true)) :
    Numbered q vecs x x' ↔ ∀ vec ∈ vecs, q.assign vec ≠ none := by
  constructor
  · intro hnumbered
    have hcount : x'.indexedVecCount =
        x.indexedVecCount + vecs.countP fun vec => (q.assign vec).isSome := by
      unfold addAssigned addGroups at hadd
      split at hadd
      · cases hadd
      · cases hadd
      · cases hadd
        exact foldl_passKey_vid q vecs _
    have hall : vecs.countP (fun vec => (q.assign vec).isSome) = vecs.length :=
      Nat.add_left_cancel (hcount.symm.trans hnumbered.count)
    intro vec hmem hnone
    have hsome := List.countP_eq_length.mp hall vec hmem
    rw [hnone] at hsome
    cases hsome
  · intro hall
    have hgather : gatherAssigned q x.indexedVecCount vecs = gather q x.indexedVecCount vecs :=
      foldl_passKey_eq hall _
    have hsame : addAssigned F q vecs a x = x.add F q vecs a := by
      show addGroups F (gatherAssigned q x.indexedVecCount vecs) a x =
        addGroups F (gather q x.indexedVecCount vecs) a x
      rw [hgather]
    exact numbered_add (hsame ▸ hadd)

/-! ### Updates -/

section Update

variable [Inhabited Code]

/-- The loop of `Update` comes to a vector that is in the index and has no list, and goes on to the bucket
`-1`. -/
def LeavesBuckets (F : FloatOps) (q : Quantizer nlist Vec Code) (as : ℕ → Alloc) (vids : List (ℕ × Vec))
    (rt : RealTimeMemData nlist Code) : Prop :=
  ∃ before vid vec rest rt', vids = before ++ (vid, vec) :: rest ∧
    updateFrom F q as 0 before rt = some rt' ∧ q.assign vec = none ∧ rt'.bucketNoPos vid ≠ -1

variable {F : FloatOps}

/-- An update leaves the vectors in the index that are there. -/
theorem update_inIndex_iff {b : Fin nlist} {vid : ℕ} {c : Code} {a : Alloc} {r : ℤ}
    {rt rt' : RealTimeMemData nlist Code} (h : rt.update F b vid c a = some (rt', r)) (v : ℕ) :
    rt'.bucketNoPos v = -1 ↔ rt.bucketNoPos v = -1 := by
  rcases update_cases F h with ⟨-, rfl, -⟩ | ⟨ob, hin, -, ⟨-, -, rfl⟩ | ⟨-, ok, hadd, -⟩⟩
  · exact Iff.rfl
  · exact Iff.rfl
  · rcases addKeys_cases F hadd with ⟨-, hgrown⟩ | ⟨-, hadded⟩
    · rw [hgrown.toSameSlots.bucketNoPos_eq]
      exact Iff.rfl
    · by_cases hv : v = vid
      · obtain ⟨p, -, hmap⟩ := hadded.map_of_mem v (by rw [hv]; exact List.mem_singleton_self vid)
        rw [hmap, hv]
        exact iff_of_false (encodePos_ne_neg_one _ _) hin
      · rw [hadded.map_of_notMem v (by rwa [List.mem_singleton])]
        exact Iff.rfl

theorem updateFrom_inIndex_iff {as : ℕ → Alloc} {i : ℕ} {vids : List (ℕ × Vec)}
    {rt rt' : RealTimeMemData nlist Code} (h : updateFrom F q as i vids rt = some rt') (v : ℕ) :
    rt'.bucketNoPos v = -1 ↔ rt.bucketNoPos v = -1 := by
  induction vids generalizing i rt with
  | nil =>
    cases h
    exact Iff.rfl
  | cons e rest ih =>
    unfold updateFrom at h
    split at h
    · split at h
      · exact ih h
      · cases h
    · split at h
      · cases h
      · next rt₁ r hone => exact (ih h).trans (update_inIndex_iff hone v)

/-- **`Update`** goes to the bucket `-1` exactly when the loop comes to a vector that was in the index and
has no list. -/
theorem leavesBuckets_iff {as : ℕ → Alloc} {vids : List (ℕ × Vec)} {rt : RealTimeMemData nlist Code} :
    LeavesBuckets F q as vids rt ↔ ∃ before vid vec rest, vids = before ++ (vid, vec) :: rest ∧
      (updateFrom F q as 0 before rt).isSome ∧ rt.bucketNoPos vid ≠ -1 ∧ q.assign vec = none := by
  constructor
  · rintro ⟨before, vid, vec, rest, rt', hvids, hrun, hassign, hin⟩
    refine ⟨before, vid, vec, rest, hvids, by rw [hrun]; rfl, ?_, hassign⟩
    exact fun hout => hin ((updateFrom_inIndex_iff hrun vid).mpr hout)
  · rintro ⟨before, vid, vec, rest, hvids, hsome, hin, hassign⟩
    obtain ⟨rt', hrun⟩ := Option.isSome_iff_exists.mp hsome
    refine ⟨before, vid, vec, rest, rt', hvids, hrun, hassign, ?_⟩
    exact fun hout => hin ((updateFrom_inIndex_iff hrun vid).mp hout)

end Update

/-! ### The three indexes -/

/-- **When batches are numbered as they are stored**: `GammaIndexIVFFlat` and `GammaIndexBinaryIVF` number
one exactly when all of its vectors have a list, `GammaIVFPQIndex` always; and the updates of
`GammaIndexIVFFlat` and `GammaIVFPQIndex` leave the buckets exactly at a vector that was in the index and
has no list. -/
theorem numbered_iff [NeZero nlist] [Inhabited Vec] [Inhabited Code] (F : FloatOps)
    (assign : Vec → Option (Fin nlist)) (q : Quantizer nlist Vec Code) :
    (∀ vecs a x x', GammaIndexIVFFlat.add F assign vecs a x = some (x', true) →
      (Numbered (ownBytes assign) vecs x x' ↔ ∀ vec ∈ vecs, assign vec ≠ none)) ∧
    (∀ vecs a x x', GammaIndexBinaryIVF.add F assign vecs a x = some (x', true) →
      (Numbered (ownBytes assign) vecs x x' ↔ ∀ vec ∈ vecs, assign vec ≠ none)) ∧
    (∀ vecs a x x', GammaIVFPQIndex.add F q vecs a x = some (x', true) → Numbered q vecs x x') ∧
    (∀ as vids rt, LeavesBuckets F (ownBytes assign) as vids rt ↔
      ∃ before vid vec rest, vids = before ++ (vid, vec) :: rest ∧
        (updateFrom F (ownBytes assign) as 0 before rt).isSome ∧ rt.bucketNoPos vid ≠ -1 ∧
        assign vec = none) ∧
    ∀ as vids rt, LeavesBuckets F q as vids rt ↔
      ∃ before vid vec rest, vids = before ++ (vid, vec) :: rest ∧
        (updateFrom F q as 0 before rt).isSome ∧ rt.bucketNoPos vid ≠ -1 ∧ q.assign vec = none := by
  refine ⟨?_, ?_, ?_, ?_, ?_⟩
  · intro vecs a x x' hadd
    exact numbered_addAssigned_iff hadd
  · intro vecs a x x' hadd
    exact numbered_addAssigned_iff hadd
  · intro vecs a x x' hadd
    exact numbered_add hadd
  · intro as vids rt
    exact leavesBuckets_iff
  · intro as vids rt
    exact leavesBuckets_iff

/-- Even numbers below `100` go to list `0`, odd ones to list `1`, the others to none. -/
def below100 (v : ℕ) : Option (Fin 2) := if v < 100 then some (Fin.ofNat 2 v) else none

/-- Nothing is indexed, in two lists of four slots. -/
def twoLists : GammaIVFPQIndex 2 ℕ := ⟨init 4 1000 four_lt_maxSlots (.init 16) (.init false 0), 0⟩

/-- The index after the batch `vecs`. -/
def after (vecs : List ℕ) : GammaIVFPQIndex 2 ℕ :=
  ((GammaIndexIVFFlat.add FloatOps.rational below100 vecs (fun _ => .ok) twoLists).map Prod.fst).getD twoLists

theorem numbered_iff_two : ∃ x', GammaIndexIVFFlat.add FloatOps.rational below100 [70, 71] (fun _ => .ok)
    twoLists = some (x', true) ∧ Numbered (ownBytes below100) [70, 71] twoLists x' := by
  have hok : (GammaIndexIVFFlat.add FloatOps.rational below100 [70, 71] (fun _ => .ok) twoLists).map
      Prod.snd = some true := by decide +kernel
  obtain ⟨⟨x', ok⟩, hadd, heq⟩ := Option.map_eq_some_iff.mp hok
  cases heq
  exact ⟨x', hadd, ((numbered_iff FloatOps.rational below100 (ownBytes below100)).1 _ _ _ _ hadd).mpr
    (by decide)⟩

/-- The first of three vectors has no list: two are counted, and the second vector is stored under the
number of the first. To give a vector a value without list leaves the buckets. -/
theorem shifted :
    (GammaIndexIVFFlat.add FloatOps.rational below100 [100, 70, 71] (fun _ => .ok) twoLists).map Prod.snd =
      some true ∧ (after [100, 70, 71]).indexedVecCount = 2 ∧
    (after [100, 70, 71]).rt.entries 0 = [(0#64, 70)] ∧
    ¬Numbered (ownBytes below100) [100, 70, 71] twoLists (after [100, 70, 71]) ∧
    LeavesBuckets FloatOps.rational (ownBytes below100) (fun _ => .ok) [(0, 100)]
      (after [100, 70, 71]).rt := by
  have hcount : (after [100, 70, 71]).indexedVecCount = 2 := by decide +kernel
  refine ⟨by decide +kernel, hcount, by decide +kernel, fun h => ?_, ?_⟩
  · have hthree : (2 : ℕ) = 3 := hcount.symm.trans h.count
    cases hthree
  · exact ⟨[], 0, 100, [], _, rfl, rfl, by decide, by decide +kernel⟩

end GammaIVFPQIndex

end AwaDB.Index
