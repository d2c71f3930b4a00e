import AwaDB.Realtime.InvertIndex
import Mathlib.Order.Fin.Basic

/-!
# The IVFPQ index (`GammaIVFPQIndex` in `index/impl/gamma_index_ivfpq.cc`)

`Add` numbers the vectors of a batch from `indexed_vec_count_` on, groups them by the bucket the
quantizer assigns, and hands the groups to `RTInvertIndex::AddKeys`; the count moves only when all of
them were taken. The trained quantizer and the product quantizer are a parameter.

* `gathered_gather`: grouping loses no vector and repeats none;
* `add_ok` and `add_failed`: what a batch adds to the slot counts. A failed batch has left nothing
  behind exactly when `AllOrNothing` held before it.
-/

namespace AwaDB.Index

open Realtime Realtime.RealTimeMemData

/-- The trained quantizers: the nearest centroid (`none` is `-1`, for a vector without one), and the
code of a vector given its centroid. -/
structure Quantizer (nlist : ℕ) (Vec Code : Type) where
  assign : Vec → Option (Fin nlist)
  encode : Vec → Option (Fin nlist) → Code

/-- `GammaIVFPQIndex`, what searching needs left out. -/
structure GammaIVFPQIndex (nlist : ℕ) (Code : Type) where
  rt : RealTimeMemData nlist Code
  indexedVecCount : ℕ

namespace GammaIVFPQIndex

variable {nlist : ℕ} {Vec Code : Type}

/-! ### Grouping a batch by bucket -/

/-- `new_keys`, `new_codes` and `vid` in `GammaIVFPQIndex::Add`. -/
structure Groups (nlist : ℕ) (Code : Type) where
  newKeys : Fin nlist → Option (List ℕ)
  newCodes : Fin nlist → Option (List Code)
  vid : ℕ

/-- The groups hold the `k` ids from `vid` on, each once and with its code, and no group is
empty. -/
structure Gathered (vid k : ℕ) (g : Groups nlist Code) : Prop where
  vid_eq : g.vid = vid + k
  length_eq : ∀ b, (g.newCodes b).map List.length = (g.newKeys b).map List.length
  nonempty : ∀ b, g.newKeys b ≠ some []
  count_eq : ∀ v, ∑ b, ((g.newKeys b).getD []).count v = if vid ≤ v ∧ v < vid + k then 1 else 0

theorem Gathered.paired {vid k : ℕ} {g : Groups nlist Code} (h : Gathered vid k g) :
    RTInvertIndex.Paired g.newKeys g.newCodes := by
  intro b keys hkeys
  have hlen := h.length_eq b
  rw [hkeys, Option.map_some, Option.map_eq_some_iff] at hlen
  exact hlen

section Groups

variable [NeZero nlist]

/-- The bucket of a vector: its centroid, or `vid % nlist` when it has none. -/
def keyOf (q : Quantizer nlist Vec Code) (vid : ℕ) (vec : Vec) : Fin nlist :=
  (q.assign vec).getD (Fin.ofNat nlist vid)

/-- One round of the loop that fills the groups. -/
def pushKey (q : Quantizer nlist Vec Code) (g : Groups nlist Code) (vec : Vec) :
    Groups nlist Code :=
  let key := keyOf q g.vid vec
  { newKeys := Function.update g.newKeys key (some ((g.newKeys key).getD [] ++ [g.vid]))
    newCodes := Function.update g.newCodes key
      (some ((g.newCodes key).getD [] ++ [q.encode vec (q.assign vec)]))
    vid := g.vid + 1 }

/-- The groups of a batch whose first vector gets the id `vid`. -/
def gather (q : Quantizer nlist Vec Code) (vid : ℕ) (vecs : List Vec) : Groups nlist Code :=
  vecs.foldl (pushKey q) ⟨fun _ => none, fun _ => none, vid⟩

/-- The next vector of the batch joins the group of its bucket. -/
theorem Gathered.pushKey {q : Quantizer nlist Vec Code} {vid k : ℕ} {g : Groups nlist Code}
    (h : Gathered vid k g) (vec : Vec) : Gathered vid (k + 1) (pushKey q g vec) where
  vid_eq := by
    show g.vid + 1 = vid + (k + 1)
    rw [h.vid_eq, Nat.add_assoc]
  length_eq b := by
    have hlen := h.length_eq b
    simp only [GammaIVFPQIndex.pushKey]
    by_cases hb : b = keyOf q g.vid vec
    · subst hb
      rw [Function.update_self, Function.update_self]
      cases hkeys : g.newKeys (keyOf q g.vid vec) <;>
        cases hcodes : g.newCodes (keyOf q g.vid vec) <;> simp_all
    · rw [Function.update_of_ne hb, Function.update_of_ne hb]
      exact hlen
  nonempty b := by
    simp only [GammaIVFPQIndex.pushKey]
    by_cases hb : b = keyOf q g.vid vec
    · subst hb
      rw [Function.update_self]
      simp
    · rw [Function.update_of_ne hb]
      exact h.nonempty b
  count_eq v := by
    have hterm : ∀ b, (((GammaIVFPQIndex.pushKey q g vec).newKeys b).getD []).count v =
        ((g.newKeys b).getD []).count v +
          if b = keyOf q g.vid vec then (if g.vid = v then 1 else 0) else 0 := by
      intro b
      simp only [GammaIVFPQIndex.pushKey]
      by_cases hb : b = keyOf q g.vid vec
      · subst hb
        rw [Function.update_self, if_pos rfl, Option.getD_some, List.count_append,
          List.count_singleton]
        simp only [beq_iff_eq]
      · rw [Function.update_of_ne hb, if_neg hb, Nat.add_zero]
    simp only [hterm, Finset.sum_add_distrib, Finset.sum_ite_eq', Finset.mem_univ, if_true,
      h.count_eq, h.vid_eq]
    split <;> split <;> split <;> omega

theorem gathered_foldl (q : Quantizer nlist Vec Code) (vecs : List Vec) {vid k : ℕ}
    {g : Groups nlist Code} (h : Gathered vid k g) :
    Gathered vid (k + vecs.length) (vecs.foldl (pushKey q) g) := by
  induction vecs generalizing k g with
  | nil => exact h
  | cons vec vecs ih =>
    have hrest := ih (h.pushKey (q := q) vec)
    rwa [Nat.add_assoc, Nat.add_comm 1] at hrest

/-- **Grouping a batch** puts each of its ids into one group, once. -/
theorem gathered_gather (q : Quantizer nlist Vec Code) (vid : ℕ) (vecs : List Vec) :
    Gathered vid vecs.length (gather q vid vecs) := by
  have hempty : Gathered vid 0 (⟨fun _ => none, fun _ => none, vid⟩ : Groups nlist Code) := by
    refine ⟨rfl, fun _ => rfl, nofun, fun v => ?_⟩
    rw [if_neg (by omega)]
    simp
  have h := gathered_foldl q vecs hempty
  rwa [Nat.zero_add] at h

end Groups

/-! ### Updating -/

section Update

variable [Inhabited Code] (F : FloatOps) (q : Quantizer nlist Vec Code)

/-- The loop of `GammaIVFPQIndex::Update`, whose `i`-th insertion allocates as `as i` says. For a
vector without a centroid the bucket number is `-1`, which is out of bounds once it is used. -/
def updateFrom (as : ℕ → Alloc) :
    ℕ → List (ℕ × Vec) → RealTimeMemData nlist Code → Option (RealTimeMemData nlist Code)
  | _, [], rt => some rt
  | i, (vid, vec) :: rest, rt =>
    match q.assign vec with
    | none => if rt.bucketNoPos vid = -1 then updateFrom as (i + 1) rest rt else none
    | some b =>
      match rt.update F b vid (q.encode vec (some b)) (as i) with
      | none => none
      | some (rt, _) => updateFrom as (i + 1) rest rt

/-- `GammaIVFPQIndex::Update`; the results of the single updates and of the compaction are not
looked at. -/
def update (vids : List (ℕ × Vec)) (as : ℕ → Alloc) (ac : Fin nlist → Alloc)
    (x : GammaIVFPQIndex nlist Code) : Option (GammaIVFPQIndex nlist Code) :=
  (updateFrom F q as 0 vids x.rt).map fun rt => { x with rt := (rt.compactIfNeed F ac).1 }

end Update

/-! ### Adding a batch -/

section Add

variable [NeZero nlist] [Inhabited Code] (F : FloatOps) (q : Quantizer nlist Vec Code)

/-- `GammaIVFPQIndex::Add`. -/
def add (vecs : List Vec) (a : Fin nlist → Alloc) (x : GammaIVFPQIndex nlist Code) :
    Option (GammaIVFPQIndex nlist Code × Bool) :=
  let g := gather q x.indexedVecCount vecs
  match RTInvertIndex.addKeys F g.newKeys g.newCodes a x.rt with
  | none => none
  | some (rt, false) => some ({ x with rt := rt }, false)
  | some (rt, true) => some ({ rt := rt, indexedVecCount := g.vid }, true)

/-- Every bucket that the batch goes to has room for its part, or the lowest of them has none. -/
def AllOrNothing (vecs : List Vec) (a : Fin nlist → Alloc) (x : GammaIVFPQIndex nlist Code) : Prop :=
  RTInvertIndex.AllOrNothing F (gather q x.indexedVecCount vecs).newKeys a x.rt

variable {F q}

/-- **A batch that is taken** gives each of its ids one slot more, and every bucket had room. -/
theorem add_ok {vecs : List Vec} {a : Fin nlist → Alloc} {x x' : GammaIVFPQIndex nlist Code}
    (h : x.add F q vecs a = some (x', true)) :
    x'.indexedVecCount = x.indexedVecCount + vecs.length ∧ AllOrNothing F q vecs a x ∧
      ∀ v, x'.rt.slotCount v = x.rt.slotCount v +
        if x.indexedVecCount ≤ v ∧ v < x.indexedVecCount + vecs.length then 1 else 0 := by
  have hg := gathered_gather q x.indexedVecCount vecs
  unfold add at h
  dsimp only at h
  split at h
  · cases h
  · cases h
  · next rt hadd =>
    cases h
    obtain ⟨done, rest, hins⟩ :=
      RTInvertIndex.addKeysFrom_spec hg.paired (List.nodup_finRange nlist) hadd
    have hrest : rest = [] := hins.ok_iff.mp rfl
    have hdone : List.finRange nlist = done := by rw [hins.split_eq, hrest, List.append_nil]
    refine ⟨hg.vid_eq, .inl fun b => hins.room b ?_, fun v => ?_⟩
    · rw [← hdone]
      exact List.mem_finRange b
    · rw [hins.count_eq, ← hdone, ← Fin.sum_univ_def, hg.count_eq]

/-- **A batch that fails** may have left slots of its ids behind; it left none exactly when
`AllOrNothing` held. -/
theorem add_failed {vecs : List Vec} {a : Fin nlist → Alloc} {x x' : GammaIVFPQIndex nlist Code}
    (h : x.add F q vecs a = some (x', false)) :
    x'.indexedVecCount = x.indexedVecCount ∧ ∃ extra : ℕ → ℕ,
      (∀ v, x'.rt.slotCount v = x.rt.slotCount v + extra v) ∧
      (∀ v, extra v ≠ 0 → x.indexedVecCount ≤ v ∧ v < x.indexedVecCount + vecs.length) ∧
      ((∀ v, extra v = 0) ↔ AllOrNothing F q vecs a x) := by
  have hg := gathered_gather q x.indexedVecCount vecs
  unfold add at h
  dsimp only at h
  split at h
  · cases h
  · next rt hadd =>
    cases h
    obtain ⟨done, rest, hins⟩ :=
      RTInvertIndex.addKeysFrom_spec hg.paired (List.nodup_finRange nlist) hadd
    refine ⟨rfl, _, hins.count_eq, fun v hv => ?_, ?_⟩
    · have hle : (done.map fun b =>
          (((gather q x.indexedVecCount vecs).newKeys b).getD []).count v).sum ≤
          if x.indexedVecCount ≤ v ∧ v < x.indexedVecCount + vecs.length then 1 else 0 := by
        rw [← hg.count_eq, Fin.sum_univ_def, hins.split_eq, List.map_append, List.sum_append]
        exact Nat.le_add_right _ _
      split at hle <;> omega
    · exact hins.nothing_iff hg.nonempty
  · cases h

end Add

end GammaIVFPQIndex

end AwaDB.Index
