import AwaDB.Lib.Run
import AwaDB.Table.Node

/-!
# Runs of a node (`Node` in `table/field_range_index.cc`)

`addInt` is `Node::Add` with the range of its integers: above the window of a bitmap `AddDense` computes
`(val / op_len + 1) * op_len * 2 - 1`, whose product is 2^31 for the last 64 documents below 2^30.

* `Exact`: the node holds exactly the documents that were added and not deleted;
* `exact_iff`: a run is defined and exact throughout exactly when no step meets that product;
* `overflow_run`: a run that meets it.
-/

namespace AwaDB.Node

open Lib

/-- `Add` goes on to `AddDense`. -/
def AddsDense (n : Node) : Prop :=
  match n.data with
  | .dense _ => ¬ (n.max - n.min > 100000 ∧ n.size * 100 < (n.max - n.min) * 8)
  | .sparse _ => n.max - n.min > 100000 ∧ n.size * 10 > n.max - n.min

instance : (n : Node) → Decidable n.AddsDense
  | ⟨min, max, _, _, size, .dense _⟩ =>
    inferInstanceAs (Decidable (¬ (max - min > 100000 ∧ size * 100 < (max - min) * 8)))
  | ⟨min, max, _, _, size, .sparse _⟩ =>
    inferInstanceAs (Decidable (max - min > 100000 ∧ size * 10 > max - min))

/-- The new end of the bitmap in `AddDense` is not an `int`. -/
def Overflows (n : Node) (val : ℕ) : Prop :=
  n.AddsDense ∧ n.size ≠ 0 ∧ (val : ℤ) > n.maxAligned ∧ (alignUp val + 1) * 2 > intMax

instance (n : Node) (val : ℕ) : Decidable (n.Overflows val) := by
  unfold Overflows
  infer_instance

/-- `Node::Add`, undefined where its arithmetic is. -/
def addInt (n : Node) (val : ℕ) : Option Node :=
  if n.Overflows val then none else n.add val

/-- The calls. -/
inductive NodeOp where
  | add (val : ℕ)
  | delete (val : ℕ)
deriving DecidableEq, Repr

/-- One call, and the documents that were added and not deleted. -/
def step : NodeOp → Node × Finset ℕ → Option (Node × Finset ℕ)
  | .add val, s => (s.1.addInt val).map fun n => (n, insert val s.2)
  | .delete val, s => some (s.1.delete val, s.2.erase val)

/-- A document is added that is not there, or deleted that is. -/
def Legal : NodeOp → Node × Finset ℕ → Prop
  | .add val, s => val < docLimit ∧ val ∉ s.2
  | .delete val, s => val ∈ s.2

instance (op : NodeOp) (s : Node × Finset ℕ) : Decidable (Legal op s) :=
  match op with
  | .add val => inferInstanceAs (Decidable (val < docLimit ∧ val ∉ s.2))
  | .delete val => inferInstanceAs (Decidable (val ∈ s.2))

/-- **The node holds exactly these documents**, its size is their number, and `min_` and `max_` bound
them. -/
structure Exact (s : Node × Finset ℕ) : Prop where
  holds : ∀ d, s.1.Holds d ↔ d ∈ s.2
  size : s.1.size = s.2.card
  bounds : ∀ d ∈ s.2, s.1.min ≤ d ∧ (d : ℤ) ≤ s.1.max

/-- No step meets the product that is too large. -/
def Fits : NodeOp → Node × Finset ℕ → Prop
  | .add val, s => ¬ s.1.Overflows val
  | .delete _, _ => True

/-! ### The bounds -/

/-- `min_` and `max_` bound the documents. -/
def Bounded (n : Node) (s : Finset ℕ) : Prop := ∀ d ∈ s, n.min ≤ d ∧ (d : ℤ) ≤ n.max

variable {n n' : Node} {s : Finset ℕ} {val : ℕ}

/-- `Add` moves the bounds to the document where it has to. -/
theorem bounds_add (h : n.Ranged) (hadd : n.add val = some n') :
    (n.size ≠ 0 → n'.min ≤ n.min ∧ n.max ≤ n'.max) ∧ n'.min ≤ val ∧ (val : ℤ) ≤ n'.max := by
  have hsparse : ∀ docs, (n.size ≠ 0 → (n.addSparse docs val).min ≤ n.min ∧
      n.max ≤ (n.addSparse docs val).max) ∧ (n.addSparse docs val).min ≤ val ∧
      (val : ℤ) ≤ (n.addSparse docs val).max := by
    intro docs
    exact ⟨fun _ => ⟨min_le_left _ _, le_max_left _ _⟩, min_le_right _ _, le_max_right _ _⟩
  have hdense : ∀ bitmap, (n.size ≠ 0 → (n.addDense bitmap val).min ≤ n.min ∧
      n.max ≤ (n.addDense bitmap val).max) ∧ (n.addDense bitmap val).min ≤ val ∧
      (val : ℤ) ≤ (n.addDense bitmap val).max := by
    intro bitmap
    have hlow := h.low
    have hhigh := h.high
    have hle := h.min_le
    rw [addDense]
    split
    · rename_i hzero
      exact ⟨fun hne => absurd hzero hne, le_refl _, le_refl _⟩
    · split
      · dsimp only
        omega
      · split
        · dsimp only
          omega
        · exact ⟨fun _ => ⟨min_le_left _ _, le_max_left _ _⟩, min_le_right _ _, le_max_right _ _⟩
  rw [add] at hadd
  split at hadd
  · split at hadd
    · obtain ⟨docs, -, rfl⟩ := Option.map_eq_some_iff.mp hadd
      exact hsparse docs
    · cases hadd
      exact hdense _
  · split at hadd
    · cases hadd
      exact hdense _
    · cases hadd
      exact hsparse _

theorem Bounded.add (hb : n.Bounded s) (h : n.Rep s) (hadd : n.add val = some n') :
    n'.Bounded (insert val s) := by
  obtain ⟨hkeep, hlow, hhigh⟩ := bounds_add h.toRanged hadd
  intro d hd
  cases Finset.mem_insert.mp hd with
  | inl heq =>
    rw [heq]
    exact ⟨hlow, hhigh⟩
  | inr hold =>
    have hne : n.size ≠ 0 := by
      have hpos : 0 < s.card := Finset.card_pos.mpr ⟨d, hold⟩
      rw [h.size]
      omega
    obtain ⟨hmin, hmax⟩ := hkeep hne
    obtain ⟨hd₁, hd₂⟩ := hb d hold
    exact ⟨hmin.trans hd₁, hd₂.trans hmax⟩

theorem bounds_delete (n : Node) (val : ℕ) : (n.delete val).min = n.min ∧ (n.delete val).max = n.max := by
  rw [delete]
  split <;> split <;> exact ⟨rfl, rfl⟩

theorem Bounded.delete (hb : n.Bounded s) (val : ℕ) : (n.delete val).Bounded (s.erase val) := by
  obtain ⟨hmin, hmax⟩ := bounds_delete n val
  intro d hd
  rw [hmin, hmax]
  exact hb d (Finset.mem_of_mem_erase hd)

/-! ### Runs -/

/-- The invariant: a new node, or one that holds the documents between its bounds. -/
def Inv (s : Node × Finset ℕ) : Prop :=
  s = (new, ∅) ∨ s.1.Rep s.2 ∧ s.1.Bounded s.2

theorem Inv.exact {s : Node × Finset ℕ} (h : Inv s) : Exact s := by
  cases h with
  | inl hnew =>
    subst hnew
    refine ⟨fun d => iff_of_false List.not_mem_nil (Finset.notMem_empty d), rfl, fun d hd => ?_⟩
    exact absurd hd (Finset.notMem_empty d)
  | inr hrep => exact ⟨hrep.1.holds_iff, hrep.1.size, hrep.2⟩

/-- The first document is in the sparse form. -/
theorem add_new (val : ℕ) : new.add val = some (new.addSparse [] val) := by
  have hfar : ¬ ((-1 - intMax > 100000) ∧ (0 : ℤ) * 10 > -1 - intMax) := by decide
  rw [Node.add]
  exact if_neg hfar

/-- **`Add`** of a document that is not there. -/
theorem Inv.add {s : Node × Finset ℕ} (h : Inv s) (hlimit : val < docLimit) (hnew : val ∉ s.2)
    (hfits : ¬ s.1.Overflows val) : ∃ n, s.1.addInt val = some n ∧ Inv (n, insert val s.2) := by
  rw [addInt, if_neg hfits]
  cases h with
  | inl hstart =>
    subst hstart
    obtain ⟨n, hadd, hrep⟩ := rep_new hlimit
    have hmin : (new.addSparse [] val).min ≤ val := min_le_right _ _
    have hmax : (val : ℤ) ≤ (new.addSparse [] val).max := le_max_right _ _
    rw [add_new] at hadd
    cases hadd
    refine ⟨_, add_new val, .inr ⟨hrep, fun d hd => ?_⟩⟩
    rw [Finset.mem_singleton.mp hd]
    exact ⟨hmin, hmax⟩
  | inr hrep =>
    obtain ⟨n, hadd, hrep'⟩ := hrep.1.add hnew
    exact ⟨n, hadd, .inr ⟨hrep', hrep.2.add hrep.1 hadd⟩⟩

theorem Inv.delete {s : Node × Finset ℕ} (h : Inv s) (hmem : val ∈ s.2) :
    Inv (s.1.delete val, s.2.erase val) := by
  cases h with
  | inl hstart =>
    subst hstart
    exact absurd hmem (Finset.notMem_empty val)
  | inr hrep => exact .inr ⟨hrep.1.delete hmem, hrep.2.delete val⟩

/-- **A run from a state of the invariant.** -/
theorem Inv.run {s : Node × Finset ℕ} (h : Inv s) {ops : List NodeOp}
    (hlegal : Guarded step Legal ops s) :
    ((∃ s', runOps step ops s = some s') ∧ Always step Exact ops s) ↔ Guarded step Fits ops s := by
  refine defined_always_iff (fun _ => Inv.exact) (fun op s h hop hfits => ?_)
    (fun op s s' _ _ hnot hstep => ?_) h hlegal
  · cases op with
    | add val =>
      obtain ⟨n, hadd, hinv⟩ := h.add hop.1 hop.2 hfits
      exact ⟨_, by rw [step, hadd]; rfl, hinv⟩
    | delete val => exact ⟨_, rfl, h.delete hop⟩
  · cases op with
    | add val =>
      have hover : s.1.Overflows val := not_not.mp hnot
      rw [step, addInt, if_pos hover] at hstep
      cases hstep
    | delete val => exact absurd trivial hnot

/-- **A posting node is exact** throughout a run, and the run is defined, exactly when no document is
added above the window of a bitmap whose new end would not be an `int`. -/
theorem exact_iff {ops : List NodeOp} (hlegal : Guarded step Legal ops (new, ∅)) :
    ((∃ s, runOps step ops (new, ∅) = some s) ∧ Always step Exact ops (new, ∅)) ↔
      Guarded step Fits ops (new, ∅) :=
  Inv.run (.inl rfl) hlegal

theorem exact_small : ((∃ s, runOps step [.add 70, .add 3, .delete 70] (new, ∅) = some s) ∧
    Always step Exact [.add 70, .add 3, .delete 70] (new, ∅)) ↔
      Guarded step Fits [.add 70, .add 3, .delete 70] (new, ∅) :=
  exact_iff (.cons rfl (by decide) (.cons rfl (by decide) (.cons rfl (by decide) trivial)))

/-! ### A bitmap that ends too high -/

/-- The node after the documents up to `k` were added. -/
def filled (k : ℕ) : Node := ⟨0, k, 0, alignUp k, k + 1, .sparse (List.range (k + 1))⟩

theorem filled_sparse {k : ℕ} (hk : k ≤ 100000) :
    ¬ ((k : ℤ) - 0 > 100000 ∧ ((k : ℤ) + 1) * 10 > k - 0) := by
  omega

theorem filled_add {k : ℕ} (hk : k ≤ 100000) : (filled k).add (k + 1) = some (filled (k + 1)) := by
  rw [Node.add, filled, filled]
  dsimp only
  rw [if_neg (filled_sparse hk), addSparse, List.range_succ (n := k + 1), Option.some_inj, Node.mk.injEq]
  have hcast : ((k + 1 : ℕ) : ℤ) = k + 1 := by omega
  refine ⟨?_, ?_, ?_, ?_, ?_, rfl⟩
  · show Min.min (0 : ℤ) ((k + 1 : ℕ) : ℤ) = 0
    exact min_eq_left (by omega)
  · show Max.max (k : ℤ) ((k + 1 : ℕ) : ℤ) = _
    exact max_eq_right (by omega)
  · show (if ((k + 1 : ℕ) : ℤ) < 0 then _ else (0 : ℤ)) = 0
    exact if_neg (by omega)
  · show (if ((k + 1 : ℕ) : ℤ) > alignUp k then alignUp (k + 1) else alignUp k) = alignUp (k + 1)
    unfold alignUp
    by_cases hgt : ((k + 1 : ℕ) : ℤ) > ((k / 64 + 1) * 64 : ℕ) - 1
    · rw [if_pos hgt]
    · rw [if_neg hgt]
      omega
  · show (k : ℤ) + 1 + 1 = ((k + 1 : ℕ) : ℤ) + 1
    rw [hcast]

theorem run_filled {k : ℕ} (hk : k ≤ 100001) :
    runOps step ((List.range (k + 1)).map .add) (new, ∅) = some (filled k, Finset.range (k + 1)) := by
  induction k with
  | zero => rfl
  | succ k ih =>
    have hfits : ¬ (filled k).Overflows (k + 1) := fun hover => filled_sparse (by omega) hover.1
    rw [List.range_succ, List.map_append, runOps_append, ih (by omega), Option.bind_some,
      List.map_singleton, runOps_cons, step, addInt, if_neg hfits, filled_add (by omega), Option.map_some,
      Finset.range_add_one (n := k + 1)]
    rfl

theorem legal_add {vals : List ℕ} {s : Node × Finset ℕ} (hnodup : vals.Nodup)
    (hvals : ∀ val ∈ vals, val < docLimit ∧ val ∉ s.2) :
    Guarded step Legal (vals.map .add) s := by
  induction vals generalizing s with
  | nil => exact trivial
  | cons val vals ih =>
    rw [List.nodup_cons] at hnodup
    refine ⟨hvals val List.mem_cons_self, fun s' hs' => ih hnodup.2 fun v hv => ?_⟩
    obtain ⟨n, -, rfl⟩ := Option.map_eq_some_iff.mp hs'
    obtain ⟨hlimit, hnew⟩ := hvals v (List.mem_cons_of_mem val hv)
    refine ⟨hlimit, fun hmem => ?_⟩
    cases Finset.mem_insert.mp hmem with
    | inl heq => exact hnodup.1 (heq ▸ hv)
    | inr hold => exact hnew hold

/-- The documents from 0 to 100001, and the last one below the limit. -/
theorem overflow_run : ¬ ∀ ops : List NodeOp, Guarded step Legal ops (new, ∅) →
    (∃ s, runOps step ops (new, ∅) = some s) ∧ Always step Exact ops (new, ∅) := by
  intro h
  obtain ⟨k, hk⟩ : ∃ k, k = 100001 := ⟨_, rfl⟩
  obtain ⟨last, hlast⟩ : ∃ last, last = docLimit - 1 := ⟨_, rfl⟩
  have hlimit : docLimit = 1073741824 := rfl
  have hlegal : Guarded step Legal ((List.range (k + 1) ++ [last]).map .add) (new, ∅) := by
    refine legal_add ?_ fun val hval => ⟨?_, Finset.notMem_empty val⟩
    · rw [List.nodup_append]
      refine ⟨List.nodup_range, List.nodup_singleton last, fun a ha b hb => ?_⟩
      rw [List.mem_range] at ha
      rw [List.mem_singleton.mp hb]
      omega
    · cases List.mem_append.mp hval with
      | inl hmem =>
        rw [List.mem_range] at hmem
        omega
      | inr hmem =>
        rw [List.mem_singleton.mp hmem]
        omega
  obtain ⟨⟨s, hs⟩, -⟩ := h _ hlegal
  have hover : (filled k).Overflows last := by
    have hmax : intMax = 2147483647 := rfl
    refine ⟨⟨?_, ?_⟩, ?_, ?_, ?_⟩
    · show (k : ℤ) - 0 > 100000
      omega
    · show ((k : ℤ) + 1) * 10 > k - 0
      omega
    · show (k : ℤ) + 1 ≠ 0
      omega
    · show (last : ℤ) > alignUp k
      rw [alignUp]
      omega
    · rw [alignUp]
      omega
  rw [List.map_append, runOps_append, run_filled (by omega), Option.bind_some, List.map_singleton,
    runOps_cons, step, addInt, if_pos hover] at hs
  cases hs

end AwaDB.Node
