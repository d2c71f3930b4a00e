import AwaDB.Lib.Lists
import AwaDB.Table.NodeRun
import AwaDB.Table.RangeQuery

/-!
# The accesses of a search (`FieldRangeIndex::Search`, `table/field_range_index.cc`)

`Search` computes a window from the nodes that it found, allocates a bitmap for it, and merges the nodes
into the bitmap: the bits of an array one by one, a bitmap word by word. Over tags the window leaves out
the nodes without documents, and the merge does not: such a node adds nothing when it is an array, but
the words of a bitmap, all zero, are written wherever its own window lies.

* `Placed`: what every node of an index has, whatever was added and deleted;
* `Inside`: a search stays inside the bitmap that it allocated;
* `inside_iff`: when that is so;
* `outside`: a tag whose documents were all deleted, searched together with another.
-/

namespace AwaDB

open Lib

namespace Node

/-- The documents of an array lie in the aligned window, and a bitmap has its size. -/
def DataPlaced (n : Node) : Prop :=
  match n.data with
  | .sparse docs => ∀ d ∈ docs, n.minAligned ≤ d ∧ (d : ℤ) ≤ n.maxAligned
  | .dense bitmap => bitmap.length = (createBitmap n.minAligned n.maxAligned).length

/-- **A node that a document was added to**, whatever came before and after. -/
structure Placed (n : Node) : Prop extends Ranged n where
  fits : n.maxAligned < intMax
  data : n.DataPlaced

variable {n n' : Node} {val : ℕ}

theorem aligned_bounds (hval : val + 64 < docLimit) : alignDown val ≤ val ∧ (val : ℤ) ≤ alignUp val ∧
    (alignUp val + 1) * 2 - 1 < intMax := by
  have hlimit : docLimit = 1073741824 := rfl
  have hmax : intMax = 2147483647 := rfl
  rw [alignDown, alignUp]
  omega

theorem placed_new (hval : val + 64 < docLimit) (hadd : new.add val = some n) : n.Placed := by
  obtain ⟨n', hadd', hrep⟩ := rep_new (show val < docLimit by omega)
  rw [hadd] at hadd'
  cases hadd'
  rw [add_new] at hadd
  cases hadd
  obtain ⟨-, hup, hdouble⟩ := aligned_bounds hval
  refine ⟨hrep.toRanged, ?_, fun d hd => ?_⟩
  · show (if (val : ℤ) > -1 then alignUp val else -1) < intMax
    rw [if_pos (by omega)]
    omega
  · rw [List.mem_singleton.mp hd]
    exact hrep.bounds val (Finset.mem_singleton_self val)

theorem Placed.addSparse (h : n.Placed) (hval : val + 64 < docLimit) {docs : List ℕ}
    (hdocs : ∀ d ∈ docs, n.minAligned ≤ d ∧ (d : ℤ) ≤ n.maxAligned) :
    (n.addSparse docs val).Placed := by
  obtain ⟨hdown, hup, hdouble⟩ := aligned_bounds hval
  have hlow := h.low
  have hle := h.min_le
  have hhigh := h.high
  have hmin : (n.addSparse docs val).minAligned ≤ n.minAligned ∧ (n.addSparse docs val).minAligned ≤ val ∧
      ∃ a : ℕ, (n.addSparse docs val).minAligned = 64 * a := by
    show (if (val : ℤ) < n.minAligned then alignDown val else n.minAligned) ≤ _ ∧ _
    by_cases hlt : (val : ℤ) < n.minAligned
    · have heq : (n.addSparse docs val).minAligned = alignDown val := if_pos hlt
      rw [if_pos hlt, heq]
      refine ⟨by omega, hdown, val / 64, ?_⟩
      rw [alignDown]
      omega
    · have heq : (n.addSparse docs val).minAligned = n.minAligned := if_neg hlt
      rw [if_neg hlt, heq]
      exact ⟨le_refl _, by omega, h.down⟩
  have hmax : n.maxAligned ≤ (n.addSparse docs val).maxAligned ∧
      (val : ℤ) ≤ (n.addSparse docs val).maxAligned ∧
      (∃ b : ℕ, (n.addSparse docs val).maxAligned + 1 = 64 * b) ∧
      (n.addSparse docs val).maxAligned < intMax := by
    by_cases hgt : (val : ℤ) > n.maxAligned
    · have heq : (n.addSparse docs val).maxAligned = alignUp val := if_pos hgt
      rw [heq]
      refine ⟨by omega, hup, ⟨val / 64 + 1, ?_⟩, by omega⟩
      rw [alignUp]
      omega
    · have heq : (n.addSparse docs val).maxAligned = n.maxAligned := if_neg hgt
      rw [heq]
      exact ⟨le_refl _, by omega, h.up, h.fits⟩
  refine ⟨⟨le_min (hmin.1.trans hlow) hmin.2.1, (min_le_left _ _).trans (hle.trans (le_max_left _ _)),
    max_le (hhigh.trans hmax.1) hmax.2.1, hmin.2.2, hmax.2.2.1⟩, hmax.2.2.2, fun d hd => ?_⟩
  cases List.mem_append.mp hd with
  | inl hold => exact ⟨hmin.1.trans (hdocs d hold).1, (hdocs d hold).2.trans hmax.1⟩
  | inr hnew =>
    rw [List.mem_singleton.mp hnew]
    exact ⟨hmin.2.1, hmax.2.1⟩

theorem Placed.addDense (h : n.Placed) (hval : val + 64 < docLimit) {bitmap : Bits}
    (hlength : bitmap.length = (createBitmap n.minAligned n.maxAligned).length) :
    (n.addDense bitmap val).Placed := by
  obtain ⟨hdown, hup, hdouble⟩ := aligned_bounds hval
  have hlow := h.low
  have hle := h.min_le
  have hhigh := h.high
  have hfits := h.fits
  have hstart : ∃ a : ℕ, alignDown val = 64 * a := ⟨val / 64, by rw [alignDown]; omega⟩
  rw [Node.addDense]
  split
  · refine ⟨⟨hdown, le_refl _, hup, hstart, ⟨val / 64 + 1, by dsimp only; rw [alignUp]; omega⟩⟩, ?_,
      List.length_set⟩
    dsimp only
    omega
  · split
    · refine ⟨⟨hdown, by dsimp only; omega, hhigh, hstart, h.up⟩, hfits, ?_⟩
      show (List.set _ _ _).length = _
      rw [List.length_set, Bits.copyWords, Bits.length_onWords]
    · split
      · refine ⟨⟨hlow, by dsimp only; omega, by dsimp only; omega, h.down,
          ⟨(val / 64 + 1) * 2, by dsimp only; rw [alignUp]; omega⟩⟩, hdouble, ?_⟩
        show (List.set _ _ _).length = _
        rw [List.length_set, Bits.copyWords, Bits.length_onWords]
      · refine ⟨⟨le_min hlow (by dsimp only; omega), (min_le_left _ _).trans (hle.trans (le_max_left _ _)),
          max_le hhigh (by dsimp only; omega), h.down, h.up⟩, hfits, ?_⟩
        show (List.set _ _ _).length = _
        rw [List.length_set, hlength]

theorem length_convertToDense (n : Node) (docs : List ℕ) :
    (n.convertToDense docs).length = (createBitmap n.minAligned n.maxAligned).length := by
  rw [convertToDense]
  generalize createBitmap n.minAligned n.maxAligned = bitmap
  induction docs generalizing bitmap with
  | nil => rfl
  | cons d docs ih =>
    rw [List.foldl_cons, ih]
    split
    · rfl
    · exact List.length_set

/-- **`Add`.** -/
theorem Placed.add (h : n.Placed) (hval : val + 64 < docLimit) (hadd : n.add val = some n') :
    n'.Placed := by
  have hdata := h.data
  unfold DataPlaced at hdata
  rw [Node.add] at hadd
  cases hn : n.data with
  | sparse docs =>
    rw [hn] at hdata hadd
    dsimp only at hdata hadd
    split at hadd
    · cases hadd
      exact h.addDense hval (length_convertToDense n docs)
    · cases hadd
      exact h.addSparse hval hdata
  | dense bitmap =>
    rw [hn] at hdata hadd
    dsimp only at hdata hadd
    split at hadd
    · obtain ⟨docs, hdocs, rfl⟩ := Option.map_eq_some_iff.mp hadd
      refine h.addSparse hval fun d hd => ?_
      rw [convertToSparse] at hdocs
      split at hdocs
      · cases hdocs
      · cases hdocs
        have hmem := List.mem_of_mem_take hd
        rw [bitmapDocs, List.mem_map] at hmem
        obtain ⟨i, hi, rfl⟩ := hmem
        have hlt := List.mem_range.mp (List.mem_of_mem_filter hi)
        obtain ⟨a, ha⟩ := h.down
        omega
    · cases hadd
      exact h.addDense hval hdata

/-- **`Delete`.** -/
theorem Placed.delete (h : n.Placed) (val : ℕ) : (n.delete val).Placed := by
  have hdata := h.data
  unfold DataPlaced at hdata
  rw [Node.delete]
  cases hn : n.data with
  | sparse docs =>
    rw [hn] at hdata
    dsimp only at hdata ⊢
    split
    · exact ⟨⟨h.low, h.min_le, h.high, h.down, h.up⟩, h.fits,
        fun d hd => hdata d (List.mem_of_mem_erase hd)⟩
    · exact h
  | dense bitmap =>
    rw [hn] at hdata
    dsimp only at hdata ⊢
    split
    · exact h
    · exact ⟨⟨h.low, h.min_le, h.high, h.down, h.up⟩, h.fits, (List.length_set).trans hdata⟩

/-! ### One node into the bitmap -/

/-- `bitmap::set` for each document of an array, undefined outside of the bitmap. -/
def setDocs? (base : ℤ) : List ℕ → Bits → Option Bits
  | [], bits => some bits
  | d :: docs, bits =>
    if 0 ≤ d - base ∧ d - base < bits.length then setDocs? base docs (bits.set (d - base).toNat true)
    else none

/-- The loop bodies of `Search`: the words of a bitmap, or the first `size_` entries of an array, into
the bitmap that starts at `base`. -/
def merge? (base : ℤ) (n : Node) (bits : Bits) : Option Bits :=
  match n.data with
  | .dense bitmap => Bits.onWords? (· || ·) bits bitmap ((n.minAligned - base).tdiv 64) 0
      ((n.maxAligned - n.minAligned + 1).tdiv 64)
  | .sparse docs => setDocs? base (docs.take n.size.toNat) bits

/-- The node is a bitmap. -/
def IsDense (n : Node) : Prop := ∃ bitmap, n.data = .dense bitmap

variable {lo hi : ℤ} {bits : Bits}

theorem setDocs?_inside {docs : List ℕ} (hdocs : ∀ d ∈ docs, lo ≤ d ∧ (d : ℤ) ≤ hi)
    (hlength : hi - lo < bits.length) : setDocs? lo docs bits ≠ none := by
  induction docs generalizing bits with
  | nil => exact Option.some_ne_none bits
  | cons d docs ih =>
    obtain ⟨hlow, hhigh⟩ := hdocs d List.mem_cons_self
    rw [setDocs?, if_pos ⟨by omega, by omega⟩]
    apply ih fun d' hd' => hdocs d' (List.mem_cons_of_mem d hd')
    rw [List.length_set]
    exact hlength

theorem length_setDocs? {docs : List ℕ} {bits' : Bits} (h : setDocs? lo docs bits = some bits') :
    bits'.length = bits.length := by
  induction docs generalizing bits with
  | nil =>
    cases h
    rfl
  | cons d docs ih =>
    rw [setDocs?] at h
    split at h
    · exact (ih h).trans List.length_set
    · cases h

theorem length_merge? {bits' : Bits} (h : n.merge? lo bits = some bits') :
    bits'.length = bits.length := by
  rw [merge?] at h
  cases hn : n.data with
  | sparse docs =>
    rw [hn] at h
    exact length_setDocs? h
  | dense bitmap =>
    rw [hn] at h
    rw [Bits.eq_of_onWords? h, Bits.length_onWords]

/-- **A node whose window is covered** stays inside. -/
theorem Placed.merge (h : n.Placed) (hlow : lo ≤ n.minAligned) (hhigh : n.maxAligned ≤ hi)
    (hstart : lo % 64 = 0) (hlength : hi - lo + 1 ≤ bits.length) : n.merge? lo bits ≠ none := by
  have hdata := h.data
  unfold DataPlaced at hdata
  rw [merge?]
  cases hn : n.data with
  | sparse docs =>
    rw [hn] at hdata
    have hdocs : ∀ d ∈ docs.take n.size.toNat, lo ≤ d ∧ (d : ℤ) ≤ hi := by
      intro d hd
      obtain ⟨h₁, h₂⟩ := hdata d (List.mem_of_mem_take hd)
      exact ⟨hlow.trans h₁, h₂.trans hhigh⟩
    exact setDocs?_inside hdocs (by omega)
  | dense bitmap =>
    rw [hn] at hdata
    obtain ⟨a, ha⟩ := h.down
    obtain ⟨b, hb⟩ := h.up
    have hle := h.aligned_le
    have hsrc := hdata.trans (length_createBitmap _ _)
    obtain ⟨i, hi'⟩ : ∃ i : ℕ, (n.minAligned - lo).tdiv 64 = i :=
      ⟨_, (Int.toNat_of_nonneg (Int.tdiv_nonneg (by omega) (by omega))).symm⟩
    have hi'' : n.minAligned - lo = 64 * i := by
      rw [Int.tdiv_eq_ediv_of_nonneg (by omega)] at hi'
      omega
    have hwords : (n.maxAligned - n.minAligned + 1).tdiv 64 = ((b - a : ℕ) : ℤ) := by
      rw [Int.tdiv_eq_ediv_of_nonneg (by omega)]
      omega
    have heq : Bits.onWords? (· || ·) bits bitmap i (0 : ℕ) (b - a : ℕ) = _ :=
      Bits.onWords?_eq (· || ·) (by omega) (by omega)
    have hsome : Bits.onWords? (· || ·) bits bitmap i 0 (b - a : ℕ) ≠ none := by
      rw [show (0 : ℤ) = (0 : ℕ) from rfl, heq]
      exact Option.some_ne_none _
    dsimp only
    rw [hi', hwords]
    exact hsome

/-- **A bitmap whose window is not covered** is merged outside. -/
theorem Placed.merge_outside (h : n.Placed) (hdense : n.IsDense)
    (hout : ¬ (lo ≤ n.minAligned ∧ n.maxAligned ≤ hi)) (hstart : lo % 64 = 0)
    (hstop : (hi + 1) % 64 = 0) (hlength : (bits.length : ℤ) < hi - lo + 1 + 64) :
    n.merge? lo bits = none := by
  obtain ⟨bitmap, hn⟩ := hdense
  obtain ⟨a, ha⟩ := h.down
  obtain ⟨b, hb⟩ := h.up
  have hle := h.aligned_le
  have hwords : (n.maxAligned - n.minAligned + 1).tdiv 64 = b - a := by
    rw [Int.tdiv_eq_ediv_of_nonneg (by omega)]
    omega
  have hoffset : 64 * (n.minAligned - lo).tdiv 64 = n.minAligned - lo :=
    Int.mul_tdiv_cancel' (by omega)
  rw [merge?, hn]
  dsimp only
  rw [Bits.onWords?, hwords, if_neg (by omega), if_neg (by omega)]

/-! ### All nodes -/

variable {nodes : List Node} {len : ℕ}

theorem runOps_merge (hnodes : ∀ n ∈ nodes, ∀ bits, bits.length = len → n.merge? lo bits ≠ none)
    (hlen : bits.length = len) : runOps (merge? lo) nodes bits ≠ none := by
  induction nodes generalizing bits with
  | nil => exact Option.some_ne_none bits
  | cons n nodes ih =>
    obtain ⟨bits', hbits'⟩ := Option.ne_none_iff_exists'.mp (hnodes n List.mem_cons_self bits hlen)
    rw [runOps_cons, hbits', Option.bind_some]
    exact ih (fun m hm => hnodes m (List.mem_cons_of_mem n hm)) ((length_merge? hbits').trans hlen)

theorem runOps_merge_outside (hn : n ∈ nodes) (hout : ∀ bits, bits.length = len → n.merge? lo bits = none)
    (hlen : bits.length = len) : runOps (merge? lo) nodes bits = none := by
  induction nodes generalizing bits with
  | nil => exact absurd hn List.not_mem_nil
  | cons m nodes ih =>
    rw [runOps_cons]
    cases hm : m.merge? lo bits with
    | none => rfl
    | some bits' =>
      rw [Option.bind_some]
      cases List.mem_cons.mp hn with
      | inl heq =>
        rw [← heq, hout bits hlen] at hm
        cases hm
      | inr hmem => exact ih hmem ((length_merge? hm).trans hlen)

end Node

namespace BTree

/-- Every node of the tree is placed. -/
def AllPlaced (t : BTree) : Prop := ∀ key n, t.lookup key = some n → n.Placed

variable {t t' : BTree} {d : ℕ}

theorem allPlaced_empty : AllPlaced ∅ := by
  intro key n hn
  rw [AList.lookup_empty] at hn
  cases hn

theorem AllPlaced.insert (h : t.AllPlaced) {key : Bytes} {n : Node} (hn : n.Placed) :
    AllPlaced (AList.insert key n t) := by
  intro key' n' hlookup
  rcases lookup_insert_some hlookup with ⟨rfl, rfl⟩ | ⟨-, hlookup⟩
  · exact hn
  · exact h key' n' hlookup

theorem AllPlaced.insertToBt (h : t.AllPlaced) (hd : d + 64 < docLimit) {key : Bytes}
    (hrun : BTree.insertToBt d key t = some t') : t'.AllPlaced := by
  rw [BTree.insertToBt] at hrun
  cases hn : t.lookup key with
  | none =>
    rw [hn] at hrun
    obtain ⟨n, hadd, rfl⟩ := Option.map_eq_some_iff.mp hrun
    exact h.insert (Node.placed_new hd hadd)
  | some n =>
    rw [hn] at hrun
    obtain ⟨n', hadd, rfl⟩ := Option.map_eq_some_iff.mp hrun
    exact h.insert ((h key n hn).add hd hadd)

theorem AllPlaced.deleteFromBt (h : t.AllPlaced) (d : ℕ) (key : Bytes) :
    (BTree.deleteFromBt d key t).AllPlaced := by
  rw [BTree.deleteFromBt]
  cases hn : t.lookup key with
  | none => exact h
  | some n => exact h.insert ((h key n hn).delete d)

end BTree

/-- The calls. -/
inductive IndexOp where
  | add (docid : ℕ) (value : Bytes)
  | delete (docid : ℕ) (value : Bytes)
deriving DecidableEq, Repr

namespace FieldRangeIndex

/-- `FieldRangeIndex::Add` or `FieldRangeIndex::Delete`. -/
def step : IndexOp → FieldRangeIndex → Option FieldRangeIndex
  | .add docid value, i => i.add value docid
  | .delete docid value, i => i.delete value docid

/-- Below the docids whose bitmaps end above `INT_MAX`. -/
def Fits : IndexOp → Prop
  | .add docid _ => docid + 64 < docLimit
  | .delete _ _ => True

instance : DecidablePred Fits
  | .add docid _ => inferInstanceAs (Decidable (docid + 64 < docLimit))
  | .delete _ _ => inferInstanceAs (Decidable True)

/-- The loops of `Search` over numbers, between two keys. -/
def mergeNumeric? (i : FieldRangeIndex) (keyL keyU : Bytes) : Option Bits :=
  let lists := i.tree.nodesBetween keyL keyU
  let minDoc := lists.foldl (fun m list => min m list.min) intMax
  let minAligned := lists.foldl (fun m list => min m list.minAligned) intMax
  let maxDoc := lists.foldl (fun m list => max m list.max) 0
  let maxAligned := lists.foldl (fun m list => max m list.maxAligned) 0
  if maxDoc - minDoc + 1 ≤ 0 then some []
  else
    let merged := lists.filter fun list =>
      match list.data with
      | .dense _ => ¬ (list.minAligned < minAligned ∨ list.maxAligned > maxAligned)
      | .sparse _ => ¬ (list.min < minDoc ∨ list.max > maxDoc)
    runOps (Node.merge? minAligned) merged (RangeQueryResult.ofRange minAligned maxAligned).bitmap

/-- The nodes that `Search` finds for its tags. -/
def tagNodes (i : FieldRangeIndex) (tags : Bytes) : List Node :=
  (split tags).filterMap i.tree.lookup

/-- The nodes with documents, from which the window is computed. -/
def filledNodes (i : FieldRangeIndex) (tags : Bytes) : List Node :=
  (i.tagNodes tags).filter fun list => list.size > 0

/-- The loops of `Search` over tags. -/
def mergeTags? (i : FieldRangeIndex) (tags : Bytes) : Option Bits :=
  let minDoc := (i.filledNodes tags).foldl (fun m list => min m list.minAligned) intMax
  let maxDoc := (i.filledNodes tags).foldl (fun m list => max m list.maxAligned) 0
  if maxDoc - minDoc + 1 ≤ 0 then some []
  else runOps (Node.merge? minDoc) (i.tagNodes tags) (RangeQueryResult.ofRange minDoc maxDoc).bitmap

/-- **The search stays inside** the bitmap that it allocated. -/
def Inside (i : FieldRangeIndex) (lower upper : Bytes) : Prop :=
  if i.isNumeric then
    ∀ keyL keyU, reverseEndian lower = some keyL → reverseEndian upper = some keyU →
      i.mergeNumeric? keyL keyU ≠ none
  else i.mergeTags? lower ≠ none

/-- Every bitmap without documents, of a tag of the search, starts no earlier than some tag of the search
that has documents, and ends no later than some; or no tag has any. -/
def Covered (i : FieldRangeIndex) (tags : Bytes) : Prop :=
  (∀ n ∈ i.tagNodes tags, n.size ≤ 0) ∨
    ∀ n ∈ i.tagNodes tags, n.IsDense → n.size ≤ 0 →
      (∃ m ∈ i.tagNodes tags, m.size > 0 ∧ m.minAligned ≤ n.minAligned) ∧
      ∃ m ∈ i.tagNodes tags, m.size > 0 ∧ n.maxAligned ≤ m.maxAligned

variable {i i' : FieldRangeIndex}

theorem runOps_allPlaced {d : ℕ} (hd : d + 64 < docLimit) {keys : List Bytes} {t t' : BTree}
    (h : t.AllPlaced) (hrun : runOps (BTree.insertToBt d) keys t = some t') : t'.AllPlaced :=
  runOps_invariant (fun _ _ _ h hstep => h.insertToBt hd hstep) h hrun

theorem foldl_allPlaced (d : ℕ) {keys : List Bytes} {t : BTree} (h : t.AllPlaced) :
    (keys.foldl (fun tree key => tree.deleteFromBt d key) t).AllPlaced := by
  induction keys generalizing t with
  | nil => exact h
  | cons key keys ih => exact ih (h.deleteFromBt d key)

theorem step_allPlaced {op : IndexOp} (hop : Fits op) (h : i.tree.AllPlaced)
    (hstep : step op i = some i') : i'.tree.AllPlaced := by
  cases op with
  | add docid value =>
    obtain ⟨keys, -, hadd⟩ := Option.bind_eq_some_iff.mp hstep
    obtain ⟨tree, hrun, rfl⟩ := Option.map_eq_some_iff.mp hadd
    exact runOps_allPlaced hop h hrun
  | delete docid value =>
    obtain ⟨keys, -, rfl⟩ := Option.map_eq_some_iff.mp hstep
    exact foldl_allPlaced docid h

/-- **Every content** that `Add` and `Delete` leave. -/
theorem run_allPlaced {ops : List IndexOp} (hops : ∀ op ∈ ops, Fits op) (h : i.tree.AllPlaced)
    (hrun : runOps step ops i = some i') : i'.tree.AllPlaced := by
  induction ops generalizing i with
  | nil =>
    cases hrun
    exact h
  | cons op ops ih =>
    obtain ⟨i₁, hstep, hrest⟩ := Option.bind_eq_some_iff.mp hrun
    exact ih (fun op' hop' => hops op' (List.mem_cons_of_mem op hop'))
      (step_allPlaced (hops op List.mem_cons_self) h hstep) hrest

/-! ### Searches -/

/-- The window of some placed nodes: it covers each of them, in whole words. -/
theorem window_bounds {nodes : List Node} (hne : nodes ≠ []) (hplaced : ∀ n ∈ nodes, n.Placed)
    {lo hi : ℤ} (hlo : lo = nodes.foldl (fun m list => min m list.minAligned) intMax)
    (hhi : hi = nodes.foldl (fun m list => max m list.maxAligned) 0) :
    (∀ n ∈ nodes, lo ≤ n.minAligned ∧ n.maxAligned ≤ hi) ∧ 0 ≤ lo ∧ lo ≤ hi ∧ hi < intMax ∧
      lo % 64 = 0 ∧ (hi + 1) % 64 = 0 := by
  have hcover : ∀ n ∈ nodes, lo ≤ n.minAligned ∧ n.maxAligned ≤ hi := by
    intro n hn
    exact ⟨(le_foldl_min_iff.mp hlo.le).2 n hn, (foldl_max_le_iff.mp hhi.ge).2 n hn⟩
  obtain ⟨first, hfirst⟩ := List.exists_mem_of_ne_nil nodes hne
  obtain ⟨hlow, hhigh⟩ := hcover first hfirst
  have hle := (hplaced first hfirst).aligned_le
  obtain ⟨a, ha⟩ := (hplaced first hfirst).down
  obtain ⟨b, hb⟩ := (hplaced first hfirst).up
  have hfits := (hplaced first hfirst).fits
  refine ⟨hcover, ?_⟩
  rcases foldl_min_choose (l := nodes) (f := Node.minAligned) (b := intMax) with hstart | ⟨n, hn, heq⟩
  · have hlo' : lo = intMax := hlo.trans hstart
    omega
  · rcases foldl_max_choose (l := nodes) (f := Node.maxAligned) (b := 0) with hstart | ⟨m, hm, heq'⟩
    · have hhi' : hi = 0 := hhi.trans hstart
      omega
    · have hlo' : lo = n.minAligned := hlo.trans heq
      have hhi' : hi = m.maxAligned := hhi.trans heq'
      obtain ⟨a', ha'⟩ := (hplaced n hn).down
      obtain ⟨b', hb'⟩ := (hplaced m hm).up
      have hfits' := (hplaced m hm).fits
      omega

theorem length_ofRange {lo hi : ℤ} (hzero : 0 ≤ lo) (hle : lo ≤ hi) (hfits : hi < intMax)
    (hstart : lo % 64 = 0) (hstop : (hi + 1) % 64 = 0) :
    ((RangeQueryResult.ofRange lo hi).bitmap.length : ℤ) = hi - lo + 1 + 8 := by
  rw [RangeQueryResult.bitmap_ofRange hzero hle hfits hstart hstop, Bits.length_create]
  omega

theorem placed_nodesBetween {t : BTree} (h : t.AllPlaced) {keyL keyU : Bytes} {n : Node}
    (hn : n ∈ t.nodesBetween keyL keyU) : n.Placed := by
  rw [BTree.nodesBetween, List.mem_map] at hn
  obtain ⟨entry, hentry, rfl⟩ := hn
  exact h entry.1 entry.2 (AList.mem_lookup_iff.mpr (List.mem_of_mem_filter hentry))

/-- **Over numbers** the window is that of all nodes. -/
theorem mergeNumeric?_inside (h : i.tree.AllPlaced) (keyL keyU : Bytes) :
    i.mergeNumeric? keyL keyU ≠ none := by
  rw [mergeNumeric?]
  dsimp only
  split
  · exact Option.some_ne_none _
  · rename_i hdocs
    have hne : i.tree.nodesBetween keyL keyU ≠ [] := by
      intro hnil
      rw [hnil] at hdocs
      exact hdocs (by decide)
    obtain ⟨hcover, hzero, hle, hfits, hstart, hstop⟩ :=
      window_bounds hne (fun n hn => placed_nodesBetween h hn) rfl rfl
    have hlength := length_ofRange hzero hle hfits hstart hstop
    refine Node.runOps_merge (fun n hn bits hbits => ?_) rfl
    have hmem := List.mem_of_mem_filter hn
    obtain ⟨hlow, hhigh⟩ := hcover n hmem
    exact (placed_nodesBetween h hmem).merge hlow hhigh hstart (by omega)

theorem placed_tagNodes (h : i.tree.AllPlaced) {tags : Bytes} {n : Node} (hn : n ∈ i.tagNodes tags) :
    n.Placed := by
  obtain ⟨key, -, hlookup⟩ := List.mem_filterMap.mp hn
  exact h key n hlookup

theorem mem_filledNodes {tags : Bytes} {n : Node} :
    n ∈ i.filledNodes tags ↔ n ∈ i.tagNodes tags ∧ n.size > 0 := by
  rw [filledNodes, List.mem_filter, decide_eq_true_eq]

theorem filledNodes_eq_nil {tags : Bytes} :
    i.filledNodes tags = [] ↔ ∀ n ∈ i.tagNodes tags, n.size ≤ 0 := by
  rw [List.eq_nil_iff_forall_not_mem]
  constructor
  · intro hnil n hn
    by_contra hpos
    exact hnil n (mem_filledNodes.mpr ⟨hn, by omega⟩)
  · intro hnone n hn
    obtain ⟨hn, hpos⟩ := mem_filledNodes.mp hn
    exact absurd (hnone n hn) (by omega)

/-- The window of the nodes with documents covers all bitmaps. -/
theorem covered_iff (h : i.tree.AllPlaced) {tags : Bytes} (hne : i.filledNodes tags ≠ []) {lo hi : ℤ}
    (hlo : lo = (i.filledNodes tags).foldl (fun m list => min m list.minAligned) intMax)
    (hhi : hi = (i.filledNodes tags).foldl (fun m list => max m list.maxAligned) 0) :
    i.Covered tags ↔ ∀ n ∈ i.tagNodes tags, n.IsDense → lo ≤ n.minAligned ∧ n.maxAligned ≤ hi := by
  rw [Covered, or_iff_right (fun hnone => hne (filledNodes_eq_nil.mpr hnone))]
  constructor
  · intro hcovered n hn hdense
    by_cases hpos : n.size > 0
    · have hfilled := mem_filledNodes.mpr ⟨hn, hpos⟩
      exact ⟨(le_foldl_min_iff.mp hlo.le).2 n hfilled, (foldl_max_le_iff.mp hhi.ge).2 n hfilled⟩
    · obtain ⟨⟨m, hm, hmpos, hlow⟩, m', hm', hmpos', hhigh⟩ := hcovered n hn hdense (by omega)
      exact ⟨((le_foldl_min_iff.mp hlo.le).2 m (mem_filledNodes.mpr ⟨hm, hmpos⟩)).trans hlow,
        hhigh.trans ((foldl_max_le_iff.mp hhi.ge).2 m' (mem_filledNodes.mpr ⟨hm', hmpos'⟩))⟩
  · intro hinside n hn hdense _
    obtain ⟨hlow, hhigh⟩ := hinside n hn hdense
    have hplaced := placed_tagNodes h hn
    have hfits := hplaced.fits
    have hle := hplaced.aligned_le
    obtain ⟨a, ha⟩ := hplaced.down
    obtain ⟨b, hb⟩ := hplaced.up
    rw [hlo, foldl_min_le_iff] at hlow
    rw [hhi, le_foldl_max_iff] at hhigh
    constructor
    · rcases hlow with hmax | ⟨m, hm, hlow⟩
      · exact absurd (hmax.trans hle) (by omega)
      · exact ⟨m, (mem_filledNodes.mp hm).1, (mem_filledNodes.mp hm).2, hlow⟩
    · rcases hhigh with hmin | ⟨m, hm, hhigh⟩
      · omega
      · exact ⟨m, (mem_filledNodes.mp hm).1, (mem_filledNodes.mp hm).2, hhigh⟩

/-- **Over tags** it is that of the nodes with documents, which has to cover the bitmaps without. -/
theorem mergeTags?_inside_iff (h : i.tree.AllPlaced) (tags : Bytes) :
    i.mergeTags? tags ≠ none ↔ i.Covered tags := by
  rw [mergeTags?]
  by_cases hnil : i.filledNodes tags = []
  · refine iff_of_true ?_ (.inl (filledNodes_eq_nil.mp hnil))
    rw [hnil, if_pos (by decide)]
    exact Option.some_ne_none _
  · obtain ⟨hcover, hzero, hle, hfits, hstart, hstop⟩ :=
      window_bounds hnil (fun n hn => placed_tagNodes h (mem_filledNodes.mp hn).1) rfl rfl
    have hlength := length_ofRange hzero hle hfits hstart hstop
    rw [covered_iff h hnil rfl rfl, if_neg (by omega)]
    constructor
    · intro hrun n hn hdense
      by_contra hout
      exact hrun (Node.runOps_merge_outside hn (fun bits hbits =>
        (placed_tagNodes h hn).merge_outside hdense hout hstart hstop (by omega)) rfl)
    · intro hcovered
      refine Node.runOps_merge (fun n hn bits hbits => ?_) rfl
      have hplaced := placed_tagNodes h hn
      by_cases hpos : n.size > 0
      · obtain ⟨hlow, hhigh⟩ := hcover n (mem_filledNodes.mpr ⟨hn, hpos⟩)
        exact hplaced.merge hlow hhigh hstart (by omega)
      · cases hdata : n.data with
        | sparse docs =>
          -- an array without documents has no entry to set
          have hempty : n.size.toNat = 0 := by omega
          rw [Node.merge?, hdata]
          dsimp only
          rw [hempty]
          exact Option.some_ne_none bits
        | dense bitmap =>
          obtain ⟨hlow, hhigh⟩ := hcovered n hn ⟨bitmap, hdata⟩
          exact hplaced.merge hlow hhigh hstart (by omega)

/-- One node of the searches: a bitmap outside of the window has no defined behaviour. -/
theorem runOps_collectTag {lo hi : ℤ} {nodes : List Node} {s : Bits × ℤ} :
    runOps (collectTag lo hi) nodes s ≠ none ↔
      ∀ n ∈ nodes, n.IsDense → lo ≤ n.minAligned ∧ n.maxAligned ≤ hi := by
  induction nodes generalizing s with
  | nil => exact iff_of_true (Option.some_ne_none s) fun n hn => absurd hn List.not_mem_nil
  | cons n nodes ih =>
    rw [runOps_cons, List.forall_mem_cons, collectTag]
    cases hn : n.data with
    | sparse docs =>
      rw [Option.bind_some, ih]
      refine ⟨fun hall => ⟨fun ⟨bitmap, hdense⟩ => ?_, hall⟩, And.right⟩
      rw [hn] at hdense
      cases hdense
    | dense bitmap =>
      dsimp only
      by_cases hout : n.minAligned < lo ∨ n.maxAligned > hi
      · rw [if_pos hout]
        refine iff_of_false (fun hnone => hnone rfl) fun hall => ?_
        have hinside := hall.1 ⟨bitmap, hn⟩
        omega
      · rw [if_neg hout, Option.bind_some, ih]
        exact ⟨fun hall => ⟨fun _ => by omega, hall⟩, And.right⟩

theorem searchTags_eq (i : FieldRangeIndex) (tags : Bytes) : i.searchTags tags =
    let minDoc := (i.filledNodes tags).foldl (fun m list => min m list.minAligned) intMax
    let maxDoc := (i.filledNodes tags).foldl (fun m list => max m list.maxAligned) 0
    if maxDoc - minDoc + 1 ≤ 0 then some (0, .clear)
    else
      let result := RangeQueryResult.ofRange minDoc maxDoc
      (runOps (collectTag minDoc maxDoc) (i.tagNodes tags) (result.bitmap, 0)).map fun s =>
        (s.2, { result with bitmap := s.1, nDoc := s.2 }) := rfl

/-- The search of the filters is defined where it stays inside. -/
theorem searchTags_iff (h : i.tree.AllPlaced) (tags : Bytes) :
    i.searchTags tags ≠ none ↔ i.mergeTags? tags ≠ none := by
  rw [mergeTags?_inside_iff h, searchTags_eq]
  by_cases hnil : i.filledNodes tags = []
  · refine iff_of_true ?_ (.inl (filledNodes_eq_nil.mp hnil))
    rw [hnil, if_pos (by decide)]
    exact Option.some_ne_none _
  · obtain ⟨-, -, hle, -⟩ :=
      window_bounds hnil (fun n hn => placed_tagNodes h (mem_filledNodes.mp hn).1) rfl rfl
    rw [covered_iff h hnil rfl rfl, if_neg (by omega), Ne, Option.map_eq_none_iff]
    exact runOps_collectTag

theorem allPlaced_inside (h : i.tree.AllPlaced) (lower upper : Bytes) :
    i.Inside lower upper ↔ i.isNumeric = true ∨ i.Covered lower := by
  rw [Inside]
  split
  · rename_i hnumeric
    exact iff_of_true (fun keyL keyU _ _ => mergeNumeric?_inside h keyL keyU) (.inl hnumeric)
  · rename_i hstring
    rw [or_iff_right hstring]
    exact mergeTags?_inside_iff h lower

/-- **A search stays inside its bitmap**, whatever was added and deleted before, exactly when the field is
numeric or the tags are covered. -/
theorem inside_iff {type : DataType} {ops : List IndexOp} (hops : ∀ op ∈ ops, Fits op)
    (hrun : runOps step ops (create type) = some i) (lower upper : Bytes) :
    i.Inside lower upper ↔ i.isNumeric = true ∨ i.Covered lower :=
  allPlaced_inside (run_allPlaced hops BTree.allPlaced_empty hrun) lower upper

/-! ### A tag without documents -/

/-- An index with the one tag `a`. -/
def single (n : Node) : FieldRangeIndex := ⟨false, AList.insert [97] n ∅⟩

theorem inside_small : (single ((Node.new.addSparse [] 3).delete 3)).Inside [97] [] ↔
    (single ((Node.new.addSparse [] 3).delete 3)).isNumeric = true ∨
      (single ((Node.new.addSparse [] 3).delete 3)).Covered [97] :=
  inside_iff (show ∀ op ∈ [IndexOp.add 3 [97], .delete 3 [97]], Fits op by decide)
    (show runOps step _ (create .string) = _ from rfl) [97] []

theorem keys_single (n : Node) : (single n).keys? [97] = some [[97]] := by
  have hsplit : split (cString [97]) = [[97]] := by decide
  exact congrArg some hsplit

theorem step_single {n n' : Node} {d : ℕ} (hadd : n.add d = some n') :
    step (.add d [97]) (single n) = some (single n') := by
  have hlookup : (single n).tree.lookup [97] = some n := AList.lookup_insert _
  rw [step, FieldRangeIndex.add, keys_single, Option.bind_some, runOps_cons, BTree.insertToBt, hlookup]
  dsimp only
  rw [hadd]
  exact congrArg (fun tree => some (FieldRangeIndex.mk false tree)) (AList.insert_insert ∅)

theorem delete_single (n : Node) (d : ℕ) :
    step (.delete d [97]) (single n) = some (single (n.delete d)) := by
  have hlookup : (single n).tree.lookup [97] = some n := AList.lookup_insert _
  rw [step, FieldRangeIndex.delete, keys_single, Option.map_some, List.foldl_cons, List.foldl_nil,
    BTree.deleteFromBt, hlookup]
  exact congrArg (fun tree => some (FieldRangeIndex.mk false tree)) (AList.insert_insert ∅)

theorem run_filled_single {k : ℕ} (hk : k ≤ 100001) :
    runOps step ((List.range (k + 1)).map fun d => .add d [97]) (create .string) =
      some (single (Node.filled k)) := by
  induction k with
  | zero => rfl
  | succ k ih =>
    rw [List.range_succ, List.map_append, runOps_append, ih (by omega), Option.bind_some,
      List.map_singleton, runOps_cons, step_single (Node.filled_add (by omega))]
    rfl

/-- Every document of a bitmap is deleted. -/
theorem run_delete_single {n : Node} (hdense : n.IsDense) {docs : List ℕ}
    (hdocs : ∀ d ∈ docs, n.minAligned ≤ d ∧ (d : ℤ) ≤ n.maxAligned) :
    ∃ n', runOps step (docs.map fun d => .delete d [97]) (single n) = some (single n') ∧ n'.IsDense ∧
      n'.minAligned = n.minAligned ∧ n'.size = n.size - docs.length := by
  induction docs generalizing n with
  | nil => exact ⟨n, rfl, hdense, rfl, by simp⟩
  | cons d docs ih =>
    obtain ⟨bitmap, hn⟩ := hdense
    obtain ⟨hlow, hhigh⟩ := hdocs d List.mem_cons_self
    have hdelete : n.delete d = { n with
        size := n.size - 1
        data := .dense (bitmap.set (Node.pos n.minAligned d) false) } := by
      rw [Node.delete, hn]
      exact if_neg (by omega)
    have hdense' : (n.delete d).IsDense := by
      rw [hdelete]
      exact ⟨_, rfl⟩
    obtain ⟨n', hrun, hdense', hmin, hsize⟩ := ih hdense'
      (by rw [hdelete]; exact fun d' hd' => hdocs d' (List.mem_cons_of_mem d hd'))
    rw [hdelete] at hmin hsize
    refine ⟨n', ?_, hdense', hmin, ?_⟩
    · rw [List.map_cons, runOps_cons, delete_single, Option.bind_some, hrun]
    · rw [hsize, List.length_cons]
      push_cast
      omega

/-- One document more makes the array a bitmap. -/
theorem filled_dense {k : ℕ} (hk : k = 100001) : ∃ n, (Node.filled k).add (k + 1) = some n ∧ n.IsDense ∧
    n.minAligned = 0 ∧ ((k + 1 : ℕ) : ℤ) ≤ n.maxAligned ∧ n.size = ((k + 1 : ℕ) : ℤ) + 1 := by
  have hup : ((k + 1 : ℕ) : ℤ) ≤ Node.alignUp k := by
    rw [Node.alignUp]
    omega
  rw [Node.add, Node.filled]
  dsimp only
  rw [if_pos (by omega), Node.addDense, if_neg (by dsimp only; omega), if_neg (by dsimp only; omega),
    if_neg (by dsimp only; omega)]
  refine ⟨_, rfl, ⟨_, rfl⟩, rfl, hup, ?_⟩
  dsimp only
  omega

/-- A second tag. -/
theorem step_other (n : Node) : ∃ m, step (.add 300000 [98]) (single n) =
    some ⟨false, AList.insert [98] m (AList.insert [97] n ∅)⟩ ∧ m.size = 1 ∧ m.minAligned = 299968 := by
  have hkeys : (single n).keys? [98] = some [[98]] := by
    have hsplit : split (cString [98]) = [[98]] := by decide
    exact congrArg some hsplit
  have hlookup : (single n).tree.lookup [98] = none :=
    (AList.lookup_insert_ne (by decide)).trans (AList.lookup_empty _)
  refine ⟨Node.new.addSparse [] 300000, ?_, by decide, by decide⟩
  have hadd : Node.new.add 300000 = some (Node.new.addSparse [] 300000) := by decide
  rw [step, FieldRangeIndex.add, hkeys, Option.bind_some, runOps_cons, BTree.insertToBt, hlookup]
  dsimp only
  rw [hadd]
  rfl

/-- All documents of a bitmap are deleted, and its tag is searched with one that has a document further
on. -/
theorem outside : ¬ ∀ (type : DataType) (ops : List IndexOp) (i : FieldRangeIndex),
    (∀ op ∈ ops, Fits op) → runOps step ops (create type) = some i →
      ∀ lower upper, i.Inside lower upper := by
  intro h
  obtain ⟨k, hk⟩ : ∃ k, k = 100001 := ⟨_, rfl⟩
  have hlimit : docLimit = 1073741824 := rfl
  obtain ⟨n₀, hdense, hbitmap, hmin₀, hmax₀, hsize₀⟩ := filled_dense hk
  obtain ⟨n, hdelete, hbitmap', hmin, hsize⟩ := run_delete_single hbitmap
    (show ∀ d ∈ List.range (k + 2), n₀.minAligned ≤ d ∧ (d : ℤ) ≤ n₀.maxAligned from fun d hd => by
      rw [List.mem_range] at hd
      omega)
  obtain ⟨m, hother, hsize', hmin'⟩ := step_other n
  let i : FieldRangeIndex := ⟨false, AList.insert [98] m (AList.insert [97] n ∅)⟩
  have hrun : runOps step ((((List.range (k + 1)).map fun d => .add d [97]) ++ [.add (k + 1) [97]]) ++
      (List.range (k + 2)).map (fun d => .delete d [97]) ++ [.add 300000 [98]]) (create .string) =
        some i := by
    rw [runOps_append, runOps_append, runOps_append, run_filled_single (by omega), Option.bind_some,
      runOps_cons, step_single hdense, Option.bind_some, runOps_nil, Option.bind_some, hdelete,
      Option.bind_some, runOps_cons, hother, Option.bind_some, runOps_nil]
  have hfits : ∀ op ∈ (((List.range (k + 1)).map fun d => IndexOp.add d [97]) ++ [.add (k + 1) [97]]) ++
      (List.range (k + 2)).map (fun d => .delete d [97]) ++ [.add 300000 [98]], Fits op := by
    intro op hop
    simp only [List.mem_append, List.mem_map, List.mem_range, List.mem_singleton] at hop
    obtain ((⟨d, hd, rfl⟩ | rfl) | ⟨d, -, rfl⟩) | rfl := hop
    · show d + 64 < docLimit
      omega
    · show k + 1 + 64 < docLimit
      omega
    · exact trivial
    · show 300000 + 64 < docLimit
      omega
  have hinside := h .string _ i hfits hrun [97, 1, 98] []
  have hplaced := run_allPlaced hfits BTree.allPlaced_empty hrun
  have hcovered := ((allPlaced_inside hplaced _ _).mp hinside).resolve_left Bool.false_ne_true
  have hnodes : i.tagNodes [97, 1, 98] = [n, m] := by
    have hsplit : split [97, 1, 98] = [[97], [98]] := by decide
    have hn : i.tree.lookup [97] = some n :=
      (AList.lookup_insert_ne (by decide)).trans (AList.lookup_insert _)
    have hm : i.tree.lookup [98] = some m := AList.lookup_insert _
    rw [tagNodes, hsplit]
    simp only [List.filterMap_cons, hn, hm, List.filterMap_nil]
  rw [List.length_range] at hsize
  rw [Covered, hnodes] at hcovered
  rcases hcovered with hnone | hcovered
  · have hle := hnone m (List.mem_cons_of_mem n List.mem_cons_self)
    omega
  · obtain ⟨⟨m', hm', hpos, hlow⟩, -⟩ := hcovered n List.mem_cons_self hbitmap' (by omega)
    simp only [List.mem_cons, List.not_mem_nil, or_false] at hm'
    rcases hm' with rfl | rfl
    · omega
    · omega

end FieldRangeIndex

end AwaDB
