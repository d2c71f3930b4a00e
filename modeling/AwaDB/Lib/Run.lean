import Mathlib.Data.List.Basic
import Mathlib.Logic.Function.Basic
import Mathlib.Tactic.Common

/-!
# Runs of a partial step function

A program that is called again and again is a step function `step : ι → σ → Option σ`: the
operation, the state before, and the state after when the call is defined. This file packages the
inductions over its runs once:

* `runOps` folds a list of operations, and `runOps_invariant` carries an invariant along it;
* `Always` says that a predicate holds in every state a run visits, and `EachStep` that every
  step of the run meets a guard on the operation and the state *before* it;
* `always_iff_last` reads `Always` off the last state where a step can only destroy the predicate;
* `always_of_guarded` and `always_of_total` also show that the run is defined;
* `defined_always_iff` says when a run is defined and keeps a predicate;
* `always_of_guard` turns a guarded step lemma into a run lemma, and `always_iff_guard` does the
  same for a step lemma that is an equivalence: then the guard is exactly what a run needs.
-/

namespace AwaDB.Lib

variable {σ ι : Type*}

/-- Run a list of operations, left to right; undefined as soon as one step is. -/
def runOps (step : ι → σ → Option σ) : List ι → σ → Option σ
  | [], s => some s
  | o :: os, s => (step o s).bind (runOps step os)

/-- `P` holds of every state the run visits, the first and the last included. -/
def Always (step : ι → σ → Option σ) (P : σ → Prop) : List ι → σ → Prop
  | [], s => P s
  | o :: os, s => P s ∧ ∀ s', step o s = some s' → Always step P os s'

/-- Every step the run takes meets the guard `G` on its operation and the state before it. -/
def EachStep (step : ι → σ → Option σ) (G : ι → σ → Prop) : List ι → σ → Prop
  | [], _ => True
  | o :: os, s => (∀ s', step o s = some s' → G o s ∧ EachStep step G os s')

/-- Every step the run attempts meets the guard `G`, also one that turns out to be undefined. -/
def Guarded (step : ι → σ → Option σ) (G : ι → σ → Prop) : List ι → σ → Prop
  | [], _ => True
  | o :: os, s => G o s ∧ ∀ s', step o s = some s' → Guarded step G os s'

variable {step : ι → σ → Option σ} {P : σ → Prop} {G : ι → σ → Prop}

@[simp] theorem runOps_nil (s : σ) : runOps step [] s = some s := rfl

@[simp] theorem runOps_cons (o : ι) (os : List ι) (s : σ) :
    runOps step (o :: os) s = (step o s).bind (runOps step os) := rfl

theorem runOps_append (os os' : List ι) (s : σ) :
    runOps step (os ++ os') s = (runOps step os s).bind (runOps step os') := by
  induction os generalizing s with
  | nil => rfl
  | cons o os ih =>
    simp only [List.cons_append, runOps_cons]
    cases step o s with
    | none => rfl
    | some s' => simpa using ih s'

theorem Always.here {os : List ι} {s : σ} (h : Always step P os s) : P s := by
  cases os with
  | nil => exact h
  | cons o os => exact h.1

/-- The last state of a run is one of the states it visits. -/
theorem Always.last {os : List ι} {s s' : σ} (h : Always step P os s)
    (hrun : runOps step os s = some s') : P s' := by
  induction os generalizing s with
  | nil => cases hrun; exact h
  | cons o os ih =>
    obtain ⟨t, ht, hrest⟩ := Option.bind_eq_some_iff.mp hrun
    exact ih (h.2 t ht) hrest

/-- **Invariant rule.** What every step preserves holds in the last state of a run. -/
theorem runOps_invariant (hstep : ∀ o s s', P s → step o s = some s' → P s')
    {os : List ι} {s s' : σ} (hs : P s) (hrun : runOps step os s = some s') : P s' := by
  induction os generalizing s with
  | nil => cases hrun; exact hs
  | cons o os ih =>
    obtain ⟨t, ht, hrest⟩ := Option.bind_eq_some_iff.mp hrun
    exact ih (hstep o s t hs ht) hrest

/-- **Guarded invariant rule.** If a step that meets the guard preserves `P`, then `P` holds in
every state of a run whose steps all meet it. -/
theorem always_of_guard (hstep : ∀ o s s', P s → G o s → step o s = some s' → P s')
    {os : List ι} {s : σ} (hs : P s) (hg : EachStep step G os s) : Always step P os s := by
  induction os generalizing s with
  | nil => exact hs
  | cons o os ih =>
    refine ⟨hs, fun s' hs' => ?_⟩
    obtain ⟨hgo, hrest⟩ := hg s' hs'
    exact ih (hstep o s s' hs hgo hs') hrest

/-- **Invariant rule.** What every step preserves holds in every state of a run. -/
theorem always_of_step (hstep : ∀ o s s', P s → step o s = some s' → P s') {os : List ι} {s : σ}
    (hs : P s) : Always step P os s := by
  induction os generalizing s with
  | nil => exact hs
  | cons o os ih => exact ⟨hs, fun s' hs' => ih (hstep o s s' hs hs')⟩

/-- A step that is taken and meets the guard, in front of a run. -/
theorem EachStep.cons {o : ι} {os : List ι} {s s' : σ} (hstep : step o s = some s') (hG : G o s)
    (hrest : EachStep step G os s') : EachStep step G (o :: os) s := by
  intro t ht
  rw [hstep] at ht
  cases ht
  exact ⟨hG, hrest⟩

/-- A condition on the operations alone can be moved into the guard. -/
theorem EachStep.left {os os' : List ι} {s : σ} (h : EachStep step G (os ++ os') s) :
    EachStep step G os s := by
  induction os generalizing s with
  | nil => exact trivial
  | cons o os ih =>
    intro s' hs'
    obtain ⟨hG, hrest⟩ := h s' hs'
    exact ⟨hG, ih hrest⟩

theorem EachStep.and_mem {Q : ι → Prop} {os : List ι} {s : σ} (hQ : ∀ o ∈ os, Q o)
    (h : EachStep step G os s) : EachStep step (fun o s => Q o ∧ G o s) os s := by
  induction os generalizing s with
  | nil => exact trivial
  | cons o os ih =>
    intro s' hs'
    obtain ⟨hG, hrest⟩ := h s' hs'
    exact ⟨⟨hQ o List.mem_cons_self, hG⟩,
      ih (fun o' ho' => hQ o' (List.mem_cons_of_mem o ho')) hrest⟩

theorem Guarded.cons {o : ι} {os : List ι} {s s' : σ} (hstep : step o s = some s') (hG : G o s)
    (hrest : Guarded step G os s') : Guarded step G (o :: os) s := by
  refine ⟨hG, fun t ht => ?_⟩
  rw [hstep] at ht
  cases ht
  exact hrest

/-- A condition on the operations alone can be moved into the guard. -/
theorem Guarded.and_mem {Q : ι → Prop} {os : List ι} {s : σ} (hQ : ∀ o ∈ os, Q o)
    (h : Guarded step G os s) : Guarded step (fun o s => Q o ∧ G o s) os s := by
  induction os generalizing s with
  | nil => exact trivial
  | cons o os ih =>
    exact ⟨⟨hQ o List.mem_cons_self, h.1⟩,
      fun s' hs' => ih (fun o' ho' => hQ o' (List.mem_cons_of_mem o ho')) (h.2 s' hs')⟩

/-- A guard that every step meets. -/
theorem guarded_of_forall (h : ∀ o s, G o s) (os : List ι) (s : σ) : Guarded step G os s := by
  induction os generalizing s with
  | nil => exact trivial
  | cons o os ih => exact ⟨h o s, fun s' _ => ih s'⟩

/-- **Total guarded rule.** If a step that meets the guard is defined and preserves `P`, then a run
whose steps all meet it is defined, and `P` holds in every state it visits. -/
theorem always_of_guarded (hstep : ∀ o s, P s → G o s → ∃ s', step o s = some s' ∧ P s')
    {os : List ι} {s : σ} (hs : P s) (hg : Guarded step G os s) :
    (∃ s', runOps step os s = some s') ∧ Always step P os s := by
  induction os generalizing s with
  | nil => exact ⟨⟨s, rfl⟩, hs⟩
  | cons o os ih =>
    obtain ⟨s', hs', hP⟩ := hstep o s hs hg.1
    obtain ⟨⟨t, ht⟩, hrest⟩ := ih hP (hg.2 s' hs')
    refine ⟨⟨t, by rw [runOps_cons, hs', Option.bind_some, ht]⟩, hs, fun u hu => ?_⟩
    rw [hs'] at hu
    cases hu
    exact hrest

/-- **Total rule.** If every step from a state with `P` is defined and preserves `P`, then every run is
defined, and `P` holds in every state it visits. -/
theorem always_of_total (hstep : ∀ o s, P s → ∃ s', step o s = some s' ∧ P s') (os : List ι) {s : σ}
    (hs : P s) : (∃ s', runOps step os s = some s') ∧ Always step P os s := by
  exact always_of_guarded (G := fun _ _ => True) (fun o s h _ => hstep o s h) hs
    (guarded_of_forall (fun _ _ => trivial) os s)

theorem Always.imp {Q : σ → Prop} (hPQ : ∀ s, P s → Q s) {os : List ι} {s : σ}
    (h : Always step P os s) : Always step Q os s := by
  induction os generalizing s with
  | nil => exact hPQ s h
  | cons o os ih => exact ⟨hPQ s h.1, fun s' hs' => ih (h.2 s' hs')⟩

/-- **Exact guard rule.** Let `A` be an invariant of every step. If from a state with `A` and `P` a
step keeps `P` exactly when it meets the guard, then `P` holds in every state of a run exactly when
every step meets it. -/
theorem always_iff_guard {A : σ → Prop} (haux : ∀ o s s', A s → step o s = some s' → A s')
    (hstep : ∀ o s s', A s → P s → step o s = some s' → (P s' ↔ G o s))
    {os : List ι} {s : σ} (hA : A s) (hs : P s) : Always step P os s ↔ EachStep step G os s := by
  induction os generalizing s with
  | nil => exact ⟨fun _ => trivial, fun _ => hs⟩
  | cons o os ih =>
    constructor
    · intro h s' hs'
      have hP : P s' := (h.2 s' hs').here
      exact ⟨(hstep o s s' hA hs hs').mp hP, (ih (haux o s s' hA hs') hP).mp (h.2 s' hs')⟩
    · intro h
      refine ⟨hs, fun s' hs' => ?_⟩
      obtain ⟨hG, hrest⟩ := h s' hs'
      exact (ih (haux o s s' hA hs') ((hstep o s s' hA hs hs').mpr hG)).mpr hrest

/-- **Exact total guard rule.** Let `A` be an invariant of the legal steps that meet the guard, which are
all defined, and let a legal step that does not meet it break `P` where it is defined. Then a legal run
is defined, with `P` in every state it visits, exactly when every step meets the guard. -/
theorem defined_always_iff {A : σ → Prop} {L : ι → σ → Prop} (hP : ∀ s, A s → P s)
    (hgood : ∀ o s, A s → L o s → G o s → ∃ s', step o s = some s' ∧ A s')
    (hbad : ∀ o s s', A s → L o s → ¬ G o s → step o s = some s' → ¬ P s') {os : List ι} {s : σ}
    (hA : A s) (hL : Guarded step L os s) :
    ((∃ s', runOps step os s = some s') ∧ Always step P os s) ↔ Guarded step G os s := by
  induction os generalizing s with
  | nil => exact iff_of_true ⟨⟨s, rfl⟩, hP s hA⟩ trivial
  | cons o os ih =>
    obtain ⟨hLo, hLrest⟩ := hL
    by_cases hG : G o s
    · obtain ⟨s', hs', hA'⟩ := hgood o s hA hLo hG
      have hnext := ih hA' (hLrest s' hs')
      rw [Always, Guarded, runOps_cons, hs', Option.bind_some]
      constructor
      · rintro ⟨hdefined, -, halways⟩
        refine ⟨hG, fun t ht => ?_⟩
        cases ht
        exact hnext.mp ⟨hdefined, halways s' rfl⟩
      · rintro ⟨-, hguard⟩
        obtain ⟨hdefined, halways⟩ := hnext.mpr (hguard s' rfl)
        refine ⟨hdefined, hP s hA, fun t ht => ?_⟩
        cases ht
        exact halways
    · refine iff_of_false (fun h => ?_) fun hguard => hG hguard.1
      obtain ⟨⟨t, ht⟩, halways⟩ := h
      obtain ⟨s', hs', -⟩ := Option.bind_eq_some_iff.mp ht
      exact hbad o s s' hA hLo hG hs' (halways.2 s' hs').here

/-- Where a step can only destroy `P`, a run keeps it throughout exactly when it ends with it. -/
theorem always_iff_last {A : σ → Prop} (haux : ∀ o s s', A s → step o s = some s' → A s')
    (hback : ∀ o s s', A s → step o s = some s' → P s' → P s) {os : List ι} {s s' : σ} (hA : A s)
    (hrun : runOps step os s = some s') : Always step P os s ↔ P s' := by
  refine ⟨fun h => h.last hrun, fun hP => ?_⟩
  induction os generalizing s with
  | nil => cases hrun; exact hP
  | cons o os ih =>
    obtain ⟨t, ht, hrest⟩ := Option.bind_eq_some_iff.mp hrun
    have htail := ih (haux o s t hA ht) hrest
    refine ⟨hback o s t hA ht htail.here, fun t' ht' => ?_⟩
    rw [ht] at ht'
    cases ht'
    exact htail

end AwaDB.Lib
