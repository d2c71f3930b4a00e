import AwaDB.Lib.Run

/-!
# Runs that follow the runs of another program

A step of the first program is silent, or it has a label, which is an operation of the second one.

* `labels`: the labels of the steps of a run, in their order;
* `Simulates`: a silent step changes nothing that the second program sees, and a step with a label is the
  step of the second program with this operation;
* `Simulates.run`: a run of the first program is a run of the second one, with the labels as operations.
-/

namespace AwaDB.Lib

variable {σ τ ι κ : Type*} {step : ι → σ → Option σ} {step' : κ → τ → Option τ}
  {label : ι → σ → Option κ} {f : σ → τ} {Inv : σ → Prop}

/-- The labels of a run. -/
def labels (step : ι → σ → Option σ) (label : ι → σ → Option κ) : List ι → σ → List κ
  | [], _ => []
  | o :: os, s =>
    match step o s with
    | none => []
    | some s' => (label o s).toList ++ labels step label os s'

/-- The steps from states with `Inv` are followed by the second program, which sees `f s` of a state. -/
structure Simulates (step : ι → σ → Option σ) (step' : κ → τ → Option τ) (label : ι → σ → Option κ)
    (f : σ → τ) (Inv : σ → Prop) : Prop where
  inv : ∀ o s s', Inv s → step o s = some s' → Inv s'
  silent : ∀ o s s', Inv s → step o s = some s' → label o s = none → f s' = f s
  visible : ∀ o s s' k, Inv s → step o s = some s' → label o s = some k → step' k (f s) = some (f s')

/-- **A run is followed.** -/
theorem Simulates.run (h : Simulates step step' label f Inv) {os : List ι} {s s' : σ} (hs : Inv s)
    (hrun : runOps step os s = some s') : runOps step' (labels step label os s) (f s) = some (f s') := by
  induction os generalizing s with
  | nil =>
    cases hrun
    rfl
  | cons o os ih =>
    obtain ⟨t, ht, hrest⟩ := Option.bind_eq_some_iff.mp hrun
    have hnext := ih (h.inv o s t hs ht) hrest
    rw [labels, ht]
    cases hlabel : label o s with
    | none =>
      rw [h.silent o s t hs ht hlabel] at hnext
      exact hnext
    | some k =>
      show (step' k (f s)).bind _ = _
      rw [h.visible o s t k hs ht hlabel]
      exact hnext

end AwaDB.Lib
