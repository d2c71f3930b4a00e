import Mathlib.Data.List.Basic
import Mathlib.Tactic.Common

/-!
# A copy that follows its source

A value is kept in a source and in a copy. A producer writes the source, and queues events for the
copy that a consumer processes later: `take` reads the source when it is processed, `drop v` removes
a value that was read before. `Settles` says that the events, processed in order, end with the copy
equal to the source.

* `settles_append`: a queue that settles can be followed by events that settle from there;
* `settles_dropCurrent`: a value that is read early is the one the copy will have;
* `settles_write`: a write may overtake the queue unless a `take` in it would read another value.
-/

namespace AwaDB.Lib

variable {α : Type*}

/-- What happens to a source and its copy. -/
inductive CopyEvent (α : Type*) where
  | take
  | drop (v : α)
  | dropCurrent
  | write (v : α)

/-- Processed in order, the events let the copy take a value when it has none and drop the one it
has, and end with the copy equal to the source. -/
def Settles : List (CopyEvent α) → Option α → Option α → Prop
  | [], copy, source => copy = source
  | .take :: es, copy, source => copy = none ∧ source.isSome ∧ Settles es source source
  | .drop v :: es, copy, source => copy = some v ∧ Settles es none source
  | .dropCurrent :: es, copy, source => source.isSome ∧ copy = source ∧ Settles es none source
  | .write v :: es, copy, _ => Settles es copy (some v)

/-- The events that wait in the queue. -/
def CopyEvent.Queued : CopyEvent α → Prop
  | .take => True
  | .drop _ => True
  | .dropCurrent => False
  | .write _ => False

variable {E S : List (CopyEvent α)} {copy source : Option α}

theorem settles_append (hE : ∀ e ∈ E, e.Queued) (h : Settles E copy source)
    (hS : Settles S source source) : Settles (E ++ S) copy source := by
  induction E generalizing copy with
  | nil =>
    have hsame : copy = source := h
    rw [hsame]
    exact hS
  | cons e E ih =>
    have hrest : ∀ e ∈ E, e.Queued := fun e he => hE e (List.mem_cons_of_mem _ he)
    have hqueued := hE e List.mem_cons_self
    cases e with
    | take => exact ⟨h.1, h.2.1, ih hrest h.2.2⟩
    | drop v => exact ⟨h.1, ih hrest h.2⟩
    | dropCurrent => exact hqueued.elim
    | write v => exact hqueued.elim

theorem settles_dropCurrent (hE : ∀ e ∈ E, e.Queued) {v : α}
    (h : Settles (E ++ .dropCurrent :: S) copy (some v)) :
    Settles (E ++ .drop v :: S) copy (some v) := by
  induction E generalizing copy with
  | nil => exact ⟨h.2.1, h.2.2⟩
  | cons e E ih =>
    have hrest : ∀ e ∈ E, e.Queued := fun e he => hE e (List.mem_cons_of_mem _ he)
    have hqueued := hE e List.mem_cons_self
    cases e with
    | take => exact ⟨h.1, h.2.1, ih hrest h.2.2⟩
    | drop w => exact ⟨h.1, ih hrest h.2⟩
    | dropCurrent => exact hqueued.elim
    | write w => exact hqueued.elim

/-- **A write overtakes the queue**, when no `take` in it can tell. -/
theorem settles_write (hE : ∀ e ∈ E, e.Queued) {v : α}
    (htake : .take ∈ E → source = none ∨ source = some v)
    (h : Settles (E ++ .write v :: S) copy source) : Settles (E ++ S) copy (some v) := by
  induction E generalizing copy with
  | nil => exact h
  | cons e E ih =>
    have hrest : ∀ e ∈ E, e.Queued := fun e he => hE e (List.mem_cons_of_mem _ he)
    have hqueued := hE e List.mem_cons_self
    have htail : .take ∈ E → source = none ∨ source = some v :=
      fun hmem => htake (List.mem_cons_of_mem _ hmem)
    cases e with
    | take =>
      obtain ⟨hcopy, hsome, hlater⟩ := h
      have hsource : source = some v := by
        cases htake List.mem_cons_self with
        | inl hnone =>
          rw [hnone] at hsome
          cases hsome
        | inr heq => exact heq
      have hend := ih hrest htail hlater
      rw [hsource] at hend
      exact ⟨hcopy, rfl, hend⟩
    | drop w => exact ⟨h.1, ih hrest htail h.2⟩
    | dropCurrent => exact hqueued.elim
    | write w => exact hqueued.elim

end AwaDB.Lib
