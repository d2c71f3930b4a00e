import Mathlib.Control.Basic
import Mathlib.Data.List.Basic

/-!
# Runs that break, are refused, or end

* `Outcome`: a computation that leaves its memory, returns an error, or returns a value;
* `Safe`: it does not break, and a value that it returns has a property;
* `safe_bind`: safety of a sequence is exactly safety of its parts;
* `safe_range`: a loop is safe exactly when each of its rounds is;
* `foldlM_some`: a loop that does not fail;
* `Ends`: what holds of the error or of the value, and `ends_foldlM` for a loop.
-/

namespace AwaDB.Lib

/-- What a computation comes to. -/
inductive Outcome (ε α : Type)
  | broken
  | refused (e : ε)
  | done (a : α)

namespace Outcome

variable {ε α β σ : Type}

def bind (x : Outcome ε α) (f : α → Outcome ε β) : Outcome ε β :=
  match x with
  | broken => broken
  | refused e => refused e
  | done a => f a

instance : Monad (Outcome ε) where
  pure := done
  bind := bind

instance : LawfulMonad (Outcome ε) := LawfulMonad.mk' _
  (by intro α x; cases x <;> rfl)
  (by intro α β a f; rfl)
  (by intro α β γ x f g; cases x <;> rfl)

/-- A failure is a break. -/
def ofOption : Option α → Outcome ε α
  | none => broken
  | some a => done a

/-- Nothing breaks, and the value has the property. -/
def Safe (P : α → Prop) : Outcome ε α → Prop
  | broken => False
  | refused _ => True
  | done a => P a

variable {P : α → Prop}

@[simp] theorem safe_broken : (broken : Outcome ε α).Safe P ↔ False := Iff.rfl

@[simp] theorem safe_refused (e : ε) : (refused e : Outcome ε α).Safe P ↔ True := Iff.rfl

@[simp] theorem safe_done (a : α) : (done a : Outcome ε α).Safe P ↔ P a := Iff.rfl

@[simp] theorem safe_pure (a : α) : (pure a : Outcome ε α).Safe P ↔ P a := Iff.rfl

@[simp] theorem safe_bind {Q : β → Prop} (x : Outcome ε α) (f : α → Outcome ε β) :
    (x >>= f).Safe Q ↔ x.Safe fun a => (f a).Safe Q := by
  cases x with
  | broken => exact Iff.rfl
  | refused e => exact Iff.rfl
  | done a => exact Iff.rfl

/-- A sequence ends with what its second part returns. -/
theorem bind_eq_done_iff {x : Outcome ε α} {f : α → Outcome ε β} {b : β} :
    (x >>= f) = done b ↔ ∃ a, x = done a ∧ f a = done b := by
  cases x with
  | broken => exact ⟨nofun, nofun⟩
  | refused e => exact ⟨nofun, nofun⟩
  | done a =>
    refine ⟨fun h => ⟨a, rfl, h⟩, ?_⟩
    rintro ⟨_, h, hf⟩
    cases h
    exact hf

theorem Safe.imp {Q : α → Prop} {x : Outcome ε α} (h : x.Safe P) (hPQ : ∀ a, P a → Q a) : x.Safe Q := by
  cases x with
  | broken => exact h
  | refused e => exact trivial
  | done a => exact hPQ a h

/-- **A loop whose rounds are not refused** is safe exactly when each round meets its condition. -/
theorem safe_range {Inv : ℕ → σ → Prop} {C : ℕ → Prop} {Q : σ → Prop} {f : σ → ℕ → Outcome ε σ}
    {n : ℕ} {s : σ} (hinit : Inv 0 s) (hend : ∀ s, Inv n s → Q s)
    (hdone : ∀ i s, i < n → Inv i s → C i → ∃ s', f s i = done s' ∧ Inv (i + 1) s')
    (hbroken : ∀ i s, i < n → Inv i s → ¬C i → f s i = broken) :
    ((List.range n).foldlM f s).Safe Q ↔ ∀ i < n, C i := by
  -- up to a round, the loop has ended well or is broken for good
  have hrun : ∀ m ≤ n, ((∀ i < m, C i) ∧ ∃ s', (List.range m).foldlM f s = done s' ∧ Inv m s') ∨
      (¬∀ i < m, C i) ∧ (List.range m).foldlM f s = broken := by
    intro m
    induction m with
    | zero => exact fun _ => .inl ⟨fun i hi => absurd hi (Nat.not_lt_zero i), s, rfl, hinit⟩
    | succ m ih =>
      intro hm
      rw [List.range_succ, List.foldlM_append]
      rcases ih (Nat.le_of_succ_le hm) with ⟨hall, s', hs', hinv⟩ | ⟨hnot, hs'⟩
      · rw [hs']
        by_cases hC : C m
        · obtain ⟨s'', hs'', hinv'⟩ := hdone m s' hm hinv hC
          refine .inl ⟨fun i hi => ?_, s'', ?_, hinv'⟩
          · rcases Nat.lt_succ_iff_lt_or_eq.mp hi with hlt | rfl
            · exact hall i hlt
            · exact hC
          · show (f s' m >>= fun s => pure s) = done s''
            rw [hs'']
            rfl
        · refine .inr ⟨fun h => hC (h m (Nat.lt_succ_self m)), ?_⟩
          show (f s' m >>= fun s => pure s) = broken
          rw [hbroken m s' hm hinv hC]
          rfl
      · rw [hs']
        exact .inr ⟨fun h => hnot fun i hi => h i (Nat.lt_succ_of_lt hi), rfl⟩
  rcases hrun n (Nat.le_refl n) with ⟨hall, s', hs', hinv⟩ | ⟨hnot, hs'⟩
  · rw [hs']
    exact ⟨fun _ => hall, fun _ => hend s' hinv⟩
  · rw [hs']
    exact ⟨fun h => h.elim, fun h => hnot h⟩

end Outcome

/-! ### Loops that may fail -/

section

variable {ι σ : Type*} {f : σ → ι → Option σ} {l : List ι}

theorem mapM_some {α β : Type*} {g : α → Option β} {l : List α} (h : ∀ x ∈ l, (g x).isSome) :
    (l.mapM g).isSome := by
  induction l with
  | nil => rfl
  | cons x l ih =>
    obtain ⟨b, hb⟩ := Option.isSome_iff_exists.mp (h x List.mem_cons_self)
    obtain ⟨bs, hbs⟩ := Option.isSome_iff_exists.mp (ih fun y hy => h y (List.mem_cons_of_mem x hy))
    rw [List.mapM_cons, hb, hbs]
    rfl

/-- A loop does not fail when no round does that begins well. -/
theorem foldlM_some (Inv : σ → Prop) {s : σ} (hinit : Inv s)
    (hstep : ∀ s, ∀ x ∈ l, Inv s → ∃ s', f s x = some s' ∧ Inv s') :
    ∃ s', l.foldlM f s = some s' ∧ Inv s' := by
  induction l generalizing s with
  | nil => exact ⟨s, rfl, hinit⟩
  | cons x l ih =>
    obtain ⟨s', hs', hinv⟩ := hstep s x List.mem_cons_self hinit
    rw [List.foldlM_cons, hs']
    exact ih hinv fun s y hy => hstep s y (List.mem_cons_of_mem x hy)

/-- What every round keeps, the loop keeps. -/
theorem foldlM_keeps (Inv : σ → Prop) {s s' : σ} (hinit : Inv s)
    (hstep : ∀ s s', ∀ x ∈ l, f s x = some s' → Inv s → Inv s') (hrun : l.foldlM f s = some s') :
    Inv s' := by
  induction l generalizing s with
  | nil =>
    cases hrun
    exact hinit
  | cons x l ih =>
    rw [List.foldlM_cons] at hrun
    obtain ⟨s₁, hs₁, hrun⟩ := Option.bind_eq_some_iff.mp hrun
    exact ih (hstep s s₁ x List.mem_cons_self hs₁ hinit)
      (fun s s' y hy => hstep s s' y (List.mem_cons_of_mem x hy)) hrun

end

section

universe u v

variable {ι : Type*} {ε : Type u} {α β σ : Type v} {E : ε → Prop} {P : α → Prop} {Q : β → Prop}

/-- What holds of the error, or of the value. -/
def Ends (E : ε → Prop) (P : α → Prop) : Except ε α → Prop
  | .error e => E e
  | .ok a => P a

@[simp] theorem ends_error (e : ε) : Ends E P (.error e) ↔ E e := Iff.rfl

@[simp] theorem ends_ok (a : α) : Ends E P (.ok a : Except ε α) ↔ P a := Iff.rfl

theorem Ends.bind {x : Except ε α} {f : α → Except ε β} (h : Ends E P x)
    (hf : ∀ a, P a → Ends E Q (f a)) : Ends E Q (x >>= f) := by
  cases x with
  | error e => exact h
  | ok a => exact hf a h

theorem Ends.imp {E' : ε → Prop} {P' : α → Prop} {x : Except ε α} (h : Ends E P x)
    (hE : ∀ e, E e → E' e) (hP : ∀ a, P a → P' a) : Ends E' P' x := by
  cases x with
  | error e => exact hE e h
  | ok a => exact hP a h

theorem Ends.map {x : Except ε α} {f : α → β} (h : Ends E P x) (hf : ∀ a, P a → Q (f a)) :
    Ends E Q (x.map f) := by
  cases x with
  | error e => exact h
  | ok a => exact hf a h

/-- A traversal of which no part fails. -/
theorem mapM_ok {α β ε : Type} {f : α → Except ε β} {g : α → β} {l : List α}
    (h : ∀ x ∈ l, f x = .ok (g x)) : l.mapM f = .ok (l.map g) := by
  induction l with
  | nil => rfl
  | cons x l ih =>
    obtain ⟨hx, hl⟩ := List.forall_mem_cons.mp h
    rw [List.mapM_cons, hx, ih hl]
    rfl

/-- A loop ends as every round of it ends. -/
theorem ends_foldlM {f : σ → ι → Except ε σ} {l : List ι} (Inv : σ → Prop) {s : σ} (hinit : Inv s)
    (hstep : ∀ s, ∀ x ∈ l, Inv s → Ends E Inv (f s x)) : Ends E Inv (l.foldlM f s) := by
  induction l generalizing s with
  | nil => exact hinit
  | cons x l ih =>
    rw [List.foldlM_cons]
    exact Ends.bind (hstep s x List.mem_cons_self hinit) fun s' hs' =>
      ih hs' fun s y hy => hstep s y (List.mem_cons_of_mem x hy)

end

end AwaDB.Lib
