import Mathlib.Data.Finset.Card
import Mathlib.Data.Finset.Filter
import Mathlib.Order.Defs.LinearOrder
import Mathlib.Tactic.Common

/-!
# Greedy descent in a graph

A walk that goes on to a nearer neighbour as long as there is one.

* `closer`: one neighbour is compared with the nearest node so far;
* `walk`: the whole list of links is read, then the walk goes on from the nearest node in it;
* `walk_spec`: the walk ends, no farther than it began, at a node without a nearer neighbour.
-/

namespace AwaDB.Lib

variable {α D ε : Type*} [LinearOrder D]

/-- The nearest node so far, and whether the walk has moved, after one neighbour. -/
def closer (dist : α → D) (c : α × Bool) (cand : α) : α × Bool :=
  if dist cand < dist c.1 then (cand, true) else c

/-- The descent from a node. `stuck` is the answer without fuel. -/
def walk (links : α → Except ε (List α)) (dist : α → D) (stuck : ε) : ℕ → α → Except ε α
  | 0, _ => .error stuck
  | fuel + 1, curr =>
    match links curr with
    | .error e => .error e
    | .ok js =>
      if (js.foldl (closer dist) (curr, false)).2 then
        walk links dist stuck fuel (js.foldl (closer dist) (curr, false)).1
      else .ok (js.foldl (closer dist) (curr, false)).1

variable {dist : α → D}

theorem foldl_closer_le (dist : α → D) (js : List α) (c : α × Bool) :
    dist (js.foldl (closer dist) c).1 ≤ dist c.1 ∧ ∀ j ∈ js, dist (js.foldl (closer dist) c).1 ≤ dist j := by
  induction js generalizing c with
  | nil => exact ⟨le_refl _, fun j hj => absurd hj List.not_mem_nil⟩
  | cons j js ih =>
    rw [List.foldl_cons]
    obtain ⟨hle, hall⟩ := ih (closer dist c j)
    have hstep : dist (closer dist c j).1 ≤ dist c.1 ∧ dist (closer dist c j).1 ≤ dist j := by
      rw [closer]
      split
      · rename_i hlt
        exact ⟨le_of_lt hlt, le_refl _⟩
      · rename_i hlt
        exact ⟨le_refl _, not_lt.mp hlt⟩
    exact ⟨hle.trans hstep.1, List.forall_mem_cons.mpr ⟨hle.trans hstep.2, hall⟩⟩

/-- The walk stays where it is, or moves to a nearer neighbour. -/
theorem foldl_closer_moved (dist : α → D) (js : List α) (c : α × Bool) :
    js.foldl (closer dist) c = c ∨ (js.foldl (closer dist) c).2 = true ∧
      (js.foldl (closer dist) c).1 ∈ js ∧ dist (js.foldl (closer dist) c).1 < dist c.1 := by
  induction js generalizing c with
  | nil => exact .inl rfl
  | cons j js ih =>
    rw [List.foldl_cons]
    have hstep : closer dist c j = c ∨ closer dist c j = (j, true) ∧ dist j < dist c.1 := by
      rw [closer]
      split
      · rename_i hlt
        exact .inr ⟨rfl, hlt⟩
      · exact .inl rfl
    rcases hstep with hsame | ⟨hmoved, hlt⟩
    · rw [hsame]
      exact (ih c).imp_right fun ⟨hflag, hmem, hlt⟩ => ⟨hflag, List.mem_cons_of_mem j hmem, hlt⟩
    · rw [hmoved]
      rcases ih (j, true) with heq | ⟨hflag, hmem, hlt'⟩
      · rw [heq]
        exact .inr ⟨rfl, List.mem_cons_self, hlt⟩
      · exact .inr ⟨hflag, List.mem_cons_of_mem j hmem, hlt'.trans hlt⟩

/-- Fewer nodes are nearer than the neighbour the walk moves to. -/
theorem card_nearer_lt {S : Finset α} {a c : α} (hc : c ∈ S) (hlt : dist c < dist a) :
    (S.filter fun v => dist v < dist c).card < (S.filter fun v => dist v < dist a).card := by
  refine Finset.card_lt_card ((Finset.ssubset_iff_of_subset fun v hv => ?_).mpr
    ⟨c, Finset.mem_filter.mpr ⟨hc, hlt⟩, fun hself => ?_⟩)
  · rw [Finset.mem_filter] at hv ⊢
    exact ⟨hv.1, hv.2.trans hlt⟩
  · exact lt_irrefl _ (Finset.mem_filter.mp hself).2

theorem walk_of_nearer {links : α → Except ε (List α)} {S : Finset α}
    (hwithin : ∀ v ∈ S, ∃ js, links v = .ok js ∧ ∀ j ∈ js, j ∈ S) (stuck : ε) {fuel : ℕ} {start : α}
    (hfuel : (S.filter fun v => dist v < dist start).card < fuel) (hstart : start ∈ S) :
    ∃ r ∈ S, walk links dist stuck fuel start = .ok r ∧ dist r ≤ dist start ∧
      ∀ js, links r = .ok js → ∀ j ∈ js, dist r ≤ dist j := by
  induction fuel generalizing start with
  | zero => exact absurd hfuel (Nat.not_lt_zero _)
  | succ fuel ih =>
    obtain ⟨js, hlinks, hjs⟩ := hwithin start hstart
    simp only [walk, hlinks]
    rcases foldl_closer_moved dist js (start, false) with heq | ⟨hflag, hmem, hlt⟩
    · rw [heq]
      refine ⟨start, hstart, rfl, le_refl _, fun js' hjs' j hj => ?_⟩
      rw [hlinks] at hjs'
      cases hjs'
      have hle := (foldl_closer_le dist js (start, false)).2 j hj
      rwa [heq] at hle
    · simp only [hflag, if_true]
      have hnext := hjs _ hmem
      have hfewer := card_nearer_lt hnext hlt
      obtain ⟨r, hr, hwalk, hle, hlocal⟩ := ih (Nat.lt_of_lt_of_le hfewer (Nat.lt_succ_iff.mp hfuel)) hnext
      exact ⟨r, hr, hwalk, hle.trans (le_of_lt hlt), hlocal⟩

/-- **The walk ends** at a local minimum, if the lists of links it meets are there. -/
theorem walk_spec (dist : α → D) {links : α → Except ε (List α)} {S : Finset α}
    (hwithin : ∀ v ∈ S, ∃ js, links v = .ok js ∧ ∀ j ∈ js, j ∈ S) (stuck : ε) {fuel : ℕ}
    (hfuel : S.card < fuel) {start : α} (hstart : start ∈ S) :
    ∃ r ∈ S, walk links dist stuck fuel start = .ok r ∧ dist r ≤ dist start ∧
      ∀ js, links r = .ok js → ∀ j ∈ js, dist r ≤ dist j :=
  walk_of_nearer hwithin stuck (lt_of_le_of_lt (Finset.card_filter_le S _) hfuel) hstart

end AwaDB.Lib
