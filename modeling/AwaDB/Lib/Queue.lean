import Mathlib.Data.List.Perm.Basic
import Mathlib.Order.MinMax

/-!
# Priority queues

A priority queue over `α` orders its elements by a key. Its contents are kept as a list, and what it
gives up is left open among elements with one key.

* `PriorityQueue`: `pop` takes out an element with the greatest key;
* `PriorityQueue.drained`: all elements in the order in which they are taken out;
* `PriorityQueue.shrunk`: the queue after elements were taken out until `k` of them are left;
* `PriorityQueue.first`: the queue that takes the first of the greatest elements.
-/

namespace AwaDB.Lib

variable {α K : Type*} [LinearOrder K] {key : α → K}

/-- A priority queue whose `top` is an element with the greatest key. -/
structure PriorityQueue (key : α → K) where
  pop : List α → Option (α × List α)
  pop_nil : pop [] = none
  pop_cons : ∀ a l, ∃ top rest, pop (a :: l) = some (top, rest) ∧ (a :: l).Perm (top :: rest) ∧
    ∀ b ∈ rest, key b ≤ key top

namespace PriorityQueue

variable (q : PriorityQueue key) {l rest : List α} {top : α}

theorem pop_eq_none : q.pop l = none ↔ l = [] := by
  cases l with
  | nil => exact iff_of_true q.pop_nil rfl
  | cons a l =>
    obtain ⟨top, rest, hpop, -⟩ := q.pop_cons a l
    rw [hpop]
    exact iff_of_false (Option.some_ne_none _) (List.cons_ne_nil a l)

variable {q}

theorem perm_of_pop (h : q.pop l = some (top, rest)) : l.Perm (top :: rest) := by
  cases l with
  | nil => rw [q.pop_nil] at h; cases h
  | cons a l =>
    obtain ⟨top', rest', hpop, hperm, -⟩ := q.pop_cons a l
    rw [hpop] at h
    cases h
    exact hperm

theorem le_of_pop (h : q.pop l = some (top, rest)) : ∀ b ∈ l, key b ≤ key top := by
  cases l with
  | nil => rw [q.pop_nil] at h; cases h
  | cons a l =>
    obtain ⟨top', rest', hpop, hperm, hmax⟩ := q.pop_cons a l
    rw [hpop] at h
    cases h
    intro b hb
    cases List.mem_cons.mp (hperm.mem_iff.mp hb) with
    | inl heq => exact heq ▸ le_refl _
    | inr hrest => exact hmax b hrest

theorem length_of_pop (h : q.pop l = some (top, rest)) : l.length = rest.length + 1 := by
  rw [(perm_of_pop h).length_eq, List.length_cons]

variable (q)

/-! ### Taking everything out -/

/-- At most `n` elements, in the order in which they are taken out. -/
def drain (q : PriorityQueue key) : ℕ → List α → List α
  | 0, _ => []
  | n + 1, l =>
    match q.pop l with
    | none => []
    | some (top, rest) => top :: drain q n rest

/-- `while (!queue.empty()) { …queue.top()…; queue.pop(); }` -/
def drained (l : List α) : List α :=
  q.drain l.length l

theorem drain_spec {n : ℕ} (h : l.length ≤ n) :
    (q.drain n l).Perm l ∧ (q.drain n l).Pairwise fun a b => key b ≤ key a := by
  induction n generalizing l with
  | zero =>
    rw [List.length_eq_zero_iff.mp (Nat.le_zero.mp h)]
    exact ⟨.nil, .nil⟩
  | succ n ih =>
    rw [drain]
    cases hpop : q.pop l with
    | none =>
      rw [q.pop_eq_none.mp hpop]
      exact ⟨.nil, .nil⟩
    | some r =>
      obtain ⟨top, rest⟩ := r
      have hperm := perm_of_pop hpop
      obtain ⟨hrest, hsorted⟩ := ih (l := rest) (by have := length_of_pop hpop; omega)
      refine ⟨(hrest.cons top).trans hperm.symm, List.pairwise_cons.mpr ⟨fun b hb => ?_, hsorted⟩⟩
      exact le_of_pop hpop b (hperm.mem_iff.mpr (List.mem_cons_of_mem top (hrest.mem_iff.mp hb)))

theorem drained_perm (l : List α) : (q.drained l).Perm l :=
  (q.drain_spec (Nat.le_refl l.length)).1

/-- The greatest keys come first. -/
theorem drained_sorted (l : List α) : (q.drained l).Pairwise fun a b => key b ≤ key a :=
  (q.drain_spec (Nat.le_refl l.length)).2

theorem mem_drained {a : α} : a ∈ q.drained l ↔ a ∈ l :=
  (q.drained_perm l).mem_iff

/-- The last element taken out has the least key. -/
theorem le_of_getLast? {a : α} (h : (q.drained l).getLast? = some a) : ∀ b ∈ l, key a ≤ key b := by
  intro b hb
  obtain ⟨front, hfront⟩ := List.getLast?_eq_some_iff.mp h
  have hsorted := q.drained_sorted l
  rw [hfront, List.pairwise_append] at hsorted
  have hmem := q.mem_drained.mpr hb
  rw [hfront] at hmem
  cases List.mem_append.mp hmem with
  | inl hin => exact hsorted.2.2 b hin a List.mem_cons_self
  | inr heq => exact (List.mem_singleton.mp heq) ▸ le_refl _

/-! ### Taking out the greatest -/

/-- At most `n` elements are taken out, while there are more than `k`. -/
def shrink (q : PriorityQueue key) (k : ℕ) : ℕ → List α → List α
  | 0, l => l
  | n + 1, l =>
    if k < l.length then
      match q.pop l with
      | none => l
      | some (_, rest) => shrink q k n rest
    else l

/-- `while (queue.size() > k) queue.pop();` -/
def shrunk (k : ℕ) (l : List α) : List α :=
  q.shrink k l.length l

theorem shrink_spec {k n : ℕ} (h : l.length ≤ n + k) :
    (q.shrink k n l).length = min k l.length ∧
      ∃ dropped, (q.shrink k n l ++ dropped).Perm l ∧
        ∀ a ∈ q.shrink k n l, ∀ b ∈ dropped, key a ≤ key b := by
  induction n generalizing l with
  | zero =>
    rw [shrink]
    refine ⟨(Nat.min_eq_right (by omega)).symm, [], ?_, fun a _ b hb => absurd hb List.not_mem_nil⟩
    rw [List.append_nil]
  | succ n ih =>
    rw [shrink]
    split
    · rename_i hlt
      cases hpop : q.pop l with
      | none =>
        rw [q.pop_eq_none.mp hpop] at hlt
        exact absurd hlt (Nat.not_lt_zero k)
      | some r =>
        obtain ⟨top, rest⟩ := r
        have hlen := length_of_pop hpop
        obtain ⟨hkept, dropped, hperm, hle⟩ := ih (l := rest) (by omega)
        refine ⟨by rw [hkept]; omega, top :: dropped, ?_, fun a ha b hb => ?_⟩
        · exact (List.perm_middle.trans (hperm.cons top)).trans (perm_of_pop hpop).symm
        · have hrest : a ∈ rest := hperm.mem_iff.mp (List.mem_append_left dropped ha)
          cases List.mem_cons.mp hb with
          | inl heq =>
            rw [heq]
            exact le_of_pop hpop a ((perm_of_pop hpop).mem_iff.mpr (List.mem_cons_of_mem top hrest))
          | inr hmem => exact hle a ha b hmem
    · rename_i hle
      refine ⟨(Nat.min_eq_right (by omega)).symm, [], ?_, fun a _ b hb => absurd hb List.not_mem_nil⟩
      rw [List.append_nil]

theorem length_shrunk (k : ℕ) (l : List α) : (q.shrunk k l).length = min k l.length :=
  (q.shrink_spec (Nat.le_add_right l.length k)).1

/-- What is left is a part of the queue that nothing taken out has a smaller key than. -/
theorem shrunk_spec (k : ℕ) (l : List α) :
    ∃ dropped, (q.shrunk k l ++ dropped).Perm l ∧ ∀ a ∈ q.shrunk k l, ∀ b ∈ dropped, key a ≤ key b :=
  (q.shrink_spec (Nat.le_add_right l.length k)).2

theorem shrunk_of_length_le {k : ℕ} (h : l.length ≤ k) : (q.shrunk k l).Perm l := by
  obtain ⟨dropped, hperm, -⟩ := q.shrunk_spec k l
  have hlen := hperm.length_eq
  rw [List.length_append, q.length_shrunk, Nat.min_eq_right h] at hlen
  rw [List.length_eq_zero_iff.mp (Nat.add_eq_left.mp hlen), List.append_nil] at hperm
  exact hperm

end PriorityQueue

/-! ### A queue -/

/-- The first element with the greatest key, and the others. -/
def extract (key : α → K) : α → List α → α × List α
  | a, [] => (a, [])
  | a, b :: l =>
    if key a < key b then ((extract key b l).1, a :: (extract key b l).2)
    else ((extract key a l).1, b :: (extract key a l).2)

theorem extract_spec (a : α) (l : List α) :
    (a :: l).Perm ((extract key a l).1 :: (extract key a l).2) ∧ key a ≤ key (extract key a l).1 ∧
      ∀ b ∈ (extract key a l).2, key b ≤ key (extract key a l).1 := by
  induction l generalizing a with
  | nil => exact ⟨.refl _, le_refl _, fun b hb => absurd hb List.not_mem_nil⟩
  | cons b l ih =>
    rw [extract]
    split
    · rename_i hlt
      obtain ⟨hperm, hle, hmax⟩ := ih b
      have hle' : key a ≤ key (extract key b l).1 := le_trans (le_of_lt hlt) hle
      refine ⟨(hperm.cons a).trans (.swap _ _ _), hle', ?_⟩
      exact List.forall_mem_cons.mpr ⟨hle', hmax⟩
    · rename_i hlt
      obtain ⟨hperm, hle, hmax⟩ := ih a
      refine ⟨(List.Perm.swap b a l).trans ((hperm.cons b).trans (.swap _ _ _)), hle, ?_⟩
      exact List.forall_mem_cons.mpr ⟨le_trans (not_lt.mp hlt) hle, hmax⟩

/-- The queue that gives up the first of the greatest elements. -/
def PriorityQueue.first (key : α → K) : PriorityQueue key where
  pop
    | [] => none
    | a :: l => some (extract key a l)
  pop_nil := rfl
  pop_cons a l := ⟨_, _, rfl, (extract_spec a l).1, (extract_spec a l).2.2⟩

end AwaDB.Lib
