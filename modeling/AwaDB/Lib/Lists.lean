import AwaDB.Lib.Run
import Mathlib.Data.List.Nodup
import Mathlib.Logic.Function.Basic
import Mathlib.Order.MinMax

/-!
# Positions in lists

Facts about the positions at which a list holds an element: association lists built with `zip`,
predicates that hold at one position at most, maps that are assigned entry after entry, runs of
assignments to distinct positions, and loops that read one position after the other; and the least
and the largest value of a list, as loops compute them.
-/

namespace AwaDB.Lib

variable {α β : Type*}

theorem mapM_id_map_some (l : List α) : (l.map some).mapM id = some l := by
  induction l with
  | nil => rfl
  | cons a l ih => simp [ih]

theorem eq_map_some_of_mapM_id {l : List (Option α)} {r : List α} (h : l.mapM id = some r) :
    l = r.map some := by
  induction l generalizing r with
  | nil =>
    cases h
    rfl
  | cons a l ih =>
    rw [List.mapM_cons] at h
    cases a with
    | none => cases h
    | some a =>
      cases hrest : l.mapM id with
      | none =>
        rw [hrest] at h
        cases h
      | some as =>
        rw [hrest] at h
        cases h
        rw [List.map_cons, ← ih hrest]

theorem mapM_eq_map {f : α → Option β} {g : α → β} {l : List α} (h : ∀ x ∈ l, f x = some (g x)) :
    l.mapM f = some (l.map g) := by
  induction l with
  | nil => rfl
  | cons x l ih =>
    rw [List.mapM_cons, h x List.mem_cons_self, ih fun y hy => h y (List.mem_cons_of_mem x hy)]
    rfl

/-- The first elements, read one after the other. -/
theorem mapM_getElem? {l : List α} {num : ℕ} (h : num ≤ l.length) :
    ((List.range num).mapM fun i => l[i]?) = some (l.take num) := by
  induction num with
  | zero => rfl
  | succ num ih =>
    have hget : l[num]? = some l[num] := List.getElem?_eq_getElem h
    rw [List.range_succ, List.mapM_append, ih (Nat.le_of_succ_le h), List.take_add_one, hget]
    simp [hget]

/-- What a loop over the first numbers collects. -/
theorem of_mapM_range {f : ℕ → Option α} {num : ℕ} {l : List α} (h : (List.range num).mapM f = some l) :
    l.length = num ∧ ∀ i < num, f i = l[i]? := by
  induction num generalizing l with
  | zero =>
    cases h
    exact ⟨rfl, fun i hi => absurd hi (Nat.not_lt_zero i)⟩
  | succ num ih =>
    rw [List.range_succ, List.mapM_append] at h
    obtain ⟨l₁, hl₁, h⟩ := Option.bind_eq_some_iff.mp h
    obtain ⟨l₂, hl₂, h⟩ := Option.bind_eq_some_iff.mp h
    cases h
    obtain ⟨hlen, hall⟩ := ih hl₁
    cases hnum : f num with
    | none => simp [hnum] at hl₂
    | some a =>
      have heq : l₂ = [a] := by simpa [hnum, eq_comm] using hl₂
      subst heq
      refine ⟨by rw [List.length_append, hlen, List.length_singleton], fun i hi => ?_⟩
      cases Nat.lt_succ_iff_lt_or_eq.mp hi with
      | inl hlt => rw [hall i hlt, List.getElem?_append_left (by omega)]
      | inr heq => rw [heq, hnum, ← hlen, List.getElem?_concat_length]

/-- The first place behind a list is filled. -/
theorem rightpad_set {l : List α} {n : ℕ} (h : l.length < n) (a x : α) :
    (l.rightpad n a).set l.length x = (l ++ [x]).rightpad n a := by
  obtain ⟨k, hk⟩ := Nat.exists_eq_add_of_lt h
  have hrest : n - l.length = k + 1 := by omega
  have hrest' : n - (l ++ [x]).length = k := by rw [List.length_append, List.length_singleton]; omega
  rw [List.rightpad, List.rightpad, List.set_append_right _ _ (Nat.le_refl _), Nat.sub_self, hrest,
    hrest', List.replicate_succ, List.set_cons_zero, List.append_assoc]
  rfl

/-- Where the pieces have one length, each of them is found by its place. -/
theorem drop_flatMap {g : α → List β} {w : ℕ} (h : ∀ a, (g a).length = w) (l : List α)
    (i : ℕ) : (l.flatMap g).drop (i * w) = (l.drop i).flatMap g := by
  induction i generalizing l with
  | zero => rw [Nat.zero_mul, List.drop_zero, List.drop_zero]
  | succ i ih =>
    cases l with
    | nil => simp
    | cons a l =>
      have hat : (i + 1) * w = (g a).length + i * w := by rw [h, Nat.succ_mul, Nat.add_comm]
      rw [List.flatMap_cons, List.drop_succ_cons, hat, ← List.drop_drop, List.drop_left, ih]

/-- A list that is filtered is empty exactly if nothing in it passes. -/
theorem isEmpty_filterMap {f : α → Option β} {passes : α → Bool} (h : ∀ a, (f a).isSome = passes a)
    (l : List α) : (l.filterMap f).isEmpty = !l.any passes := by
  rw [Bool.eq_iff_iff, List.isEmpty_iff, List.filterMap_eq_nil_iff, Bool.not_eq_true',
    List.any_eq_false]
  refine forall₂_congr fun a _ => ?_
  rw [← h, Option.not_isSome_iff_eq_none]

/-- A traversal succeeds if it does at each element. -/
theorem mapM_isSome_iff {f : α → Option β} {l : List α} :
    (l.mapM f).isSome ↔ ∀ a ∈ l, (f a).isSome := by
  induction l with
  | nil => simp
  | cons a l ih =>
    rw [List.mapM_cons, List.forall_mem_cons, ← ih]
    cases f a <;> cases l.mapM f <;> simp

/-- The results of a traversal are those of the elements. -/
theorem mem_of_mapM {f : α → Option β} {l : List α} {r : List β} (h : l.mapM f = some r) {b : β} :
    b ∈ r ↔ ∃ a ∈ l, f a = some b := by
  induction l generalizing r with
  | nil =>
    cases h
    simp
  | cons a l ih =>
    rw [List.mapM_cons] at h
    cases hfirst : f a with
    | none =>
      rw [hfirst] at h
      cases h
    | some c =>
      cases hrest : l.mapM f with
      | none =>
        rw [hfirst, hrest] at h
        cases h
      | some cs =>
        rw [hfirst, hrest] at h
        cases h
        rw [List.mem_cons, ih hrest, List.exists_mem_cons_iff, hfirst, Option.some.injEq, eq_comm]

/-- An entry of an updated function is the new one or an old one. -/
theorem of_update_eq [DecidableEq α] {f : α → β} {a a' : α} {b b' : β}
    (h : Function.update f a b a' = b') : a' = a ∧ b = b' ∨ a' ≠ a ∧ f a' = b' := by
  by_cases heq : a' = a
  · rw [heq, Function.update_self] at h
    exact .inl ⟨heq, h⟩
  · rw [Function.update_of_ne heq] at h
    exact .inr ⟨heq, h⟩

/-- What a map has after one entry was removed. -/
theorem of_update_none [DecidableEq α] {m : α → Option β} {a a' : α} {b : β}
    (h : Function.update m a none a' = some b) : m a' = some b := by
  obtain ⟨-, hno⟩ | ⟨-, hold⟩ := of_update_eq h
  · cases hno
  · exact hold

/-- What stands at a position after one position was set. -/
theorem set_getElem?_eq_some {l : List α} {i j : ℕ} {x y : α} (h : (l.set i x)[j]? = some y) :
    j = i ∧ y = x ∨ j ≠ i ∧ l[j]? = some y := by
  by_cases hji : j = i
  · subst hji
    rw [List.getElem?_set] at h
    split at h
    · split at h
      · exact .inl ⟨rfl, (Option.some.inj h).symm⟩
      · cases h
    · exact absurd rfl ‹¬ j = j›
  · rw [List.getElem?_set_ne (Ne.symm hji)] at h
    exact .inr ⟨hji, h⟩

section Lookup

variable [DecidableEq α]

/-- What `lookup` finds in `keys.zip vals` stands at one position of both lists. -/
theorem lookup_zip_eq_some {keys : List α} {vals : List β} {k : α} {v : β}
    (h : (keys.zip vals).lookup k = some v) : ∃ i : ℕ, keys[i]? = some k ∧ vals[i]? = some v := by
  induction keys generalizing vals with
  | nil => simp at h
  | cons a as ih =>
    cases vals with
    | nil => simp at h
    | cons b bs =>
      rw [List.zip_cons_cons, List.lookup_cons] at h
      by_cases hk : k = a
      · subst hk
        simp only [beq_self_eq_true] at h
        exact ⟨0, rfl, h⟩
      · rw [beq_eq_false_iff_ne.mpr hk] at h
        obtain ⟨i, hi, hv⟩ := ih h
        exact ⟨i + 1, hi, hv⟩

/-- `lookup` finds nothing in `keys.zip vals` exactly when the key is not among the keys. -/
theorem lookup_zip_eq_none {keys : List α} {vals : List β} (hlen : vals.length = keys.length)
    (k : α) : (keys.zip vals).lookup k = none ↔ k ∉ keys := by
  rw [List.lookup_eq_none_iff]
  constructor
  · intro h hmem
    obtain ⟨i, hi, hk⟩ := List.getElem_of_mem hmem
    have hv : i < vals.length := by omega
    have hz : (k, vals[i]) ∈ keys.zip vals := by
      apply List.mem_of_getElem? (i := i)
      rw [List.getElem?_zip_eq_some]
      exact ⟨by rw [List.getElem?_eq_getElem hi, hk], List.getElem?_eq_getElem hv⟩
    simpa using h _ hz
  · intro h p hp
    have hne : k ≠ p.1 := fun heq => h (heq ▸ (List.of_mem_zip hp).1)
    simp [hne]

end Lookup

/-- In a list without repetitions an element stands at one position only. -/
theorem index_unique_of_nodup {l : List α} (h : l.Nodup) {i j : ℕ} {a : α}
    (hi : l[i]? = some a) (hj : l[j]? = some a) : i = j := by
  have hlt : i < l.length := (List.getElem?_eq_some_iff.mp hi).1
  exact (List.getElem?_inj hlt h).mp (hi.trans hj.symm)

/-- `q` holds at one position of `l` at most. -/
def AtMostOne (q : α → Prop) (l : List α) : Prop :=
  ∀ (i j : ℕ) (a b : α), l[i]? = some a → l[j]? = some b → q a → q b → i = j

theorem AtMostOne.tail {q : α → Prop} {a : α} {l : List α} (h : AtMostOne q (a :: l)) :
    AtMostOne q l := by
  intro i j x y hi hj hx hy
  have := h (i + 1) (j + 1) x y hi hj hx hy
  omega

/-- One more element, with `q` only if no other has it. -/
theorem AtMostOne.concat {q : α → Prop} {l : List α} {a : α} (h : AtMostOne q l)
    (hnew : q a → ∀ b ∈ l, ¬ q b) : AtMostOne q (l ++ [a]) := by
  intro i j x y hi hj hx hy
  rw [List.getElem?_append] at hi hj
  have hlast : ∀ {k : ℕ} {b : α}, ([a] : List α)[k]? = some b → k = 0 ∧ b = a := by
    intro k b hk
    cases k with
    | zero => exact ⟨rfl, (Option.some.inj hk).symm⟩
    | succ k => cases hk
  split at hi
  · split at hj
    · exact h i j x y hi hj hx hy
    · obtain ⟨-, rfl⟩ := hlast hj
      exact absurd hx (hnew hy x (List.mem_of_getElem? hi))
  · obtain ⟨hi', rfl⟩ := hlast hi
    split at hj
    · exact absurd hy (hnew hx y (List.mem_of_getElem? hj))
    · obtain ⟨hj', -⟩ := hlast hj
      omega

theorem AtMostOne.append_left {q : α → Prop} {l l' : List α} (h : AtMostOne q (l ++ l')) :
    AtMostOne q l := by
  intro i j x y hi hj hx hy
  have hi' := (List.getElem?_eq_some_iff.mp hi).1
  have hj' := (List.getElem?_eq_some_iff.mp hj).1
  exact h i j x y (by rw [List.getElem?_append_left hi', hi])
    (by rw [List.getElem?_append_left hj', hj]) hx hy

/-- Dropping elements keeps what is unique unique. -/
theorem AtMostOne.filter {q : α → Prop} {l : List α} (p : α → Bool) (h : AtMostOne q l) :
    AtMostOne q (l.filter p) := by
  induction l with
  | nil => exact h
  | cons a l ih =>
    by_cases hp : p a = true
    · rw [List.filter_cons_of_pos hp]
      have hfresh : q a → ∀ (j : ℕ) (b : α), (l.filter p)[j]? = some b → ¬ q b := by
        intro ha j b hj hb
        obtain ⟨k, hk, hkb⟩ := List.getElem_of_mem (List.mem_of_mem_filter (List.mem_of_getElem? hj))
        have hlater : (a :: l)[k + 1]? = some b := by
          rw [List.getElem?_cons_succ, List.getElem?_eq_getElem hk, hkb]
        have h0 := h 0 (k + 1) a b rfl hlater ha hb
        omega
      intro i j x y hi hj hx hy
      cases i with
      | zero =>
        cases j with
        | zero => rfl
        | succ j =>
          cases hi
          exact absurd hy (hfresh hx j y hj)
      | succ i =>
        cases j with
        | zero =>
          cases hj
          exact absurd hx (hfresh hy i x hi)
        | succ j => rw [ih h.tail i j x y hi hj hx hy]
    · rw [List.filter_cons_of_neg hp]
      exact ih h.tail

section Assign

variable [DecidableEq α]

/-- A map after some entries were assigned, one after the other. -/
def assign (l : List (α × β)) (f : α → Option β) : α → Option β :=
  l.foldl (fun f r => Function.update f r.1 (some r.2)) f

theorem assign_of_not_mem {l : List (α × β)} {k : α} (h : ∀ v, (k, v) ∉ l) (f : α → Option β) :
    assign l f k = f k := by
  induction l generalizing f with
  | nil => rfl
  | cons r l ih =>
    have hne : k ≠ r.1 := fun heq => h r.2 (by rw [heq]; exact List.mem_cons_self)
    show assign l (Function.update f r.1 (some r.2)) k = f k
    rw [ih (fun v hv => h v (List.mem_cons_of_mem r hv)), Function.update_of_ne hne]

theorem assign_of_mem {l : List (α × β)} {k : α} {v : β} (hmem : (k, v) ∈ l)
    (hone : ∀ v', (k, v') ∈ l → v' = v) (f : α → Option β) : assign l f k = some v := by
  induction l generalizing f with
  | nil => exact absurd hmem List.not_mem_nil
  | cons r l ih =>
    show assign l (Function.update f r.1 (some r.2)) k = some v
    by_cases hlater : ∃ v', (k, v') ∈ l
    · obtain ⟨v', hv'⟩ := hlater
      have heq := hone v' (List.mem_cons_of_mem r hv')
      subst heq
      exact ih hv' (fun w hw => hone w (List.mem_cons_of_mem r hw)) _
    · cases List.mem_cons.mp hmem with
      | inl heq =>
        subst heq
        rw [assign_of_not_mem fun v' hv' => hlater ⟨v', hv'⟩, Function.update_self]
      | inr hrest => exact absurd ⟨v, hrest⟩ hlater

/-- A value in the map was assigned, or was there before. -/
theorem mem_of_assign {l : List (α × β)} {f : α → Option β} {k : α} {v : β}
    (h : assign l f k = some v) : (k, v) ∈ l ∨ f k = some v := by
  induction l generalizing f with
  | nil => exact .inr h
  | cons r l ih =>
    have hrest : assign l (Function.update f r.1 (some r.2)) k = some v := h
    cases ih hrest with
    | inl hmem => exact .inl (List.mem_cons_of_mem r hmem)
    | inr hupdate =>
      obtain ⟨rfl, hvalue⟩ | ⟨-, hold⟩ := of_update_eq hupdate
      · cases hvalue
        exact .inl List.mem_cons_self
      · exact .inr hold

/-- Entries of which no two are for one key are a map. -/
theorem assign_eq_some_iff {l : List (α × β)} (hone : ∀ k v v', (k, v) ∈ l → (k, v') ∈ l → v = v')
    (k : α) (v : β) : assign l (fun _ => none) k = some v ↔ (k, v) ∈ l := by
  constructor
  · intro h
    by_cases hmem : ∃ v', (k, v') ∈ l
    · obtain ⟨v', hv'⟩ := hmem
      rw [assign_of_mem hv' (fun w hw => hone k w v' hw hv')] at h
      cases h
      exact hv'
    · rw [assign_of_not_mem fun v' hv' => hmem ⟨v', hv'⟩] at h
      cases h
  · exact fun hmem => assign_of_mem hmem (fun w hw => hone k w v hw hmem) _

end Assign

/-- **Assignments to distinct positions.** A run of steps that each set one position, none of them
twice, leaves each of them with its value and the others as they were. -/
theorem runOps_assign {ι : Type*} {step : ι → List α → Option (List α)} {idx : ι → ℕ} {val : ι → α}
    (Shape : List α → Prop) {xs : List ι}
    (hstep : ∀ x ∈ xs, ∀ l, Shape l →
      step x l = some (l.set (idx x) (val x)) ∧ Shape (l.set (idx x) (val x)) ∧ idx x < l.length)
    (hnodup : (xs.map idx).Nodup) {l : List α} (hl : Shape l) :
    ∃ l', runOps step xs l = some l' ∧ Shape l' ∧ (∀ x ∈ xs, l'[idx x]? = some (val x)) ∧
      ∀ i, i ∉ xs.map idx → l'[i]? = l[i]? := by
  induction xs generalizing l with
  | nil => exact ⟨l, rfl, hl, by simp, by simp⟩
  | cons x xs ih =>
    obtain ⟨hx, hshape, hlt⟩ := hstep x List.mem_cons_self l hl
    obtain ⟨hfresh, hrest⟩ := List.nodup_cons.mp hnodup
    obtain ⟨l', hrun, hl', hvals, hother⟩ :=
      ih (fun y hy => hstep y (List.mem_cons_of_mem x hy)) hrest hshape
    refine ⟨l', by rw [runOps_cons, hx, Option.bind_some, hrun], hl', fun y hy => ?_, fun i hi => ?_⟩
    · cases List.mem_cons.mp hy with
      | inl heq => rw [heq, hother _ hfresh, List.getElem?_set_self hlt]
      | inr hmem => exact hvals y hmem
    · rw [List.map_cons, List.mem_cons, not_or] at hi
      rw [hother i hi.2, List.getElem?_set_ne (Ne.symm hi.1)]

section Bounds

variable {l : List α} {f : α → β} {b c : β}

/-- A loop that keeps one of two values ends with its start or with the value of an element. -/
theorem foldl_choose {op : β → β → β} (hop : ∀ a b, op a b = a ∨ op a b = b) :
    l.foldl (fun m x => op m (f x)) b = b ∨ ∃ x ∈ l, l.foldl (fun m x => op m (f x)) b = f x := by
  induction l generalizing b with
  | nil => exact .inl rfl
  | cons x l ih =>
    rw [List.foldl_cons]
    rcases ih (b := op b (f x)) with hstart | ⟨y, hy, heq⟩
    · rcases hop b (f x) with hb | hx
      · exact .inl (hstart.trans hb)
      · exact .inr ⟨x, List.mem_cons_self, hstart.trans hx⟩
    · exact .inr ⟨y, List.mem_cons_of_mem x hy, heq⟩

variable [LinearOrder β]

/-- `for (x : l) m = max(m, f(x))`. -/
theorem foldl_max_le_iff :
    l.foldl (fun m x => max m (f x)) b ≤ c ↔ b ≤ c ∧ ∀ x ∈ l, f x ≤ c := by
  induction l generalizing b with
  | nil => simp
  | cons x l ih =>
    rw [List.foldl_cons, ih, max_le_iff, List.forall_mem_cons]
    exact and_assoc

/-- `for (x : l) m = min(m, f(x))`. -/
theorem le_foldl_min_iff :
    c ≤ l.foldl (fun m x => min m (f x)) b ↔ c ≤ b ∧ ∀ x ∈ l, c ≤ f x := by
  induction l generalizing b with
  | nil => simp
  | cons x l ih =>
    rw [List.foldl_cons, ih, le_min_iff, List.forall_mem_cons]
    exact and_assoc

theorem foldl_min_le_iff :
    l.foldl (fun m x => min m (f x)) b ≤ c ↔ b ≤ c ∨ ∃ x ∈ l, f x ≤ c := by
  induction l generalizing b with
  | nil => simp
  | cons x l ih =>
    rw [List.foldl_cons, ih, min_le_iff, List.exists_mem_cons_iff]
    exact or_assoc

theorem le_foldl_max_iff :
    c ≤ l.foldl (fun m x => max m (f x)) b ↔ c ≤ b ∨ ∃ x ∈ l, c ≤ f x := by
  induction l generalizing b with
  | nil => simp
  | cons x l ih =>
    rw [List.foldl_cons, ih, le_max_iff, List.exists_mem_cons_iff]
    exact or_assoc

theorem foldl_max_choose : l.foldl (fun m x => max m (f x)) b = b ∨
    ∃ x ∈ l, l.foldl (fun m x => max m (f x)) b = f x :=
  foldl_choose max_choice

theorem foldl_min_choose : l.foldl (fun m x => min m (f x)) b = b ∨
    ∃ x ∈ l, l.foldl (fun m x => min m (f x)) b = f x :=
  foldl_choose min_choice

end Bounds

section Forall₂

variable {R S : α → β → Prop} {l : List α} {l' : List β}

theorem exists_forall₂ (h : ∀ a ∈ l, ∃ b, R a b) : ∃ l', List.Forall₂ R l l' := by
  induction l with
  | nil => exact ⟨[], .nil⟩
  | cons a l ih =>
    obtain ⟨hfirst, hrest⟩ := List.forall_mem_cons.mp h
    obtain ⟨b, hb⟩ := hfirst
    obtain ⟨l', hl'⟩ := ih hrest
    exact ⟨b :: l', .cons hb hl'⟩

/-- Two relations of the same lists hold of the same elements. -/
theorem exists_of_forall₂ (hR : List.Forall₂ R l l') (hS : List.Forall₂ S l l') {a : α} (ha : a ∈ l) :
    ∃ b ∈ l', R a b ∧ S a b := by
  induction hR with
  | nil => exact absurd ha List.not_mem_nil
  | cons hb _ ih =>
    obtain ⟨hb', hS⟩ := List.forall₂_cons.mp hS
    cases List.mem_cons.mp ha with
    | inl heq => exact ⟨_, List.mem_cons_self, heq ▸ hb, heq ▸ hb'⟩
    | inr hmem =>
      obtain ⟨b, hmem, h⟩ := ih hS hmem
      exact ⟨b, List.mem_cons_of_mem _ hmem, h⟩

end Forall₂

section Pieces

variable [DecidableEq α] {a b : α} {l piece : List α}

/-- The pieces have no separator. -/
theorem not_mem_of_splitOn (h : piece ∈ l.splitOn a) : a ∉ piece := by
  induction l generalizing piece with
  | nil =>
    rw [List.splitOn_nil, List.mem_singleton] at h
    exact h ▸ List.not_mem_nil
  | cons x l ih =>
    rw [List.splitOn_cons_eq_if_modifyHead] at h
    split at h
    · cases List.mem_cons.mp h with
      | inl hnil => exact hnil ▸ List.not_mem_nil
      | inr hrest => exact ih hrest
    · rename_i hne
      obtain ⟨first, rest, hsplit⟩ := List.exists_cons_of_ne_nil (List.splitOn_ne_nil a l)
      rw [hsplit, List.modifyHead_cons] at h
      cases List.mem_cons.mp h with
      | inl hfirst =>
        rw [hfirst, List.mem_cons, not_or]
        exact ⟨fun heq => hne (beq_iff_eq.mpr heq.symm), ih (hsplit ▸ List.mem_cons_self)⟩
      | inr hrest => exact ih (hsplit ▸ List.mem_cons_of_mem first hrest)

/-- What is no separator is in a piece. -/
theorem mem_iff_splitOn (hb : b ≠ a) : b ∈ l ↔ ∃ piece ∈ l.splitOn a, b ∈ piece := by
  induction l with
  | nil => simp
  | cons x l ih =>
    rw [List.splitOn_cons_eq_if_modifyHead, List.mem_cons, ih]
    split
    · rename_i heq
      rw [beq_iff_eq.mp heq, List.exists_mem_cons_iff, or_iff_right hb,
        or_iff_right List.not_mem_nil]
    · obtain ⟨first, rest, hsplit⟩ := List.exists_cons_of_ne_nil (List.splitOn_ne_nil a l)
      rw [hsplit, List.modifyHead_cons, List.exists_mem_cons_iff, List.exists_mem_cons_iff,
        List.mem_cons, or_assoc]

end Pieces

end AwaDB.Lib
