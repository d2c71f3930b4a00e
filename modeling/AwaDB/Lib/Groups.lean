import AwaDB.Lib.Memory
import Mathlib.Tactic.Common

/-!
# Lists in groups of one length

An array that is kept in groups of `n` elements: element `i` is element `i % n` of group `i / n`. Reading,
writing and cutting the groups is the same on the list that they make.
-/

namespace AwaDB.Lib

variable {α : Type*} {groups : List (List α)} {n i : ℕ}

/-- All groups have `n` elements. -/
def Uniform (n : ℕ) (groups : List (List α)) : Prop := ∀ group ∈ groups, group.length = n

theorem uniform_nil : Uniform n ([] : List (List α)) := fun _ h => absurd h List.not_mem_nil

theorem Uniform.tail {group : List α} (h : Uniform n (group :: groups)) : Uniform n groups :=
  fun g hg => h g (List.mem_cons_of_mem group hg)

theorem Uniform.head {group : List α} (h : Uniform n (group :: groups)) : group.length = n :=
  h group List.mem_cons_self

theorem Uniform.append {groups' : List (List α)} (h : Uniform n groups) (h' : Uniform n groups') :
    Uniform n (groups ++ groups') := by
  intro group hmem
  cases List.mem_append.mp hmem with
  | inl hleft => exact h group hleft
  | inr hright => exact h' group hright

theorem Uniform.take (h : Uniform n groups) (k : ℕ) : Uniform n (groups.take k) :=
  fun group hmem => h group (List.mem_of_mem_take hmem)

theorem uniform_replicate {group : List α} (h : group.length = n) (k : ℕ) :
    Uniform n (List.replicate k group) := by
  intro g hg
  rw [List.eq_of_mem_replicate hg]
  exact h

/-- A change that keeps the length of one group. -/
theorem Uniform.modify (h : Uniform n groups) (k : ℕ) {f : List α → List α}
    (hf : ∀ group, group.length = n → (f group).length = n) : Uniform n (groups.modify k f) := by
  induction groups generalizing k with
  | nil =>
    cases k <;> exact h
  | cons group groups ih =>
    cases k with
    | zero =>
      intro g hg
      cases List.mem_cons.mp hg with
      | inl heq => rw [heq]; exact hf group h.head
      | inr htail => exact h.tail g htail
    | succ k =>
      intro g hg
      cases List.mem_cons.mp hg with
      | inl heq => rw [heq]; exact h.head
      | inr htail => exact ih h.tail k g htail

theorem Uniform.length_flatten (h : Uniform n groups) : groups.flatten.length = groups.length * n := by
  induction groups with
  | nil => simp
  | cons group groups ih =>
    rw [List.flatten_cons, List.length_append, ih h.tail, h.head, List.length_cons, Nat.succ_mul,
      Nat.add_comm]

/-- Where element `i` is when it is not in the first group. -/
theorem div_mod_of_le (hpos : 0 < n) (hle : n ≤ i) : i / n = (i - n) / n + 1 ∧ i % n = (i - n) % n :=
  ⟨by rw [Nat.div_eq_sub_div hpos hle], Nat.mod_eq_sub_mod hle⟩

/-- **Reading** element `i`. -/
theorem Uniform.getElem?_flatten (hpos : 0 < n) (h : Uniform n groups) (i : ℕ) :
    groups.flatten[i]? = (groups[i / n]?).bind fun group => group[i % n]? := by
  induction groups generalizing i with
  | nil => simp
  | cons group groups ih =>
    rw [List.flatten_cons]
    by_cases hlt : i < n
    · rw [List.getElem?_append_left (by rw [h.head]; exact hlt), Nat.div_eq_of_lt hlt,
        Nat.mod_eq_of_lt hlt]
      rfl
    · have hle : n ≤ i := Nat.le_of_not_lt hlt
      rw [List.getElem?_append_right (by rw [h.head]; exact hle), h.head, ih h.tail,
        (div_mod_of_le hpos hle).1, (div_mod_of_le hpos hle).2]
      rfl

/-- **Writing** element `i`. -/
theorem Uniform.flatten_set (hpos : 0 < n) (h : Uniform n groups) (i : ℕ) (a : α) :
    (groups.modify (i / n) fun group => group.set (i % n) a).flatten = groups.flatten.set i a := by
  induction groups generalizing i with
  | nil => simp
  | cons group groups ih =>
    by_cases hlt : i < n
    · rw [Nat.div_eq_of_lt hlt, Nat.mod_eq_of_lt hlt, List.modify_zero_cons, List.flatten_cons,
        List.flatten_cons, List.set_append_left i a (by rw [h.head]; exact hlt)]
    · have hle : n ≤ i := Nat.le_of_not_lt hlt
      rw [(div_mod_of_le hpos hle).1, (div_mod_of_le hpos hle).2, List.modify_succ_cons,
        List.flatten_cons, List.flatten_cons, ih h.tail,
        List.set_append_right i a (by rw [h.head]; exact hle), h.head]

/-- Whole groups. -/
theorem Uniform.flatten_take (h : Uniform n groups) (k : ℕ) :
    (groups.take k).flatten = groups.flatten.take (k * n) := by
  induction groups generalizing k with
  | nil => simp
  | cons group groups ih =>
    cases k with
    | zero => simp
    | succ k =>
      have hlength : (k + 1) * n = group.length + k * n := by rw [h.head, Nat.succ_mul, Nat.add_comm]
      rw [List.take_succ_cons, List.flatten_cons, List.flatten_cons, ih h.tail, hlength,
        List.take_length_add_append]

/-- **Cutting** at element `i`, which is in a group; the rest of the group is overwritten. -/
theorem Uniform.flatten_cut (hpos : 0 < n) (h : Uniform n groups) (fill : List α) (i : ℕ)
    (hi : i < groups.length * n) :
    ((groups.take (i / n + 1)).modify (i / n) fun group => group.take (i % n) ++ fill).flatten =
      groups.flatten.take i ++ fill := by
  induction groups generalizing i with
  | nil => simp at hi
  | cons group groups ih =>
    by_cases hlt : i < n
    · rw [Nat.div_eq_of_lt hlt, Nat.mod_eq_of_lt hlt]
      simp [List.take_append_of_le_length (Nat.le_of_lt (h.head ▸ hlt : i < group.length))]
    · have hle : n ≤ i := Nat.le_of_not_lt hlt
      have hi' : i - n < groups.length * n := by
        rw [List.length_cons, Nat.succ_mul] at hi
        omega
      have htake : (group ++ groups.flatten).take i = group ++ groups.flatten.take (i - n) := by
        rw [List.take_append, List.take_of_length_le (by rw [h.head]; exact hle), h.head]
      rw [(div_mod_of_le hpos hle).1, (div_mod_of_le hpos hle).2, List.take_succ_cons,
        List.modify_succ_cons, List.flatten_cons, List.flatten_cons, ih h.tail _ hi', htake,
        List.append_assoc]

theorem Uniform.flatten_drop (h : Uniform n groups) (k : ℕ) :
    (groups.drop k).flatten = groups.flatten.drop (k * n) := by
  induction groups generalizing k with
  | nil => simp
  | cons group groups ih =>
    cases k with
    | zero => simp
    | succ k =>
      have hlength : (k + 1) * n = group.length + k * n := by rw [h.head, Nat.succ_mul, Nat.add_comm]
      rw [List.drop_succ_cons, List.flatten_cons, ih h.tail, hlength, List.drop_length_add_append]

/-- **Reading** a range of one group. -/
theorem Uniform.take_drop (h : Uniform n groups) {k off len : ℕ} {group : List α}
    (hk : groups[k]? = some group) (hlen : off + len ≤ n) :
    (group.drop off).take len = (groups.flatten.drop (k * n + off)).take len := by
  have hgroup : group.length = n := h group (List.mem_of_getElem? hk)
  rw [← List.drop_drop, ← h.flatten_drop, List.drop_eq_getElem_cons (List.getElem?_eq_some_iff.mp hk).1,
    (List.getElem?_eq_some_iff.mp hk).2, List.flatten_cons, List.drop_append_of_le_length (by omega),
    List.take_append_of_le_length (by rw [List.length_drop]; omega)]

/-- **Copying** into a range of one group. -/
theorem Uniform.flatten_patch (h : Uniform n groups) {k off : ℕ} {group xs : List α}
    (hk : groups[k]? = some group) (hlen : off + xs.length ≤ n) :
    (groups.set k (patch group off xs)).flatten = patch groups.flatten (k * n + off) xs := by
  induction groups generalizing k with
  | nil => simp at hk
  | cons head groups ih =>
    have hhead : head.length = n := h.head
    cases k with
    | zero =>
      cases hk
      have hdrop : (group ++ groups.flatten).drop (off + xs.length) =
          group.drop (off + xs.length) ++ groups.flatten :=
        List.drop_append_of_le_length (by omega)
      have htake : (group ++ groups.flatten).take off = group.take off :=
        List.take_append_of_le_length (by omega)
      rw [List.set_cons_zero, List.flatten_cons, List.flatten_cons, Nat.zero_mul, Nat.zero_add]
      unfold patch
      rw [hdrop, htake, List.append_assoc, List.append_assoc]
    | succ k =>
      have hoff : (k + 1) * n + off = head.length + (k * n + off) := by
        rw [hhead, Nat.succ_mul]
        omega
      have hend : head.length + (k * n + off) + xs.length = head.length + (k * n + off + xs.length) :=
        Nat.add_assoc _ _ _
      have htail : groups[k]? = some group := hk
      rw [List.set_cons_succ, List.flatten_cons, List.flatten_cons, ih h.tail htail, hoff]
      unfold patch
      rw [List.take_length_add_append, hend, List.drop_length_add_append]
      simp only [List.append_assoc]

theorem Uniform.set_patch (h : Uniform n groups) {k off : ℕ} {group xs : List α}
    (hk : groups[k]? = some group) (hlen : off + xs.length ≤ n) :
    Uniform n (groups.set k (patch group off xs)) := by
  have hgroup : group.length = n := h group (List.mem_of_getElem? hk)
  intro g hg
  cases List.mem_or_eq_of_mem_set hg with
  | inl hmem => exact h g hmem
  | inr heq =>
    rw [heq, patch_length _ _ _ (by omega)]
    exact hgroup

end AwaDB.Lib
