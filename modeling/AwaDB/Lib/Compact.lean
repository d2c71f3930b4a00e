import Mathlib.Data.List.Basic
import Mathlib.Tactic.Common

/-!
# Compaction in place

An array with a section for each of some queries, and a loop that reads a section from left to right and
writes what it keeps to the front of the same section. `Compact` says what the array looks like between
two rounds; a round that keeps nothing is `Compact.skip`, and one that keeps a value is `Compact.skip`
followed by `Compact.write`.
-/

namespace AwaDB.Lib

variable {α β : Type*}

/-! ### Sections -/

/-- Section `i` of an array with sections of length `k`. -/
def sect (k i : ℕ) (l : List α) : List α := (l.drop (i * k)).take k

theorem getElem?_sect {k i p : ℕ} {l : List α} (hp : p < k) : (sect k i l)[p]? = l[i * k + p]? := by
  unfold sect
  rw [List.getElem?_take_of_lt hp, List.getElem?_drop]

theorem getElem?_sect_of_le {k i p : ℕ} {l : List α} (hp : k ≤ p) : (sect k i l)[p]? = none := by
  unfold sect
  exact List.getElem?_take_eq_none hp

theorem length_sect {k i : ℕ} {l : List α} (h : i * k + k ≤ l.length) : (sect k i l).length = k := by
  rw [sect, List.length_take, List.length_drop]
  omega

/-- An element of a section is inside of the array. -/
theorem sect_lt {n k i j : ℕ} (hi : i < n) (hj : j < k) : i * k + j < n * k := by
  have h := Nat.mul_le_mul_right k hi
  rw [Nat.succ_mul] at h
  omega

/-- A section put in the place of the old one. -/
def putSect (k i : ℕ) (x l : List α) : List α := l.take (i * k) ++ x ++ l.drop (i * k + k)

theorem getElem?_putSect {k i : ℕ} {x l : List α} (hx : x.length = k) (hl : i * k + k ≤ l.length)
    (p : ℕ) :
    (putSect k i x l)[p]? = if i * k ≤ p ∧ p < i * k + k then x[p - i * k]? else l[p]? := by
  have htake : (l.take (i * k)).length = i * k := by
    rw [List.length_take]
    omega
  unfold putSect
  rw [List.append_assoc]
  by_cases hfront : p < i * k
  · rw [List.getElem?_append_left (by omega), List.getElem?_take_of_lt hfront, if_neg (by omega)]
  rw [List.getElem?_append_right (by omega), htake]
  by_cases hback : p < i * k + k
  · rw [List.getElem?_append_left (by omega), if_pos (by omega)]
  · rw [List.getElem?_append_right (by omega), hx, List.getElem?_drop, if_neg (by omega)]
    congr 1
    omega

theorem length_putSect {k i : ℕ} {x l : List α} (hx : x.length = k) (hl : i * k + k ≤ l.length) :
    (putSect k i x l).length = l.length := by
  unfold putSect
  rw [List.length_append, List.length_append, List.length_take, List.length_drop]
  omega

/-- The new section. -/
theorem sect_putSect {k i : ℕ} {x l : List α} (hx : x.length = k) (hl : i * k + k ≤ l.length) :
    sect k i (putSect k i x l) = x := by
  apply List.ext_getElem?
  intro p
  by_cases hp : p < k
  · rw [getElem?_sect hp, getElem?_putSect hx hl, if_pos (by omega)]
    congr 1
    omega
  · rw [getElem?_sect_of_le (Nat.le_of_not_lt hp), List.getElem?_eq_none (by omega)]

/-- **The other sections** stay as they are. -/
theorem sect_putSect_of_ne {k i j : ℕ} {x l : List α} (hx : x.length = k) (hl : i * k + k ≤ l.length)
    (hne : j ≠ i) : sect k j (putSect k i x l) = sect k j l := by
  apply List.ext_getElem?
  intro p
  by_cases hp : p < k
  · have hout : ¬ (i * k ≤ j * k + p ∧ j * k + p < i * k + k) := by
      intro hin
      cases Nat.lt_or_gt_of_ne hne with
      | inl hlt =>
        have hmul := Nat.mul_le_mul_right k hlt
        rw [Nat.succ_mul] at hmul
        omega
      | inr hgt =>
        have hmul := Nat.mul_le_mul_right k hgt
        rw [Nat.succ_mul] at hmul
        omega
    rw [getElem?_sect hp, getElem?_putSect hx hl, if_neg hout, getElem?_sect hp]
  · rw [getElem?_sect_of_le (Nat.le_of_not_lt hp), getElem?_sect_of_le (Nat.le_of_not_lt hp)]

/-! ### The two cursors -/

/-- The array `l` between two rounds, when it was `l₀` at first and the section begins at `a`: the `j`
values that were read have made room for those that are kept, and for values that nobody reads. -/
def Compact (l₀ l : List α) (a j : ℕ) (kept : List α) : Prop :=
  ∃ junk, kept.length + junk.length = j ∧ l = l₀.take a ++ kept ++ junk ++ l₀.drop (a + j)

variable {l₀ l : List α} {a j : ℕ} {kept : List α}

theorem compact_refl (l : List α) (a : ℕ) : Compact l l a 0 [] := ⟨[], rfl, by simp⟩

/-- What is not read yet is as it was. -/
theorem Compact.getElem? (h : Compact l₀ l a j kept) (ha : a + j ≤ l₀.length) {p : ℕ} (hp : a + j ≤ p) :
    l[p]? = l₀[p]? := by
  obtain ⟨junk, hlength, rfl⟩ := h
  have hfront : (l₀.take a ++ kept ++ junk).length = a + j := by
    rw [List.length_append, List.length_append, List.length_take]
    omega
  rw [List.getElem?_append_right (by omega), hfront, List.getElem?_drop]
  congr 1
  omega

/-- A round reads a value. -/
theorem Compact.skip (h : Compact l₀ l a j kept) (ha : a + j < l₀.length) :
    Compact l₀ l a (j + 1) kept := by
  obtain ⟨junk, hlength, rfl⟩ := h
  refine ⟨junk ++ [l₀[a + j]], ?_, ?_⟩
  · rw [List.length_append, List.length_singleton]
    omega
  · rw [List.drop_eq_getElem_cons ha]
    simp [Nat.add_assoc]

/-- A value is written behind those that are kept. -/
theorem Compact.write (h : Compact l₀ l a j kept) (ha : a ≤ l₀.length) (hj : kept.length < j) (x : α) :
    Compact l₀ (l.set (a + kept.length) x) a j (kept ++ [x]) := by
  obtain ⟨junk, hlength, rfl⟩ := h
  cases junk with
  | nil =>
    rw [List.length_nil] at hlength
    omega
  | cons y junk =>
    have hfront : (l₀.take a ++ kept).length = a + kept.length := by
      rw [List.length_append, List.length_take]
      omega
    refine ⟨junk, ?_, ?_⟩
    · rw [List.length_cons] at hlength
      rw [List.length_append, List.length_singleton]
      omega
    · rw [List.append_assoc (l₀.take a ++ kept), List.set_append_right _ _ (by omega), hfront,
        Nat.sub_self]
      simp

/-- The same for an array that has one field of the records that are kept. -/
theorem Compact.write_map {γ : Type*} {f : γ → α} {records : List γ}
    (h : Compact l₀ l a j (records.map f)) (ha : a ≤ l₀.length) (hj : records.length < j) (x : γ) :
    Compact l₀ (l.set (a + records.length) (f x)) a j ((records ++ [x]).map f) := by
  have hwrite := h.write ha (by rwa [List.length_map]) (f x)
  rw [List.length_map] at hwrite
  rw [List.map_append]
  exact hwrite

/-- The rest of a section is filled up with one value. -/
theorem Compact.fill {k : ℕ} (h : Compact l₀ l a k kept) (ha : a ≤ l₀.length) (hk : kept.length ≤ k)
    (x : α) :
    Compact l₀ ((List.range' kept.length (k - kept.length)).foldl (fun l p => l.set (a + p) x) l) a k
      (kept ++ List.replicate (k - kept.length) x) := by
  induction hrest : k - kept.length generalizing kept l with
  | zero => simpa using h
  | succ rest ih =>
    have hwrite := h.write ha (by omega) x
    have hlength : (kept ++ [x]).length = kept.length + 1 := by
      rw [List.length_append, List.length_singleton]
    have hnext := ih hwrite (by omega) (by omega)
    rw [hlength] at hnext
    rw [List.range'_succ, List.foldl_cons, List.replicate_succ]
    simpa using hnext

/-- At the end of a section that is filled up. -/
theorem Compact.eq_putSect {k i : ℕ} (h : Compact l₀ l (i * k) k kept) (hk : kept.length = k) :
    l = putSect k i kept l₀ := by
  obtain ⟨junk, hlength, rfl⟩ := h
  have hnil : junk = [] := List.eq_nil_of_length_eq_zero (by omega)
  rw [hnil, List.append_nil]
  rfl

/-- The section while it is not full. -/
theorem Compact.take_sect {k i : ℕ} (h : Compact l₀ l (i * k) k kept) (hl : i * k + k ≤ l₀.length) :
    (sect k i l).take kept.length = kept ∧
      ∃ x, x.length = k ∧ l = putSect k i x l₀ := by
  obtain ⟨junk, hlength, rfl⟩ := h
  have hx : (kept ++ junk).length = k := by
    rw [List.length_append]
    exact hlength
  have hput : l₀.take (i * k) ++ kept ++ junk ++ l₀.drop (i * k + k) = putSect k i (kept ++ junk) l₀ := by
    unfold putSect
    rw [List.append_assoc (l₀.take (i * k))]
  rw [hput, sect_putSect hx hl, List.take_left]
  exact ⟨rfl, kept ++ junk, hx, rfl⟩

end AwaDB.Lib
