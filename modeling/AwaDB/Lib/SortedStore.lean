import Mathlib.Data.List.Nodup
import Mathlib.Data.List.Range
import Mathlib.Order.MinMax
import Mathlib.Tactic.Common

/-!
# Stores with ordered keys

A store has a value for some of its keys, and gives them up in the order of the keys from a key on.

* `SortedStore`: the store and what is known of it;
* `SortedStore.seek_numbered`: if the keys are numbered in their order, `seek` gives the values in the
  order of the numbers;
* `SortedMap`, `SortedStore.map`: a store that is a list in the order of its keys.
-/

namespace AwaDB.Lib

variable {κ β S : Type*} [LinearOrder κ]

/-- A store: `seek s k` are the entries from `k` on. -/
structure SortedStore (κ β S : Type*) [LinearOrder κ] where
  empty : S
  get : S → κ → Option β
  put : S → κ → β → S
  seek : S → κ → List (κ × β)
  get_empty : ∀ k, get empty k = none
  get_put : ∀ s k v k', get (put s k v) k' = if k' = k then some v else get s k'
  sorted_seek : ∀ s k, (seek s k).Pairwise fun a b => a.1 < b.1
  mem_seek : ∀ s k e, e ∈ seek s k ↔ k ≤ e.1 ∧ get s e.1 = some e.2

theorem nodup_of_keys {l : List (κ × β)} (hl : l.Pairwise fun a b => a.1 < b.1) : l.Nodup :=
  hl.imp fun hlt heq => absurd (congrArg Prod.fst heq) (ne_of_lt hlt)

namespace SortedStore

/-- **Numbered keys.** A store whose keys are those of the numbers below `n` gives up the values from one
number on in the order of the numbers. -/
theorem seek_numbered (K : SortedStore κ β S) {s : S} {n : ℕ} (key : ℕ → κ) (values : ℕ → β)
    (hkey : ∀ i j, i < j → j ≤ n → key i < key j) (hget : ∀ i < n, K.get s (key i) = some (values i))
    (honly : ∀ k v, K.get s k = some v → ∃ i < n, k = key i) {i : ℕ} (hi : i ≤ n) :
    K.seek s (key i) = (List.range (n - i)).map fun c => (key (i + c), values (i + c)) := by
  have hsorted : ((List.range (n - i)).map fun c => (key (i + c), values (i + c))).Pairwise
      fun a b => a.1 < b.1 := by
    rw [List.pairwise_map]
    refine List.Pairwise.imp_of_mem (fun {c d} hc hd hlt => ?_) List.pairwise_lt_range
    have hd := List.mem_range.mp hd
    exact hkey _ _ (by omega) (by omega)
  have hmem : ∀ e, e ∈ K.seek s (key i) ↔
      e ∈ (List.range (n - i)).map fun c => (key (i + c), values (i + c)) := by
    intro e
    rw [K.mem_seek, List.mem_map]
    constructor
    · rintro ⟨hle, he⟩
      obtain ⟨j, hj, hkj⟩ := honly _ _ he
      have hij : i ≤ j := by
        by_contra hlt
        have hlt := hkey j i (by omega) hi
        rw [hkj] at hle
        exact absurd hlt (not_lt.mpr hle)
      refine ⟨j - i, List.mem_range.mpr (by omega), ?_⟩
      rw [hkj, hget j hj] at he
      rw [Nat.add_sub_cancel' hij, Option.some.inj he, ← hkj]
    · rintro ⟨c, hc, rfl⟩
      have hc := List.mem_range.mp hc
      refine ⟨?_, hget _ (by omega)⟩
      rcases Nat.eq_zero_or_pos c with rfl | hpos
      · exact le_refl _
      · exact le_of_lt (hkey _ _ (by omega) (by omega))
  have hperm := (List.perm_ext_iff_of_nodup (nodup_of_keys (K.sorted_seek s (key i)))
    (nodup_of_keys hsorted)).mpr hmem
  exact hperm.eq_of_pairwise (fun a b _ _ hab hba => absurd hab (not_lt.mpr (le_of_lt hba)))
    (K.sorted_seek s (key i)) hsorted

end SortedStore

/-! ### A list in the order of the keys -/

/-- Entries in the order of their keys. -/
structure SortedMap (κ β : Type*) [LinearOrder κ] where
  entries : List (κ × β)
  sorted : entries.Pairwise fun a b => a.1 < b.1

/-- The entry goes where its key belongs. -/
def insertEntry (k : κ) (v : β) : List (κ × β) → List (κ × β)
  | [] => [(k, v)]
  | e :: l => if k < e.1 then (k, v) :: e :: l else if k = e.1 then (k, v) :: l else e :: insertEntry k v l

theorem mem_insertEntry {k : κ} {v : β} {l : List (κ × β)} (hl : l.Pairwise fun a b => a.1 < b.1)
    (e : κ × β) : e ∈ insertEntry k v l ↔ e = (k, v) ∨ e.1 ≠ k ∧ e ∈ l := by
  induction l with
  | nil => simp [insertEntry]
  | cons a l ih =>
    obtain ⟨ha, hl⟩ := List.pairwise_cons.mp hl
    rw [insertEntry]
    split
    · rename_i hlt
      rw [List.mem_cons]
      refine or_congr_right (iff_and_self.mpr fun hmem heq => ?_)
      cases List.mem_cons.mp hmem with
      | inl hea =>
        rw [hea] at heq
        exact absurd heq (ne_of_gt hlt)
      | inr hold =>
        have hlater := lt_trans hlt (ha e hold)
        exact absurd heq (ne_of_gt hlater)
    · split
      · rename_i heq
        rw [List.mem_cons, List.mem_cons]
        refine or_congr_right ⟨fun hmem => ⟨?_, .inr hmem⟩, fun h => h.2.resolve_left fun hea => ?_⟩
        · rw [heq]
          exact ne_of_gt (ha e hmem)
        · rw [hea] at h
          exact h.1 heq.symm
      · rename_i hne
        rw [List.mem_cons, ih hl, List.mem_cons]
        constructor
        · rintro (rfl | heq | ⟨hk, hmem⟩)
          · exact .inr ⟨fun heq => hne heq.symm, .inl rfl⟩
          · exact .inl heq
          · exact .inr ⟨hk, .inr hmem⟩
        · rintro (heq | ⟨hk, rfl | hmem⟩)
          · exact .inr (.inl heq)
          · exact .inl rfl
          · exact .inr (.inr ⟨hk, hmem⟩)

theorem sorted_insertEntry {k : κ} {v : β} {l : List (κ × β)} (hl : l.Pairwise fun a b => a.1 < b.1) :
    (insertEntry k v l).Pairwise fun a b => a.1 < b.1 := by
  induction l with
  | nil => exact List.pairwise_singleton _ _
  | cons a l ih =>
    obtain ⟨ha, hrest⟩ := List.pairwise_cons.mp hl
    rw [insertEntry]
    split
    · rename_i hlt
      have hfirst : ∀ e ∈ a :: l, k < e.1 :=
        List.forall_mem_cons.mpr ⟨hlt, fun e he => lt_trans hlt (ha e he)⟩
      exact List.pairwise_cons.mpr ⟨hfirst, hl⟩
    · split
      · rename_i heq
        refine List.pairwise_cons.mpr ⟨fun e he => ?_, hrest⟩
        show k < e.1
        rw [heq]
        exact ha e he
      · rename_i hlt hne
        refine List.pairwise_cons.mpr ⟨fun e he => ?_, ih hrest⟩
        cases (mem_insertEntry hrest e).mp he with
        | inl heq =>
          rw [heq]
          exact lt_of_le_of_ne (not_lt.mp hlt) fun heq => hne heq.symm
        | inr hold => exact ha e hold.2

/-- Two entries with one key are one entry. -/
theorem eq_of_key {l : List (κ × β)} (hl : l.Pairwise fun a b => a.1 < b.1) {a b : κ × β} (ha : a ∈ l)
    (hb : b ∈ l) (hkey : a.1 = b.1) : a = b := by
  induction l with
  | nil => exact absurd ha List.not_mem_nil
  | cons e l ih =>
    obtain ⟨he, hl⟩ := List.pairwise_cons.mp hl
    cases List.mem_cons.mp ha with
    | inl hae =>
      cases List.mem_cons.mp hb with
      | inl hbe => rw [hae, hbe]
      | inr hb =>
        rw [hae] at hkey
        exact absurd hkey (ne_of_lt (he b hb))
    | inr ha =>
      cases List.mem_cons.mp hb with
      | inl hbe =>
        rw [hbe] at hkey
        exact absurd hkey (ne_of_gt (he a ha))
      | inr hb => exact ih hl ha hb

namespace SortedMap

/-- The value of a key. -/
def get (s : SortedMap κ β) (k : κ) : Option β := (s.entries.find? fun e => e.1 = k).map Prod.snd

theorem get_eq_some (s : SortedMap κ β) {k : κ} {v : β} : s.get k = some v ↔ (k, v) ∈ s.entries := by
  rw [get, Option.map_eq_some_iff]
  constructor
  · rintro ⟨e, hfind, rfl⟩
    have hkey : e.1 = k := by simpa using List.find?_some hfind
    rw [← hkey]
    exact List.mem_of_find?_eq_some hfind
  · intro hmem
    cases hfind : s.entries.find? fun e => e.1 = k with
    | none =>
      have hnot := List.find?_eq_none.mp hfind _ hmem
      simp at hnot
    | some e =>
      have hkey : e.1 = k := by simpa using List.find?_some hfind
      have he := List.mem_of_find?_eq_some hfind
      refine ⟨e, rfl, ?_⟩
      rw [eq_of_key s.sorted he hmem hkey]

end SortedMap

/-- Such a list is a store. -/
def SortedStore.map (κ β : Type*) [LinearOrder κ] : SortedStore κ β (SortedMap κ β) where
  empty := ⟨[], List.Pairwise.nil⟩
  get := SortedMap.get
  put s k v := ⟨insertEntry k v s.entries, sorted_insertEntry s.sorted⟩
  seek s k := s.entries.filter fun e => k ≤ e.1
  get_empty k := rfl
  get_put s k v k' := by
    refine Option.ext fun w => ?_
    rw [SortedMap.get_eq_some, mem_insertEntry s.sorted]
    split
    · rename_i heq
      rw [heq]
      simp [eq_comm]
    · rename_i hne
      rw [SortedMap.get_eq_some]
      simp [hne]
  sorted_seek s k := s.sorted.filter _
  mem_seek s k e := by
    rw [List.mem_filter, decide_eq_true_eq, and_comm, SortedMap.get_eq_some]

end AwaDB.Lib
