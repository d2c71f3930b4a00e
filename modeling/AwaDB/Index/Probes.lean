import AwaDB.Index.FaissHeap
import Mathlib.Algebra.Order.Ring.Int

/-!
# Scanning probed lists in two ways

The searches of the inverted lists of a query either run over its probes with one heap, or let the probes
fall to threads. Each thread then has a heap of its own, and these are added to one in any order.

* `scanQuery`: one heap, with a limit on the scanned codes;
* `scanThread` and `mergeThreads`: a heap for each thread;
* `agree`: both fail, or both hold the best of the same entries.
-/

namespace AwaDB.Index

open Lib

namespace Probes

variable {D Probe : Type}

/-- A probe gives these entries to the heap, where its list can be scanned, and these are its codes. -/
structure Lists (D Probe : Type) where
  entries : Probe → Option (List (Entry D))
  size : Probe → ℕ

/-- The entries of some probes. -/
def Lists.gathered (lists : Lists D Probe) : List Probe → Option (List (Entry D))
  | [] => some []
  | p :: ps => (lists.entries p).bind fun es => (lists.gathered ps).map (es ++ ·)

variable {lists : Lists D Probe}

theorem Lists.gathered_append (ps ps' : List Probe) :
    lists.gathered (ps ++ ps') =
      (lists.gathered ps).bind fun es => (lists.gathered ps').map (es ++ ·) := by
  induction ps with
  | nil =>
    show lists.gathered ps' = (lists.gathered ps').map ([] ++ ·)
    simp
  | cons p ps ih =>
    rw [List.cons_append, gathered, gathered, ih]
    cases lists.entries p with
    | none => rfl
    | some es =>
      cases lists.gathered ps with
      | none => rfl
      | some es' =>
        cases lists.gathered ps' with
        | none => rfl
        | some es'' => simp

/-- The order of the probes does not matter to what they give. -/
theorem Lists.gathered_perm {ps ps' : List Probe} (h : ps.Perm ps') :
    (lists.gathered ps = none ∧ lists.gathered ps' = none) ∨
      ∃ es es', lists.gathered ps = some es ∧ lists.gathered ps' = some es' ∧ es.Perm es' := by
  induction h with
  | nil => exact .inr ⟨[], [], rfl, rfl, List.Perm.refl []⟩
  | cons p hperm ih =>
    unfold gathered
    cases lists.entries p with
    | none => exact .inl ⟨rfl, rfl⟩
    | some es =>
      rcases ih with ⟨h₁, h₂⟩ | ⟨es₁, es₂, h₁, h₂, hes⟩
      · exact .inl ⟨by rw [h₁]; rfl, by rw [h₂]; rfl⟩
      · exact .inr ⟨es ++ es₁, es ++ es₂, by rw [h₁]; rfl, by rw [h₂]; rfl, hes.append_left es⟩
  | swap p p' ps =>
    simp only [gathered]
    cases lists.entries p with
    | none => cases lists.entries p' <;> exact .inl ⟨rfl, rfl⟩
    | some es =>
      cases lists.entries p' with
      | none => exact .inl ⟨rfl, rfl⟩
      | some es' =>
        cases lists.gathered ps with
        | none => exact .inl ⟨rfl, rfl⟩
        | some es'' =>
          refine .inr ⟨_, _, rfl, rfl, ?_⟩
          show (es' ++ (es ++ es'')).Perm (es ++ (es' ++ es''))
          rw [← List.append_assoc, ← List.append_assoc]
          exact List.perm_append_comm.append_right es''
  | trans h₁ h₂ ih₁ ih₂ =>
    rcases ih₁ with ⟨ha, hb⟩ | ⟨es, es', ha, hb, hes⟩ <;> rcases ih₂ with ⟨hc, hd⟩ | ⟨fs, fs', hc, hd, hfs⟩
    · exact .inl ⟨ha, hd⟩
    · rw [hb] at hc
      cases hc
    · rw [hb] at hc
      cases hc
    · rw [hb] at hc
      cases hc
      exact .inr ⟨es, fs', ha, hd, hes.trans hfs⟩

/-! ### The two ways -/

/-- The loop over the probes of a query: `maxCodes` limits the scanned codes, `0` does not. -/
def scanQuery (scanOneList : Probe → List (Entry D) → Option (List (Entry D) × ℕ)) (maxCodes : ℕ) :
    List Probe → ℕ → List (Entry D) → Option (List (Entry D))
  | [], _, h => some h
  | p :: ps, nscan, h =>
    (scanOneList p h).bind fun r =>
      if maxCodes ≠ 0 ∧ nscan + r.2 ≥ maxCodes then some r.1
      else scanQuery scanOneList maxCodes ps (nscan + r.2) r.1

/-- The probes that fall to one thread. -/
def scanThread (scanOneList : Probe → List (Entry D) → Option (List (Entry D) × ℕ)) :
    List Probe → List (Entry D) → Option (List (Entry D))
  | [], h => some h
  | p :: ps, h => (scanOneList p h).bind fun r => scanThread scanOneList ps r.1

/-- The threads add their heaps of `k` places to `simi`, in the order in which they are given, each with
the probes that fell to it. -/
def mergeThreads (ops : HeapOps D) (scanOneList : Probe → List (Entry D) → Option (List (Entry D) × ℕ))
    (k : ℕ) : List (List Probe) → List (Entry D) → Option (List (Entry D))
  | [], simi => some simi
  | ps :: threads, simi =>
    (scanThread scanOneList ps (ops.heapify k)).bind fun localSimi =>
      mergeThreads ops scanOneList k threads (ops.addn simi localSimi)

/-- The limit does not stop the loop before its last probe. -/
def Unlimited (lists : Lists D Probe) (maxCodes nscan : ℕ) (ps : List Probe) : Prop :=
  maxCodes = 0 ∨ nscan + (ps.dropLast.map lists.size).sum < maxCodes

section Scan

variable {cmp : D → D → Prop} [DecidableRel cmp] {put : List (Entry D) → Entry D → List (Entry D)}
  {scanOneList : Probe → List (Entry D) → Option (List (Entry D) × ℕ)}

/-- `scan_one_list` offers the entries of a list to the heap, and counts its codes. -/
def Offers (cmp : D → D → Prop) [DecidableRel cmp] (put : List (Entry D) → Entry D → List (Entry D))
    (lists : Lists D Probe) (scanOneList : Probe → List (Entry D) → Option (List (Entry D) × ℕ)) : Prop :=
  ∀ p h, scanOneList p h = (lists.entries p).bind fun es => (scan cmp put es h).map fun h => (h, lists.size p)

theorem scanThread_eq (hoffers : Offers cmp put lists scanOneList) (ps : List Probe) (h : List (Entry D)) :
    scanThread scanOneList ps h = (lists.gathered ps).bind fun es => scan cmp put es h := by
  induction ps generalizing h with
  | nil => rfl
  | cons p ps ih =>
    rw [scanThread, hoffers, Lists.gathered]
    cases lists.entries p with
    | none => rfl
    | some es =>
      show ((scan cmp put es h).map fun h => (h, lists.size p)).bind _ =
        ((lists.gathered ps).map (es ++ ·)).bind _
      have hrest : ∀ es', scan cmp put (es ++ es') h = (scan cmp put es h).bind (scan cmp put es') :=
        fun es' => scan_append cmp put es es' h
      cases hscan : scan cmp put es h with
      | none =>
        cases lists.gathered ps with
        | none => rfl
        | some es' =>
          show none = scan cmp put (es ++ es') h
          rw [hrest, hscan]
          rfl
      | some h' =>
        show scanThread scanOneList ps h' = _
        rw [ih h']
        cases lists.gathered ps with
        | none => rfl
        | some es' =>
          show scan cmp put es' h' = scan cmp put (es ++ es') h
          rw [hrest, hscan]
          rfl

/-- Where the limit does not stop it, the loop over the probes does what one thread does. -/
theorem scanQuery_eq (hoffers : Offers cmp put lists scanOneList) {maxCodes nscan : ℕ} {ps : List Probe}
    (hlimit : Unlimited lists maxCodes nscan ps) (h : List (Entry D)) :
    scanQuery scanOneList maxCodes ps nscan h = scanThread scanOneList ps h := by
  induction ps generalizing nscan h with
  | nil => rfl
  | cons p ps ih =>
    rw [scanQuery, scanThread, hoffers]
    cases lists.entries p with
    | none => rfl
    | some es =>
      cases hscan : scan cmp put es h with
      | none =>
        show ((scan cmp put es h).map _).bind _ = ((scan cmp put es h).map _).bind _
        rw [hscan]
        rfl
      | some h' =>
        show ((scan cmp put es h).map _).bind _ = ((scan cmp put es h).map _).bind _
        rw [hscan]
        show (if maxCodes ≠ 0 ∧ nscan + lists.size p ≥ maxCodes then some h'
          else scanQuery scanOneList maxCodes ps (nscan + lists.size p) h') = scanThread scanOneList ps h'
        cases ps with
        | nil =>
          split
          · rfl
          · rfl
        | cons p' ps =>
          rcases hlimit with hzero | hlt
          · rw [if_neg fun hstop => hstop.1 hzero]
            exact ih (.inl hzero) h'
          · rw [List.dropLast_cons_cons, List.map_cons, List.sum_cons] at hlt
            rw [if_neg fun hstop => by have hge := hstop.2; omega]
            exact ih (.inr (by omega)) h'

/-! ### What the threads find -/

variable {ops : HeapOps D} {IsHeap : List (Entry D) → Prop} [IsStrictTotalOrder D cmp]

/-- The threads that are left add what they find. -/
theorem mergeThreads_some (hops : ops.Correct cmp IsHeap) (hput : Puts IsHeap put)
    (hoffers : Offers cmp put lists scanOneList) {k : ℕ} {threads : List (List Probe)}
    {before simi es : List (Entry D)} (hes : lists.gathered threads.flatten = some es)
    (hlabel : ∀ e ∈ es, e.2 ≠ -1) (hk : k ≠ 0 ∨ es = []) (hlen : simi.length = k)
    (hsimi : Holds cmp ops IsHeap before simi) :
    ∃ h', mergeThreads ops scanOneList k threads simi = some h' ∧ h'.length = k ∧
      Holds cmp ops IsHeap (before ++ fitting cmp ops.neutral es) h' := by
  induction threads generalizing before simi es with
  | nil =>
    cases hes
    refine ⟨simi, rfl, hlen, ?_⟩
    show Holds cmp ops IsHeap (before ++ []) simi
    rwa [List.append_nil]
  | cons ps threads ih =>
    rw [List.flatten_cons, Lists.gathered_append] at hes
    obtain ⟨es₁, hes₁, hrest⟩ := Option.bind_eq_some_iff.mp hes
    obtain ⟨es₂, hes₂, rfl⟩ := Option.map_eq_some_iff.mp hrest
    have hk₁ : k ≠ 0 ∨ es₁ = [] := hk.imp_right fun hnil => (List.append_eq_nil_iff.mp hnil).1
    have hk₂ : k ≠ 0 ∨ es₂ = [] := hk.imp_right fun hnil => (List.append_eq_nil_iff.mp hnil).2
    obtain ⟨localSimi, hscan, hlocal, hheld⟩ :=
      scan_heapify hops hput k (fun e he => hlabel e (List.mem_append_left es₂ he)) hk₁
    obtain ⟨hlen', hsimi'⟩ := hsimi.addn hops hheld (hlocal.trans hlen.symm)
    obtain ⟨h', hmerge, hh', hheld'⟩ :=
      ih hes₂ (fun e he => hlabel e (List.mem_append_right es₁ he)) hk₂ (hlen'.trans hlen) hsimi'
    refine ⟨h', ?_, hh', ?_⟩
    · rw [mergeThreads, scanThread_eq hoffers, hes₁, Option.bind_some, hscan]
      exact hmerge
    · rw [fitting, List.filter_append, ← List.append_assoc]
      exact hheld'

omit [IsStrictTotalOrder D cmp] in
/-- A list that cannot be scanned, or an entry for a heap without a place, makes some thread fail. -/
theorem mergeThreads_none (hops : ops.Correct cmp IsHeap) (hoffers : Offers cmp put lists scanOneList)
    {k : ℕ} {threads : List (List Probe)} {simi : List (Entry D)}
    (hfail : lists.gathered threads.flatten = none ∨
      k = 0 ∧ ∃ es, lists.gathered threads.flatten = some es ∧ es ≠ []) :
    mergeThreads ops scanOneList k threads simi = none := by
  induction threads generalizing simi with
  | nil =>
    rcases hfail with hnone | ⟨-, es, hes, hne⟩
    · cases hnone
    · cases hes
      exact absurd rfl hne
  | cons ps threads ih =>
    rw [mergeThreads, scanThread_eq hoffers]
    rw [List.flatten_cons, Lists.gathered_append] at hfail
    cases hes₁ : lists.gathered ps with
    | none => rfl
    | some es₁ =>
      rw [hes₁, Option.bind_some] at hfail
      show (scan cmp put es₁ (ops.heapify k)).bind _ = none
      cases hscan : scan cmp put es₁ (ops.heapify k) with
      | none => rfl
      | some localSimi =>
        refine ih ?_
        rcases hfail with hnone | ⟨rfl, es, hes, hne⟩
        · exact .inl (Option.map_eq_none_iff.mp hnone)
        · obtain ⟨es₂, hes₂, rfl⟩ := Option.map_eq_some_iff.mp hes
          refine .inr ⟨rfl, es₂, hes₂, fun hnil => hne ?_⟩
          -- this thread had no entry, as its heap has no place
          have hempty : ops.heapify 0 = [] := hops.heapify_eq 0
          rw [hempty, scan_nil] at hscan
          split at hscan
          · next hes₁nil => rw [hes₁nil, hnil]; rfl
          · cases hscan

/-- What one heap finds, or why it fails. -/
theorem scanQuery_cases (hops : ops.Correct cmp IsHeap) (hput : Puts IsHeap put)
    (hoffers : Offers cmp put lists scanOneList) {maxCodes : ℕ} {ps : List Probe}
    (hlimit : Unlimited lists maxCodes 0 ps) (k : ℕ)
    (hlabel : ∀ es, lists.gathered ps = some es → ∀ e ∈ es, e.2 ≠ -1) :
    (scanQuery scanOneList maxCodes ps 0 (ops.heapify k) = none ∧ (lists.gathered ps = none ∨
      k = 0 ∧ ∃ es, lists.gathered ps = some es ∧ es ≠ [])) ∨
    ∃ h es, scanQuery scanOneList maxCodes ps 0 (ops.heapify k) = some h ∧ h.length = k ∧
      lists.gathered ps = some es ∧ (k ≠ 0 ∨ es = []) ∧
      Holds cmp ops IsHeap (fitting cmp ops.neutral es) h := by
  rw [scanQuery_eq hoffers hlimit, scanThread_eq hoffers]
  cases hes : lists.gathered ps with
  | none => exact .inl ⟨rfl, .inl rfl⟩
  | some es =>
    by_cases hk : k ≠ 0 ∨ es = []
    · obtain ⟨h, hscan, hlen, hheld⟩ := scan_heapify hops hput k (hlabel es hes) hk
      exact .inr ⟨h, es, hscan, hlen, rfl, hk, hheld⟩
    · obtain ⟨hzero, hne⟩ := not_or.mp hk
      rw [not_not] at hzero
      subst hzero
      refine .inl ⟨?_, .inr ⟨rfl, es, rfl, hne⟩⟩
      have hempty : ops.heapify 0 = [] := hops.heapify_eq 0
      rw [Option.bind_some, hempty, scan_nil, if_neg hne]

/-- **The two ways agree**: both fail, or the heaps they end with hold the best of the same entries. -/
theorem agree (hops : ops.Correct cmp IsHeap) (hput : Puts IsHeap put)
    (hoffers : Offers cmp put lists scanOneList) {maxCodes : ℕ} {ps : List Probe}
    {threads : List (List Probe)} (hthreads : threads.flatten.Perm ps)
    (hlimit : Unlimited lists maxCodes 0 ps) (k : ℕ)
    (hlabel : ∀ es, lists.gathered ps = some es → ∀ e ∈ es, e.2 ≠ -1) :
    (scanQuery scanOneList maxCodes ps 0 (ops.heapify k) = none ∧
      mergeThreads ops scanOneList k threads (ops.heapify k) = none) ∨
    ∃ h h' es es', scanQuery scanOneList maxCodes ps 0 (ops.heapify k) = some h ∧
      mergeThreads ops scanOneList k threads (ops.heapify k) = some h' ∧ h.length = k ∧ h'.length = k ∧
      lists.gathered ps = some es ∧ es'.Perm es ∧ Holds cmp ops IsHeap (fitting cmp ops.neutral es) h ∧
      Holds cmp ops IsHeap (fitting cmp ops.neutral es') h' := by
  have hperm := @Lists.gathered_perm D Probe lists _ _ hthreads
  rcases scanQuery_cases hops hput hoffers hlimit k hlabel with ⟨hnone, hfail⟩ | ⟨h, es, hquery, hlen, hes, hk, hheld⟩
  · refine .inl ⟨hnone, mergeThreads_none hops hoffers ?_⟩
    rcases hperm with ⟨hleft, -⟩ | ⟨es, es', hleft, hright, hes⟩
    · exact .inl hleft
    · rcases hfail with hgathered | ⟨hzero, es₀, hgathered, hne⟩
      · rw [hright] at hgathered
        cases hgathered
      · rw [hright] at hgathered
        cases hgathered
        exact .inr ⟨hzero, es, hleft, fun hnil => hne (hnil ▸ hes).symm.eq_nil⟩
  · rcases hperm with ⟨-, hright⟩ | ⟨es', es₀, hleft, hright, hes'⟩
    · rw [hright] at hes
      cases hes
    · rw [hright] at hes
      cases hes
      have hlabel' : ∀ e ∈ es', e.2 ≠ -1 := fun e he => hlabel _ hright e (hes'.mem_iff.mp he)
      have hk' : k ≠ 0 ∨ es' = [] := hk.imp_right fun hnil => (hnil ▸ hes').eq_nil
      obtain ⟨h', hmerge, hlen', hheld'⟩ :=
        mergeThreads_some hops hput hoffers hleft hlabel' hk' (hops.length_heapify k) (holds_heapify hops k)
      exact .inr ⟨h, h', _, es', hquery, hmerge, hlen, hlen', hright, hes', hheld, hheld'⟩

end Scan

end Probes

end AwaDB.Index
