import AwaDB.Storage.SizeHeader

/-!
# `AsyncWriter::Sync`

`Sync` waits until the queue is empty. The thread that writes takes requests out of the queue before
it writes them, so that an empty queue does not mean that they were written. `Held` follows each
request through the queue, the hands of the thread and the files.

* `barrier_always`: `Sync` is a barrier in every run in which it never finds the queue empty while
  the thread holds a request from before the call.
-/

namespace AwaDB

open Lib

namespace AsyncWriter

variable {g : Geometry} {s s' : AsyncWriter} {n m : ℕ → ℕ} {runs qs : List WriterStruct}

/-- The write takes the bytes of the request to their place. -/
def Carries : DiskWrite → WriterStruct → Prop
  | .data seg start bytes, q =>
    seg = q.seg ∧ start ≤ q.start ∧ (bytes.drop (q.start - start)).take q.data.length = q.data
  | .size _ _, _ => False

instance : (w : DiskWrite) → (q : WriterStruct) → Decidable (Carries w q)
  | .data _ _ _, _ => inferInstanceAs (Decidable (_ ∧ _ ∧ _))
  | .size _ _, _ => inferInstanceAs (Decidable False)

/-- The requests from before a call of `Sync` that has returned were written. -/
def Barrier (s : AsyncWriter) : Prop :=
  ∀ mark ∈ s.returned, ∀ q ∈ s.requests.take mark, ∃ w ∈ s.made, Carries w q

/-- `Sync` does not find the queue empty while the thread holds a request from before the call. -/
def LooksAfter : WriterOp → AsyncWriter → Prop
  | .look caller, s => ∀ mark, s.calls caller = some mark → s.queue = [] →
      ∀ q ∈ s.requests.take mark, ∀ w ∈ s.writes, ¬ Carries w q
  | _, _ => True

section Carries

variable {run p q : WriterStruct}

theorem carries_self : Carries q.write q := by
  refine ⟨rfl, Nat.le_refl _, ?_⟩
  rw [Nat.sub_self, List.drop_zero, List.take_length]

theorem carries_join (h : Carries run.write p) : Carries (run.join q).write p := by
  obtain ⟨hseg, hstart, hbytes⟩ := h
  refine ⟨hseg, hstart, ?_⟩
  have hlength : p.data.length ≤ (run.data.drop (p.start - run.start)).length := by
    have htake := congrArg List.length hbytes
    rw [List.length_take] at htake
    omega
  show ((run.data ++ q.data).drop (p.start - run.start)).take p.data.length = p.data
  rw [List.drop_append, List.take_append_of_le_length hlength]
  exact hbytes

theorem carries_join_right (hseg : run.seg = q.seg) (hstart : q.start = run.start + run.data.length) :
    Carries (run.join q).write q := by
  refine ⟨hseg, hstart ▸ Nat.le_add_right _ _, ?_⟩
  show ((run.data ++ q.data).drop (q.start - run.start)).take q.data.length = q.data
  rw [hstart, Nat.add_sub_cancel_left, List.drop_left, List.take_length]

/-- Merging loses no request. -/
theorem merged_carries (h : Chain g n (run :: qs) m) (hp : Carries run.write p ∨ p ∈ qs) :
    ∃ r ∈ merged run qs, Carries r.write p := by
  induction qs generalizing run n with
  | nil => exact ⟨run, List.mem_cons_self, hp.resolve_right List.not_mem_nil⟩
  | cons q qs ih =>
    obtain ⟨hrun, hq, hqs⟩ := h
    rw [merged]
    split
    · cases hp with
      | inl hp => exact ⟨run, List.mem_cons_self, hp⟩
      | inr hp =>
        have htail : Carries q.write p ∨ p ∈ qs := by
          obtain rfl | hp := List.mem_cons.mp hp
          · exact .inl carries_self
          · exact .inr hp
        obtain ⟨r, hr, hcarries⟩ := ih ⟨hq, hqs⟩ htail
        exact ⟨r, List.mem_cons_of_mem _ hr, hcarries⟩
    next hseg =>
      have hsame : run.seg = q.seg := by
        by_contra hne
        exact hseg (.inl hne)
      refine ih ⟨hrun.join hq hsame, itemsAfter_join hrun hsame ▸ hqs⟩ ?_
      cases hp with
      | inl hp => exact .inl (carries_join hp)
      | inr hp =>
        obtain rfl | hp := List.mem_cons.mp hp
        · exact .inl (carries_join_right hsame (hrun.start_eq hq hsame))
        · exact .inr hp

theorem handlerRuns_carries (h : Chain g n qs m) (hp : p ∈ qs) :
    ∃ w ∈ (handlerRuns qs).flatMap (syncWrite g), Carries w p := by
  cases qs with
  | nil => cases hp
  | cons q qs =>
    have hfirst : Carries q.write p ∨ p ∈ qs := by
      obtain rfl | hp := List.mem_cons.mp hp
      · exact .inl carries_self
      · exact .inr hp
    obtain ⟨r, hr, hcarries⟩ := merged_carries h hfirst
    exact ⟨r.write, List.mem_flatMap.mpr ⟨r, hr, List.mem_cons_self⟩, hcarries⟩

end Carries

/-- Every request is in the queue, in the hands of the thread, or written; the marks of the calls
count requests. -/
structure Held (s : AsyncWriter) : Prop where
  covered : ∀ q ∈ s.requests, q ∈ s.queue ∨ ∃ w ∈ s.made ++ s.writes, Carries w q
  calls : ∀ caller mark, s.calls caller = some mark → mark ≤ s.requests.length
  returned : ∀ mark ∈ s.returned, mark ≤ s.requests.length
  barrier : Barrier s

theorem held_create : Held create where
  covered _ hq := absurd hq List.not_mem_nil
  calls _ _ h := by cases h
  returned _ hmark := absurd hmark List.not_mem_nil
  barrier _ hmark := absurd hmark List.not_mem_nil

theorem Held.add {q : WriterStruct} {seg : ℕ} (h : Held s) :
    Held { s with
      queue := s.queue ++ [q]
      requests := s.requests ++ [q]
      buffered := Function.update s.buffered seg (s.buffered seg + 1) } where
  covered p hp := by
    obtain hp | hp := List.mem_append.mp hp
    · exact (h.covered p hp).imp_left (List.mem_append_left _)
    · exact .inl (List.mem_append_right _ hp)
  calls caller mark hmark := by
    rw [List.length_append]
    exact Nat.le_trans (h.calls caller mark hmark) (Nat.le_add_right _ _)
  returned mark hmark := by
    rw [List.length_append]
    exact Nat.le_trans (h.returned mark hmark) (Nat.le_add_right _ _)
  barrier mark hmark p hp := by
    rw [List.take_append_of_le_length (h.returned mark hmark)] at hp
    exact h.barrier mark hmark p hp

theorem Held.dequeue {num : ℕ} (h : Held s) (hstands : Stands g s n runs) (hidle : s.writes = [])
    (hok : (writerHandler g (s.queue.take num)).2 = true) :
    Held { s with
      queue := s.queue.drop num
      writes := (writerHandler g (s.queue.take num)).1 } where
  covered p hp := by
    have hlength : ∀ q ∈ s.queue.take num, q.data.length = g.itemLength :=
      fun q hq => hstands.length q (List.mem_of_mem_take hq)
    obtain ⟨k, -, hqueue⟩ := chain_append.mp hstands.chain
    rw [← List.take_append_drop num s.queue] at hqueue
    obtain ⟨k', htake, -⟩ := chain_append.mp hqueue
    obtain hp | ⟨w, hw, hcarries⟩ := h.covered p hp
    · rw [← List.take_append_drop num s.queue] at hp
      obtain hp | hp := List.mem_append.mp hp
      · obtain ⟨w, hw, hcarries⟩ := handlerRuns_carries htake hp
        refine .inr ⟨w, List.mem_append_right _ ?_, hcarries⟩
        rw [writerHandler_eq hlength ((writerHandler_ok hlength).mp hok)]
        exact hw
      · exact .inl hp
    · rw [hidle, List.append_nil] at hw
      exact .inr ⟨w, List.mem_append_left _ hw, hcarries⟩
  calls := h.calls
  returned := h.returned
  barrier := h.barrier

theorem Held.write {w : DiskWrite} {writes : List DiskWrite} (h : Held s)
    (hwrites : s.writes = w :: writes) :
    Held { s with disk := s.disk.run w, writes := writes, made := s.made ++ [w] } where
  covered p hp := by
    obtain hp | ⟨v, hv, hcarries⟩ := h.covered p hp
    · exact .inl hp
    · refine .inr ⟨v, ?_, hcarries⟩
      rw [List.append_assoc, List.singleton_append, ← hwrites]
      exact hv
  calls := h.calls
  returned := h.returned
  barrier mark hmark p hp := by
    obtain ⟨v, hv, hcarries⟩ := h.barrier mark hmark p hp
    exact ⟨v, List.mem_append_left _ hv, hcarries⟩

theorem Held.sync (h : Held s) (caller : ℕ) :
    Held { s with calls := Function.update s.calls caller (some s.requests.length) } where
  covered := h.covered
  calls other mark hmark := by
    by_cases hcaller : other = caller
    · rw [hcaller] at hmark
      have hnow : some s.requests.length = some mark := by
        rw [← hmark]
        exact (Function.update_self caller _ s.calls).symm
      cases hnow
      exact Nat.le_refl _
    · apply h.calls other mark
      rw [← hmark]
      exact (Function.update_of_ne hcaller ..).symm
  returned := h.returned
  barrier := h.barrier

/-- `Sync` returns, with no request from before the call in the hands of the thread. -/
theorem Held.look {caller mark : ℕ} (h : Held s) (hcall : s.calls caller = some mark)
    (hqueue : s.queue = [])
    (hafter : ∀ q ∈ s.requests.take mark, ∀ w ∈ s.writes, ¬ Carries w q) :
    Held { s with
      calls := Function.update s.calls caller none
      returned := s.returned ++ [mark] } where
  covered := h.covered
  calls other mark' hmark := by
    by_cases hcaller : other = caller
    · rw [hcaller] at hmark
      have hnone : none = some mark' := by
        rw [← hmark]
        exact (Function.update_self caller none s.calls).symm
      cases hnone
    · apply h.calls other mark'
      rw [← hmark]
      exact (Function.update_of_ne hcaller ..).symm
  returned mark' hmark := by
    obtain hmark | hmark := List.mem_append.mp hmark
    · exact h.returned mark' hmark
    · rw [List.mem_singleton.mp hmark]
      exact h.calls caller mark hcall
  barrier mark' hmark q hq := by
    obtain hmark | hmark := List.mem_append.mp hmark
    · exact h.barrier mark' hmark q hq
    · rw [List.mem_singleton.mp hmark] at hq
      obtain hwaits | ⟨w, hw, hcarries⟩ := h.covered q (List.mem_of_mem_take hq)
      · rw [hqueue] at hwaits
        cases hwaits
      · obtain hw | hw := List.mem_append.mp hw
        · exact ⟨w, hw, hcarries⟩
        · exact absurd hcarries (hafter q hq w hw)

theorem Held.step (h : Held s) (hcontinued : Continued g s) {o : WriterOp} (hafter : LooksAfter o s)
    (hs : step g o s = some s') : Held s' := by
  obtain ⟨n, runs, hstands⟩ := hcontinued
  cases o with
  | add seg data =>
    rw [AsyncWriter.step] at hs
    split at hs
    · cases hs
      exact h.add
    · cases hs
  | update seg id data =>
    rw [AsyncWriter.step] at hs
    split at hs
    · cases hs
      exact ⟨h.covered, h.calls, h.returned, h.barrier⟩
    · cases hs
  | dequeue num =>
    rw [AsyncWriter.step] at hs
    split at hs
    next hdefined =>
      cases hs
      exact h.dequeue hstands hdefined.1 hdefined.2
    · cases hs
  | write =>
    rw [AsyncWriter.step] at hs
    split at hs
    · cases hs
    next hwrites =>
      cases hs
      exact h.write hwrites
  | sync caller =>
    cases hs
    exact h.sync caller
  | look caller =>
    rw [AsyncWriter.step] at hs
    split at hs
    · cases hs
    next mark hcall =>
      split at hs
      next hqueue =>
        cases hs
        exact h.look hcall hqueue (hafter mark hcall hqueue)
      · cases hs
        exact h
  | restart =>
    cases hs
    exact ⟨held_create.covered, held_create.calls, held_create.returned, held_create.barrier⟩

/-- **`Sync` is a barrier** in every run in which it never finds the queue empty while the thread
holds a request from before the call. -/
theorem barrier_always (g : Geometry) {ops : List WriterOp}
    (h : Lib.EachStep (step g) LooksAfter ops create) : Lib.Always (step g) Barrier ops create :=
  (Lib.always_of_guard (P := fun s => Continued g s ∧ Held s)
    (fun o _ _ hs hafter he => ⟨hs.1.step o he, hs.2.step hs.1 hafter he⟩)
    ⟨continued_create g, held_create⟩ h).imp fun _ hs => hs.2.barrier

/-- The call looks after the write. -/
theorem barrier_written : Lib.Always (step byteGeometry) Barrier
    [.add 0 [7], .sync 0, .dequeue 1, .write, .write, .look 0] create := by
  refine barrier_always byteGeometry (.cons rfl trivial (.cons rfl trivial (.cons rfl trivial
    (.cons rfl trivial (.cons rfl trivial (.cons rfl ?_ trivial))))))
  intro mark _ _ q _ w hw
  cases hw

/-- The call looks between taking the request out of the queue and writing it. -/
theorem barrier_early : ¬ ∀ (g : Geometry) (ops : List WriterOp),
    Lib.Always (step g) Barrier ops create := by
  intro h
  have hlast := (h byteGeometry [.add 0 [7], .sync 0, .dequeue 1, .look 0]).last rfl
  obtain ⟨w, hw, -⟩ := hlast 1 List.mem_cons_self ⟨0, 30, [7]⟩ List.mem_cons_self
  cases hw

end AsyncWriter

end AwaDB
