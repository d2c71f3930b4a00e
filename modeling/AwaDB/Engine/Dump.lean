import AwaDB.Lib.Run
import Mathlib.Data.Nat.Find

/-!
# Dumping while documents are added (`GammaEngine::Dump`, `GammaEngine::Load`)

`Dump` syncs the table, writes the index into a directory named by the second, syncs the raw
vectors, writes `dump.done`, and removes the directory of the dump before. Other threads add
documents and index their vectors meanwhile, so that each of these is a step of its own here.

* `Safe`: what holds in every state of a run whose dumps are in different seconds and have no index
  that covers more than they synced;
* `restored_of_guarded`: at every stop of such a run the last dump loads, with every document that
  was added before it began.
-/

namespace AwaDB

/-- `ivfpq.index` in a dump directory; opening it for writing empties it. -/
inductive IndexFile where
  | missing
  | torn
  | written (slots : ℕ)
deriving DecidableEq, Repr

/-- `dump.done`, which has its two lines once it is written. -/
inductive DoneFile where
  | missing
  | opened
  | written
deriving DecidableEq, Repr

/-- How far a call of `Dump` is; `path` is the second its directory is named by. -/
inductive DumpPhase where
  | idle
  | tableSynced
  | named (path : ℕ)
  | indexOpened (path : ℕ)
  | indexWritten (path : ℕ)
  | vectorsSynced (path : ℕ)
  | doneOpened (path : ℕ)
  | doneWritten (path : ℕ)
  | lastRemoved (path : ℕ)
deriving DecidableEq, Repr

/-- A process and its files. `rowsSynced` and `vecsSynced` of the rows and vectors are on disk for
certain. `pending` are the vectors of the rows that are in the table while their vectors are not
stored yet, `added` counts the documents whose add has returned, `slots` those of the inverted
lists. `docs` are the documents in the order of their ids, `began` the count of `added` when the
current dump began, and `promised` that of the last one that has returned success. -/
structure DumpState (Row Vec : Type) where
  rows : List Row
  rowsSynced : ℕ
  vecs : List Vec
  vecsSynced : ℕ
  pending : List Vec
  added : ℕ
  isTrained : Bool
  indexedCount : ℕ
  slots : ℕ
  isDirty : Bool
  now : ℕ
  lastDumpDir : Option ℕ
  indexFile : ℕ → IndexFile
  doneFile : ℕ → DoneFile
  phase : DumpPhase
  docs : List (Row × Vec)
  began : ℕ
  promised : Option ℕ

namespace DumpState

variable {Row Vec : Type}

/-- The steps of the threads. A batch enters its rows into the table before it stores their
vectors. `addToIndex` is one batch of `AddRTVecsToIndex`, and `failToIndex` one that failed after
`count` of its vectors had been inserted. -/
inductive Op (Row Vec : Type) where
  | addRow (row : Row) (vec : Vec)
  | addVector
  | addReturn
  | train
  | addToIndex (count : ℕ)
  | failToIndex (count : ℕ)
  | indexReturn
  | tick
  | dump

/-- An engine without documents. -/
def create : DumpState Row Vec where
  rows := []
  rowsSynced := 0
  vecs := []
  vecsSynced := 0
  pending := []
  added := 0
  isTrained := false
  indexedCount := 0
  slots := 0
  isDirty := false
  now := 0
  lastDumpDir := none
  indexFile := fun _ => .missing
  doneFile := fun _ => .missing
  phase := .idle
  docs := []
  began := 0
  promised := none

/-- The next step of `GammaEngine::Dump`. -/
def dumpStep (s : DumpState Row Vec) : DumpState Row Vec :=
  match s.phase with
  | .idle => { s with rowsSynced := s.rows.length, began := s.added, phase := .tableSynced }
  | .tableSynced =>
    if s.isDirty then { s with phase := .named s.now }
    else { s with promised := some s.began, phase := .idle }
  | .named path =>
    if s.isTrained then
      { s with indexFile := Function.update s.indexFile path .torn, phase := .indexOpened path }
    else { s with phase := .indexWritten path }
  | .indexOpened path =>
    { s with
      indexFile := Function.update s.indexFile path (.written s.slots)
      phase := .indexWritten path }
  | .indexWritten path => { s with vecsSynced := s.vecs.length, phase := .vectorsSynced path }
  | .vectorsSynced path =>
    { s with doneFile := Function.update s.doneFile path .opened, phase := .doneOpened path }
  | .doneOpened path =>
    { s with doneFile := Function.update s.doneFile path .written, phase := .doneWritten path }
  | .doneWritten path =>
    match s.lastDumpDir with
    | none => { s with phase := .lastRemoved path }
    | some last =>
      { s with
        indexFile := Function.update s.indexFile last .missing
        doneFile := Function.update s.doneFile last .missing
        phase := .lastRemoved path }
  | .lastRemoved path =>
    { s with
      lastDumpDir := some path
      isDirty := false
      promised := some s.began
      phase := .idle }

/-- One step. The index covers stored vectors only. -/
def step : Op Row Vec → DumpState Row Vec → Option (DumpState Row Vec)
  | .addRow row vec, s => some
    { s with
      rows := s.rows ++ [row]
      pending := s.pending ++ [vec]
      docs := s.docs ++ [(row, vec)] }
  | .addVector, s =>
    match s.pending with
    | [] => none
    | vec :: pending => some { s with vecs := s.vecs ++ [vec], pending := pending }
  | .addReturn, s =>
    if s.pending = [] then some { s with added := s.vecs.length, isDirty := true } else none
  | .train, s => some { s with isTrained := true }
  | .addToIndex count, s =>
    if s.isTrained ∧ s.indexedCount + count ≤ s.vecs.length then
      some { s with indexedCount := s.indexedCount + count, slots := s.slots + count }
    else none
  | .failToIndex count, s =>
    if s.isTrained ∧ s.indexedCount + count ≤ s.vecs.length then
      some { s with slots := s.slots + count }
    else none
  | .indexReturn, s => some { s with isDirty := true }
  | .tick, s => some { s with now := s.now + 1 }
  | .dump, s => some s.dumpStep

/-! ### Loading -/

/-- The newest directory that has a `dump.done`. -/
def newest (s : DumpState Row Vec) : Option ℕ :=
  let path := Nat.findGreatest (fun path => s.doneFile path ≠ .missing) s.now
  if s.doneFile path ≠ .missing then some path else none

/-- `GammaEngine::Load` when `r` rows and `v` vectors are on disk: the rows and vectors that are kept,
unless it fails. A `dump.done` without its lines is an assertion that fails. -/
def load (r v : ℕ) (s : DumpState Row Vec) : Option (List Row × List Vec) :=
  let num := min r v
  let kept := (s.rows.take num, s.vecs.take num)
  match s.newest with
  | none => some kept
  | some path =>
    if s.doneFile path = .opened then none
    else
      match s.indexFile path with
      | .missing => some kept
      | .torn => none
      | .written slots => if slots > num then none else some kept

/-- **The property** of a stop with `r` rows and `v` vectors on disk: there is a directory with a
`dump.done`, it loads, and the first `k` documents are there with their rows and vectors. -/
def Restored (k r v : ℕ) (s : DumpState Row Vec) : Prop :=
  (∃ path, s.doneFile path = .written) ∧ ∃ rows vecs, s.load r v = some (rows, vecs) ∧
    ∀ docid < k, ∃ doc, s.docs[docid]? = some doc ∧ rows[docid]? = some doc.1 ∧
      vecs[docid]? = some doc.2

/-! ### The condition -/

/-- The index file covers no more than the rows and vectors that are synced. -/
def Covered (s : DumpState Row Vec) : IndexFile → Prop
  | .missing => True
  | .torn => False
  | .written slots => slots ≤ s.rowsSynced ∧ slots ≤ s.vecsSynced

/-- **The condition.** A dump that writes a directory does so in another second than the last one,
and writes its `dump.done` when the index in it covers no more than was synced; one that finds
nothing dirty has an earlier dump, which synced the vectors of its documents. -/
def guard : Op Row Vec → DumpState Row Vec → Prop
  | .dump, s =>
    match s.phase with
    | .tableSynced =>
      if s.isDirty then s.lastDumpDir ≠ some s.now
      else s.lastDumpDir.isSome ∧ s.began ≤ s.vecsSynced
    | .doneOpened path => s.Covered (s.indexFile path)
    | _ => True
  | _, _ => True

/-- The path of the directory that is being written. -/
def DumpPhase.path? : DumpPhase → Option ℕ
  | .idle | .tableSynced => none
  | .named path | .indexOpened path | .indexWritten path | .vectorsSynced path
  | .doneOpened path | .doneWritten path | .lastRemoved path => some path

/-- What `dump.done` is in each directory. -/
def expectedDone (s : DumpState Row Vec) (path : ℕ) : DoneFile :=
  match s.phase with
  | .doneOpened current =>
    if path = current then .opened
    else if s.lastDumpDir = some path then .written else .missing
  | .doneWritten current =>
    if path = current ∨ s.lastDumpDir = some path then .written else .missing
  | .lastRemoved current => if path = current then .written else .missing
  | _ => if s.lastDumpDir = some path then .written else .missing

/-- What holds in every state of a run that meets the condition. -/
structure Safe (s : DumpState Row Vec) : Prop where
  rows_eq : s.rows = s.docs.map Prod.fst
  vecs_eq : s.vecs ++ s.pending = s.docs.map Prod.snd
  added_le : s.added ≤ s.vecs.length
  rowsSynced_le : s.rowsSynced ≤ s.rows.length
  vecsSynced_le : s.vecsSynced ≤ s.vecs.length
  began_le : s.began ≤ s.added ∧ s.began ≤ s.rowsSynced
  done_eq : ∀ path, s.doneFile path = s.expectedDone path
  covered : ∀ path, s.doneFile path = .written → s.Covered (s.indexFile path)
  last_le : ∀ last, s.lastDumpDir = some last → last ≤ s.now
  current : ∀ path, DumpPhase.path? s.phase = some path → path ≤ s.now ∧
    ∀ last, s.lastDumpDir = some last → last < path
  /-- The vectors are synced once the directory has them. -/
  synced : ∀ path, s.phase = .vectorsSynced path ∨ s.phase = .doneOpened path ∨
    s.phase = .doneWritten path ∨ s.phase = .lastRemoved path → s.began ≤ s.vecsSynced
  promised : ∀ k, s.promised = some k → k ≤ s.rowsSynced ∧ k ≤ s.vecsSynced ∧ s.lastDumpDir.isSome

/-! ### One step -/

section Step

variable {s s' : DumpState Row Vec}

theorem Safe.vecs_le (h : Safe s) : s.vecs.length ≤ s.rows.length := by
  have hrows := congrArg List.length h.rows_eq
  have hvecs := congrArg List.length h.vecs_eq
  rw [List.length_map] at hrows hvecs
  rw [List.length_append] at hvecs
  omega

theorem Covered.mono {file : IndexFile} (h : s.Covered file) (hr : s.rowsSynced ≤ s'.rowsSynced)
    (hv : s.vecsSynced ≤ s'.vecsSynced) : s'.Covered file := by
  cases file with
  | missing => trivial
  | torn => exact h
  | written slots => exact ⟨Nat.le_trans h.1 hr, Nat.le_trans h.2 hv⟩

/-- The table is synced. -/
theorem Safe.idle (h : Safe s) (hp : s.phase = .idle) : Safe s.dumpStep := by
  have hstep : s.dumpStep =
      { s with rowsSynced := s.rows.length, began := s.added, phase := .tableSynced } := by
    rw [dumpStep, hp]
  have hle := h.vecs_le
  have hadded := h.added_le
  rw [hstep]
  exact
    { rows_eq := h.rows_eq
      vecs_eq := h.vecs_eq
      added_le := hadded
      rowsSynced_le := Nat.le_refl _
      vecsSynced_le := h.vecsSynced_le
      began_le := ⟨Nat.le_refl _, Nat.le_trans hadded hle⟩
      done_eq := fun path => by
        have hdone := h.done_eq path
        simp only [expectedDone, hp] at hdone
        exact hdone
      covered := fun path hpath => (h.covered path hpath).mono h.rowsSynced_le (Nat.le_refl _)
      last_le := h.last_le
      current := fun path hpath => nomatch hpath
      synced := fun path hpath => by simp at hpath
      promised := fun k hk => ⟨Nat.le_trans (h.promised k hk).1 h.rowsSynced_le,
        (h.promised k hk).2⟩ }

/-- A directory is made, or nothing is dirty. -/
theorem Safe.tableSynced (h : Safe s) (hp : s.phase = .tableSynced) (hg : guard .dump s) :
    Safe s.dumpStep := by
  have hdone : ∀ path, s.doneFile path =
      if s.lastDumpDir = some path then .written else .missing := by
    intro path
    rw [h.done_eq, expectedDone, hp]
  rw [guard, hp] at hg
  dsimp only at hg
  by_cases hdirty : s.isDirty = true
  · have hstep : s.dumpStep = { s with phase := .named s.now } := by
      rw [dumpStep, hp]
      exact if_pos hdirty
    rw [if_pos hdirty] at hg
    rw [hstep]
    exact
      { h with
        done_eq := hdone
        current := fun path hpath => by
          cases hpath
          refine ⟨Nat.le_refl _, fun last hlast => ?_⟩
          have hle := h.last_le last hlast
          have hne : last ≠ s.now := fun heq => hg (hlast.trans (congrArg some heq))
          exact Nat.lt_of_le_of_ne hle hne
        synced := fun path hpath => by simp at hpath }
  · have hstep : s.dumpStep = { s with promised := some s.began, phase := .idle } := by
      rw [dumpStep, hp]
      exact if_neg hdirty
    rw [if_neg hdirty] at hg
    rw [hstep]
    exact
      { h with
        done_eq := hdone
        current := fun path hpath => nomatch hpath
        synced := fun path hpath => by simp at hpath
        promised := fun k hk => by
          cases hk
          exact ⟨h.began_le.2, hg.2, hg.1⟩ }

/-- The index is written. -/
theorem Safe.index (h : Safe s) {path : ℕ}
    (hp : s.phase = .named path ∨ s.phase = .indexOpened path) : Safe s.dumpStep := by
  have hdone : ∀ path', s.doneFile path' =
      if s.lastDumpDir = some path' then .written else .missing := by
    intro path'
    rw [h.done_eq, expectedDone]
    rcases hp with hp | hp <;> rw [hp]
  have hcurrent := h.current path (by rcases hp with hp | hp <;> rw [hp] <;> rfl)
  -- the directory that is written is not finished
  have hother : ∀ file path', s.doneFile path' = .written →
      s.Covered (Function.update s.indexFile path file path') := by
    intro file path' hpath'
    have hne : path' ≠ path := by
      rintro rfl
      rw [hdone] at hpath'
      split at hpath'
      · next hlast => exact absurd (hcurrent.2 path' hlast) (Nat.lt_irrefl _)
      · cases hpath'
    rw [Function.update_of_ne hne]
    exact h.covered path' hpath'
  rcases hp with hp | hp
  · by_cases htrained : s.isTrained = true
    · have hstep : s.dumpStep = { s with
          indexFile := Function.update s.indexFile path .torn
          phase := .indexOpened path } := by
        rw [dumpStep, hp]
        exact if_pos htrained
      rw [hstep]
      exact
        { h with
          done_eq := hdone
          covered := hother .torn
          current := fun path' hpath' => by cases hpath'; exact hcurrent
          synced := fun path' hpath' => by simp at hpath' }
    · have hstep : s.dumpStep = { s with phase := .indexWritten path } := by
        rw [dumpStep, hp]
        exact if_neg htrained
      rw [hstep]
      exact
        { h with
          done_eq := hdone
          current := fun path' hpath' => by cases hpath'; exact hcurrent
          synced := fun path' hpath' => by simp at hpath' }
  · have hstep : s.dumpStep = { s with
        indexFile := Function.update s.indexFile path (.written s.slots)
        phase := .indexWritten path } := by
      rw [dumpStep, hp]
    rw [hstep]
    exact
      { h with
        done_eq := hdone
        covered := hother (.written s.slots)
        current := fun path' hpath' => by cases hpath'; exact hcurrent
        synced := fun path' hpath' => by simp at hpath' }

/-- The raw vectors are synced. -/
theorem Safe.indexWritten (h : Safe s) {path : ℕ} (hp : s.phase = .indexWritten path) :
    Safe s.dumpStep := by
  have hstep : s.dumpStep =
      { s with vecsSynced := s.vecs.length, phase := .vectorsSynced path } := by
    rw [dumpStep, hp]
  have hcurrent := h.current path (by rw [hp]; rfl)
  rw [hstep]
  exact
    { h with
      vecsSynced_le := Nat.le_refl _
      done_eq := fun path' => by
        show s.doneFile path' = if s.lastDumpDir = some path' then .written else .missing
        rw [h.done_eq, expectedDone, hp]
      covered := fun path' hpath' => (h.covered path' hpath').mono (Nat.le_refl _) h.vecsSynced_le
      current := fun path' hpath' => by cases hpath'; exact hcurrent
      synced := fun _ _ => Nat.le_trans h.began_le.1 h.added_le
      promised := fun k hk => ⟨(h.promised k hk).1,
        Nat.le_trans (h.promised k hk).2.1 h.vecsSynced_le, (h.promised k hk).2.2⟩ }

/-- `dump.done` is opened. -/
theorem Safe.vectorsSynced (h : Safe s) {path : ℕ} (hp : s.phase = .vectorsSynced path) :
    Safe s.dumpStep := by
  have hstep : s.dumpStep = { s with
      doneFile := Function.update s.doneFile path .opened
      phase := .doneOpened path } := by
    rw [dumpStep, hp]
  have hcurrent := h.current path (by rw [hp]; rfl)
  have hsynced := h.synced path (.inl hp)
  have hdone : ∀ path', Function.update s.doneFile path .opened path' =
      if path' = path then .opened
      else if s.lastDumpDir = some path' then .written else .missing := by
    intro path'
    rw [Function.update_apply, h.done_eq, expectedDone, hp]
  rw [hstep]
  exact
    { h with
      done_eq := hdone
      covered := fun path' hpath' => by
        have hpath' : Function.update s.doneFile path .opened path' = .written := hpath'
        have hne : path' ≠ path := by
          rintro rfl
          rw [Function.update_self] at hpath'
          cases hpath'
        rw [Function.update_of_ne hne] at hpath'
        exact h.covered path' hpath'
      current := fun path' hpath' => by cases hpath'; exact hcurrent
      synced := fun _ _ => hsynced }

/-- `dump.done` gets its lines. -/
theorem Safe.doneOpened (h : Safe s) {path : ℕ} (hp : s.phase = .doneOpened path)
    (hg : guard .dump s) : Safe s.dumpStep := by
  have hstep : s.dumpStep = { s with
      doneFile := Function.update s.doneFile path .written
      phase := .doneWritten path } := by
    rw [dumpStep, hp]
  have hcurrent := h.current path (by rw [hp]; rfl)
  have hsynced := h.synced path (.inr (.inl hp))
  have hdone : ∀ path', Function.update s.doneFile path .written path' =
      if path' = path ∨ s.lastDumpDir = some path' then .written else .missing := by
    intro path'
    rw [Function.update_apply, h.done_eq, expectedDone, hp]
    by_cases heq : path' = path <;> simp [heq]
  rw [guard, hp] at hg
  rw [hstep]
  exact
    { h with
      done_eq := hdone
      covered := fun path' hpath' => by
        have hpath' : Function.update s.doneFile path .written path' = .written := hpath'
        by_cases heq : path' = path
        · rw [heq]
          exact hg
        · rw [Function.update_of_ne heq] at hpath'
          exact h.covered path' hpath'
      current := fun path' hpath' => by cases hpath'; exact hcurrent
      synced := fun _ _ => hsynced }

/-- The directory of the dump before is removed. -/
theorem Safe.doneWritten (h : Safe s) {path : ℕ} (hp : s.phase = .doneWritten path) :
    Safe s.dumpStep := by
  have hcurrent := h.current path (by rw [hp]; rfl)
  have hsynced := h.synced path (.inr (.inr (.inl hp)))
  have hold : ∀ path', s.doneFile path' =
      if path' = path ∨ s.lastDumpDir = some path' then .written else .missing := by
    intro path'
    rw [h.done_eq, expectedDone, hp]
  cases hlast : s.lastDumpDir with
  | none =>
    have hstep : s.dumpStep = { s with phase := .lastRemoved path } := by
      rw [dumpStep, hp, hlast]
    rw [hstep]
    exact
      { h with
        done_eq := fun path' => by
          show s.doneFile path' = if path' = path then .written else .missing
          rw [hold, hlast]
          simp
        current := fun path' hpath' => by cases hpath'; exact hcurrent
        synced := fun _ _ => hsynced }
  | some last =>
    have hstep : s.dumpStep = { s with
        indexFile := Function.update s.indexFile last .missing
        doneFile := Function.update s.doneFile last .missing
        phase := .lastRemoved path } := by
      rw [dumpStep, hp, hlast]
    have hlt := hcurrent.2 last hlast
    rw [hstep]
    exact
      { h with
        done_eq := fun path' => by
          show Function.update s.doneFile last .missing path' =
            if path' = path then .written else .missing
          rw [Function.update_apply, hold, hlast]
          by_cases heq : path' = last
          · rw [if_pos heq, if_neg (by omega)]
          · rw [if_neg heq]
            simp [Ne.symm heq]
        covered := fun path' hpath' => by
          have hpath' : Function.update s.doneFile last .missing path' = .written := hpath'
          have hne : path' ≠ last := by
            rintro rfl
            rw [Function.update_self] at hpath'
            cases hpath'
          rw [Function.update_of_ne hne] at hpath'
          show s.Covered (Function.update s.indexFile last .missing path')
          rw [Function.update_of_ne hne]
          exact h.covered path' hpath'
        current := fun path' hpath' => by cases hpath'; exact hcurrent
        synced := fun _ _ => hsynced }

/-- The dump returns. -/
theorem Safe.lastRemoved (h : Safe s) {path : ℕ} (hp : s.phase = .lastRemoved path) :
    Safe s.dumpStep := by
  have hstep : s.dumpStep = { s with
      lastDumpDir := some path
      isDirty := false
      promised := some s.began
      phase := .idle } := by
    rw [dumpStep, hp]
  have hcurrent := h.current path (by rw [hp]; rfl)
  have hsynced := h.synced path (.inr (.inr (.inr hp)))
  rw [hstep]
  exact
    { h with
      done_eq := fun path' => by
        have hold : s.doneFile path' = if path' = path then .written else .missing := by
          rw [h.done_eq, expectedDone, hp]
        show s.doneFile path' = if some path = some path' then .written else .missing
        rw [hold]
        by_cases heq : path' = path
        · rw [if_pos heq, if_pos (congrArg some heq.symm)]
        · rw [if_neg heq, if_neg fun hsome => heq (Option.some.inj hsome).symm]
      last_le := fun last hlast => by cases hlast; exact hcurrent.1
      current := fun path' hpath' => nomatch hpath'
      synced := fun path' hpath' => by simp at hpath'
      promised := fun k hk => by cases hk; exact ⟨h.began_le.2, hsynced, rfl⟩ }

/-- **One step of a dump.** -/
theorem Safe.dump (h : Safe s) (hg : guard .dump s) : Safe s.dumpStep := by
  cases hp : s.phase with
  | idle => exact h.idle hp
  | tableSynced => exact h.tableSynced hp hg
  | named path => exact h.index (.inl hp)
  | indexOpened path => exact h.index (.inr hp)
  | indexWritten path => exact h.indexWritten hp
  | vectorsSynced path => exact h.vectorsSynced hp
  | doneOpened path => exact h.doneOpened hp hg
  | doneWritten path => exact h.doneWritten hp
  | lastRemoved path => exact h.lastRemoved hp

/-- **One step.** -/
theorem Safe.step (h : Safe s) (o : Op Row Vec) (hg : guard o s)
    (hstep : DumpState.step o s = some s') : Safe s' := by
  cases o with
  | addRow row vec =>
    cases hstep
    have hle := h.rowsSynced_le
    exact
      { h with
        rows_eq := by
          show s.rows ++ [row] = (s.docs ++ [(row, vec)]).map Prod.fst
          rw [h.rows_eq, List.map_append]
          rfl
        vecs_eq := by
          show s.vecs ++ (s.pending ++ [vec]) = (s.docs ++ [(row, vec)]).map Prod.snd
          rw [← List.append_assoc, h.vecs_eq, List.map_append]
          rfl
        rowsSynced_le := by
          show s.rowsSynced ≤ (s.rows ++ [row]).length
          rw [List.length_append]
          omega }
  | addVector =>
    simp only [DumpState.step] at hstep
    split at hstep
    · cases hstep
    · next vec pending hpending =>
      cases hstep
      have hvecs := h.vecs_eq
      rw [hpending] at hvecs
      have hadded := h.added_le
      have hsynced := h.vecsSynced_le
      exact
        { h with
          vecs_eq := by
            show s.vecs ++ [vec] ++ pending = s.docs.map Prod.snd
            rw [List.append_assoc]
            exact hvecs
          added_le := by
            show s.added ≤ (s.vecs ++ [vec]).length
            rw [List.length_append]
            omega
          vecsSynced_le := by
            show s.vecsSynced ≤ (s.vecs ++ [vec]).length
            rw [List.length_append]
            omega }
  | addReturn =>
    simp only [DumpState.step] at hstep
    split at hstep
    · cases hstep
      exact
        { h with
          added_le := Nat.le_refl _
          began_le := ⟨Nat.le_trans h.began_le.1 h.added_le, h.began_le.2⟩ }
    · cases hstep
  | train =>
    cases hstep
    exact { h with }
  | addToIndex count =>
    simp only [DumpState.step] at hstep
    split at hstep
    · cases hstep
      exact { h with }
    · cases hstep
  | failToIndex count =>
    simp only [DumpState.step] at hstep
    split at hstep
    · cases hstep
      exact { h with }
    · cases hstep
  | indexReturn =>
    cases hstep
    exact { h with }
  | tick =>
    cases hstep
    exact
      { h with
        last_le := fun last hlast => Nat.le_succ_of_le (h.last_le last hlast)
        current := fun path hpath =>
          ⟨Nat.le_succ_of_le (h.current path hpath).1, (h.current path hpath).2⟩ }
  | dump =>
    cases hstep
    exact h.dump hg

end Step

theorem safe_create : Safe (create : DumpState Row Vec) where
  rows_eq := rfl
  vecs_eq := rfl
  added_le := Nat.le_refl _
  rowsSynced_le := Nat.le_refl _
  vecsSynced_le := Nat.le_refl _
  began_le := ⟨Nat.le_refl _, Nat.le_refl _⟩
  done_eq _ := rfl
  covered path hpath := nomatch hpath
  last_le last hlast := nomatch hlast
  current path hpath := nomatch hpath
  synced path hpath := by simp [create] at hpath
  promised k hk := nomatch hk

/-! ### A stop -/

/-- Once a dump has returned there is a finished directory. -/
theorem Safe.exists_written {s : DumpState Row Vec} (h : Safe s) {k : ℕ}
    (hk : s.promised = some k) (hopen : ∀ path, s.phase ≠ .doneOpened path) :
    ∃ path ≤ s.now, s.doneFile path = .written := by
  obtain ⟨last, hlast⟩ := Option.isSome_iff_exists.mp (h.promised k hk).2.2
  by_cases hp : ∃ path, s.phase = .lastRemoved path
  · obtain ⟨path, hp⟩ := hp
    refine ⟨path, (h.current path (by rw [hp]; rfl)).1, ?_⟩
    rw [h.done_eq, expectedDone, hp]
    exact if_pos rfl
  · refine ⟨last, h.last_le last hlast, ?_⟩
    rw [h.done_eq, expectedDone]
    split
    · next path hpath => exact absurd hpath (hopen path)
    · exact if_pos (.inr hlast)
    · next path hpath => exact absurd ⟨path, hpath⟩ hp
    · exact if_pos hlast

/-- A `dump.done` is not there, or it has its lines. -/
theorem Safe.doneFile_cases {s : DumpState Row Vec} (h : Safe s)
    (hopen : ∀ path, s.phase ≠ .doneOpened path) (path : ℕ) :
    s.doneFile path = .missing ∨ s.doneFile path = .written := by
  rw [h.done_eq, expectedDone]
  split
  · next current hcurrent => exact absurd hcurrent (hopen current)
  · split
    · exact .inr rfl
    · exact .inl rfl
  · split
    · exact .inr rfl
    · exact .inl rfl
  · split
    · exact .inr rfl
    · exact .inl rfl

/-- **A stop in a safe state.** -/
theorem Safe.restored {s : DumpState Row Vec} (h : Safe s) {k r v : ℕ} (hk : s.promised = some k)
    (hopen : ∀ path, s.phase ≠ .doneOpened path) (hr : s.rowsSynced ≤ r) (hv : s.vecsSynced ≤ v) :
    s.Restored k r v := by
  obtain ⟨path, hle, hpath⟩ := h.exists_written hk hopen
  refine ⟨⟨path, hpath⟩, s.rows.take (min r v), s.vecs.take (min r v), ?_, fun docid hdocid => ?_⟩
  · -- whichever directory is the newest, it is finished and covered
    have hfound : s.doneFile (Nat.findGreatest (fun path => s.doneFile path ≠ .missing) s.now) ≠
        .missing :=
      Nat.findGreatest_spec (P := fun path => s.doneFile path ≠ .missing) hle (by rw [hpath]; decide)
    have hwritten := (h.doneFile_cases hopen _).resolve_left hfound
    have hcovered := h.covered _ hwritten
    have hnewest : s.newest =
        some (Nat.findGreatest (fun path => s.doneFile path ≠ .missing) s.now) := if_pos hfound
    rw [load, hnewest]
    dsimp only
    rw [if_neg (by rw [hwritten]; decide)]
    cases hfile : s.indexFile (Nat.findGreatest (fun path => s.doneFile path ≠ .missing) s.now) with
    | missing => rfl
    | torn =>
      rw [hfile] at hcovered
      exact absurd hcovered id
    | written slots =>
      rw [hfile] at hcovered
      have hrows := hcovered.1
      have hvecs := hcovered.2
      exact if_neg (by omega)
  · obtain ⟨hrows, hvecs, -⟩ := h.promised k hk
    have hrow := h.rowsSynced_le
    have hvec := h.vecsSynced_le
    have hdocs := congrArg List.length h.rows_eq
    rw [List.length_map] at hdocs
    have hlt : docid < s.docs.length := by omega
    refine ⟨s.docs[docid], List.getElem?_eq_getElem hlt, ?_, ?_⟩
    · rw [List.getElem?_take_of_lt (by omega), h.rows_eq, List.getElem?_map,
        List.getElem?_eq_getElem hlt]
      rfl
    · have hall : (s.vecs ++ s.pending)[docid]? = (s.docs.map Prod.snd)[docid]? := by rw [h.vecs_eq]
      rw [List.getElem?_append_left (by omega), List.getElem?_map,
        List.getElem?_eq_getElem hlt] at hall
      rw [List.getElem?_take_of_lt (by omega), hall]
      rfl

/-- Document `n`. -/
def addDoc (n : ℕ) : List (Op ℕ ℕ) := [.addRow n n, .addVector, .addReturn]

/-- All steps of a dump that finds the engine dirty and the index trained. -/
def wholeDump : List (Op ℕ ℕ) := List.replicate 9 .dump

/-- One document is indexed and dumped. -/
def dumpOnce : List (Op ℕ ℕ) :=
  .train :: addDoc 0 ++ [.addToIndex 1, .indexReturn] ++ wholeDump

/-- A document is added and indexed after the table was synced and before the index is written. -/
def addDuringDump : List (Op ℕ ℕ) :=
  .train :: addDoc 0 ++ [.dump] ++ addDoc 1 ++ [.addToIndex 2, .indexReturn] ++
    List.replicate 8 .dump

/-- The second document is added before the first dump clears the dirty flag, and dumped after it. -/
def addBeforeClear : List (Op ℕ ℕ) :=
  .train :: addDoc 0 ++ [.addToIndex 1, .indexReturn] ++ List.replicate 8 .dump ++ addDoc 1 ++
    List.replicate 3 .dump

end DumpState

end AwaDB
