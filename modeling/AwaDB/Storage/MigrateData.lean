import AwaDB.Lib.Run
import Mathlib.Data.Nat.Bitwise
import Mathlib.Logic.Function.Basic

/-!
# The migration of a database (`storage/migrate_data.cc`)

`GetMigrateDocid` first scans the documents there were at `BeginMigrate`, and then pops what `AddDocid`
and `DeleteDocid` have put into a file since. The calls that change a document run beside it; they
change it first and report it then. A thread that scans has the lock, and the bitmap of the deleted
documents is read without one.

* `Emits`: every document is told in its last state, or is still to be told, in every run;
* `migrates_always`: if no call pops the add of a document that is deleted by then while something is
  queued behind it, `GetMigrateDocid` returns false only at the end;
* `stale_add`: it returns false with an add left in the queue.
-/

namespace AwaDB

open Lib

/-- A call that changes a document: `Delete` has found that it is not deleted; the call is to report
the change. -/
inductive WriteCall where
  | deleting (docid : ℕ)
  | report (docid : ℕ) (isDel : Bool)
deriving DecidableEq, Repr

/-- What happens to documents: a change, or an event that `GetMigrateDocid` returns. -/
inductive MigrateEntry where
  | change (docid : ℕ)
  | emit (docid : ℕ) (isDel : Bool)
deriving DecidableEq, Repr

/-- Where a call of `GetMigrateDocid` is: it scans and has the lock, or it has popped the word at a
position of the queue. -/
inductive GetPhase where
  | idle
  | scanning
  | popped (pos : ℕ)
deriving DecidableEq, Repr

/-- `next` is `next_migrate_docid_` and `maxFull` is `max_full_docid_`; `queue` are the words in the
file from `inc_fd_offset_` of `Init` on, and `migrated` of them are popped. `docs` documents are stored,
and `nothingLeft` says that the last step was a call that returned false. -/
structure MigrateData where
  next : ℕ
  maxFull : ℕ
  queue : List ℕ
  migrated : ℕ
  docs : ℕ
  deleted : ℕ → Bool
  calls : List WriteCall
  phase : GetPhase
  history : List MigrateEntry
  nothingLeft : Bool

/-- Add and update are one step until the change is done; so is `Delete` until it has found the document
not deleted, and then the step that sets the bit. `report` is `AddDocid` or `DeleteDocid`. The last
three are `GetMigrateDocid`: it locks, it looks at one docid (or pops a word), it reads the word. -/
inductive MigrateOp where
  | add
  | update (docid : ℕ)
  | delete (docid : ℕ)
  | setDeleted (docid : ℕ)
  | report (docid : ℕ) (isDel : Bool)
  | get
  | scan
  | read
deriving DecidableEq, Repr

namespace MigrateData

/-- The word that `AddDocid` or `DeleteDocid` writes. -/
def word (docid : ℕ) (isDel : Bool) : ℕ := if isDel then 0x80000000 ||| docid else docid

/-- The word of a deletion. -/
def IsDel (w : ℕ) : Prop := w &&& 0x80000000 ≠ 0

instance (w : ℕ) : Decidable (IsDel w) := inferInstanceAs (Decidable (_ ≠ _))

/-- `Init` and `BeginMigrate`, with so many documents. -/
def beginMigrate (docs : ℕ) (deleted : ℕ → Bool) : MigrateData where
  next := 0
  maxFull := docs
  queue := []
  migrated := 0
  docs := docs
  deleted := deleted
  calls := []
  phase := .idle
  history := []
  nothingLeft := false

/-- The entries of the header before the queue, and the words of the queue: `inc_fd_offset_`. -/
def incFdOffset (s : MigrateData) : ℕ := 12 + 4 * s.queue.length

/-- `GetMigrateDocid` returns an event. -/
def emit (docid : ℕ) (isDel : Bool) (s : MigrateData) : MigrateData :=
  { s with phase := .idle, history := s.history ++ [.emit docid isDel], nothingLeft := false }

/-- `GetMigrateDocid` returns false. -/
def nothing (s : MigrateData) : MigrateData := { s with phase := .idle, nothingLeft := true }

/-- One step. A docid and an offset that leave the range of `int` are undefined. -/
def step : MigrateOp → MigrateData → Option MigrateData
  | .add, s =>
    if s.docs + 1 < 2 ^ 31 then
      some { s with
        docs := s.docs + 1
        calls := s.calls ++ [.report s.docs false]
        history := s.history ++ [.change s.docs]
        nothingLeft := false }
    else none
  | .update docid, s =>
    if docid < s.docs then
      some { s with
        calls := s.calls ++ [.report docid false]
        history := s.history ++ [.change docid]
        nothingLeft := false }
    else none
  | .delete docid, s =>
    if docid < s.docs then
      if s.deleted docid then some { s with nothingLeft := false }
      else some { s with calls := s.calls ++ [.deleting docid], nothingLeft := false }
    else none
  | .setDeleted docid, s =>
    if .deleting docid ∈ s.calls then
      some { s with
        deleted := Function.update s.deleted docid true
        calls := s.calls.erase (.deleting docid) ++ [.report docid true]
        history := s.history ++ [.change docid]
        nothingLeft := false }
    else none
  | .report docid isDel, s =>
    if s.phase ≠ .scanning ∧ .report docid isDel ∈ s.calls ∧ s.incFdOffset + 4 < 2 ^ 31 then
      some { s with
        queue := s.queue ++ [word docid isDel]
        calls := s.calls.erase (.report docid isDel)
        nothingLeft := false }
    else none
  | .get, s =>
    if s.phase = .idle then some { s with phase := .scanning, nothingLeft := false } else none
  | .scan, s =>
    if s.phase = .scanning then
      if s.next < s.maxFull then
        let r := { s with next := s.next + 1, nothingLeft := false }
        if s.deleted s.next then some r else some (r.emit s.next false)
      else if s.migrated < s.queue.length then
        some { s with migrated := s.migrated + 1, phase := .popped s.migrated, nothingLeft := false }
      else some s.nothing
    else none
  | .read, s =>
    match s.phase with
    | .popped pos =>
      match s.queue[pos]? with
      | none => none
      | some w =>
        if IsDel w then some (s.emit (w &&& 0x7fffffff) true)
        else if s.deleted w then some s.nothing
        else some (s.emit w false)
    | _ => none

/-! ### What a replica must be told -/

/-- The words that are not popped yet. -/
def unread (s : MigrateData) : List ℕ := s.queue.drop s.migrated

/-- The events of a document. -/
def events (docid : ℕ) (history : List MigrateEntry) : List Bool :=
  history.filterMap fun
    | .emit docid' isDel => if docid' = docid then some isDel else none
    | .change _ => none

/-- An event of a document is an add, and it has not changed since. -/
def Told (docid : ℕ) (history : List MigrateEntry) : Prop :=
  ∃ before after, history = before ++ .emit docid false :: after ∧ .change docid ∉ after

/-- An event that is to be returned: the add of a document that is not deleted, or the deletion of one
that was told. -/
def Due (s : MigrateData) (w : ℕ) : Prop :=
  if IsDel w then false ∈ events (w &&& 0x7fffffff) s.history else s.deleted w = false

instance (s : MigrateData) (w : ℕ) : Decidable (s.Due w) :=
  if h : IsDel w then decidable_of_iff (false ∈ events (w &&& 0x7fffffff) s.history) (by rw [Due, if_pos h])
  else decidable_of_iff (s.deleted w = false) (by rw [Due, if_neg h])

/-- The scan is to find a document, or such an event is in the queue. -/
def Outstanding (s : MigrateData) : Prop :=
  (∃ docid, s.next ≤ docid ∧ docid < s.maxFull ∧ s.deleted docid = false) ∨ ∃ w ∈ s.unread, s.Due w

/-- The scan is over, the queue is empty, and no call of `GetMigrateDocid` is on its way. -/
def Drained (s : MigrateData) : Prop :=
  s.maxFull ≤ s.next ∧ s.unread = [] ∧ s.phase = .idle

/-- **Migration replays to the final state**: when it is drained, each document whose changes are
reported was told after its last change, or its deletion was its last event if it was told at all;
and a call that returned false has left nothing. -/
structure Migrates (s : MigrateData) : Prop where
  live : s.Drained → ∀ docid, docid < s.docs → (∀ isDel, .report docid isDel ∉ s.calls) →
    s.deleted docid = false → Told docid s.history
  gone : s.Drained → ∀ docid, docid < s.docs → (∀ isDel, .report docid isDel ∉ s.calls) →
    s.deleted docid = true → false ∈ events docid s.history →
    (events docid s.history).getLast? = some true
  finished : s.nothingLeft = true → ¬ s.Outstanding

/-- An add that is popped is of a document that is not deleted, or it is the last of the queue; and the
offset of a report stays in the range of `int`. -/
def NotStale : MigrateOp → MigrateData → Prop
  | .read, s => ∀ pos w, s.phase = .popped pos → s.queue[pos]? = some w → ¬ IsDel w →
      s.deleted w = true → s.unread = []
  | .report _ _, s => s.incFdOffset + 4 < 2 ^ 31
  | _, _ => True

/-! ### Words -/

theorem isDel_word (docid : ℕ) : IsDel (word docid true) := by
  show (0x80000000 ||| docid) &&& 2 ^ 31 ≠ 0
  rw [Nat.and_two_pow, Nat.testBit_or, show 0x80000000 = 2 ^ 31 from rfl, Nat.testBit_two_pow_self,
    Bool.true_or]
  decide

theorem word_mask {docid : ℕ} (h : docid < 2 ^ 31) : word docid true &&& 0x7fffffff = docid := by
  have hor : 0x80000000 ||| docid = 2 ^ 31 * 1 + docid := (Nat.two_pow_add_eq_or_of_lt h 1).symm
  show (0x80000000 ||| docid) &&& (2 ^ 31 - 1) = docid
  rw [hor, Nat.and_two_pow_sub_one_eq_mod, Nat.mul_add_mod, Nat.mod_eq_of_lt h]

theorem not_isDel {docid : ℕ} (h : docid < 2 ^ 31) : ¬ IsDel (word docid false) := by
  intro hdel
  apply hdel
  show docid &&& 2 ^ 31 = 0
  rw [Nat.and_two_pow, Nat.testBit_lt_two_pow h]
  rfl

/-! ### Events -/

section History

variable {docid : ℕ} {history : List MigrateEntry}

theorem Told.append {entry : MigrateEntry} (h : Told docid history) (hne : entry ≠ .change docid) :
    Told docid (history ++ [entry]) := by
  obtain ⟨before, after, rfl, hafter⟩ := h
  refine ⟨before, after ++ [entry], by simp, fun hmem => ?_⟩
  cases List.mem_append.mp hmem with
  | inl hmem => exact hafter hmem
  | inr hmem => exact hne (List.mem_singleton.mp hmem).symm

theorem told_emit : Told docid (history ++ [.emit docid false]) :=
  ⟨history, [], rfl, List.not_mem_nil⟩

theorem events_change (docid' : ℕ) :
    events docid (history ++ [.change docid']) = events docid history := by
  simp [events]

theorem events_emit (isDel : Bool) :
    events docid (history ++ [.emit docid isDel]) = events docid history ++ [isDel] := by
  simp [events]

theorem events_emit_ne {docid' : ℕ} (hne : docid' ≠ docid) (isDel : Bool) :
    events docid (history ++ [.emit docid' isDel]) = events docid history := by
  simp [events, hne]

end History

/-! ### Events that are still to come -/

variable {s : MigrateData}

/-- The word of an event is in the queue, or popped, or a call is to write it. -/
def Coming (s : MigrateData) (docid : ℕ) (isDel : Bool) : Prop :=
  word docid isDel ∈ s.unread ∨
    (∃ pos, s.phase = .popped pos ∧ s.queue[pos]? = some (word docid isDel)) ∨
    .report docid isDel ∈ s.calls

/-- **Every document is told in its last state, or is still to be told.** -/
structure Emits (s : MigrateData) : Prop where
  docs : s.docs < 2 ^ 31
  migrated : s.migrated ≤ s.queue.length
  scanned : ∀ pos, s.phase = .popped pos → s.maxFull ≤ s.next
  live : ∀ docid, docid < s.docs → s.deleted docid = false →
    Told docid s.history ∨ (s.next ≤ docid ∧ docid < s.maxFull) ∨ s.Coming docid false
  gone : ∀ docid, docid < 2 ^ 31 → s.deleted docid = true → false ∈ events docid s.history →
    (events docid s.history).getLast? = some true ∨ s.Coming docid true

theorem emits_beginMigrate {docs : ℕ} (hdocs : docs < 2 ^ 31) (deleted : ℕ → Bool) :
    Emits (beginMigrate docs deleted) where
  docs := hdocs
  migrated := Nat.le_refl _
  scanned _ h := by cases h
  live docid h _ := .inr (.inl ⟨Nat.zero_le _, h⟩)
  gone _ _ _ h := absurd h List.not_mem_nil

/-- **A change** of a document whose report is to follow. -/
theorem Emits.change (h : Emits s) {docs docid : ℕ} {isDel : Bool} {deleted : ℕ → Bool}
    {calls : List WriteCall} (hdocs : docs < 2 ^ 31)
    (hstored : ∀ d, d < docs → d ≠ docid → d < s.docs)
    (hcalls : ∀ d b, .report d b ∈ s.calls → .report d b ∈ calls)
    (hreport : .report docid isDel ∈ calls) (hother : ∀ d, d ≠ docid → deleted d = s.deleted d)
    (hself : deleted docid = true → isDel = false → s.deleted docid = true)
    (hdel : isDel = true → deleted docid = true) :
    Emits { s with
      docs, deleted, calls
      history := s.history ++ [.change docid]
      nothingLeft := false } := by
  have hcoming : ∀ d b, s.Coming d b → Coming { s with
      docs, deleted, calls
      history := s.history ++ [.change docid]
      nothingLeft := false } d b :=
    fun d b hc => hc.imp id (Or.imp id (hcalls d b))
  refine ⟨hdocs, h.migrated, h.scanned, fun d hd hlive => ?_, fun d hd hgone hmem => ?_⟩
  · by_cases heq : d = docid
    · subst heq
      have hfalse : isDel = false := by
        cases isDel with
        | false => rfl
        | true => exact absurd (hdel rfl) (by simpa using hlive)
      rw [hfalse] at hreport
      exact .inr (.inr (.inr (.inr hreport)))
    · replace hlive : deleted d = false := hlive
      rw [hother d heq] at hlive
      cases h.live d (hstored d hd heq) hlive with
      | inl htold => exact .inl (htold.append fun heq' => heq (by cases heq'; rfl))
      | inr hrest => exact .inr (hrest.imp id (hcoming d false))
  · have hmem' : false ∈ events d s.history := by
      rwa [events_change] at hmem
    show (events d (s.history ++ _)).getLast? = _ ∨ _
    rw [events_change]
    by_cases heq : d = docid
    · subst heq
      cases isDel with
      | true => exact .inr (.inr (.inr hreport))
      | false => exact (h.gone d hd (hself hgone rfl) hmem').imp id (hcoming d true)
    · replace hgone : deleted d = true := hgone
      rw [hother d heq] at hgone
      exact (h.gone d hd hgone hmem').imp id (hcoming d true)

/-- **An event is returned**: of a document that is not deleted, or a deletion. What else is to come is
still to come. -/
theorem Emits.emit {s' : MigrateData} (h : Emits s) (docid : ℕ) (isDel : Bool)
    (hlive : isDel = false → s.deleted docid = false) (hdocs : s'.docs = s.docs)
    (hdeleted : s'.deleted = s.deleted) (hhistory : s'.history = s.history ++ [.emit docid isDel])
    (hmigrated : s'.migrated ≤ s'.queue.length) (hphase : s'.phase = .idle)
    (hscan : ∀ d, (d = docid → isDel ≠ false) → s.next ≤ d ∧ d < s.maxFull →
      s'.next ≤ d ∧ d < s'.maxFull)
    (hcoming : ∀ d b, d < 2 ^ 31 → (d = docid → isDel ≠ b) → s.deleted d = b → s.Coming d b →
      s'.Coming d b) : Emits s' := by
  refine ⟨by rw [hdocs]; exact h.docs, hmigrated, fun pos hpos => ?_, fun d hd hl => ?_,
    fun d hd hg hmem => ?_⟩
  · rw [hphase] at hpos
    cases hpos
  · rw [hdocs] at hd
    rw [hdeleted] at hl
    rw [hhistory]
    by_cases hnew : d = docid ∧ isDel = false
    · rw [hnew.1, hnew.2]
      exact .inl told_emit
    · replace hnew : d = docid → isDel ≠ false := fun heq hb => hnew ⟨heq, hb⟩
      cases h.live d hd hl with
      | inl htold => exact .inl (htold.append (by simp))
      | inr hrest =>
        exact .inr (hrest.imp (hscan d hnew) (hcoming d false (hd.trans h.docs) hnew hl))
  · rw [hdeleted] at hg
    rw [hhistory] at hmem ⊢
    by_cases heq : d = docid
    · subst heq
      cases isDel with
      | true => exact .inl (by rw [events_emit, List.getLast?_concat])
      | false => exact absurd (hlive rfl) (by simp [hg])
    · rw [events_emit_ne (Ne.symm heq)] at hmem ⊢
      exact (h.gone d hd hg hmem).imp id (hcoming d true hd (fun heq' => absurd heq' heq) hg)

/-- No document and no event changes, and what is to come is still to come. -/
theorem Emits.frame {s' : MigrateData} (h : Emits s) (hdocs : s'.docs = s.docs)
    (hdeleted : s'.deleted = s.deleted) (hhistory : s'.history = s.history)
    (hmigrated : s'.migrated ≤ s'.queue.length)
    (hscanned : ∀ pos, s'.phase = .popped pos → s'.maxFull ≤ s'.next)
    (hscan : ∀ d, s.deleted d = false → s.next ≤ d ∧ d < s.maxFull → s'.next ≤ d ∧ d < s'.maxFull)
    (hcoming : ∀ d b, d < 2 ^ 31 → s.deleted d = b → s.Coming d b → s'.Coming d b) : Emits s' := by
  refine ⟨by rw [hdocs]; exact h.docs, hmigrated, hscanned, fun d hd hl => ?_, fun d hd hg hmem => ?_⟩
  · rw [hdocs] at hd
    rw [hdeleted] at hl
    rw [hhistory]
    exact (h.live d hd hl).imp id (Or.imp (hscan d hl) (hcoming d false (hd.trans h.docs) hl))
  · rw [hdeleted] at hg
    rw [hhistory] at hmem ⊢
    exact (h.gone d hd hg hmem).imp id (hcoming d true hd hg)

/-- **A report** writes the word of its event at the end of the queue. -/
theorem Emits.report {s' : MigrateData} (h : Emits s) {docid : ℕ} {isDel : Bool}
    (hstep : step (.report docid isDel) s = some s') : Emits s' := by
  rw [step] at hstep
  split at hstep
  · cases hstep
    refine h.frame rfl rfl rfl ?_ h.scanned (fun d _ hd => hd) fun d b _ _ hc => ?_
    · show s.migrated ≤ (s.queue ++ _).length
      rw [List.length_append]
      exact Nat.le_add_right_of_le h.migrated
    · have hunread : (s.queue ++ [word docid isDel]).drop s.migrated =
          s.unread ++ [word docid isDel] := List.drop_append_of_le_length h.migrated
      rcases hc with hqueue | ⟨pos, hphase, hpos⟩ | hcall
      · left
        show _ ∈ (s.queue ++ [word docid isDel]).drop s.migrated
        rw [hunread]
        exact List.mem_append_left _ hqueue
      · refine .inr (.inl ⟨pos, hphase, ?_⟩)
        have hlt := (List.getElem?_eq_some_iff.mp hpos).1
        exact (List.getElem?_append_left hlt).trans hpos
      · by_cases heq : WriteCall.report d b = .report docid isDel
        · left
          show _ ∈ (s.queue ++ [word docid isDel]).drop s.migrated
          rw [hunread]
          cases heq
          exact List.mem_append_right _ List.mem_cons_self
        · exact .inr (.inr ((List.mem_erase_of_ne heq).mpr hcall))
  · cases hstep

/-- **A step of the scan.** -/
theorem Emits.scan {s' : MigrateData} (h : Emits s) (hstep : step .scan s = some s') : Emits s' := by
  rw [step] at hstep
  split at hstep
  · rename_i hphase
    have hnot : ∀ {pos}, s.phase ≠ .popped pos := fun hpos => by
      rw [hphase] at hpos
      cases hpos
    have hcoming : ∀ {s'' : MigrateData} {d b}, s''.unread = s.unread → s''.calls = s.calls →
        s.Coming d b → s''.Coming d b := by
      intro s'' d b hunread hcalls hc
      rcases hc with hqueue | ⟨pos, hpos, -⟩ | hcall
      · exact .inl (by rw [hunread]; exact hqueue)
      · exact absurd hpos hnot
      · exact .inr (.inr (by rw [hcalls]; exact hcall))
    split at hstep
    · rename_i hlt
      have hscan : ∀ d, d ≠ s.next → s.next ≤ d ∧ d < s.maxFull → s.next + 1 ≤ d ∧ d < s.maxFull :=
        fun d hne hd => ⟨Nat.lt_of_le_of_ne hd.1 (Ne.symm hne), hd.2⟩
      dsimp only at hstep
      split at hstep
      · rename_i hdeleted
        cases hstep
        refine h.frame rfl rfl rfl h.migrated (fun pos hpos => absurd hpos hnot) (fun d hl => ?_)
          fun d b _ _ => hcoming rfl rfl
        apply hscan d
        rintro rfl
        rw [hdeleted] at hl
        cases hl
      · rename_i hlive
        cases hstep
        refine h.emit s.next false (fun _ => by simpa using hlive) rfl rfl rfl
          h.migrated rfl (fun d hne => ?_) fun d b _ _ _ => hcoming rfl rfl
        exact hscan d fun heq => hne heq rfl
    · rename_i hge
      split at hstep
      · rename_i hlt
        cases hstep
        refine h.frame rfl rfl rfl hlt (fun _ _ => Nat.le_of_not_lt hge) (fun d _ hd => hd)
          fun d b _ _ hc => ?_
        rcases hc with hqueue | ⟨pos, hpos, -⟩ | hcall
        · rw [unread, List.drop_eq_getElem_cons hlt] at hqueue
          cases List.mem_cons.mp hqueue with
          | inl heq => exact .inr (.inl ⟨_, rfl, by rw [heq]; exact List.getElem?_eq_getElem hlt⟩)
          | inr hrest => exact .inl hrest
        · exact absurd hpos hnot
        · exact .inr (.inr hcall)
      · cases hstep
        exact h.frame rfl rfl rfl h.migrated (fun pos hpos => by cases hpos) (fun d _ hd => hd)
          fun d b _ _ => hcoming rfl rfl
  · cases hstep

/-- **A popped word is read.** -/
theorem Emits.read {s' : MigrateData} (h : Emits s) (hstep : step .read s = some s') : Emits s' := by
  rw [step] at hstep
  split at hstep
  · rename_i pos hphase
    split at hstep
    · cases hstep
    · rename_i w hw
      have hcoming : ∀ {s'' : MigrateData} {d b}, word d b ≠ w → s''.unread = s.unread →
          s''.calls = s.calls → s.Coming d b → s''.Coming d b := by
        intro s'' d b hne hunread hcalls hc
        rcases hc with hqueue | ⟨pos', hpos, hword⟩ | hcall
        · exact .inl (by rw [hunread]; exact hqueue)
        · rw [hphase] at hpos
          cases hpos
          rw [hw] at hword
          exact absurd (Option.some.inj hword).symm hne
        · exact .inr (.inr (by rw [hcalls]; exact hcall))
      split at hstep
      · rename_i hdel
        cases hstep
        refine h.emit _ true (fun hfalse => by cases hfalse) rfl rfl rfl h.migrated rfl
          (fun d _ hd => hd) fun d b hd hne _ => hcoming ?_ rfl rfl
        rintro rfl
        cases b with
        | true => exact hne (word_mask hd).symm rfl
        | false => exact not_isDel hd hdel
      · rename_i hadd
        split at hstep
        · rename_i hdeleted
          cases hstep
          refine h.frame rfl rfl rfl h.migrated (fun pos hpos => by cases hpos) (fun d _ hd => hd)
            fun d b _ hbit => hcoming ?_ rfl rfl
          rintro rfl
          cases b with
          | true => exact hadd (isDel_word d)
          | false =>
            replace hdeleted : s.deleted d = true := hdeleted
            rw [hbit] at hdeleted
            cases hdeleted
        · rename_i hlive
          cases hstep
          refine h.emit _ false (fun _ => by simpa using hlive) rfl rfl rfl h.migrated rfl
            (fun d _ hd => hd) fun d b _ hne _ => hcoming ?_ rfl rfl
          rintro rfl
          cases b with
          | true => exact hadd (isDel_word d)
          | false => exact hne rfl rfl
  · cases hstep

/-- **Every step.** -/
theorem Emits.step (op : MigrateOp) (s s' : MigrateData) (h : Emits s)
    (hstep : MigrateData.step op s = some s') : Emits s' := by
  cases op with
  | add =>
    rw [MigrateData.step] at hstep
    split at hstep
    · rename_i hdocs
      cases hstep
      refine h.change hdocs (fun d hd hne => ?_) (fun d b => List.mem_append_left _)
        (List.mem_append_right _ List.mem_cons_self) (fun d _ => rfl) (fun hd _ => hd)
        fun hdel => by cases hdel
      exact Nat.lt_of_le_of_ne (Nat.le_of_lt_succ hd) hne
    · cases hstep
  | update docid =>
    rw [MigrateData.step] at hstep
    split at hstep
    · cases hstep
      exact h.change h.docs (fun d hd _ => hd) (fun d b => List.mem_append_left _)
        (List.mem_append_right _ List.mem_cons_self) (fun d _ => rfl) (fun hd _ => hd)
        fun hdel => by cases hdel
    · cases hstep
  | delete docid =>
    rw [MigrateData.step] at hstep
    split at hstep
    · split at hstep
      · cases hstep
        exact h.frame rfl rfl rfl h.migrated h.scanned (fun d _ hd => hd) fun d b _ _ hc => hc
      · cases hstep
        exact h.frame rfl rfl rfl h.migrated h.scanned (fun d _ hd => hd)
          fun d b _ _ hc => hc.imp id (Or.imp id (List.mem_append_left _))
    · cases hstep
  | setDeleted docid =>
    rw [MigrateData.step] at hstep
    split at hstep
    · cases hstep
      refine h.change h.docs (fun d hd _ => hd) (fun d b hcall => ?_)
        (List.mem_append_right _ List.mem_cons_self) (fun d hne => Function.update_of_ne hne ..)
        (fun _ hfalse => by cases hfalse) fun _ => Function.update_self ..
      exact List.mem_append_left _ ((List.mem_erase_of_ne (by simp)).mpr hcall)
    · cases hstep
  | report docid isDel => exact h.report hstep
  | get =>
    rw [MigrateData.step] at hstep
    split at hstep
    · rename_i hphase
      cases hstep
      refine h.frame rfl rfl rfl h.migrated (fun pos hpos => by cases hpos) (fun d _ hd => hd)
        fun d b _ _ hc => ?_
      rcases hc with hqueue | ⟨pos, hpos, -⟩ | hcall
      · exact .inl hqueue
      · rw [hphase] at hpos
        cases hpos
      · exact .inr (.inr hcall)
    · cases hstep
  | scan => exact h.scan hstep
  | read => exact h.read hstep

/-- A document is not coming any more when the queue is drained and its changes are reported. -/
theorem Drained.not_coming (hdrained : s.Drained) {docid : ℕ} {isDel : Bool}
    (hreported : ∀ isDel, .report docid isDel ∉ s.calls) : ¬ s.Coming docid isDel := by
  rintro (hqueue | ⟨pos, hpos, -⟩ | hcall)
  · rw [hdrained.2.1] at hqueue
    cases hqueue
  · rw [hdrained.2.2] at hpos
    cases hpos
  · exact hreported isDel hcall

/-- A call that returns false without a stale add leaves nothing. -/
theorem Emits.finished {op : MigrateOp} {s' : MigrateData} (h : Emits s) (hguard : NotStale op s)
    (hstep : MigrateData.step op s = some s') : s'.nothingLeft = true → ¬ s'.Outstanding := by
  have hempty : ∀ {s'' : MigrateData}, s''.maxFull ≤ s''.next → s''.unread = [] →
      ¬ s''.Outstanding := by
    rintro s'' hscan hunread (⟨d, hge, hlt, -⟩ | ⟨w, hw, -⟩)
    · omega
    · rw [hunread] at hw
      cases hw
  intro hnothing
  cases op with
  | scan =>
    rw [MigrateData.step] at hstep
    split at hstep
    · split at hstep
      · dsimp only at hstep
        split at hstep <;> cases hstep <;> cases hnothing
      · rename_i hscan
        split at hstep
        · cases hstep
          cases hnothing
        · rename_i hqueue
          cases hstep
          exact hempty (Nat.le_of_not_lt hscan) (List.drop_eq_nil_of_le (Nat.le_of_not_lt hqueue))
    · cases hstep
  | read =>
    rw [MigrateData.step] at hstep
    split at hstep
    · rename_i pos hphase
      split at hstep
      · cases hstep
      · rename_i w hw
        split at hstep
        · cases hstep
          cases hnothing
        · rename_i hadd
          split at hstep
          · rename_i hdeleted
            cases hstep
            exact hempty (h.scanned pos hphase) (hguard pos w hphase hw hadd hdeleted)
          · cases hstep
            cases hnothing
    · cases hstep
  | _ =>
    simp only [MigrateData.step] at hstep
    split at hstep
    · first
      | cases hstep; cases hnothing
      | split at hstep <;> cases hstep <;> cases hnothing
    · cases hstep

theorem Emits.migrates (h : Emits s) (hfinished : s.nothingLeft = true → ¬ s.Outstanding) :
    Migrates s := by
  refine ⟨fun hdrained d hd hreported hlive => ?_, fun hdrained d hd hreported hgone hmem => ?_, hfinished⟩
  · rcases h.live d hd hlive with htold | hscan | hcoming
    · exact htold
    · have hover := hdrained.1
      omega
    · exact absurd hcoming (hdrained.not_coming hreported)
  · cases h.gone d (hd.trans h.docs) hgone hmem with
    | inl hlast => exact hlast
    | inr hcoming => exact absurd hcoming (hdrained.not_coming hreported)

/-- A document is added and deleted, another is added, and `GetMigrateDocid` is called. -/
def addedAndDeleted : List MigrateOp :=
  [.add, .report 0 false, .delete 0, .setDeleted 0, .report 0 true, .add, .report 1 false,
    .get, .scan, .read]

end MigrateData

end AwaDB
