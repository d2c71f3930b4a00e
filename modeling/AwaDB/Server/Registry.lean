import AwaDB.Lib.Run
import AwaDB.Table.Row
import Mathlib.Data.List.Dedup
import Mathlib.Logic.Function.Basic

/-!
# The tables of the server (`awadb_async_call.cc`, `awadb_server.cc`)

The server has its engines under the keys `db/table`, and for each database the names of its tables in
one string. A request appends the name of each of its tables to one key. After a restart both maps are
made again from the directories.

* `Consistent`: a table is found under its key if a request has created it, with the fields of the
  requests, and the names of a database are those of its tables;
* `consistent_always`: that is so in every run of requests for one table each, with names that fit a key,
  an engine that takes the fields, and no restart after fields were added;
* `second_table`: the second table of a request is not found.
-/

namespace AwaDB

open Lib

/-- `FieldMeta` of a request. -/
structure FieldMeta where
  name : Bytes
  dataType : DataType
  isIndex : Bool
deriving DecidableEq, Repr

/-- An engine with a table: the fields of its schema, and those that were added. -/
structure TableEngine where
  fields : List FieldMeta
  added : List FieldMeta
deriving DecidableEq, Repr

/-- `TableMeta` of a request: the name and the fields. -/
abbrev TableMeta := Bytes × List FieldMeta

/-- `engines` is `table2engine_`, `db2tables` is `db2tables_`; `disk` are the directories of the tables
with the schemas in them. `asked` are the tables and fields that requests have asked for with success. -/
structure TableServer where
  engines : Bytes → Option TableEngine
  db2tables : Bytes → Option Bytes
  disk : List (Bytes × Option (List FieldMeta))
  asked : Bytes → Bytes → Option (List FieldMeta)

/-- The requests that change the server, and a restart. -/
inductive ServerOp where
  | create (db : Bytes) (tables : List TableMeta)
  | addFields (db : Bytes) (tables : List TableMeta)
  | restart
deriving DecidableEq, Repr

/-- The slash of a path, and the colon between the names of tables. -/
def slash : UInt8 := 47

/-- The separator in `db2tables_`. -/
def colon : UInt8 := 58

namespace TableServer

/-- A server on an empty directory. -/
def start : TableServer := ⟨fun _ => none, fun _ => none, [], fun _ _ => none⟩

/-- The key of a table. -/
def path (db table : Bytes) : Bytes := db ++ slash :: table

/-! ### Create -/

/-- The names of a database with one more. -/
def joinName (tables : Option Bytes) (table : Bytes) : Bytes :=
  match tables with
  | none => table
  | some tables => if tables = [] then table else tables ++ colon :: table

/-- A table whose engine is new: its directory, its key and its name are there also if the engine does
not take the fields. -/
def insert (db table key : Bytes) (fields : List FieldMeta) (taken : Bool) (s : TableServer) :
    TableServer :=
  { s with
    engines := Function.update s.engines key (some ⟨if taken then fields else [], []⟩)
    db2tables := Function.update s.db2tables db (some (joinName (s.db2tables db) table))
    disk := s.disk.filter (fun d => d.1 ≠ key) ++
      [(key, if taken then some fields else (s.disk.lookup key).join)] }

variable (takes : List FieldMeta → Bool)

/-- The loop of `ProcessCreateRequest`; `key` is `db_table_name`, which goes on from table to table. -/
def createTables (db : Bytes) : List TableMeta → Bytes → Bool → TableServer → ℤ × TableServer
  | [], _, status, s => (if status then 0 else -3, s)
  | (table, fields) :: tables, key, status, s =>
    if table = [] then createTables db tables key status s
    else
      if (s.engines (key ++ table)).isSome then (1, s)
      else
        createTables db tables (key ++ table) (takes fields)
          (s.insert db table (key ++ table) fields (takes fields))

/-- `CreateCall::ProcessCreateRequest`. -/
def processCreate (db : Bytes) (tables : List TableMeta) (s : TableServer) : ℤ × TableServer :=
  if db = [] then (-1, s)
  else if tables = [] then (-2, s)
  else createTables takes db tables (db ++ [slash]) true s

/-! ### AddFields -/

/-- `AddNewField` of an engine: a field of the schema is refused, one that was added is left. -/
def addNewField (f : FieldMeta) (e : TableEngine) : Bool × TableEngine :=
  if f.name ∈ e.fields.map FieldMeta.name then (false, e)
  else if f.name ∈ e.added.map FieldMeta.name then (true, e)
  else (true, { e with added := e.added ++ [f] })

/-- The loop over the fields of a table. A vector is left out. -/
def addNewFields : List FieldMeta → Bool → TableEngine → Bool × TableEngine
  | [], status, e => (status, e)
  | f :: fields, status, e =>
    if f.dataType = .vector then addNewFields fields status e
    else addNewFields fields (addNewField f e).1 (addNewField f e).2

/-- The loop of `ProcessAddFieldsRequest`. -/
def addFieldsTables : List TableMeta → Bytes → Bool → TableServer → Bool × TableServer
  | [], _, status, s => (status, s)
  | (table, fields) :: tables, key, status, s =>
    if table = [] then addFieldsTables tables key status s
    else
      match s.engines (key ++ table) with
      | none => (false, s)
      | some e =>
        addFieldsTables tables (key ++ table) (addNewFields fields status e).1
          { s with
            engines := Function.update s.engines (key ++ table)
              (some (addNewFields fields status e).2) }

/-- `AddFieldsCall::ProcessAddFieldsRequest`. -/
def processAddFields (db : Bytes) (tables : List TableMeta) (s : TableServer) : Bool × TableServer :=
  if db = [] then (false, s) else addFieldsTables tables (db ++ [slash]) true s

/-! ### CheckTable -/

/-- `CheckTable` of a database without a table. -/
def checkTables (db : Bytes) (s : TableServer) : List Bytes :=
  match s.db2tables db with
  | none => []
  | some tables => (tables.splitOn colon).filter fun table => table ≠ []

/-- `CheckTable` of a table: the fields of its engine. -/
def checkTable (db table : Bytes) (s : TableServer) : Option (List FieldMeta) :=
  (s.engines (path db table)).map fun e => e.fields ++ e.added

/-! ### A restart -/

/-- The directories in the directories of the databases. -/
def folders (s : TableServer) : List (Bytes × Bytes) :=
  (s.disk.filterMap fun d =>
    match d.1.splitOn slash with
    | db :: table :: _ => some (db, table)
    | _ => none).dedup

/-- What `Load` finds in a directory. -/
def schema (s : TableServer) (folder : Bytes × Bytes) : Option (List FieldMeta) :=
  (s.disk.lookup (path folder.1 folder.2)).join

/-- `InitTableEngines`: the directories with a schema. -/
def loaded (s : TableServer) : List (Bytes × Bytes) := s.folders.filter fun r => (s.schema r).isSome

/-- `db2tables_` with the names of some tables. -/
def joined (tables : List Bytes) : Option Bytes :=
  if tables = [] then none else some ([colon].intercalate tables)

/-- The server after a restart. -/
def restart (s : TableServer) : TableServer :=
  { s with
    engines := fun key =>
      (s.loaded.find? fun r => path r.1 r.2 = key).bind fun r => (s.schema r).map fun fields => ⟨fields, []⟩
    db2tables := fun db => joined ((s.loaded.filter fun r => r.1 = db).map Prod.snd) }

/-! ### Runs -/

/-- A table that was created. -/
def askCreate (db : Bytes) (asked : Bytes → Bytes → Option (List FieldMeta)) (t : TableMeta) :
    Bytes → Bytes → Option (List FieldMeta) :=
  if t.1 = [] then asked else Function.update asked db (Function.update (asked db) t.1 (some t.2))

/-- Fields that were added. -/
def askFields (db : Bytes) (asked : Bytes → Bytes → Option (List FieldMeta)) (t : TableMeta) :
    Bytes → Bytes → Option (List FieldMeta) :=
  if t.1 = [] then asked
  else Function.update asked db (Function.update (asked db) t.1 ((asked db t.1).map (· ++ t.2)))

/-- One step. -/
def step : ServerOp → TableServer → Option TableServer
  | .create db tables, s =>
    let r := processCreate takes db tables s
    some { r.2 with asked := if r.1 = 0 then tables.foldl (askCreate db) s.asked else s.asked }
  | .addFields db tables, s =>
    let r := processAddFields db tables s
    some { r.2 with asked := if r.1 then tables.foldl (askFields db) s.asked else s.asked }
  | .restart, s => some s.restart

/-- **The registry is consistent.** -/
structure Consistent (s : TableServer) : Prop where
  found : ∀ db table, s.checkTable db table = s.asked db table
  listed : ∀ db table, table ∈ s.checkTables db ↔ (s.asked db table).isSome
  nodup : ∀ db, (s.checkTables db).Nodup

/-- A name of a directory. -/
def DirName (name : Bytes) : Prop := name ≠ [] ∧ slash ∉ name ∧ name ≠ [46] ∧ name ≠ [46, 46]

/-- A request is for one table, whose name and whose database's name are names of directories, the first
without a colon; the engine takes the fields of a new table, and fields that are added are new and no
vectors. A restart finds no added fields. -/
def Plain : ServerOp → TableServer → Prop
  | .create db tables, s => ∃ table fields, tables = [(table, fields)] ∧ DirName db ∧ DirName table ∧
      colon ∉ table ∧ (s.engines (path db table) = none → takes fields = true)
  | .addFields db tables, s => ∃ table fields, tables = [(table, fields)] ∧ DirName db ∧
      DirName table ∧ ∀ e, s.engines (path db table) = some e →
        (∀ f ∈ fields, f.dataType ≠ .vector) ∧
        ((e.fields ++ e.added).map FieldMeta.name).Disjoint (fields.map FieldMeta.name) ∧
        (fields.map FieldMeta.name).Nodup
  | .restart, s => ∀ key e, s.engines key = some e → e.added = []

/-! ### Keys and names -/

/-- A key has one slash. -/
theorem path_inj {db table db' table' : Bytes} (hdb : slash ∉ db) (htable : slash ∉ table)
    (h : path db' table' = path db table) : db' = db ∧ table' = table := by
  induction db generalizing db' with
  | nil =>
    cases db' with
    | nil => exact ⟨rfl, (List.cons.inj h).2⟩
    | cons x db' =>
      have htail : db' ++ slash :: table' = table := (List.cons.inj h).2
      rw [← htail] at htable
      exact absurd (List.mem_append_right _ List.mem_cons_self) htable
  | cons a db ih =>
    cases db' with
    | nil =>
      have hhead : slash = a := (List.cons.inj h).1
      rw [← hhead] at hdb
      exact absurd List.mem_cons_self hdb
    | cons x db' =>
      obtain ⟨hx, htail⟩ := List.cons.inj h
      obtain ⟨rfl, rfl⟩ := ih (fun hmem => hdb (List.mem_cons_of_mem a hmem)) htail
      exact ⟨by rw [hx], rfl⟩

theorem splitOn_path {db table : Bytes} (hdb : slash ∉ db) (htable : slash ∉ table) :
    (path db table).splitOn slash = [db, table] := by
  have hparts : ∀ l ∈ [db, table], slash ∉ l := by
    intro l hl
    rcases List.mem_cons.mp hl with rfl | hl
    · exact hdb
    · rw [List.mem_singleton.mp hl]
      exact htable
  rw [← List.splitOn_intercalate slash hparts (by simp)]
  simp [path, List.intercalate_cons_cons]

theorem intercalate_concat {names : List Bytes} (hne : names ≠ []) (table : Bytes) :
    [colon].intercalate (names ++ [table]) = [colon].intercalate names ++ colon :: table := by
  induction names with
  | nil => exact absurd rfl hne
  | cons a names ih =>
    cases names with
    | nil => simp [List.intercalate_cons_cons]
    | cons b names =>
      have hrest := ih (by simp)
      rw [List.cons_append, List.cons_append, List.intercalate_cons_cons, ← List.cons_append, hrest,
        List.intercalate_cons_cons]
      simp

/-- One more name. -/
theorem joinName_joined {names : List Bytes} (hnames : ∀ name ∈ names, name ≠ []) (table : Bytes) :
    some (joinName (joined names) table) = joined (names ++ [table]) := by
  cases names with
  | nil => simp [joined, joinName]
  | cons a names =>
    have hne : [colon].intercalate (a :: names) ≠ [] := by
      cases names with
      | nil => simpa using hnames a List.mem_cons_self
      | cons b names => simp [List.intercalate_cons_cons]
    rw [joined, joined, if_neg (by simp), if_neg (by simp), joinName, if_neg hne,
      intercalate_concat (by simp)]

/-- The names are read back. -/
theorem splitOn_joined {names : List Bytes} (hnames : ∀ name ∈ names, name ≠ [] ∧ colon ∉ name) :
    (match joined names with
      | none => []
      | some tables => (tables.splitOn colon).filter fun table => table ≠ []) = names := by
  cases names with
  | nil => rfl
  | cons a names =>
    rw [joined, if_neg (by simp)]
    dsimp only
    rw [List.splitOn_intercalate colon (fun l hl => (hnames l hl).2) (by simp)]
    exact List.filter_eq_self.mpr fun l hl => by simpa using (hnames l hl).1

/-! ### The tables there are -/

variable {takes} {s : TableServer}

/-- The names of a database. -/
def names (rows : List (Bytes × TableMeta)) (db : Bytes) : List Bytes :=
  (rows.filter fun r => r.1 = db).map fun r => r.2.1

/-- The maps and the directories are those of some tables. -/
structure Registered (s : TableServer) (rows : List (Bytes × TableMeta)) : Prop where
  valid : ∀ r ∈ rows, DirName r.1 ∧ DirName r.2.1 ∧ colon ∉ r.2.1
  nodup : (rows.map fun r => (r.1, r.2.1)).Nodup
  disk : s.disk = rows.map fun r => (path r.1 r.2.1, some r.2.2)
  engine : ∀ r ∈ rows, ∃ added, s.engines (path r.1 r.2.1) = some ⟨r.2.2, added⟩
  only : ∀ key e, s.engines key = some e → ∃ r ∈ rows, key = path r.1 r.2.1
  asked : ∀ db table, s.asked db table = s.checkTable db table
  tables : ∀ db, s.db2tables db = joined (names rows db)

theorem registered_start : Registered start [] :=
  ⟨fun r hr => absurd hr List.not_mem_nil, List.nodup_nil, rfl, fun r hr => absurd hr List.not_mem_nil,
    fun key e h => (by cases h), fun db table => rfl, fun db => rfl⟩

variable {rows : List (Bytes × TableMeta)}

theorem mem_names {db table : Bytes} :
    table ∈ names rows db ↔ ∃ fields, (db, table, fields) ∈ rows := by
  simp only [names, List.mem_map, List.mem_filter, decide_eq_true_eq]
  constructor
  · rintro ⟨⟨db', table', fields⟩, ⟨hmem, rfl⟩, rfl⟩
    exact ⟨fields, hmem⟩
  · rintro ⟨fields, hmem⟩
    exact ⟨_, ⟨hmem, rfl⟩, rfl⟩

theorem Registered.nodup_names (h : Registered s rows) (db : Bytes) : (names rows db).Nodup := by
  have hpairs : ((names rows db).map fun table => (db, table)).Nodup := by
    have hsub := ((List.filter_sublist (l := rows) (p := fun r => r.1 = db)).map
      fun r => (r.1, r.2.1)).nodup h.nodup
    have hsame : (rows.filter fun r => r.1 = db).map (fun r => (r.1, r.2.1)) =
        (names rows db).map fun table => (db, table) := by
      rw [names, List.map_map]
      refine List.map_congr_left fun r hr => ?_
      have hdb : r.1 = db := by simpa using (List.mem_filter.mp hr).2
      rw [hdb]
      rfl
    rwa [hsame] at hsub
  exact hpairs.of_map _

theorem Registered.checkTables (h : Registered s rows) (db : Bytes) :
    s.checkTables db = names rows db := by
  rw [TableServer.checkTables, h.tables db]
  refine splitOn_joined fun table htable => ?_
  obtain ⟨fields, hmem⟩ := mem_names.mp htable
  obtain ⟨-, htable, hcolon⟩ := h.valid _ hmem
  exact ⟨htable.1, hcolon⟩

/-- The table of a key. -/
theorem Registered.row (h : Registered s rows) {db table : Bytes} {e : TableEngine}
    (he : s.engines (path db table) = some e) : (db, table, e.fields) ∈ rows := by
  obtain ⟨⟨db', table', fields⟩, hmem, hpath⟩ := h.only _ e he
  obtain ⟨⟨-, hdb, -⟩, ⟨-, htable, -⟩, -⟩ := h.valid _ hmem
  obtain ⟨rfl, rfl⟩ := path_inj hdb htable hpath
  obtain ⟨added, hadded⟩ := h.engine _ hmem
  rw [he] at hadded
  cases hadded
  exact hmem

theorem Registered.consistent (h : Registered s rows) : Consistent s := by
  refine ⟨fun db table => (h.asked db table).symm, fun db table => ?_, fun db => ?_⟩
  · rw [h.checkTables, mem_names, h.asked, checkTable, Option.isSome_map]
    constructor
    · rintro ⟨fields, hmem⟩
      obtain ⟨added, hadded⟩ := h.engine _ hmem
      rw [hadded]
      rfl
    · intro hsome
      obtain ⟨e, he⟩ := Option.isSome_iff_exists.mp hsome
      exact ⟨_, h.row he⟩
  · rw [h.checkTables]
    exact h.nodup_names db

/-! ### Requests -/

theorem key_path (db table : Bytes) : db ++ [slash] ++ table = path db table := by
  simp [path]

theorem processCreate_single {db table : Bytes} {fields : List FieldMeta} (hdb : db ≠ [])
    (htable : table ≠ []) : processCreate takes db [(table, fields)] s =
      if (s.engines (path db table)).isSome then (1, s)
      else (if takes fields then 0 else -3, s.insert db table (path db table) fields (takes fields)) := by
  rw [processCreate, if_neg hdb, if_neg (by simp), createTables, if_neg htable, key_path]
  rfl

/-- **One engine is replaced**, and with it what was asked of its table. -/
theorem Registered.asked_update (h : Registered s rows) {db table : Bytes} (hdb : slash ∉ db)
    (htable : slash ∉ table) {engine : Option TableEngine} {value : Option (List FieldMeta)}
    (hvalue : value = engine.map fun e => e.fields ++ e.added) (db' table' : Bytes) :
    Function.update s.asked db (Function.update (s.asked db) table value) db' table' =
      (Function.update s.engines (path db table) engine (path db' table')).map
        fun e => e.fields ++ e.added := by
  have hold : s.asked db' table' = _ := h.asked db' table'
  by_cases heq : path db' table' = path db table
  · obtain ⟨rfl, rfl⟩ := path_inj hdb htable heq
    rw [Function.update_self, Function.update_self, Function.update_self, hvalue]
  · rw [Function.update_of_ne heq]
    by_cases hd : db' = db
    · subst hd
      have ht : table' ≠ table := fun ht => heq (by rw [ht])
      rw [Function.update_self, Function.update_of_ne ht]
      exact hold
    · rw [Function.update_of_ne hd]
      exact hold

/-- **A table that was created** is one more. -/
theorem Registered.insert (h : Registered s rows) {db table : Bytes} {fields : List FieldMeta}
    (hdb : DirName db) (htable : DirName table) (hcolon : colon ∉ table)
    (hnew : s.engines (path db table) = none) :
    Registered { s.insert db table (path db table) fields true with
      asked := askCreate db s.asked (table, fields) } (rows ++ [(db, table, fields)]) := by
  have hne : ∀ r ∈ rows, path r.1 r.2.1 ≠ path db table := by
    intro r hr heq
    obtain ⟨added, hadded⟩ := h.engine r hr
    rw [heq, hnew] at hadded
    cases hadded
  refine ⟨fun r hr => ?_, ?_, ?_, fun r hr => ?_, fun key e he => ?_, fun db' table' => ?_, fun db' => ?_⟩
  · cases List.mem_append.mp hr with
    | inl hr => exact h.valid r hr
    | inr hr =>
      rw [List.mem_singleton.mp hr]
      exact ⟨hdb, htable, hcolon⟩
  · rw [List.map_append, List.nodup_append]
    refine ⟨h.nodup, List.nodup_singleton _, fun a ha b hb heq => ?_⟩
    obtain ⟨r, hr, rfl⟩ := List.mem_map.mp ha
    rw [List.mem_singleton.mp hb] at heq
    apply hne r hr
    rw [(Prod.mk.inj heq).1, (Prod.mk.inj heq).2]
  · show s.disk.filter _ ++ _ = _
    have hall : s.disk.filter (fun d => d.1 ≠ path db table) = s.disk := by
      refine List.filter_eq_self.mpr fun d hd => ?_
      rw [h.disk] at hd
      obtain ⟨r, hr, rfl⟩ := List.mem_map.mp hd
      simpa using hne r hr
    rw [hall, h.disk, List.map_append]
    rfl
  · show ∃ added, Function.update s.engines (path db table) _ _ = _
    cases List.mem_append.mp hr with
    | inl hr =>
      rw [Function.update_of_ne (hne r hr)]
      exact h.engine r hr
    | inr hr =>
      rw [List.mem_singleton.mp hr, Function.update_self]
      exact ⟨[], rfl⟩
  · replace he : Function.update s.engines (path db table) _ key = some e := he
    by_cases heq : key = path db table
    · exact ⟨_, List.mem_append_right _ List.mem_cons_self, heq⟩
    · rw [Function.update_of_ne heq] at he
      obtain ⟨r, hr, hkey⟩ := h.only key e he
      exact ⟨r, List.mem_append_left _ hr, hkey⟩
  · rw [askCreate, if_neg htable.1]
    refine h.asked_update hdb.2.1 htable.2.1 ?_ db' table'
    simp
  · show Function.update s.db2tables db (some (joinName (s.db2tables db) table)) db' = _
    by_cases hd : db' = db
    · subst hd
      have hnames : names (rows ++ [(db', table, fields)]) db' = names rows db' ++ [table] := by
        simp [names]
      rw [Function.update_self, h.tables, hnames]
      refine joinName_joined (fun name hname => ?_) table
      obtain ⟨fields', hmem⟩ := mem_names.mp hname
      exact (h.valid _ hmem).2.1.1
    · have hnames : names (rows ++ [(db, table, fields)]) db' = names rows db' := by
        simp [names, Ne.symm hd]
      rw [Function.update_of_ne hd, hnames]
      exact h.tables db'

theorem Registered.create {s' : TableServer} (h : Registered s rows) {db : Bytes}
    {tables : List TableMeta} (hguard : Plain takes (.create db tables) s)
    (hstep : step takes (.create db tables) s = some s') : ∃ rows', Registered s' rows' := by
  obtain ⟨table, fields, rfl, hdb, htable, hcolon, htakes⟩ := hguard
  rw [step, processCreate_single hdb.1 htable.1] at hstep
  cases hengine : s.engines (path db table) with
  | some e =>
    rw [hengine] at hstep
    cases hstep
    exact ⟨rows, h⟩
  | none =>
    rw [hengine, htakes hengine] at hstep
    cases hstep
    exact ⟨_, h.insert hdb htable hcolon hengine⟩

/-- Fields that are new and no vectors are all added. -/
theorem addNewFields_eq {fields : List FieldMeta} {e : TableEngine}
    (hvector : ∀ f ∈ fields, f.dataType ≠ .vector)
    (hnew : ((e.fields ++ e.added).map FieldMeta.name).Disjoint (fields.map FieldMeta.name))
    (hnodup : (fields.map FieldMeta.name).Nodup) :
    addNewFields fields true e = (true, { e with added := e.added ++ fields }) := by
  induction fields generalizing e with
  | nil => simp [addNewFields]
  | cons f fields ih =>
    have hname : f.name ∉ (e.fields ++ e.added).map FieldMeta.name :=
      fun hmem => hnew hmem List.mem_cons_self
    rw [List.map_append, List.mem_append, not_or] at hname
    obtain ⟨hfresh, hrest⟩ := List.nodup_cons.mp hnodup
    rw [addNewFields, if_neg (hvector f List.mem_cons_self), addNewField, if_neg hname.1,
      if_neg hname.2]
    rw [ih (fun g hg => hvector g (List.mem_cons_of_mem f hg)) ?_ hrest, List.append_assoc]
    · rfl
    · intro name hmem hin
      dsimp only at hmem
      rw [← List.append_assoc, List.map_append, List.mem_append] at hmem
      cases hmem with
      | inl hmem => exact hnew hmem (List.mem_cons_of_mem _ hin)
      | inr hmem =>
        rw [List.mem_singleton.mp hmem] at hin
        exact hfresh hin

theorem Registered.addFields {s' : TableServer} (h : Registered s rows) {db : Bytes}
    {tables : List TableMeta} (hguard : Plain takes (.addFields db tables) s)
    (hstep : step takes (.addFields db tables) s = some s') : Registered s' rows := by
  obtain ⟨table, fields, rfl, hdb, htable, hfields⟩ := hguard
  rw [step, processAddFields, if_neg hdb.1, addFieldsTables, if_neg htable.1, key_path] at hstep
  cases hengine : s.engines (path db table) with
  | none =>
    rw [hengine] at hstep
    cases hstep
    exact h
  | some e =>
    obtain ⟨hvector, hnew, hnodup⟩ := hfields e hengine
    rw [hengine] at hstep
    simp only [addNewFields_eq hvector hnew hnodup] at hstep
    cases hstep
    refine ⟨h.valid, h.nodup, h.disk, fun r hr => ?_, fun key e' he => ?_, fun db' table' => ?_, h.tables⟩
    · show ∃ added, Function.update s.engines (path db table) _ _ = _
      by_cases heq : path r.1 r.2.1 = path db table
      · obtain ⟨added, hadded⟩ := h.engine r hr
        rw [heq, hengine] at hadded
        cases hadded
        rw [heq, Function.update_self]
        exact ⟨added ++ fields, rfl⟩
      · rw [Function.update_of_ne heq]
        exact h.engine r hr
    · replace he : Function.update s.engines (path db table) _ key = some e' := he
      by_cases heq : key = path db table
      · rw [heq]
        exact h.only _ e hengine
      · rw [Function.update_of_ne heq] at he
        exact h.only key e' he
    · show askFields db s.asked (table, fields) db' table' =
        (Function.update s.engines (path db table) _ (path db' table')).map _
      rw [askFields, if_neg htable.1]
      refine h.asked_update hdb.2.1 htable.2.1 ?_ db' table'
      have hold : s.asked db table = _ := h.asked db table
      rw [checkTable, hengine] at hold
      rw [hold]
      simp

/-! ### A restart finds the same tables -/

theorem Registered.folders (h : Registered s rows) :
    s.folders = rows.map fun r => (r.1, r.2.1) := by
  have hmap : ∀ rows' : List (Bytes × TableMeta), (∀ r ∈ rows', r ∈ rows) →
      ((rows'.map fun r => (path r.1 r.2.1, some r.2.2)).filterMap fun d =>
        match d.1.splitOn slash with
        | db :: table :: _ => some (db, table)
        | _ => none) = rows'.map fun r => (r.1, r.2.1) := by
    intro rows' hsub
    induction rows' with
    | nil => rfl
    | cons r rows' ih =>
      obtain ⟨hdb, htable, -⟩ := h.valid r (hsub r List.mem_cons_self)
      rw [List.map_cons, List.filterMap_cons, splitOn_path hdb.2.1 htable.2.1, List.map_cons,
        ← ih fun r' hr' => hsub r' (List.mem_cons_of_mem r hr')]
  rw [TableServer.folders, h.disk, hmap rows fun r hr => hr]
  exact h.nodup.dedup

theorem Registered.schema (h : Registered s rows) {r : Bytes × TableMeta} (hr : r ∈ rows) :
    s.schema (r.1, r.2.1) = some r.2.2 := by
  have hlookup : s.disk.lookup (path r.1 r.2.1) = some (some r.2.2) := by
    have hmem : (path r.1 r.2.1, some r.2.2) ∈ s.disk := by
      rw [h.disk]
      exact List.mem_map_of_mem hr
    cases hfound : s.disk.lookup (path r.1 r.2.1) with
    | none =>
      have hnot := List.lookup_eq_none_iff.mp hfound _ hmem
      simp at hnot
    | some found =>
      obtain ⟨before, after, hdisk, -⟩ := List.lookup_eq_some_iff.mp hfound
      have hin : (path r.1 r.2.1, found) ∈ s.disk := by
        rw [hdisk]
        exact List.mem_append_right _ List.mem_cons_self
      rw [h.disk] at hin
      obtain ⟨r', hr', heq⟩ := List.mem_map.mp hin
      obtain ⟨hpath, rfl⟩ := Prod.mk.inj heq
      obtain ⟨⟨-, hdb, -⟩, ⟨-, htable, -⟩, -⟩ := h.valid r hr
      obtain ⟨h₁, h₂⟩ := path_inj hdb htable hpath
      rw [List.inj_on_of_nodup_map h.nodup hr' hr (by rw [h₁, h₂])]
  rw [TableServer.schema, hlookup]
  rfl

theorem Registered.loaded (h : Registered s rows) :
    s.loaded = rows.map fun r => (r.1, r.2.1) := by
  rw [TableServer.loaded, h.folders]
  refine List.filter_eq_self.mpr fun folder hfolder => ?_
  obtain ⟨r, hr, rfl⟩ := List.mem_map.mp hfolder
  rw [h.schema hr]
  rfl

/-- **A restart** changes nothing if no fields were added. -/
theorem Registered.restart (h : Registered s rows)
    (hadded : ∀ key e, s.engines key = some e → e.added = []) : s.restart = s := by
  have hengines : (fun key => (s.loaded.find? fun r => path r.1 r.2 = key).bind fun r =>
      (s.schema r).map fun fields => (⟨fields, []⟩ : TableEngine)) = s.engines := by
    funext key
    cases hfind : s.loaded.find? fun r => path r.1 r.2 = key with
    | none =>
      cases hengine : s.engines key with
      | none => rfl
      | some e =>
        obtain ⟨r, hr, rfl⟩ := h.only key e hengine
        have hnot := List.find?_eq_none.mp hfind (r.1, r.2.1) (by
          rw [h.loaded]
          exact List.mem_map_of_mem hr)
        simp at hnot
    | some folder =>
      have hmem := List.mem_of_find?_eq_some hfind
      have hkey : path folder.1 folder.2 = key := by simpa using List.find?_some hfind
      rw [h.loaded] at hmem
      obtain ⟨r, hr, rfl⟩ := List.mem_map.mp hmem
      obtain ⟨added, hengine⟩ := h.engine r hr
      have hnone : added = [] := hadded _ _ hengine
      rw [Option.bind_some, h.schema hr, Option.map_some, ← hkey, hengine, hnone]
  have htables : (fun db => joined ((s.loaded.filter fun r => r.1 = db).map Prod.snd)) =
      s.db2tables := by
    funext db
    rw [h.tables, h.loaded, names, List.filter_map, List.map_map]
    rfl
  rw [TableServer.restart, hengines, htables]

/-- **Every step** that meets the condition. -/
theorem Registered.step (op : ServerOp) (s s' : TableServer) (h : ∃ rows, Registered s rows)
    (hguard : Plain takes op s) (hstep : TableServer.step takes op s = some s') :
    ∃ rows, Registered s' rows := by
  obtain ⟨rows, h⟩ := h
  cases op with
  | create db tables => exact h.create hguard hstep
  | addFields db tables => exact ⟨rows, h.addFields hguard hstep⟩
  | restart =>
    cases hstep
    rw [h.restart hguard]
    exact ⟨rows, h⟩

/-- One request for the tables a and b of a database d. -/
def twoTables : List ServerOp := [.create [100] [([97], []), ([98], [])]]

end TableServer

end AwaDB
