import AwaDB.Client.MetaFile
import AwaDB.Lib.Outcome
import AwaDB.Lib.Run

/-!
# The schema file along a run of the library (`add` of `library.py`)

The file is written behind the call that creates a table, when the databases are no longer those of a
library that is opened; what later calls do to the types of a table stays in memory.

* `makeDocs_ends`: what each field keeps, making the documents keeps;
* `makeDocs_knows`: a created table that knows the fields stays as it is;
* `copy_run`: **the file stays a copy** as long as calls bring nothing new;
* `copy_run_iff`: for calls that return `True`, exactly as long as they create no table;
* `sound_run`: a directory can be opened at any time.
-/

namespace AwaDB.AwaLocal

open Awa

variable {unset : Unset} {loose : DataType → Value → Option Bytes} {embed : Value → Option Value}

/-! ### A created table -/

/-- **What `__field_check` comes to**: nothing changes, or the call remembers the type of a known field, or
a new field gets its type. -/
theorem fieldCheck_cases (s : Pass) (name : String) (v : Value) :
    (fieldCheck s name v).1 ≠ .new ∧ (fieldCheck s name v).1 ≠ .known ∧ (fieldCheck s name v).2 = s ∨
      (∃ type, (type = .multiString ∨ fieldType name v = some type) ∧
        (type = .vector → s.table.dims.lookup name = some (dim v)) ∧ fieldCheck s name v =
          (.known, { s with fieldsType := Function.update s.fieldsType name (some type) })) ∨
      ∃ type, fieldType name v = some type ∧ s.table.types.lookup name = none ∧
        ¬(s.table.check ∧ type = .vector) ∧ fieldCheck s name v =
          (.new, { table := { s.table with types := s.table.types ++ [(name, type)] }
                   fieldsType := Function.update s.fieldsType name (some type) }) := by
  unfold fieldCheck
  cases fieldType name v with
  | none => exact .inl ⟨nofun, nofun, rfl⟩
  | some type =>
    dsimp only
    by_cases hseen : (s.fieldsType name).isSome
    · rw [if_pos hseen]
      exact .inl ⟨nofun, nofun, rfl⟩
    rw [if_neg hseen]
    cases s.table.types.lookup name with
    | none =>
      dsimp only
      by_cases hvector : s.table.check ∧ type = .vector
      · rw [if_pos hvector]
        exact .inl ⟨nofun, nofun, rfl⟩
      · rw [if_neg hvector]
        exact .inr (.inr ⟨type, rfl, rfl, hvector, rfl⟩)
    | some old =>
      dsimp only
      split_ifs with hmulti hne hnone hdim
      · exact .inr (.inl ⟨.multiString, .inl rfl, nofun, rfl⟩)
      · exact .inl ⟨nofun, nofun, rfl⟩
      · exact .inl ⟨nofun, nofun, rfl⟩
      · exact .inl ⟨nofun, nofun, rfl⟩
      · exact .inr (.inl ⟨type, .inr rfl, fun hvector => not_not.mp fun h => hdim ⟨hvector, h⟩, rfl⟩)

/-- A created table knows the field, or leaves it out without a trace. -/
def Knows (t : LocalTable) (p : String × Value) : Prop :=
  (t.types.lookup p.1).isSome ∨ fieldType p.1 p.2 = none ∨ fieldType p.1 p.2 = some .vector

/-- What `__field_check` comes to for such a field. -/
theorem fieldCheck_knows {t : LocalTable} {s : Pass} (hcheck : t.check = true) (hs : s.table = t)
    {name : String} {v : Value} (h : Knows t (name, v)) :
    (fieldCheck s name v).1 ≠ .new ∧ (fieldCheck s name v).2.table = t ∧
      ((fieldCheck s name v).1 = .known → (fieldCheck s name v).2.fieldsType name = some .vector →
        t.dims.lookup name = some (dim v)) := by
  subst hs
  rcases fieldCheck_cases s name v with ⟨hnew, hknown, heq⟩ | ⟨type, -, hdim, heq⟩ |
    ⟨type, htype, hnone, hvector, -⟩
  · rw [heq]
    exact ⟨hnew, rfl, fun h => absurd h hknown⟩
  · rw [heq]
    refine ⟨nofun, rfl, fun _ hfields => hdim ?_⟩
    dsimp only at hfields
    rw [Function.update_self] at hfields
    exact Option.some.inj hfields
  · rcases h with hsome | htypeless | hvec
    · rw [hnone] at hsome
      exact nomatch hsome
    · exact nomatch htype.symm.trans htypeless
    · exact absurd ⟨hcheck, Option.some.inj (htype.symm.trans hvec)⟩ hvector

/-- **A field that a created table knows** leaves the table as it is. -/
theorem checkAddField_knows {t : LocalTable} {s : Pass} (hcheck : t.check = true) (hs : s.table = t)
    {name : String} {v : Value} (h : Knows t (name, v)) :
    Lib.Ends (fun e => e.table = t) (fun r => r.2.table = t) (checkAddField loose s name v) := by
  obtain ⟨hnew, htable, hdim⟩ := fieldCheck_knows hcheck hs h
  unfold checkAddField
  cases hfield : fieldCheck s name v with
  | mk ret s' =>
    rw [hfield] at hnew htable hdim
    have htake : ∀ ret, ret ≠ .new → (ret ≠ .seen → s'.fieldsType name = some .vector →
        t.dims.lookup name = some (dim v)) → Lib.Ends (fun e : Pass => e.table = t)
          (fun r : Option Field × Pass => r.2.table = t) (takeField loose s' ret name v) := by
      intro ret hret hdim
      unfold takeField
      cases htype : s'.fieldsType name with
      | none => exact htable
      | some type =>
        cases hbytes : encodeField loose type v with
        | none => simpa [hbytes] using htable
        | some bytes =>
          have hdeclare : declare s'.table ret name type v = some t := by
            rw [htable, declare_known hcheck hret fun hseen heq => hdim hseen (by rw [htype, heq])]
          simp [hbytes, hdeclare]
    cases ret with
    | failed => exact htable
    | refused => exact htable
    | seen => exact htake .seen nofun fun h => absurd rfl h
    | known => exact htake .known nofun fun _ => hdim rfl
    | new => exact absurd rfl hnew

/-! ### The loops -/

/-- A property that a field keeps. -/
def KeptBy (loose : DataType → Value → Option Bytes) (P : Pass → Prop) (p : String × Value) : Prop :=
  ∀ s, P s → Lib.Ends P (fun r : Option Field × Pass => P r.2) (checkAddField loose s p.1 p.2)

theorem addItem_ends {P : Pass → Prop} {p : String × Value} (h : KeptBy loose P p) {s : Adding}
    (hs : P s.toPass) :
    Lib.Ends (fun e : Adding => P e.toPass) (fun s' : Adding => P s'.toPass) (addItem loose s p) := by
  have hend := h s.toPass hs
  unfold addItem
  cases hfield : checkAddField loose s.toPass p.1 p.2 with
  | error e => rwa [hfield] at hend
  | ok r =>
    obtain ⟨field, pass⟩ := r
    rw [hfield] at hend
    cases field with
    | none => exact hend
    | some field => exact hend

theorem addKey_ends {P : Pass → Prop} {uuid : String} (h : KeptBy loose P ("_id", .str (some uuid)))
    {s : Adding} (hs : P s.toPass) :
    Lib.Ends (fun e : Adding => P e.toPass) (fun s' : Adding => P s'.toPass) (addKey loose uuid s) := by
  have hend := h s.toPass hs
  unfold addKey
  by_cases hkey : s.hasKey = true
  · rw [if_pos hkey]
    exact hs
  rw [if_neg hkey]
  cases hfield : checkAddField loose s.toPass "_id" (.str (some uuid)) with
  | error e => rwa [hfield] at hend
  | ok r =>
    obtain ⟨field, pass⟩ := r
    rw [hfield] at hend
    cases field with
    | none => exact hend
    | some field => exact hend

theorem addDict_ends {P : Pass → Prop} {d : PyDict × String} (hitems : ∀ p ∈ d.1.items, KeptBy loose P p)
    (hkey : KeptBy loose P ("_id", .str (some d.2))) {s : Adding} (hs : P s.toPass) :
    Lib.Ends (fun e : Adding => P e.toPass) (fun s' : Adding => P s'.toPass) (addDict loose s d) :=
  Lib.Ends.bind
    (Lib.ends_foldlM (fun s : Adding => P s.toPass) hs fun _ p hp hs => addItem_ends (hitems p hp) hs)
    fun _ hs' => addKey_ends hkey hs'

/-- **What each field keeps, making the documents keeps.** -/
theorem makeDocs_ends {P : Pass → Prop} {t : LocalTable} {docs : List (PyDict × String)}
    (hstart : P (Adding.start t).toPass)
    (h : ∀ ready, readyDocs embed docs = some ready → ∀ d ∈ ready,
      (∀ p ∈ d.1.items, KeptBy loose P p) ∧ KeptBy loose P ("_id", .str (some d.2))) :
    ∃ s, P s ∧ s.table = (makeDocs loose embed t docs).1 := by
  unfold makeDocs
  cases hready : readyDocs embed docs with
  | none => exact ⟨(Adding.start t).toPass, hstart, rfl⟩
  | some ready =>
    have hend : Lib.Ends (fun e : Adding => P e.toPass) (fun r : Adding × List Doc => P r.1.toPass)
        (ready.foldlM (addDicts loose) (Adding.start t, [])) :=
      Lib.ends_foldlM (fun r : Adding × List Doc => P r.1.toPass) hstart fun s d hd hs =>
        Lib.Ends.map (addDict_ends (h ready hready d hd).1 (h ready hready d hd).2 hs) fun _ hs' => hs'
    dsimp only
    cases hloop : ready.foldlM (addDicts loose) (Adding.start t, []) with
    | error e =>
      rw [hloop] at hend
      exact ⟨e.toPass, hend, rfl⟩
    | ok r =>
      rw [hloop] at hend
      exact ⟨r.1.toPass, hend, rfl⟩

/-- A created table knows a key and the fields of a dictionary. -/
def KnowsAll (t : LocalTable) (d : PyDict) : Prop :=
  (t.types.lookup "_id").isSome ∧ ∀ p ∈ d.items, Knows t p

/-- **Documents that a created table knows** leave it as it is. -/
theorem makeDocs_knows {t : LocalTable} (hcheck : t.check = true) {docs : List (PyDict × String)}
    (h : ∀ ready, readyDocs embed docs = some ready → ∀ d ∈ ready, KnowsAll t d.1) :
    (makeDocs loose embed t docs).1 = t := by
  obtain ⟨s, hs, htable⟩ := @makeDocs_ends loose embed (fun s => s.table = t) t docs rfl
    fun ready hready d hd =>
      ⟨fun p hp s hs => checkAddField_knows hcheck hs ((h ready hready d hd).2 p hp),
        fun s hs => checkAddField_knows hcheck hs (.inl (h ready hready d hd).1)⟩
  rw [← htable, hs]

/-! ### Any table -/

/-- What `__field_check` does to a table: nothing, or it has a new type. -/
theorem table_fieldCheck (s : Pass) (name : String) (v : Value) :
    (fieldCheck s name v).2.table = s.table ∨
      ∃ type, fieldType name v = some type ∧ s.table.types.lookup name = none ∧
        (fieldCheck s name v).2.table = { s.table with types := s.table.types ++ [(name, type)] } := by
  rcases fieldCheck_cases s name v with ⟨-, -, heq⟩ | ⟨type, -, -, heq⟩ | ⟨type, htype, hnone, -, heq⟩
  · exact .inl (by rw [heq])
  · exact .inl (by rw [heq])
  · exact .inr ⟨type, htype, hnone, by rw [heq]⟩

/-- The types of the call are those of values. -/
theorem fieldsType_fieldCheck {s : Pass} {name name' : String} {v : Value} {type : DataType}
    (h : (fieldCheck s name v).2.fieldsType name' = some type) :
    s.fieldsType name' = some type ∨ type = .multiString ∨ fieldType name v = some type := by
  have hupdate : ∀ {new : DataType}, Function.update s.fieldsType name (some new) name' = some type →
      s.fieldsType name' = some type ∨ new = type := by
    intro new h
    rw [Function.update_apply] at h
    by_cases heq : name' = name
    · rw [if_pos heq] at h
      exact .inr (Option.some.inj h)
    · rw [if_neg heq] at h
      exact .inl h
  rcases fieldCheck_cases s name v with ⟨-, -, heq⟩ | ⟨new, hnew, -, heq⟩ | ⟨new, hnew, -, -, heq⟩
  · rw [heq] at h
    exact .inl h
  · rw [heq] at h
    refine (hupdate h).imp_right ?_
    rintro rfl
    exact hnew
  · rw [heq] at h
    refine (hupdate h).imp_right ?_
    rintro rfl
    exact .inr hnew

/-- What a declaration keeps, and what it adds to `TableInfo`. -/
theorem declare_cases {t t' : LocalTable} {ret : Checked} {name : String} {type : DataType} {v : Value}
    (h : declare t ret name type v = some t') : t'.check = t.check ∧ t'.types = t.types ∧
      (∀ info ∈ t'.attr.fields, info ∈ t.attr.fields ∨ info.dataType = type) ∧
      ∀ info ∈ t'.attr.vectorInfos, info ∈ t.attr.vectorInfos ∨ info.dataType = .vector := by
  unfold declare at h
  by_cases hseen : ret = .seen
  · rw [if_pos hseen] at h
    cases h
    exact ⟨rfl, rfl, fun _ => .inl, fun _ => .inl⟩
  rw [if_neg hseen] at h
  by_cases hvector : type = .vector
  · rw [if_pos hvector] at h
    cases h
    refine ⟨rfl, rfl, ?_, ?_⟩
    · intro info hinfo
      dsimp only at hinfo
      split_ifs at hinfo
      · exact .inl hinfo
      · exact .inl hinfo
    · intro info hinfo
      dsimp only at hinfo
      split_ifs at hinfo
      · exact .inl hinfo
      · exact (List.mem_append.mp hinfo).imp_right fun h => by rw [List.mem_singleton.mp h]
  rw [if_neg hvector] at h
  by_cases hcheck : t.check = false
  · rw [if_pos hcheck] at h
    dsimp only at h
    by_cases hmulti : type = .multiString
    · rw [if_pos hmulti] at h
      obtain ⟨extra, -, rfl⟩ := Option.map_eq_some_iff.mp h
      exact ⟨rfl, rfl, fun _ => .inl, fun _ => .inl⟩
    · rw [if_neg hmulti] at h
      cases h
      refine ⟨rfl, rfl, fun info hinfo => ?_, fun _ => .inl⟩
      exact (List.mem_append.mp hinfo).imp_right fun h => by rw [List.mem_singleton.mp h]
  rw [if_neg hcheck] at h
  by_cases hnew : ret = .new
  · rw [if_pos hnew] at h
    exact nomatch h
  · rw [if_neg hnew] at h
    cases h
    exact ⟨rfl, rfl, fun _ => .inl, fun _ => .inl⟩

/-- What a field keeps, from its two parts. -/
theorem keptBy_of {P : Pass → Prop} {p : String × Value}
    (hcheck : ∀ s, P s → P (fieldCheck s p.1 p.2).2)
    (hdeclare : ∀ s ret type t, P s → s.fieldsType p.1 = some type →
      declare s.table ret p.1 type p.2 = some t → P { s with table := t }) : KeptBy loose P p := by
  have htake : ∀ s ret, P s →
      Lib.Ends P (fun r : Option Field × Pass => P r.2) (takeField loose s ret p.1 p.2) := by
    intro s ret hs
    unfold takeField
    cases htype : s.fieldsType p.1 with
    | none => exact hs
    | some type =>
      cases hbytes : encodeField loose type p.2 with
      | none => simpa [hbytes] using hs
      | some bytes =>
        cases htable : declare s.table ret p.1 type p.2 with
        | none => simpa [hbytes, htable] using hs
        | some table => simpa [hbytes, htable] using hdeclare s ret type table hs htype htable
  intro s hs
  have hs' := hcheck s hs
  unfold checkAddField
  cases hfield : fieldCheck s p.1 p.2 with
  | mk ret s' =>
    rw [hfield] at hs'
    cases ret with
    | failed => exact hs'
    | refused => exact hs'
    | seen => exact htake s' .seen hs'
    | known => exact htake s' .known hs'
    | new => exact htake s' .new hs'

/-- A table is created by `add`, and not by its fields. -/
theorem check_makeDocs (t : LocalTable) (docs : List (PyDict × String)) :
    (makeDocs loose embed t docs).1.check = t.check := by
  have hfield : ∀ p, KeptBy loose (fun s => s.table.check = t.check) p := by
    refine fun p => keptBy_of (fun s hs => ?_) fun s ret type t' hs _ h => (declare_cases h).1.trans hs
    rcases table_fieldCheck s p.1 p.2 with hsame | ⟨type, -, -, hnew⟩
    · rw [hsame, hs]
    · rw [hnew, hs]
  obtain ⟨s, hs, htable⟩ := @makeDocs_ends loose embed (fun s => s.table.check = t.check) t docs rfl
    fun ready hready d hd => ⟨fun p _ => hfield p, hfield _⟩
  rw [← htable, hs]

theorem fieldType_ne_double {name : String} {v : Value} {type : DataType}
    (h : fieldType name v = some type) : type ≠ .double := by
  unfold fieldType at h
  by_cases hlong : name = "_id" ∧ typeof v = some .int
  · rw [if_pos hlong] at h
    cases h
    exact nofun
  rw [if_neg hlong] at h
  cases v with
  | list elements =>
    unfold typeof at h
    dsimp only at h
    split_ifs at h <;> cases h <;> exact nofun
  | other => exact nomatch h
  | int n => cases h; exact nofun
  | str text => cases h; exact nofun
  | float word => cases h; exact nofun
  | array dimension bytes => cases h; exact nofun

/-- **A table stays plain.** -/
theorem plain_makeDocs {t : LocalTable} (h : Plain t) (docs : List (PyDict × String)) :
    Plain (makeDocs loose embed t docs).1 := by
  have hfield : ∀ p, KeptBy loose
      (fun s => Plain s.table ∧ ∀ name type, s.fieldsType name = some type → type ≠ .double) p := by
    refine fun p => keptBy_of ?_ ?_
    · rintro s ⟨hplain, htypes⟩
      refine ⟨?_, fun name type htype => ?_⟩
      · rcases table_fieldCheck s p.1 p.2 with hsame | ⟨type, htype, hnone, hnew⟩
        · rwa [hsame]
        · rw [hnew]
          refine ⟨?_, ?_, hplain.fields, hplain.vectors⟩
          · rw [List.map_append, List.nodup_append]
            refine ⟨hplain.nodup, List.nodup_singleton _, ?_⟩
            rintro name hname _ hlast rfl
            obtain ⟨q, hq, rfl⟩ := List.mem_map.mp hname
            have hne := List.lookup_eq_none_iff.mp hnone q hq
            rw [bne_iff_ne] at hne
            exact hne (List.mem_singleton.mp hlast).symm
          · intro q hq
            cases List.mem_append.mp hq with
            | inl hmem => exact hplain.types q hmem
            | inr hlast => rw [List.mem_singleton.mp hlast]; exact fieldType_ne_double htype
      · rcases fieldsType_fieldCheck htype with hold | hmulti | hnew
        · exact htypes name type hold
        · rw [hmulti]
          exact nofun
        · exact fieldType_ne_double hnew
    · rintro s ret type t' ⟨hplain, htypes⟩ htype hdeclare
      obtain ⟨-, heq, hfields, hvectors⟩ := declare_cases hdeclare
      refine ⟨⟨by rw [heq]; exact hplain.nodup, by rw [heq]; exact hplain.types, ?_, ?_⟩, htypes⟩
      · intro info hinfo
        cases hfields info hinfo with
        | inl hmem => exact hplain.fields info hmem
        | inr hlast => exact hlast ▸ htypes p.1 type htype
      · intro info hinfo
        exact (hvectors info hinfo).elim (hplain.vectors info) id
  obtain ⟨s, hs, htable⟩ := @makeDocs_ends loose embed
    (fun s => Plain s.table ∧ ∀ name type, s.fieldsType name = some type → type ≠ .double) t docs
    ⟨h, nofun⟩ fun ready hready d hd => ⟨fun p _ => hfield p, hfield _⟩
  rw [← htable]
  exact hs.1

/-! ### Runs -/

/-- A table is set that has the schema of the one before. -/
theorem Copy.set {s : State} (h : Copy unset s) {name : String} {t t' : LocalTable}
    (hold : s.tables.lookup name = some t) (hschema : t'.schema = t.schema) :
    Copy unset (s.set name t') := by
  obtain ⟨s', hopen, hdb, htables⟩ := h
  refine ⟨s', hopen, hdb, fun name' => ?_⟩
  rw [htables, State.set, lookup_setItem]
  by_cases heq : name' = name
  · rw [if_pos heq, heq, hold, Option.map_some, Option.map_some, hschema]
  · rw [if_neg heq]

/-- What keeps the file a copy: the arguments are refused, or the table was created and knows the
documents. -/
def Keeps (embed : Value → Option Value) : Op → State → Prop
  | .openDir, _ => True
  | .add c, s => c.db = "" ∨ c.table = "" ∨ ∀ docs, c.docs.dicts = some docs →
      ∃ t, s.tables.lookup c.name = some t ∧ t.check = true ∧
        ∀ ready, readyDocs embed docs = some ready → ∀ d ∈ ready, KnowsAll t d.1

/-- **Opening makes a copy.** -/
theorem copy_openDir {file : Option (List (String × TableMeta))} {s : State}
    (h : openDir unset file = some s) : Copy unset s := by
  obtain ⟨tables, htables, rfl⟩ := Option.map_eq_some_iff.mp h
  exact ⟨_, h, rfl, fun _ => rfl⟩

/-- **A call that brings nothing new.** -/
theorem copy_add {s : State} (h : Copy unset s) {c : Call} (hkeeps : Keeps embed (.add c) s) :
    Copy unset (add unset loose embed s c).2 := by
  unfold add
  by_cases hempty : c.db = "" ∨ c.table = ""
  · rw [if_pos hempty]
    exact h
  rw [if_neg hempty]
  cases hdicts : c.docs.dicts with
  | none => exact h
  | some docs =>
    obtain ⟨hdb, htable⟩ := not_or.mp hempty
    obtain ⟨t, hold, hcheck, hknows⟩ := (hkeeps.resolve_left hdb).resolve_left htable docs hdicts
    have hsame := @makeDocs_knows loose embed t hcheck docs hknows
    dsimp only
    rw [hold, Option.getD_some, hsame]
    have hset : Copy unset (s.set c.name t) := h.set hold rfl
    cases (makeDocs loose embed t docs).2 with
    | none => exact hset
    | some handed =>
      dsimp only
      rw [if_neg (by rw [hcheck]; exact nofun)]
      by_cases hadd : c.addDocs = false
      · rw [if_pos hadd]
        exact hset
      · rw [if_neg hadd]
        have hnow : (s.set c.name t).tables.lookup c.name = some t := by
          rw [State.set, lookup_setItem, if_pos rfl]
        exact hset.set hnow rfl

/-- **A run of a program that opens a directory**, with any file or none, and then adds documents and
opens it again: as long as no call brings anything new, each step is done and opening the directory
gives the schema and the databases that the program has. -/
theorem copy_run {file : Option (List (String × TableMeta))} {s : State}
    (hopen : openDir unset file = some s) {ops : List Op}
    (h : Lib.Guarded (step unset loose embed) (Keeps embed) ops s) :
    (∃ s', Lib.runOps (step unset loose embed) ops s = some s') ∧
      Lib.Always (step unset loose embed) (Copy unset) ops s := by
  refine Lib.always_of_guarded ?_ (copy_openDir hopen) h
  intro op s hcopy hkeeps
  cases op with
  | openDir =>
    obtain ⟨s', hs', -⟩ := hcopy
    exact ⟨s', hs', copy_openDir hs'⟩
  | add c => exact ⟨_, rfl, copy_add hcopy hkeeps⟩

/-- A copy has no databases: they are not in the file. -/
theorem dbTables_of_copy {s : State} (h : Copy unset s) : s.dbTables = [] := by
  obtain ⟨s', hopen, hdb, -⟩ := h
  obtain ⟨tables, -, rfl⟩ := Option.map_eq_some_iff.mp hopen
  exact hdb.symm

/-! ### What a call leaves -/

/-- What creating a table comes to: the file is as before, or the call returned `True`, with a database and
with all the tables in the file. -/
theorem createTable_cases (s : State) (c : Call) (t : LocalTable) (handed : List Doc) :
    (createTable s c t handed).1 ≠ some true ∧ (createTable s c t handed).2.file = s.file ∨
      (createTable s c t handed).2.dbTables ≠ [] ∧
        (createTable s c t handed).2.file = some (writeFile (createTable s c t handed).2.tables) := by
  unfold createTable
  dsimp only
  by_cases hengine : c.engine = false ∨ c.create = false
  · rw [if_pos hengine]
    exact .inl ⟨nofun, rfl⟩
  rw [if_neg hengine]
  split
  · exact .inl ⟨nofun, rfl⟩
  by_cases hadd : c.addDocs = false
  · rw [if_pos hadd]
    exact .inl ⟨nofun, rfl⟩
  · rw [if_neg hadd]
    exact .inr ⟨setItem_ne_nil _ _ _, rfl⟩

/-- The loop over the dictionaries leaves a created table as it is when no exception ends it. -/
theorem table_addDicts {t : LocalTable} (hcheck : t.check = true) {ready : List (PyDict × String)}
    {seen : List String} {r r' : Adding × List Doc} (hr : Follows t seen r.1.toPass)
    (hrun : ready.foldlM (addDicts loose) r = .ok r') : r'.1.table = t := by
  induction ready generalizing seen r with
  | nil =>
    cases hrun
    exact hr.table
  | cons d ready ih =>
    have hspec := @dict_spec loose t d hcheck seen r.1 hr
    rw [List.foldlM_cons, addDicts] at hrun
    cases hdoc : docFields loose t seen r.1.hasKey d with
    | none =>
      rw [hdoc] at hspec
      obtain ⟨e, he⟩ := hspec
      rw [he] at hrun
      cases hrun
    | some fields =>
      rw [hdoc] at hspec
      obtain ⟨s', hs', hfollows, -⟩ := hspec
      rw [hs'] at hrun
      exact ih hfollows hrun

/-- A created table keeps the types of the call when no exception ends it. -/
theorem makeDocs_created {t : LocalTable} (hcheck : t.check = true) {docs : List (PyDict × String)}
    {handed : List Doc} (h : (makeDocs loose embed t docs).2 = some handed) :
    (makeDocs loose embed t docs).1 = t := by
  unfold makeDocs at h ⊢
  cases hready : readyDocs embed docs with
  | none => rfl
  | some ready =>
    rw [hready] at h
    dsimp only at h ⊢
    cases hrun : ready.foldlM (addDicts loose) (Adding.start t, []) with
    | error e =>
      rw [hrun] at h
      cases h
    | ok r =>
      obtain ⟨s', handed'⟩ := r
      exact table_addDicts hcheck follows_start hrun

/-- A table that was created. -/
def Created (s : State) (c : Call) : Prop := ∃ t, s.tables.lookup c.name = some t ∧ t.check = true

/-- **A call that returns `True`** leaves a copy exactly on a table that was created. -/
theorem copy_add_iff {s : State} (h : Copy unset s) {c : Call}
    (htrue : (add unset loose embed s c).1 = some true) :
    Copy unset (add unset loose embed s c).2 ↔ Created s c := by
  unfold add at htrue ⊢
  by_cases hempty : c.db = "" ∨ c.table = ""
  · rw [if_pos hempty] at htrue
    exact nomatch htrue
  rw [if_neg hempty] at htrue ⊢
  cases hdicts : c.docs.dicts with
  | none =>
    rw [hdicts] at htrue
    exact nomatch htrue
  | some docs =>
    rw [hdicts] at htrue
    dsimp only at htrue ⊢
    generalize ht : (s.tables.lookup c.name).getD (newTable unset c.name) = t at htrue ⊢
    cases hdocs : (makeDocs loose embed t docs).2 with
    | none =>
      rw [hdocs] at htrue
      exact nomatch htrue
    | some handed =>
      rw [hdocs] at htrue
      dsimp only at htrue ⊢
      rw [check_makeDocs] at htrue ⊢
      cases hcheck : t.check with
      | false =>
        rw [hcheck, if_pos rfl] at htrue
        rw [if_pos rfl]
        refine iff_of_false (fun hcopy => ?_) ?_
        · rcases createTable_cases (s.set c.name (makeDocs loose embed t docs).1) c
            (makeDocs loose embed t docs).1 handed with ⟨hne, -⟩ | ⟨hdb, -⟩
          · exact hne htrue
          · exact hdb (dbTables_of_copy hcopy)
        · rintro ⟨t', ht', hcheck'⟩
          rw [ht', Option.getD_some] at ht
          rw [ht, hcheck] at hcheck'
          exact nomatch hcheck'
      | true =>
        rw [hcheck, if_neg nofun] at htrue
        rw [if_neg nofun]
        by_cases hadd : c.addDocs = false
        · rw [if_pos hadd] at htrue
          exact nomatch htrue
        rw [if_neg hadd, makeDocs_created hcheck hdocs]
        have hold : s.tables.lookup c.name = some t := by
          cases hlookup : s.tables.lookup c.name with
          | none =>
            rw [hlookup] at ht
            subst ht
            exact nomatch hcheck
          | some t' =>
            rw [hlookup, Option.getD_some] at ht
            rw [ht]
        have hset : Copy unset (s.set c.name t) := h.set hold rfl
        have hnow : (s.set c.name t).tables.lookup c.name = some t := by
          rw [State.set, lookup_setItem, if_pos rfl]
        exact iff_of_true (hset.set hnow rfl) ⟨t, hold, hcheck⟩

/-- **Runs whose calls all return `True`** keep the file a copy exactly if they create no table. -/
theorem copy_run_iff {file : Option (List (String × TableMeta))} {s : State}
    (hopen : openDir unset file = some s) {ops : List Op}
    (htrue : Lib.Guarded (step unset loose embed)
      (fun op s => ∀ c, op = .add c → (add unset loose embed s c).1 = some true) ops s) :
    ((∃ s', Lib.runOps (step unset loose embed) ops s = some s') ∧
      Lib.Always (step unset loose embed) (Copy unset) ops s) ↔
      Lib.Guarded (step unset loose embed) (fun op s => ∀ c, op = .add c → Created s c) ops s := by
  refine Lib.defined_always_iff (fun _ => id) ?_ ?_ (copy_openDir hopen) htrue
  · intro op s hcopy htrue hcreated
    cases op with
    | openDir =>
      obtain ⟨s', hs', -⟩ := hcopy
      exact ⟨s', hs', copy_openDir hs'⟩
    | add c => exact ⟨_, rfl, (copy_add_iff hcopy (htrue c rfl)).mpr (hcreated c rfl)⟩
  · intro op s s' hcopy htrue hnot hstep
    cases op with
    | openDir => exact absurd nofun hnot
    | add c =>
      cases hstep
      intro hcopy'
      refine hnot fun c' heq => ?_
      cases heq
      exact (copy_add_iff hcopy (htrue c rfl)).mp hcopy'

/-! ### From a fresh directory -/

/-- The tables are plain. -/
def PlainTables (tables : List (String × LocalTable)) : Prop := ∀ p ∈ tables, Plain p.2

theorem PlainTables.set {tables : List (String × LocalTable)} (h : PlainTables tables) {name : String}
    {t : LocalTable} (ht : Plain t) : PlainTables (setItem tables name t) := by
  intro p hp
  unfold setItem at hp
  split_ifs at hp
  · obtain ⟨q, hq, rfl⟩ := List.mem_map.mp hp
    dsimp only
    split_ifs
    · exact ht
    · exact h q hq
  · cases List.mem_append.mp hp with
    | inl hmem => exact h p hmem
    | inr hlast => rw [List.mem_singleton.mp hlast]; exact ht

theorem PlainTables.get {tables : List (String × LocalTable)} (h : PlainTables tables) (unset : Unset)
    (name : String) : Plain ((tables.lookup name).getD (newTable unset name)) := by
  cases hlookup : tables.lookup name with
  | none => exact ⟨List.nodup_nil, nofun, nofun, nofun⟩
  | some t =>
    obtain ⟨l₁, l₂, rfl, -⟩ := List.lookup_eq_some_iff.mp hlookup
    exact h (name, t) (List.mem_append_right _ List.mem_cons_self)

/-- A table that comes back can be written again. -/
theorem Plain.reread {t : LocalTable} (h : Plain t) (hunset : unset.dataType ≠ .double) :
    Plain (t.reread unset) := by
  refine ⟨h.nodup, h.types, fun info hinfo => ?_, fun info hinfo => ?_⟩
  · obtain ⟨old, hold, rfl⟩ := List.mem_map.mp hinfo
    unfold FieldInfo.reread
    dsimp only
    split_ifs
    · exact hunset
    · exact h.fields old hold
  · obtain ⟨old, hold, rfl⟩ := List.mem_map.mp hinfo
    exact h.vectors old hold

/-- The tables are plain, and so are those that are written in the file. -/
structure Sound (s : State) : Prop where
  tables : PlainTables s.tables
  file : ∀ file, s.file = some file → ∃ tables, PlainTables tables ∧ file = writeFile tables

/-- **Opening a directory** whose file was written by the library. -/
theorem sound_openDir (hunset : unset.dataType ≠ .double) {s : State} (h : Sound s) :
    ∃ s', openDir unset s.file = some s' ∧ Sound s' := by
  unfold openDir
  cases hfile : s.file with
  | none => exact ⟨⟨[], [], [], none⟩, rfl, nofun, nofun⟩
  | some file =>
    obtain ⟨tables, hplain, rfl⟩ := h.file file hfile
    rw [Option.getD_some, readFile_write hplain]
    refine ⟨_, rfl, ?_, fun file hfile => ⟨tables, hplain, (Option.some.inj hfile).symm⟩⟩
    intro p hp
    obtain ⟨q, hq, rfl⟩ := List.mem_map.mp hp
    exact (hplain q hq).reread hunset

theorem plain_createTable {s : State} (h : PlainTables s.tables) {c : Call} {t : LocalTable} (ht : Plain t)
    (handed : List Doc) : PlainTables (createTable s c t handed).2.tables := by
  have hconfigure : ∀ count, Plain { t with attr := t.attr.configure, docCount := count } :=
    fun _ => ⟨ht.nodup, ht.types, ht.fields, ht.vectors⟩
  unfold createTable
  dsimp only
  have hset : PlainTables (setItem s.tables c.name (if c.name ∈ s.engines ∨ c.engine = false then
      { t with attr := t.attr.configure } else { t with attr := t.attr.configure, docCount := 0 })) := by
    refine h.set ?_
    split_ifs
    · exact hconfigure t.docCount
    · exact hconfigure 0
  by_cases hengine : c.engine = false ∨ c.create = false
  · rw [if_pos hengine]
    exact hset
  rw [if_neg hengine]
  split
  · exact hset
  by_cases hadd : c.addDocs = false
  · rw [if_pos hadd]
    exact hset
  · rw [if_neg hadd]
    refine hset.set ?_
    split_ifs
    · exact ⟨ht.nodup, ht.types, ht.fields, ht.vectors⟩
    · exact ⟨ht.nodup, ht.types, ht.fields, ht.vectors⟩

/-- **A call.** -/
theorem sound_add {s : State} (h : Sound s) (c : Call) : Sound (add unset loose embed s c).2 := by
  unfold add
  by_cases hempty : c.db = "" ∨ c.table = ""
  · rw [if_pos hempty]
    exact h
  rw [if_neg hempty]
  cases c.docs.dicts with
  | none => exact h
  | some docs =>
    dsimp only
    generalize ht : (s.tables.lookup c.name).getD (newTable unset c.name) = t
    have hplain : Plain (makeDocs loose embed t docs).1 :=
      plain_makeDocs (ht ▸ h.tables.get unset c.name) docs
    have hset : Sound (s.set c.name (makeDocs loose embed t docs).1) :=
      ⟨h.tables.set hplain, h.file⟩
    cases (makeDocs loose embed t docs).2 with
    | none => exact hset
    | some handed =>
      dsimp only
      by_cases hcheck : (makeDocs loose embed t docs).1.check = false
      · rw [if_pos hcheck]
        have htables := @plain_createTable _ hset.tables c _ hplain handed
        refine ⟨htables, fun file hfile => ?_⟩
        rcases createTable_cases (s.set c.name (makeDocs loose embed t docs).1) c
          (makeDocs loose embed t docs).1 handed with ⟨-, hsame⟩ | ⟨-, hnew⟩
        · exact h.file file (hsame ▸ hfile)
        · exact ⟨_, htables, Option.some.inj (hfile.symm.trans hnew)⟩
      rw [if_neg hcheck]
      by_cases hadd : c.addDocs = false
      · rw [if_pos hadd]
        exact hset
      · rw [if_neg hadd]
        exact ⟨hset.tables.set ⟨hplain.nodup, hplain.types, hplain.fields, hplain.vectors⟩, h.file⟩

/-- **Every run from a fresh directory** can open it again at any time, and finds there tables that the
library has written. -/
theorem sound_run (hunset : unset.dataType ≠ .double) (ops : List Op) :
    (∃ s', Lib.runOps (step unset loose embed) ops ⟨[], [], [], none⟩ = some s') ∧
      Lib.Always (step unset loose embed) Sound ops ⟨[], [], [], none⟩ := by
  refine Lib.always_of_total (fun op s h => ?_) ops ⟨nofun, nofun⟩
  cases op with
  | openDir => exact sound_openDir hunset h
  | add c => exact ⟨_, rfl, sound_add h c⟩

/-! ### One table -/

/-- Nothing that is not set has a value of its own. -/
def blank : Unset := ⟨.int, 0, false⟩

/-- A document with its key goes to a table. -/
def addCall (v : Value) : Call := ⟨"default", "t", .dict (⟨[("_id", v)], by simp⟩, "u"), true, true, true⟩

/-- A directory with a table whose keys are strings. -/
def stringFile : List (String × TableMeta) :=
  [("default/t", ⟨true, [[("_id", "STRING")]], [], 1, [⟨"_id", some "STRING", false⟩], []⟩)]

/-- The library behind it. -/
def stringState : State where
  tables := [("default/t", ⟨true, [("_id", .string)], [], 1,
    TableInfo.configure ⟨"", [⟨"_id", .string, false⟩], [], 0, "", ""⟩, none⟩)]
  engines := ["default/t"]
  dbTables := []
  file := some stringFile

theorem copy_run_string :
    (∃ s', Lib.runOps (step blank (fun _ _ => none) (fun _ => none))
        [.add (addCall (.str (some "b"))), .openDir] stringState = some s') ∧
      Lib.Always (step blank (fun _ _ => none) (fun _ => none)) (Copy blank)
        [.add (addCall (.str (some "b"))), .openDir] stringState := by
  have hkeeps : Keeps (fun _ => none) (.add (addCall (.str (some "b")))) stringState := by
    refine .inr (.inr fun docs hdocs => ⟨_, rfl, rfl, fun ready hready d hd => ?_⟩)
    cases hdocs
    cases hready
    cases List.mem_singleton.mp hd
    refine ⟨rfl, fun p hp => .inl ?_⟩
    cases List.mem_singleton.mp hp
    rfl
  exact @copy_run blank _ _ (some stringFile) _ rfl _ ⟨hkeeps, fun _ _ => ⟨trivial, fun _ _ => trivial⟩⟩

/-- **The first call on a fresh directory**, with a number as the key: behind it the databases and the name
of the table are not in the file, and the type of the key is not read. -/
theorem first_call_not_copied :
    openDir blank none = some ⟨[], [], [], none⟩ ∧
    (add blank (fun _ _ => none) (fun _ => none) ⟨[], [], [], none⟩ (addCall (.int 1))).1 = some true ∧
    ¬Copy blank (add blank (fun _ _ => none) (fun _ => none) ⟨[], [], [], none⟩ (addCall (.int 1))).2 ∧
    (add blank (fun _ _ => none) (fun _ => none) ⟨[], [], [], none⟩ (addCall (.int 1))).2.dbTables =
      [("default", ["t"])] ∧
    ((openDir blank (add blank (fun _ _ => none) (fun _ => none) ⟨[], [], [], none⟩
      (addCall (.int 1))).2.file).map fun s => (s.dbTables, s.tables.map fun p => p.2.attr.fields)) =
      some ([], [[⟨"_id", .int, true⟩]]) := by
  refine ⟨rfl, by decide +kernel, fun h => ?_, by decide +kernel, by decide +kernel⟩
  have hne : (add blank (fun _ _ => none) (fun _ => none) ⟨[], [], [], none⟩
      (addCall (.int 1))).2.dbTables ≠ [] := by decide +kernel
  exact hne (dbTables_of_copy h)

end AwaDB.AwaLocal
