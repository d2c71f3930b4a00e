import AwaDB.Engine.Batch
import AwaDB.Engine.Tail
import AwaDB.Table.UpdateFrame

/-!
# A document that is given for an existing key (`GammaEngine::Update`)

`AddOrUpdate` and `AddOrUpdateDocs` come to `Update` for a key that leads to a document. It rewrites the
row, and the dynamic columns stay as they are, while a new document has its values put there.

* `fits_of_runOps`: if each value of a list is found in the end, each one fitted the row;
* `Keeps.run`: the rounds of a batch leave the rows that they do not update;
* `upsert_iff`: an accepted document is read as it was given exactly when its values fit.
-/

namespace AwaDB

/-! ### A list of values in one row -/

/-- A copy leaves the cells their sizes. -/
theorem copyInto_fixed {row row' : Row} {bytes : List MemByte} (h : copyInto row bytes = some row') :
    row'.length = row.length ∧ ∀ (i : ℕ) old, row[i]? = some (Cell.fixed old) →
      ∃ new, row'[i]? = some (Cell.fixed new) ∧ new.length = old.length := by
  have hwidth := copyInto_width h
  refine ⟨?_, fun i old hcell => ?_⟩
  · have hlength := congrArg List.length hwidth
    rwa [List.length_map, List.length_map] at hlength
  · have hget := congrArg (·[i]?) hwidth
    simp only [List.getElem?_map, hcell, Option.map_some] at hget
    obtain ⟨c, hc, hsame⟩ := Option.map_eq_some_iff.mp hget
    obtain ⟨new, rfl, hlength⟩ := Cell.width_eq_some.mp hsame
    exact ⟨new, hc, hlength⟩

namespace Schema

variable {s : Schema} {column : String → Option (List MemByte)} {row row' : Row}

/-- The cells keep the sizes of the schema, whatever is written. -/
theorem Shaped.updateField {f : Field} (hrow : s.Shaped row) (h : s.updateField f row = some row') :
    s.Shaped row' := by
  rw [Schema.updateField] at h
  split at h
  · cases h
    exact hrow
  · rename_i i hidx
    split at h
    · split at h
      · rename_i text htext
        cases h
        refine ⟨by rw [List.length_set, hrow.length], fun j ty hty hne => ?_⟩
        obtain ⟨old, hold, hlen⟩ := hrow.fixed j ty hty hne
        have hij : i ≠ j := by
          rintro rfl
          cases htext.symm.trans hold
        exact ⟨old, by rw [List.getElem?_set_ne hij, hold], hlen⟩
      · cases h
    · obtain ⟨rest, hrest, rfl⟩ := Option.map_eq_some_iff.mp h
      obtain ⟨hlen, hcells⟩ := copyInto_fixed hrest
      refine ⟨?_, fun j ty hty hne => ?_⟩
      · rw [List.length_append, hlen, ← List.length_append, List.take_append_drop, hrow.length]
      · obtain ⟨old, hold, hsize⟩ := hrow.fixed j ty hty hne
        rw [← List.take_append_drop i row] at hold
        by_cases hj : j < (row.take i).length
        · rw [List.getElem?_append_left hj] at hold
          exact ⟨old, by rw [List.getElem?_append_left hj, hold], hsize⟩
        · rw [List.getElem?_append_right (Nat.le_of_not_lt hj)] at hold
          obtain ⟨new, hnew, hsame⟩ := hcells _ old hold
          refine ⟨new, ?_, hsame.trans hsize⟩
          rw [List.getElem?_append_right (Nat.le_of_not_lt hj), hnew]

/-- **What is found after all writes** fitted before the first one. -/
theorem fits_of_runOps {fields : List Field} (hnodup : (fields.map Field.name).Nodup)
    (hrow : s.Shaped row) (hrun : Lib.runOps s.updateField fields row = some row')
    (hcolumn : ∀ f ∈ fields, f.name ∉ s.names → column f.name = some (f.value.map some))
    (hvals : ∀ f ∈ fields, f.name ∈ s.names → row'[s.idx f]? = some (s.cellOf f)) :
    ∀ f ∈ fields, s.Fits column row f := by
  induction fields generalizing row with
  | nil => exact fun f hf => absurd hf List.not_mem_nil
  | cons f fields ih =>
    obtain ⟨hnot, hnodup⟩ := List.nodup_cons.mp hnodup
    obtain ⟨row₁, hfirst, hrest⟩ := Option.bind_eq_some_iff.mp hrun
    have hshaped := hrow.updateField hfirst
    have hfits := ih hnodup hshaped hrest (fun g hg => hcolumn g (List.mem_cons_of_mem f hg))
      fun g hg => hvals g (List.mem_cons_of_mem f hg)
    have houtside : ∀ g ∈ f :: fields, g.name ∉ s.names → s.Fits column row g := fun g hg hmem => by
      unfold Fits
      rw [fieldType_eq_none_iff.mpr hmem]
      exact hcolumn g hg hmem
    by_cases hmem : f.name ∈ s.names
    · have hapart : ∀ g ∈ fields, g.name ∈ s.names → s.idx f ≠ s.idx g := by
        intro g hg hgmem heq
        exact hnot (List.mem_map.mpr ⟨g, hg, ((List.idxOf_inj hmem).mp heq).symm⟩)
      -- the later values leave the cell of the first one
      obtain ⟨row₂, hrun₂, -, hother⟩ := runOps_updateField hnodup hfits hshaped
      obtain rfl := Option.some.inj (hrest.symm.trans hrun₂)
      have hcell : row₁[s.idx f]? = some (s.cellOf f) := by
        rw [← hother _ fun g hg hgmem => (hapart g hg hgmem).symm]
        exact hvals f List.mem_cons_self hmem
      have hfit : s.Fits column row f := fits_of_updateField hrow hmem hfirst hcell
      have hset := Option.some.inj (hfirst.symm.trans (hfit.updateField hrow hmem).1)
      intro g hg
      by_cases hgmem : g.name ∈ s.names
      · rcases List.mem_cons.mp hg with rfl | hg'
        · exact hfit
        · refine (hfits g hg').congr ?_
          rw [hset, List.getElem?_set_ne (hapart g hg' hgmem)]
      · exact houtside g hg hgmem
    · have hsame : row₁ = row := by
        rw [Schema.updateField, attrIdx, if_neg hmem] at hfirst
        exact (Option.some.inj hfirst).symm
      rw [hsame] at hfits
      intro g hg
      rcases List.mem_cons.mp hg with rfl | hg'
      · exact houtside g hg hmem
      · exact hfits g hg'

end Schema

namespace Table

open Schema

variable {t t' : Table} {m : DocidFieldsMgr} {d : ℕ} {row : Row} {fields : List Field}

/-- A reader finds the new value of each field. -/
def ReadsNew (t : Table) (m : DocidFieldsMgr) (d : ℕ) (fields : List Field) : Prop :=
  ∀ f ∈ fields, t.readCell m d f.name = some (t.schema.cellOf f)

/-- **An update takes effect** exactly if its values fit. -/
theorem readsNew_iff (hrow : t.rows[d]? = some row) (hshaped : t.schema.Shaped row)
    (hnodup : (fields.map Field.name).Nodup) (hupdate : t.update fields d = some t') :
    t'.ReadsNew m d fields ↔ ∀ f ∈ fields, t.schema.Fits (m.get d) row f := by
  rw [update_eq hrow] at hupdate
  obtain ⟨row', hrun, rfl⟩ := Option.map_eq_some_iff.mp hupdate
  constructor
  · intro hreads
    refine fits_of_runOps hnodup hshaped hrun (fun f hf hmem => ?_) fun f hf hmem => ?_
    · have hread := hreads f hf
      have hnot : ¬ t.schema.fieldType f = some .string := by
        rw [fieldType_eq_none_iff.mpr hmem]
        exact fun heq => by cases heq
      rw [readCell_set hrow, if_neg hmem] at hread
      obtain ⟨bytes, hget, heq⟩ := Option.map_eq_some_iff.mp hread
      rw [hget, Option.some.injEq]
      have hcell : t.schema.cellOf f = .fixed (f.value.map some) := if_neg hnot
      exact Cell.fixed.inj (heq.trans hcell)
    · have hread := hreads f hf
      rwa [readCell_set hrow, if_pos hmem] at hread
  · intro hfits f hf
    obtain ⟨t'', hupdate, htouches⟩ := touchesOnly_of_fits hrow hshaped hnodup hfits
    rw [update_eq hrow, hrun, Option.map_some, Option.some.injEq] at hupdate
    rw [hupdate, htouches.named f hf, ← hupdate]

end Table

namespace GammaEngine

open Table

/-! ### The rounds of a batch -/

variable {keyId : Bytes → ℤ} {unset : Bool} {d : ℕ}

/-- The calls of `Update` between two states of a batch, and the row of a document that none of them is
for. -/
def Keeps (d : ℕ) (st st' : BatchState) : Prop :=
  ∃ updates, st'.updates = st.updates ++ updates ∧
    st'.engine.table.schema = st.engine.table.schema ∧
    ((∀ u ∈ updates, u.1 ≠ d) → ∀ row, st.engine.table.rows[d]? = some row →
      st'.engine.table.rows[d]? = some row)

theorem Keeps.refl (d : ℕ) (st : BatchState) : Keeps d st st :=
  ⟨[], (List.append_nil _).symm, rfl, fun _ _ h => h⟩

theorem Keeps.trans {st st' st'' : BatchState} (h : Keeps d st st') (h' : Keeps d st' st'') :
    Keeps d st st'' := by
  obtain ⟨l, hl, hschema, hrow⟩ := h
  obtain ⟨l', hl', hschema', hrow'⟩ := h'
  refine ⟨l ++ l', by rw [hl', hl, List.append_assoc], hschema'.trans hschema, fun hother row h => ?_⟩
  exact hrow' (fun u hu => hother u (List.mem_append_right l hu)) row
    (hrow (fun u hu => hother u (List.mem_append_left l' hu)) row h)

/-- A run of new documents stands behind the rows. -/
theorem batchAdd_rows {r r' : RunState} {startId : ℕ} {docs : List Doc}
    (h : GammaEngine.batchAdd keyId startId docs r = some r') :
    r'.engine.table.schema = r.engine.table.schema ∧
      ∃ rows, r'.engine.table.rows = r.engine.table.rows ++ rows := by
  rw [GammaEngine.batchAdd] at h
  split at h
  · cases h
    exact ⟨rfl, [], (List.append_nil _).symm⟩
  · obtain ⟨added, hadded, rfl⟩ := Option.map_eq_some_iff.mp h
    obtain ⟨t, ht, rfl⟩ := Option.map_eq_some_iff.mp hadded
    obtain ⟨rows, rfl, -⟩ := addRows_spec ht
    simp only [(Bounded.storeDocs_frame _ _ _ _).1]
    exact ⟨trivial, rows, rfl⟩

theorem Keeps.flush {st st' : BatchState} (h : flush keyId st = some st') : Keeps d st st' := by
  obtain ⟨r, hr, rfl⟩ := Option.map_eq_some_iff.mp h
  obtain ⟨hschema, rows, hrows⟩ := batchAdd_rows hr
  refine ⟨[], (List.append_nil _).symm, hschema, fun _ row hrow => ?_⟩
  show r.engine.table.rows[d]? = some row
  rw [hrows, List.getElem?_append_left (List.getElem?_eq_some_iff.mp hrow).1, hrow]

theorem undelete_table (e : GammaEngine) (docid : ℤ) : (e.undelete docid).table = e.table := by
  rw [undelete]
  split <;> rfl

/-- What an update makes of the table. -/
theorem update_table {e : GammaEngine} {docid : ℤ} {doc : Doc} {r : ℤ × GammaEngine}
    (h : e.update docid doc = some r) :
    (r.1 ≠ 0 ∧ r.2.table = e.table) ∨
      (r.1 = 0 ∧ e.table.update doc.tableFields docid = some r.2.table) := by
  obtain ⟨m, -, ⟨hret, heq⟩ | ⟨hret, rows, ops, htable, heq⟩⟩ := update_cases h
  · exact .inl ⟨hret, by rw [heq]⟩
  · exact .inr ⟨hret, by rw [htable, heq]⟩

/-- An update leaves the rows of the other documents. -/
theorem rows_update {t t' : Table} {fields : List Field} {docid : ℤ} (h : t.update fields docid = some t')
    (hd : docid ≠ d) : t'.schema = t.schema ∧ t'.rows[d]? = t.rows[d]? := by
  rw [Table.update] at h
  split at h
  · cases h
    exact ⟨rfl, rfl⟩
  · obtain ⟨row, hrow, hrest⟩ := Option.bind_eq_some_iff.mp h
    obtain ⟨row', -, rfl⟩ := Option.map_eq_some_iff.mp hrest
    rw [getRow] at hrow
    split at hrow
    · cases hrow
    · exact ⟨rfl, List.getElem?_set_ne (by omega)⟩

theorem Keeps.batchUpdate {doc : Doc} {docid : ℤ} {st st' : BatchState}
    (h : batchUpdate unset doc docid st = some st') : Keeps d st st' := by
  obtain ⟨r, hr, rfl⟩ := Option.map_eq_some_iff.mp h
  have htable : (if r.1 = 0 ∧ unset then r.2.undelete docid else r.2).table = r.2.table := by
    split
    · exact undelete_table r.2 docid
    · rfl
  have hframe := (update_frame hr).schema
  refine ⟨[(docid, st.engine.maxDocid)], rfl, (congrArg Table.schema htable).trans hframe,
    fun hother row hrow => ?_⟩
  have hd : docid ≠ d := hother _ List.mem_cons_self
  refine (congrArg (fun t : Table => t.rows[d]?) htable).trans ?_
  rcases update_table hr with ⟨-, hsame⟩ | ⟨-, hupdate⟩
  · rw [hsame, hrow]
  · rw [(rows_update hupdate hd).2, hrow]

theorem Keeps.batchStep {doc : Doc} {st st' : BatchState} (h : batchStep keyId unset doc st = some st') :
    Keeps d st st' := by
  rw [GammaEngine.batchStep] at h
  split at h
  · cases h
    exact ⟨[], (List.append_nil _).symm, rfl, fun _ _ hrow => hrow⟩
  · obtain ⟨st₁, hflush, hupdate⟩ := Option.bind_eq_some_iff.mp h
    exact (Keeps.flush hflush).trans (Keeps.batchUpdate hupdate)

/-- **The rest of a batch** leaves the rows that it does not update. -/
theorem Keeps.run {docs : List Doc} {st st' : BatchState}
    (h : Lib.runOps (GammaEngine.batchStep keyId unset) docs st = some st') : Keeps d st st' := by
  induction docs generalizing st with
  | nil =>
    cases h
    exact Keeps.refl d _
  | cons doc docs ih =>
    obtain ⟨st₁, hstep, hrest⟩ := Option.bind_eq_some_iff.mp h
    exact (Keeps.batchStep hstep).trans (ih hrest)

/-! ### Both entries -/

/-- The document is given for an existing key and accepted: `Update` is called for document `d` of the
first engine, and the second one is there after the call. Of a batch, the later documents are others. -/
inductive Upserted (keyId : Bytes → ℤ) (doc : Doc) (d : ℕ) : GammaEngine → GammaEngine → Prop
  | single {e e' : GammaEngine} (hfound : e.table.getDocIDByKey keyId doc.key = some d)
      (hcall : e.addOrUpdate keyId doc = some (0, e')) : Upserted keyId doc d e e'
  | batch {unset : Bool} {e : GammaEngine} {before after : List Doc} {result : BatchResult}
      {st₀ st st₁ st₂ st₃ : BatchState}
      (hbefore : Lib.runOps (batchStep keyId unset) before (batchInit e result) = some st₀)
      (hlive : st₀.engine.table.getDocIDByKey keyId doc.key ≠ none ∨ doc.key ∈ st₀.seen)
      (hflush : flush keyId st₀ = some st)
      (hfound : docidOf (lookupAgain keyId st doc.key
        (st₀.engine.table.getDocIDByKey keyId doc.key)) = d)
      (hstep : batchStep keyId unset doc st₀ = some st₁)
      (haccepted : st₁.accepted = st.accepted ++ [doc])
      (hafter : Lib.runOps (batchStep keyId unset) after st₁ = some st₂)
      (hlast : flush keyId st₂ = some st₃)
      (hothers : ∀ u ∈ st₃.updates.drop st₁.updates.length, u.1 ≠ d) :
      Upserted keyId doc d st.engine st₃.engine

/-- The rounds of the batch are those of one call of `AddOrUpdateDocs`. -/
theorem addDocs_of_batch {e : GammaEngine} {before after : List Doc} {doc : Doc}
    {result : BatchResult} {st₀ st₁ st₂ st₃ : BatchState}
    (hbefore : Lib.runOps (batchStep keyId unset) before (batchInit e result) = some st₀)
    (hstep : batchStep keyId unset doc st₀ = some st₁)
    (hafter : Lib.runOps (batchStep keyId unset) after st₁ = some st₂)
    (hlast : flush keyId st₂ = some st₃) :
    addDocs keyId unset e (before ++ doc :: after) result = some st₃ := by
  rw [addDocs, Lib.runOps_append, hbefore, Option.bind_some, Lib.runOps_cons, hstep, Option.bind_some,
    hafter, Option.bind_some, hlast]

/-- The row of the document is the one that `Table::Update` leaves. -/
theorem Upserted.table {doc : Doc} {e e' : GammaEngine} {row : Row} (h : Upserted keyId doc d e e')
    (hrow : e.table.rows[d]? = some row) :
    ∃ t, e.table.update doc.tableFields d = some t ∧ t.schema = e'.table.schema ∧
      t.rows[d]? = e'.table.rows[d]? := by
  cases h with
  | single hfound hcall =>
    rw [addOrUpdate, hfound] at hcall
    obtain ⟨r, hr, hpair⟩ := Option.map_eq_some_iff.mp hcall
    obtain ⟨hcode, rfl⟩ := Prod.mk.inj hpair
    rcases update_table hr with ⟨hret, -⟩ | ⟨-, hupdate⟩
    · rw [if_pos hret] at hcode
      cases hcode
    · exact ⟨_, hupdate, rfl, rfl⟩
  | @batch unset e before after result st₀ st st₁ st₂ st₃ hbefore hlive hflush hfound hstep haccepted
      hafter hlast hothers =>
    have hnot : ¬ (st₀.engine.table.getDocIDByKey keyId doc.key = none ∧ doc.key ∉ st₀.seen) :=
      fun hno => hlive.elim (fun h => h hno.1) hno.2
    rw [batchStep, if_neg hnot, hflush, Option.bind_some, hfound] at hstep
    obtain ⟨r, hr, rfl⟩ := Option.map_eq_some_iff.mp hstep
    have htable : (if r.1 = 0 ∧ unset then r.2.undelete d else r.2).table = r.2.table := by
      split
      · exact undelete_table r.2 d
      · rfl
    have hret : r.1 = 0 := by
      by_contra hret
      have haccepted' : (if r.1 = 0 then st.accepted ++ [doc] else st.accepted) = st.accepted ++ [doc] :=
        haccepted
      rw [if_neg hret] at haccepted'
      have hlen := congrArg List.length haccepted'
      rw [List.length_append, List.length_singleton] at hlen
      omega
    rcases update_table hr with ⟨hno, -⟩ | ⟨-, hupdate⟩
    · exact absurd hret hno
    · obtain ⟨updates, hupdates, hschema, hkeeps⟩ := (Keeps.run (d := d) hafter).trans (Keeps.flush hlast)
      rw [hupdates, List.drop_left] at hothers
      obtain ⟨row', hrun⟩ := exists_row_of_update hrow hupdate
      refine ⟨_, hupdate, (hschema.trans (congrArg Table.schema htable)).symm, ?_⟩
      rw [hrun]
      refine (hkeeps hothers row' ?_).symm
      exact (congrArg (fun t : Table => t.rows[d]?) htable).trans hrun

/-- An engine with one document, and a column that was added later. -/
def columnEngine : GammaEngine :=
  { create countSchema [] with
    table := { keyOnly with
      columns := [.addField ⟨"c", .int, false⟩, .put 0 [⟨"c", [1, 0, 0, 0], .int⟩]] }
    maxDocid := 1 }

/-- The column has the number 1 for the document. -/
def oneColumn : DocidFieldsMgr where
  size := 1
  fields := fun name => if name = "c" then some ⟨2, .int⟩ else none
  entries := fun d => if d = 0 then some [(2, 0)] else none
  values := fun name => if name = "c" then [[some 1, some 0, some 0, some 0]] else []

/-- A document with a number for a field. -/
def numberDoc (name : String) : Doc := ⟨[97], [⟨name, [2, 0, 0, 0], .int⟩], []⟩

end GammaEngine

end AwaDB
