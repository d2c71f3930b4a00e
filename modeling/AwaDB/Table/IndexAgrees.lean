import AwaDB.Table.IndexWorker
import Mathlib.Algebra.GroupWithZero.Nat

/-!
# The range index agrees with the table

Between the engine and the thread of the range index, for each document and each field: what the
index holds, and what is pending, settle on the value in the table (`Lib.Settles`).

* `agrees_always`: as long as no update writes a value while the thread holds an `Add` for it that
  was popped before, the indexes hold each document under the keys of its value, and under no others,
  whenever all is done;
* `stale_entry`: `Delete` does not wait for the operation that was popped. The `Add` then reads the
  new value, the value is entered twice, and the update after that leaves it behind.
-/

namespace AwaDB

namespace IndexWorker

open Table Schema

/-! ### The invariant -/

section Invariant

open Lib

/-- The steps after the table is written. -/
def Closing : EngineStep → Prop
  | .indexAdd _ _ => True
  | .advance _ => True
  | _ => False

/-- The steps of an update before the table is written. -/
def Deleting (schema : Schema) (d : ℕ) : EngineStep → Prop
  | .indexDelete docid name => docid = d ∧ name ∈ schema.names
  | .pushDelete docid _ _ => docid = d
  | _ => False

/-- The step belongs to the `Delete` of field `i`. -/
def Deletes (schema : Schema) (i : ℕ) : EngineStep → Prop
  | .indexDelete _ name => schema.attrIdx name = some i
  | .pushDelete _ i' _ => i' = i
  | _ => False

/-- Where a call stands. Of an update that has not written the row yet: no `Add` of a field is in the
queue behind its `Delete`. -/
inductive Stage (schema : Schema) (num : ℕ) (queue : List QueuedOp) : List EngineStep → Prop
  | closing {todo : List EngineStep} (h : ∀ st ∈ todo, Closing st) : Stage schema num queue todo
  | add {doc : Doc} {todo : List EngineStep} (hdoc : DocFits schema doc)
      (h : ∀ st ∈ todo, Closing st) : Stage schema num queue (.tableAdd doc num :: todo)
  | batchAdd {docs : List Doc} {todo : List EngineStep} (hdocs : ∀ doc ∈ docs, DocFits schema doc)
      (h : ∀ st ∈ todo, Closing st) : Stage schema num queue (.tableBatchAdd docs num :: todo)
  | update {before after : List EngineStep} {fields : List Field} {d : ℕ} (hd : d < num)
      (hnodup : (fields.map Field.name).Nodup) (hfits : schema.FitsIndex fields)
      (htype : ∀ f ∈ fields, schema.SameStringType f) (hbefore : ∀ st ∈ before, Deleting schema d st)
      (hwaits : ∀ f ∈ fields, (schema.indexKind (schema.idx f)).isSome →
        .add d (schema.idx f) ∈ queue → ∃ st ∈ before, Deletes schema (schema.idx f) st)
      (h : ∀ st ∈ after, Closing st) :
      Stage schema num queue (before ++ .tableUpdate fields d :: after)

theorem Stage.mono {schema : Schema} {num : ℕ} {queue queue' : List QueuedOp}
    {todo : List EngineStep} (h : Stage schema num queue todo) (hsub : ∀ op ∈ queue', op ∈ queue) :
    Stage schema num queue' todo := by
  cases h with
  | closing h => exact .closing h
  | add hdoc h => exact .add hdoc h
  | batchAdd hdocs h => exact .batchAdd hdocs h
  | update hd hnodup hfits htype hbefore hwaits h =>
    exact .update hd hnodup hfits htype hbefore
      (fun f hf hkind hmem => hwaits f hf hkind (hsub _ hmem)) h

/-- The rows that a step appends. -/
def newRows : EngineStep → ℕ
  | .tableAdd _ _ => 1
  | .tableBatchAdd docs _ => docs.length
  | _ => 0

/-- What a step adds to `max_docid_`. -/
def advances : EngineStep → ℕ
  | .advance num => num
  | _ => 0

/-- The index of field `i` holds what is stored in it, and what is pending brings that to the values
of the table. -/
def Stored (schema : Schema) (s : IndexWorker) (i : ℕ) (index : FieldRangeIndex) : Prop :=
  ∃ stored : ℕ → Option Bytes, index.Content stored ∧
    (∀ d v, stored d = some v → schema.Indexable i v) ∧
      ∀ d, Settles (s.pending d i) (stored d) (s.value d i)

/-- What holds in every state. -/
structure Tracks (schema : Schema) (s : IndexWorker) : Prop where
  schema_eq : s.table.schema = schema
  kinds : ∀ i, (s.fields i).map FieldRangeIndex.isNumeric = schema.indexKind i
  rows : ∀ row ∈ s.table.rows, RowFits schema row
  count : s.table.rows.length + (s.todo.map newRows).sum = s.maxDocid + (s.todo.map advances).sum
  limit : s.table.rows.length + (s.todo.map newRows).sum ≤ docLimit
  stage : Stage schema s.table.rows.length s.queue s.todo
  stored : ∀ i index, s.fields i = some index → Stored schema s i index

variable {schema : Schema} {s s' : IndexWorker}

theorem lt_of_indexKind {i : ℕ} (h : (schema.indexKind i).isSome) : i < schema.attrs.length := by
  by_contra hge
  have hnone : schema.attrs[i]? = none := List.getElem?_eq_none (Nat.not_lt.mp hge)
  rw [indexKind, hnone] at h
  cases h

theorem Tracks.kind_isSome (h : Tracks schema s) {i : ℕ} {index : FieldRangeIndex}
    (hi : s.fields i = some index) : (schema.indexKind i).isSome := by
  rw [← h.kinds i, hi]
  rfl

theorem Tracks.exists_index (h : Tracks schema s) {i : ℕ} (hi : (schema.indexKind i).isSome) :
    ∃ index, s.fields i = some index := by
  rw [← h.kinds i, Option.isSome_map] at hi
  exact Option.isSome_iff_exists.mp hi

/-- A document with a row has values that the indexes take. -/
theorem Tracks.value_some (h : Tracks schema s) {d i : ℕ} (hd : d < s.table.rows.length)
    (hi : i < schema.attrs.length) : ∃ v, s.value d i = some v ∧ schema.Indexable i v := by
  obtain ⟨v, hv, hindex⟩ := (h.rows _ (List.getElem_mem hd)).values i hi
  refine ⟨v, ?_, hindex⟩
  rw [value_eq, List.getElem?_eq_getElem hd, Option.bind_some, hv]

theorem value_none {d i : ℕ} (hd : s.table.rows.length ≤ d) : s.value d i = none := by
  rw [value_eq, List.getElem?_eq_none hd]
  rfl

/-- The indexes stay as they are. -/
theorem Tracks.sameIndexes (h : Tracks schema s) (hschema : s'.table.schema = schema)
    (hfields : s'.fields = s.fields) (hrows : ∀ row ∈ s'.table.rows, RowFits schema row)
    (hcount : s'.table.rows.length + (s'.todo.map newRows).sum =
      s'.maxDocid + (s'.todo.map advances).sum)
    (hlimit : s'.table.rows.length + (s'.todo.map newRows).sum ≤ docLimit)
    (hstage : Stage schema s'.table.rows.length s'.queue s'.todo)
    (hpending : ∀ i, (schema.indexKind i).isSome → ∀ d copy,
      Settles (s.pending d i) copy (s.value d i) → Settles (s'.pending d i) copy (s'.value d i)) :
    Tracks schema s' where
  schema_eq := hschema
  kinds := by
    rw [hfields]
    exact h.kinds
  rows := hrows
  count := hcount
  limit := hlimit
  stage := hstage
  stored := by
    intro i index hi
    rw [hfields] at hi
    obtain ⟨stored, hcontent, hindexable, hsettles⟩ := h.stored i index hi
    exact ⟨stored, hcontent, hindexable, fun d => hpending i (h.kind_isSome hi) d _ (hsettles d)⟩

/-! ### The thread's steps -/

/-- **The thread pops an operation.** -/
theorem Tracks.pop (h : Tracks schema s) {op : QueuedOp} {queue : List QueuedOp}
    (hpopped : s.popped = none) (hqueue : s.queue = op :: queue) :
    Tracks schema { s with queue := queue, popped := some op } := by
  have hsame : ∀ d i, ({ s with queue := queue, popped := some op } : IndexWorker).pending d i =
      s.pending d i := by
    intro d i
    rw [pending, pending, waiting, waiting, hpopped, hqueue]
    rfl
  refine h.sameIndexes h.schema_eq rfl h.rows h.count h.limit (h.stage.mono ?_) ?_
  · intro op' hop'
    rw [hqueue]
    exact List.mem_cons_of_mem op hop'
  · intro i _ d copy hsettles
    rw [hsame]
    exact hsettles

/-- What is pending behind the operation that was popped. -/
theorem pending_popped {op : QueuedOp} (hpopped : s.popped = some op)
    (fields : ℕ → Option FieldRangeIndex) (d i : ℕ) : s.pending d i =
      opEvents d i op ++ ({ s with fields := fields, popped := none } : IndexWorker).pending d i := by
  rw [pending, pending, waiting, waiting, hpopped, ← List.append_assoc]
  rfl

/-- The keys of a value are found in each index that takes it. -/
theorem Tracks.valid (h : Tracks schema s) {i : ℕ} {index : FieldRangeIndex}
    (hi : s.fields i = some index) {v : Bytes} (hv : schema.Indexable i v) : index.Valid v := by
  have hkind := h.kinds i
  rw [hi] at hkind
  exact hv index.isNumeric hkind.symm

/-- The operation is for a field without an index. -/
theorem Tracks.skipped (h : Tracks schema s) {op : QueuedOp} (hpopped : s.popped = some op) {d i : ℕ}
    (hother : ∀ d' i', ¬ (d = d' ∧ i = i') → opEvents d' i' op = []) (hi : s.fields i = none) :
    Tracks schema { s with popped := none } := by
  refine h.sameIndexes h.schema_eq rfl h.rows h.count h.limit h.stage ?_
  intro i' hkind d' copy hsettles
  obtain ⟨index, hindex⟩ := h.exists_index hkind
  have hne : ¬ (d = d' ∧ i = i') := by
    rintro ⟨-, rfl⟩
    rw [hi] at hindex
    cases hindex
  rw [pending_popped hpopped s.fields, hother d' i' hne] at hsettles
  exact hsettles

/-- The operation is done: it has changed what is stored for one document in one index. -/
theorem Tracks.processed (h : Tracks schema s) {op : QueuedOp} (hpopped : s.popped = some op)
    {d i : ℕ} (hother : ∀ d' i', ¬ (d = d' ∧ i = i') → opEvents d' i' op = [])
    {index index' : FieldRangeIndex} (hi : s.fields i = some index)
    (hkind : index'.isNumeric = index.isNumeric) {stored : ℕ → Option Bytes} {copy : Option Bytes}
    (hindexable : ∀ d v, stored d = some v → schema.Indexable i v)
    (hsettles : ∀ d, Settles (s.pending d i) (stored d) (s.value d i))
    (hcontent : index'.Content (Function.update stored d copy))
    (hcopy : ∀ v, copy = some v → schema.Indexable i v)
    (hrest : Settles (({ s with popped := none } : IndexWorker).pending d i) copy (s.value d i)) :
    Tracks schema { s with fields := Function.update s.fields i (some index'), popped := none } where
  schema_eq := h.schema_eq
  kinds := by
    intro i'
    by_cases heq : i' = i
    · subst heq
      have hold := h.kinds i'
      rw [hi] at hold
      show (Function.update s.fields i' (some index') i').map _ = _
      rw [Function.update_self, ← hold, Option.map_some, Option.map_some, hkind]
    · show (Function.update s.fields i (some index') i').map _ = _
      rw [Function.update_of_ne heq]
      exact h.kinds i'
  rows := h.rows
  count := h.count
  limit := h.limit
  stage := h.stage
  stored := by
    intro i' index₁ hindex₁
    replace hindex₁ : Function.update s.fields i (some index') i' = some index₁ := hindex₁
    by_cases heq : i' = i
    · subst heq
      rw [Function.update_self] at hindex₁
      cases hindex₁
      refine ⟨_, hcontent, fun d' v hv => ?_, fun d' => ?_⟩
      · by_cases hd : d' = d
        · subst hd
          rw [Function.update_self] at hv
          exact hcopy v hv
        · rw [Function.update_of_ne hd] at hv
          exact hindexable d' v hv
      · by_cases hd : d' = d
        · subst hd
          rw [Function.update_self]
          exact hrest
        · have hold := hsettles d'
          rw [pending_popped hpopped s.fields, hother d' i' fun hcond => hd hcond.1.symm] at hold
          rw [Function.update_of_ne hd]
          exact hold
    · rw [Function.update_of_ne heq] at hindex₁
      obtain ⟨stored', hcontent', hindexable', hsettles'⟩ := h.stored i' index₁ hindex₁
      refine ⟨stored', hcontent', hindexable', fun d' => ?_⟩
      have hold := hsettles' d'
      rw [pending_popped hpopped s.fields, hother d' i' fun hcond => heq hcond.2.symm] at hold
      exact hold

/-- **`AddDoc`** finds a document that is not stored, and stores the value it reads. -/
theorem Tracks.addDoc (h : Tracks schema s) {d i : ℕ} (hpopped : s.popped = some (.add d i)) :
    ∃ s', s.addDoc d i = some s' ∧ Tracks schema { s' with popped := none } := by
  have hother : ∀ d' i', ¬ (d = d' ∧ i = i') → opEvents d' i' (.add d i) = [] :=
    fun d' i' hne => if_neg hne
  cases hi : s.fields i with
  | none =>
    refine ⟨s, ?_, h.skipped hpopped hother hi⟩
    rw [IndexWorker.addDoc, hi]
  | some index =>
    obtain ⟨stored, hcontent, hindexable, hsettles⟩ := h.stored i index hi
    have hd := hsettles d
    rw [pending_popped hpopped s.fields, opEvents, if_pos ⟨rfl, rfl⟩] at hd
    obtain ⟨hcopy, hsome, hrest⟩ := hd
    obtain ⟨v, hv⟩ := Option.isSome_iff_exists.mp hsome
    have hlt : d < s.table.rows.length := by
      by_contra hge
      rw [value_none (Nat.not_lt.mp hge)] at hv
      cases hv
    obtain ⟨v', hv', hindex⟩ := h.value_some hlt (lt_of_indexKind (h.kind_isSome hi))
    rw [hv] at hv'
    cases hv'
    obtain ⟨cell, hcell, hbytes⟩ := Option.bind_eq_some_iff.mp hv
    have hlimit : d < docLimit := by
      have hall := h.limit
      omega
    obtain ⟨index', hadd, hkind, hcontent'⟩ := hcontent.add (h.valid hi hindex) hlimit hcopy
    refine ⟨{ s with fields := Function.update s.fields i (some index') }, ?_, ?_⟩
    · rw [IndexWorker.addDoc, hi, hcell]
      simp only [hbytes, hadd, Option.bind_some, Option.map_some]
    · refine h.processed hpopped hother hi hkind hindexable hsettles hcontent' ?_ ?_
      · intro v' heq
        cases heq
        exact hindex
      · rw [← hv]
        exact hrest

/-- **`DeleteDoc`** finds the document stored under the value that was read. -/
theorem Tracks.deleteDoc (h : Tracks schema s) {d i : ℕ} {key : Bytes}
    (hpopped : s.popped = some (.delete d i key)) :
    ∃ s', s.deleteDoc d i key = some s' ∧ Tracks schema { s' with popped := none } := by
  have hother : ∀ d' i', ¬ (d = d' ∧ i = i') → opEvents d' i' (.delete d i key) = [] :=
    fun d' i' hne => if_neg hne
  cases hi : s.fields i with
  | none =>
    refine ⟨s, ?_, h.skipped hpopped hother hi⟩
    rw [IndexWorker.deleteDoc, hi]
  | some index =>
    obtain ⟨stored, hcontent, hindexable, hsettles⟩ := h.stored i index hi
    have hd := hsettles d
    rw [pending_popped hpopped s.fields, opEvents, if_pos ⟨rfl, rfl⟩] at hd
    obtain ⟨hcopy, hrest⟩ := hd
    have hvalid := h.valid hi (hindexable d key hcopy)
    by_cases hempty : key = []
    · refine ⟨s, ?_, ?_⟩
      · rw [IndexWorker.deleteDoc, hi]
        exact if_pos hempty
      · subst hempty
        have hsame := h.processed hpopped hother hi rfl hindexable hsettles
          (hcontent.forget_empty hvalid hcopy) (fun v hv => by cases hv) hrest
        rwa [← hi, Function.update_eq_self] at hsame
    · obtain ⟨index', hdelete, hkind, hcontent'⟩ := hcontent.delete hvalid hcopy
      refine ⟨{ s with fields := Function.update s.fields i (some index') }, ?_, ?_⟩
      · rw [IndexWorker.deleteDoc, hi]
        simp only [if_neg hempty, hdelete, Option.map_some]
      · exact h.processed hpopped hother hi hkind hindexable hsettles hcontent'
          (fun v hv => by cases hv) hrest

/-- **The thread processes the operation.** -/
theorem Tracks.runOp (h : Tracks schema s) {op : QueuedOp} (hpopped : s.popped = some op) :
    ∃ s', IndexWorker.runOp op s = some s' ∧ Tracks schema { s' with popped := none } := by
  cases op with
  | add d i => exact h.addDoc hpopped
  | delete d i key => exact h.deleteDoc hpopped

/-! ### The engine's steps -/

section Engine

variable {st : EngineStep} {todo : List EngineStep}

theorem Tracks.pending_cons (h : Tracks schema s) (htodo : s.todo = st :: todo) (d i : ℕ) :
    s.pending d i =
      s.waiting d i ++ (stepEvents schema d i st ++ todo.flatMap (stepEvents schema d i)) := by
  rw [pending, htodo, List.flatMap_cons, h.schema_eq]

/-- What is counted behind a step that adds no rows. -/
theorem Tracks.count_cons (h : Tracks schema s) (htodo : s.todo = st :: todo) :
    s.table.rows.length + (newRows st + (todo.map newRows).sum) =
        s.maxDocid + (advances st + (todo.map advances).sum) ∧
      s.table.rows.length + (newRows st + (todo.map newRows).sum) ≤ docLimit := by
  have hcount := h.count
  have hlimit := h.limit
  rw [htodo, List.map_cons, List.map_cons, List.sum_cons, List.sum_cons] at hcount
  rw [htodo, List.map_cons, List.sum_cons] at hlimit
  exact ⟨hcount, hlimit⟩

/-- **The step `max_docid_ += num`.** -/
theorem Tracks.advance (h : Tracks schema s) {num : ℕ} (htodo : s.todo = .advance num :: todo)
    (hclosing : ∀ st ∈ todo, Closing st) :
    Tracks schema { s with todo := todo, maxDocid := s.maxDocid + num } := by
  obtain ⟨hcount, hlimit⟩ := h.count_cons htodo
  simp only [newRows, advances, Nat.zero_add] at hcount hlimit
  refine h.sameIndexes h.schema_eq rfl h.rows ?_ hlimit (.closing hclosing) ?_
  · show _ = s.maxDocid + num + _
    rw [hcount, Nat.add_assoc]
  · intro i _ d copy hsettles
    rw [h.pending_cons htodo] at hsettles
    rw [← h.schema_eq] at hsettles
    exact hsettles

/-- **`Add`** pushes its operation. -/
theorem Tracks.indexAdd (h : Tracks schema s) {docid : ℕ} {name : String}
    (htodo : s.todo = .indexAdd docid name :: todo) (hclosing : ∀ st ∈ todo, Closing st) :
    Tracks schema (({ s with todo := todo } : IndexWorker).indexAdd docid name) := by
  obtain ⟨hcount, hlimit⟩ := h.count_cons htodo
  simp only [newRows, advances, Nat.zero_add] at hcount hlimit
  obtain rfl := h.schema_eq
  have hskip : (∀ i, (s.table.schema.indexKind i).isSome → s.table.schema.attrIdx name ≠ some i) →
      Tracks s.table.schema { s with todo := todo } := by
    intro hne
    refine h.sameIndexes rfl rfl h.rows hcount hlimit (.closing hclosing) ?_
    intro i hkind d copy hsettles
    have hnone : stepEvents s.table.schema d i (.indexAdd docid name) = [] :=
      if_neg fun hcond => hne i hkind hcond.2
    rw [h.pending_cons htodo, hnone] at hsettles
    exact hsettles
  rw [IndexWorker.indexAdd]
  dsimp only
  cases hattr : s.table.schema.attrIdx name with
  | none => exact hskip fun i _ heq => by rw [hattr] at heq; cases heq
  | some i₀ =>
    dsimp only
    cases hi : s.fields i₀ with
    | none =>
      refine hskip fun i hkind heq => ?_
      rw [hattr] at heq
      cases heq
      obtain ⟨index, hindex⟩ := h.exists_index hkind
      rw [hi] at hindex
      cases hindex
    | some index =>
      refine h.sameIndexes rfl rfl h.rows hcount hlimit (.closing hclosing) ?_
      intro i _ d copy hsettles
      have hevents : stepEvents s.table.schema d i (.indexAdd docid name) =
          opEvents d i (.add docid i₀) := by
        rw [stepEvents, nameEvent, hattr, opEvents]
        simp only [Option.some.injEq]
      have hwaiting : ({ s with todo := todo, queue := s.queue ++ [.add docid i₀] } :
          IndexWorker).waiting d i = s.waiting d i ++ opEvents d i (.add docid i₀) := by
        rw [waiting, waiting, ← List.append_assoc, List.flatMap_append, List.flatMap_singleton]
      rw [h.pending_cons htodo, hevents, ← List.append_assoc] at hsettles
      rw [pending, hwaiting]
      exact hsettles

/-- **`Delete`** reads the value that the document has in the index, or will have. -/
theorem Tracks.indexDelete (h : Tracks schema s) {docid : ℕ} {name : String}
    {before after : List EngineStep} {fields : List Field} {d : ℕ}
    (htodo : s.todo = .indexDelete docid name :: (before ++ .tableUpdate fields d :: after))
    (hd : d < s.table.rows.length) (hnodup : (fields.map Field.name).Nodup)
    (hfits : schema.FitsIndex fields) (htype : ∀ f ∈ fields, schema.SameStringType f)
    (hdeleting : Deleting schema d (.indexDelete docid name))
    (hbefore : ∀ st ∈ before, Deleting schema d st)
    (hwaits : ∀ f ∈ fields, (schema.indexKind (schema.idx f)).isSome →
      .add d (schema.idx f) ∈ s.queue →
        ∃ st ∈ .indexDelete docid name :: before, Deletes schema (schema.idx f) st)
    (hclosing : ∀ st ∈ after, Closing st) :
    ∃ s', ({ s with todo := before ++ .tableUpdate fields d :: after } :
      IndexWorker).indexDelete docid name = some s' ∧ Tracks schema s' := by
  obtain ⟨hcount, hlimit⟩ := h.count_cons htodo
  simp only [newRows, advances, Nat.zero_add] at hcount hlimit
  obtain rfl := h.schema_eq
  obtain ⟨rfl, hname⟩ := hdeleting
  have hattr : s.table.schema.attrIdx name = some (s.table.schema.names.idxOf name) := if_pos hname
  rw [IndexWorker.indexDelete]
  dsimp only
  rw [hattr, Option.bind_some]
  generalize s.table.schema.names.idxOf name = i₀ at hattr
  cases hi : s.fields i₀ with
  | none =>
    refine ⟨_, rfl, h.sameIndexes rfl rfl h.rows hcount hlimit ?_ ?_⟩
    · refine .update hd hnodup hfits htype hbefore (fun f hf hkind hmem => ?_) hclosing
      obtain ⟨st, hst, hdeletes⟩ := hwaits f hf hkind hmem
      cases List.mem_cons.mp hst with
      | inr hst => exact ⟨st, hst, hdeletes⟩
      | inl heq =>
        subst heq
        have hidx : i₀ = s.table.schema.idx f := Option.some.inj (hattr.symm.trans hdeletes)
        obtain ⟨index, hindex⟩ := h.exists_index hkind
        rw [← hidx, hi] at hindex
        cases hindex
    · intro i hkind d' copy hsettles
      have hnone : stepEvents s.table.schema d' i (.indexDelete docid name) = [] := by
        refine if_neg fun hcond => ?_
        obtain ⟨index, hindex⟩ := h.exists_index hkind
        rw [hattr] at hcond
        rw [← Option.some.inj hcond.2, hi] at hindex
        cases hindex
      rw [h.pending_cons htodo, hnone] at hsettles
      exact hsettles
  | some index =>
    obtain ⟨v, hv, -⟩ := h.value_some hd (lt_of_indexKind (h.kind_isSome hi))
    obtain ⟨cell, hcell, hbytes⟩ := Option.bind_eq_some_iff.mp hv
    have hzero : newRows (.pushDelete docid i₀ v) = 0 ∧ advances (.pushDelete docid i₀ v) = 0 :=
      ⟨rfl, rfl⟩
    refine ⟨{ s with todo := .pushDelete docid i₀ v :: (before ++ .tableUpdate fields docid :: after) },
      ?_, h.sameIndexes rfl rfl h.rows ?_ ?_ ?_ ?_⟩
    · dsimp only
      rw [hcell]
      dsimp only
      rw [hbytes, Option.map_some]
    · rw [List.map_cons, List.map_cons, List.sum_cons, List.sum_cons, hzero.1, hzero.2, Nat.zero_add,
        Nat.zero_add]
      exact hcount
    · rw [List.map_cons, List.sum_cons, hzero.1, Nat.zero_add]
      exact hlimit
    · show Stage _ _ _ ((.pushDelete docid i₀ v :: before) ++ .tableUpdate fields docid :: after)
      refine .update hd hnodup hfits htype ?_ (fun f hf hkind hmem => ?_) hclosing
      · intro st hst
        cases List.mem_cons.mp hst with
        | inl heq => rw [heq]; rfl
        | inr hst => exact hbefore st hst
      · obtain ⟨st, hst, hdeletes⟩ := hwaits f hf hkind hmem
        cases List.mem_cons.mp hst with
        | inr hst => exact ⟨st, List.mem_cons_of_mem _ hst, hdeletes⟩
        | inl heq =>
          subst heq
          exact ⟨_, List.mem_cons_self, Option.some.inj (hattr.symm.trans hdeletes)⟩
    · intro i _ d' copy hsettles
      rw [h.pending_cons htodo, stepEvents, nameEvent, hattr] at hsettles
      show Settles (s.waiting d' i ++ (stepEvents s.table.schema d' i (.pushDelete docid i₀ v) ++ _))
        copy (s.value d' i)
      rw [stepEvents]
      by_cases hcond : docid = d' ∧ i₀ = i
      · obtain ⟨rfl, rfl⟩ := hcond
        rw [if_pos ⟨rfl, rfl⟩] at hsettles ⊢
        rw [hv] at hsettles ⊢
        exact settles_dropCurrent (s.queued_waiting docid i₀) hsettles
      · have hcond' : ¬ (docid = d' ∧ some i₀ = some i) :=
          fun hboth => hcond ⟨hboth.1, Option.some.inj hboth.2⟩
        rw [if_neg hcond'] at hsettles
        rw [if_neg hcond]
        exact hsettles

/-- **`Delete`** waits, and pushes its operation. -/
theorem Tracks.pushDelete (h : Tracks schema s) {docid i₀ : ℕ} {v : Bytes}
    {before after : List EngineStep} {fields : List Field} {d : ℕ}
    (htodo : s.todo = .pushDelete docid i₀ v :: (before ++ .tableUpdate fields d :: after))
    (hqueue : s.queue = []) (hd : d < s.table.rows.length)
    (hnodup : (fields.map Field.name).Nodup) (hfits : schema.FitsIndex fields)
    (htype : ∀ f ∈ fields, schema.SameStringType f)
    (hbefore : ∀ st ∈ before, Deleting schema d st) (hclosing : ∀ st ∈ after, Closing st) :
    Tracks schema { s with
      todo := before ++ .tableUpdate fields d :: after
      queue := [.delete docid i₀ v] } := by
  obtain ⟨hcount, hlimit⟩ := h.count_cons htodo
  simp only [newRows, advances, Nat.zero_add] at hcount hlimit
  obtain rfl := h.schema_eq
  refine h.sameIndexes rfl rfl h.rows hcount hlimit ?_ ?_
  · refine .update hd hnodup hfits htype hbefore (fun f _ _ hmem => ?_) hclosing
    cases List.mem_singleton.mp hmem
  · intro i _ d' copy hsettles
    rw [h.pending_cons htodo, waiting, hqueue, List.append_nil, ← List.append_assoc] at hsettles
    rw [pending, waiting, List.flatMap_append, List.flatMap_singleton]
    exact hsettles

/-- The rows of documents are appended to the table. -/
theorem Tracks.appendRows (h : Tracks schema s) (htodo : s.todo = st :: todo) (docs : List Doc)
    (hevents : ∀ d i, stepEvents schema d i st = appendEvents schema d i docs s.table.rows.length)
    (hnew : newRows st = docs.length) (hadvances : advances st = 0)
    (hclosing : ∀ st ∈ todo, Closing st) {table : Table} (rows : List Row)
    (hschema : table.schema = schema) (hrows : table.rows = s.table.rows ++ rows)
    (hlen : rows.length = docs.length) (hfits : ∀ row ∈ rows, RowFits schema row)
    (hvalues : ∀ k i : ℕ, i < schema.attrs.length → (rows[k]?.bind fun row => rowValue row i) =
      docs[k]?.bind fun doc => given schema i doc.tableFields) :
    Tracks schema { s with table := table, todo := todo } := by
  obtain ⟨hcount, hlimit⟩ := h.count_cons htodo
  rw [hadvances, Nat.zero_add, hnew, ← hlen, ← Nat.add_assoc] at hcount
  rw [hnew, ← hlen, ← Nat.add_assoc] at hlimit
  have hlength : table.rows.length = s.table.rows.length + rows.length := by
    rw [hrows, List.length_append]
  refine h.sameIndexes hschema rfl ?_ ?_ ?_ (.closing hclosing) ?_
  · intro row hrow
    rw [hrows] at hrow
    cases List.mem_append.mp hrow with
    | inl hold => exact h.rows row hold
    | inr hnew => exact hfits row hnew
  · show table.rows.length + _ = _
    rw [hlength]
    exact hcount
  · show table.rows.length + _ ≤ _
    rw [hlength]
    exact hlimit
  · intro i hkind d copy hsettles
    have hi := lt_of_indexKind hkind
    rw [h.pending_cons htodo, hevents] at hsettles
    obtain rfl := hschema
    show Settles (s.waiting d i ++ todo.flatMap (stepEvents table.schema d i)) copy
      (({ s with table := table, todo := todo } : IndexWorker).value d i)
    rw [value_eq]
    show Settles _ copy (table.rows[d]?.bind fun row => rowValue row i)
    rw [hrows]
    by_cases hd : s.table.rows.length ≤ d
    · rw [value_none hd, appendEvents, if_pos hd] at hsettles
      rw [List.getElem?_append_right hd, hvalues _ i hi]
      cases hgiven : docs[d - s.table.rows.length]?.bind fun doc =>
          given table.schema i doc.tableFields with
      | none =>
        rw [hgiven] at hsettles
        exact hsettles
      | some v =>
        rw [hgiven] at hsettles
        exact settles_write (s.queued_waiting d i) (fun _ => .inl rfl) hsettles
    · have hlt : d < s.table.rows.length := Nat.not_le.mp hd
      rw [appendEvents, if_neg hd, value_eq] at hsettles
      rw [List.getElem?_append_left hlt]
      exact hsettles

/-- **`Table::Add`.** -/
theorem Tracks.tableAdd (h : Tracks schema s) (keyId : Bytes → ℤ) {doc : Doc}
    (htodo : s.todo = .tableAdd doc s.table.rows.length :: todo) (hdoc : DocFits schema doc)
    (hclosing : ∀ st ∈ todo, Closing st) :
    ∃ s', runStep keyId (.tableAdd doc s.table.rows.length) { s with todo := todo } = some s' ∧
      Tracks schema s' := by
  obtain rfl := h.schema_eq
  obtain ⟨row, hrow, hfits, hvalues⟩ := rowFits_rowOf hdoc.complete hdoc.fits
  have hadd := hdoc.complete.add_eq keyId hdoc.key s.table.rows.length
  rw [hrow, Option.map_some] at hadd
  refine ⟨_, by rw [runStep, hadd, Option.map_some, if_neg (not_not.mpr rfl)], ?_⟩
  refine h.appendRows htodo [doc] (fun _ _ => rfl) rfl rfl hclosing [row] rfl rfl rfl ?_ ?_
  · intro row' hmem
    rw [List.mem_singleton.mp hmem]
    exact hfits
  · intro k i hi
    cases k with
    | zero => exact hvalues i hi
    | succ k => rfl

/-- The rows of documents that fit. -/
theorem rowFits_mapM {docs : List Doc} (hdocs : ∀ doc ∈ docs, DocFits schema doc) :
    ∃ rows, docs.mapM (rowOf schema) = some rows ∧ rows.length = docs.length ∧
      (∀ row ∈ rows, RowFits schema row) ∧
        ∀ k i : ℕ, i < schema.attrs.length → (rows[k]?.bind fun row => rowValue row i) =
          docs[k]?.bind fun doc => given schema i doc.tableFields := by
  induction docs with
  | nil => exact ⟨[], rfl, rfl, fun row hrow => absurd hrow List.not_mem_nil,
      fun k i _ => rfl⟩
  | cons doc docs ih =>
    obtain ⟨rows, hrows, hlen, hfits, hvalues⟩ :=
      ih fun doc' hmem => hdocs doc' (List.mem_cons_of_mem doc hmem)
    have hdoc := hdocs doc List.mem_cons_self
    obtain ⟨row, hrow, hfit, hvalue⟩ := rowFits_rowOf hdoc.complete hdoc.fits
    refine ⟨row :: rows, ?_, by rw [List.length_cons, List.length_cons, hlen], ?_, ?_⟩
    · rw [List.mapM_cons, hrow, hrows]
      rfl
    · intro row' hmem
      cases List.mem_cons.mp hmem with
      | inl heq => rw [heq]; exact hfit
      | inr hmem => exact hfits row' hmem
    · intro k i hi
      cases k with
      | zero => exact hvalue i hi
      | succ k => exact hvalues k i hi

/-- **`Table::BatchAdd`.** -/
theorem Tracks.tableBatchAdd (h : Tracks schema s) (keyId : Bytes → ℤ) {docs : List Doc}
    (htodo : s.todo = .tableBatchAdd docs s.table.rows.length :: todo)
    (hdocs : ∀ doc ∈ docs, DocFits schema doc) (hclosing : ∀ st ∈ todo, Closing st) :
    ∃ s', runStep keyId (.tableBatchAdd docs s.table.rows.length) { s with todo := todo } = some s' ∧
      Tracks schema s' := by
  obtain rfl := h.schema_eq
  obtain ⟨rows, hrows, hlen, hfits, hvalues⟩ := rowFits_mapM hdocs
  have hadd := batchAdd_eq keyId (fun doc hmem => (hdocs doc hmem).complete)
    (fun doc hmem => (hdocs doc hmem).key) s.table.rows.length []
  rw [hrows, Option.map_some] at hadd
  refine ⟨_, by rw [runStep, hadd, Option.map_some], ?_⟩
  exact h.appendRows htodo docs (fun _ _ => rfl) rfl rfl hclosing rows rfl rfl hlen hfits hvalues

/-- **`Table::Update`**, when no `Add` that waits would read another value. -/
theorem Tracks.tableUpdate (h : Tracks schema s) {fields : List Field} {d : ℕ}
    (htodo : s.todo = .tableUpdate fields d :: todo) (hd : d < s.table.rows.length)
    (hnodup : (fields.map Field.name).Nodup) (hfits : schema.FitsIndex fields)
    (htype : ∀ f ∈ fields, schema.SameStringType f)
    (hwaits : ∀ f ∈ fields, (schema.indexKind (schema.idx f)).isSome →
      .add d (schema.idx f) ∉ s.queue)
    (hpopped : ∀ f ∈ fields, s.popped = some (.add d (schema.idx f)) →
      s.value d (schema.idx f) = some f.value)
    (hclosing : ∀ st ∈ todo, Closing st) :
    ∃ table, s.table.update fields d = some table ∧
      Tracks schema { s with table := table, todo := todo } := by
  obtain ⟨hcount, hlimit⟩ := h.count_cons htodo
  simp only [newRows, advances, Nat.zero_add] at hcount hlimit
  obtain rfl := h.schema_eq
  have hrow := List.getElem?_eq_getElem hd
  have hold := h.rows _ (List.getElem_mem hd)
  obtain ⟨row', hupdate, hfits', hvalues⟩ := rowFits_update hrow hold hnodup hfits htype
  refine ⟨_, hupdate, h.sameIndexes rfl rfl ?_ ?_ ?_ (.closing hclosing) ?_⟩
  · intro row hmem
    cases List.mem_or_eq_of_mem_set hmem with
    | inl hmem => exact h.rows row hmem
    | inr heq => rw [heq]; exact hfits'
  · simpa using hcount
  · simpa using hlimit
  · intro i hkind d' copy hsettles
    rw [h.pending_cons htodo, stepEvents] at hsettles
    show Settles (s.waiting d' i ++ todo.flatMap (stepEvents s.table.schema d' i)) copy _
    rw [value_eq]
    show Settles _ copy ((s.table.rows.set d row')[d']?.bind fun row => rowValue row i)
    by_cases heq : d = d'
    · subst heq
      rw [if_pos rfl] at hsettles
      rw [List.getElem?_set_self hd, Option.bind_some, hvalues]
      cases hgiven : given s.table.schema i fields with
      | none =>
        rw [hgiven, value_eq, hrow] at hsettles
        exact hsettles
      | some v =>
        obtain ⟨f, hf, rfl, rfl⟩ := given_eq_some hgiven
        rw [hgiven] at hsettles
        refine settles_write (s.queued_waiting d _) (fun htake => .inr ?_) hsettles
        cases take_mem_waiting htake with
        | inl hop => exact hpopped f hf hop
        | inr hop => exact absurd hop (hwaits f hf hkind)
    · rw [if_neg heq, value_eq] at hsettles
      rw [List.getElem?_set_ne heq]
      exact hsettles

end Engine

/-! ### The calls -/

section Calls

variable {todo : List EngineStep}

/-- A call starts with a script that settles by itself. -/
theorem Tracks.start (h : Tracks schema s) (htodo : s.todo = [])
    (hcount : (todo.map newRows).sum = (todo.map advances).sum)
    (hlimit : s.table.rows.length + (todo.map newRows).sum ≤ docLimit)
    (hstage : Stage schema s.table.rows.length s.queue todo)
    (hevents : ∀ i, (schema.indexKind i).isSome → ∀ d,
      Settles (todo.flatMap (stepEvents schema d i)) (s.value d i) (s.value d i)) :
    Tracks schema { s with todo := todo } := by
  have hold := h.count
  rw [htodo] at hold
  refine h.sameIndexes h.schema_eq rfl h.rows ?_ hlimit hstage ?_
  · show _ = s.maxDocid + _
    rw [hcount]
    exact congrArg (· + _) hold
  · intro i hkind d copy hsettles
    rw [pending, htodo, List.flatMap_nil, List.append_nil] at hsettles
    have hlater := hevents i hkind d
    rw [← h.schema_eq] at hlater
    exact settles_append (s.queued_waiting d i) hsettles hlater

/-- The calls of `Add` for the documents from `docid` on. -/
def addSteps (docs : List Doc) (docid : ℕ) : List EngineStep :=
  (docs.zipIdx docid).flatMap fun p => p.1.tableFields.map fun field => .indexAdd p.2 field.name

theorem closing_addSteps (docs : List Doc) (docid : ℕ) : ∀ st ∈ addSteps docs docid, Closing st := by
  intro st hst
  obtain ⟨p, -, hp⟩ := List.mem_flatMap.mp hst
  obtain ⟨f, -, rfl⟩ := List.mem_map.mp hp
  trivial

theorem sum_of_closing {f : EngineStep → ℕ} {l : List EngineStep} (h : ∀ st ∈ l, f st = 0) :
    (l.map f).sum = 0 := by
  rw [List.map_congr_left h]
  simp

theorem count_addSteps (docs : List Doc) (docid : ℕ) :
    ((addSteps docs docid).map newRows).sum = 0 ∧ ((addSteps docs docid).map advances).sum = 0 := by
  have hzero : ∀ st ∈ addSteps docs docid, newRows st = 0 ∧ advances st = 0 := by
    intro st hst
    obtain ⟨p, -, hp⟩ := List.mem_flatMap.mp hst
    obtain ⟨f, -, rfl⟩ := List.mem_map.mp hp
    exact ⟨rfl, rfl⟩
  exact ⟨sum_of_closing fun st hst => (hzero st hst).1, sum_of_closing fun st hst => (hzero st hst).2⟩

/-- A document whose row is appended gets one `take`. -/
theorem events_addSteps {docs : List Doc} (hdocs : ∀ doc ∈ docs, DocFits schema doc) (docid d i : ℕ) :
    (addSteps docs docid).flatMap (stepEvents schema d i) =
      if docid ≤ d then
        (docs[d - docid]?.bind fun doc => given schema i doc.tableFields).toList.map fun _ => .take
      else [] := by
  induction docs generalizing docid with
  | nil => simp [addSteps]
  | cons doc docs ih =>
    have hrest := ih (fun doc' hmem => hdocs doc' (List.mem_cons_of_mem doc hmem)) (docid + 1)
    have hcomplete := (hdocs doc List.mem_cons_self).complete
    have hsplit : (addSteps (doc :: docs) docid).flatMap (stepEvents schema d i) =
        (doc.tableFields.flatMap fun f => nameEvent schema d i docid f.name .take) ++
          (addSteps docs (docid + 1)).flatMap (stepEvents schema d i) := by
      rw [addSteps, List.zipIdx_cons, List.flatMap_cons, List.flatMap_append, List.flatMap_map]
      rfl
    rw [hsplit, hrest]
    by_cases heq : docid = d
    · subst heq
      have hnot : ¬ docid + 1 ≤ docid := by omega
      rw [if_neg hnot, if_pos (Nat.le_refl docid), List.append_nil, Nat.sub_self,
        flatMap_nameEvent .take ((List.Perm.nodup_iff hcomplete).mpr schema.names_nodup)
          fun f hf => hcomplete.mem_names hf]
      show _ = ((given schema i doc.tableFields).toList.map fun _ => _)
      cases given schema i doc.tableFields <;> rfl
    · rw [flatMap_nameEvent_ne heq, List.nil_append]
      by_cases hle : docid + 1 ≤ d
      · have hpred : d - docid = d - (docid + 1) + 1 := by omega
        rw [if_pos hle, if_pos (Nat.le_of_succ_le hle), hpred, List.getElem?_cons_succ]
      · have hnot : ¬ docid ≤ d := by omega
        rw [if_neg hle, if_neg hnot]

/-- The script of an addition settles: the row is written, and the document taken. -/
theorem settles_addSteps {docs : List Doc} (hdocs : ∀ doc ∈ docs, DocFits schema doc)
    (s : IndexWorker) (num d i : ℕ) :
    Settles (appendEvents schema d i docs s.table.rows.length ++
      (addSteps docs s.table.rows.length ++ [EngineStep.advance num]).flatMap (stepEvents schema d i))
        (s.value d i) (s.value d i) := by
  have hadvance : [EngineStep.advance num].flatMap (stepEvents schema d i) = [] := rfl
  rw [List.flatMap_append, hadvance, List.append_nil, events_addSteps hdocs, appendEvents]
  by_cases hd : s.table.rows.length ≤ d
  · rw [if_pos hd, if_pos hd, value_none hd]
    cases docs[d - s.table.rows.length]?.bind fun doc => given schema i doc.tableFields with
    | none => rfl
    | some v => exact ⟨rfl, rfl, rfl⟩
  · rw [if_neg hd, if_neg hd]
    rfl

theorem closing_append_advance (docs : List Doc) (docid num : ℕ) :
    ∀ st ∈ addSteps docs docid ++ [.advance num], Closing st := by
  intro st hst
  cases List.mem_append.mp hst with
  | inl hst => exact closing_addSteps docs docid st hst
  | inr hst =>
    rw [List.mem_singleton.mp hst]
    trivial

theorem Tracks.maxDocid_eq (h : Tracks schema s) (htodo : s.todo = []) :
    s.maxDocid = s.table.rows.length := by
  have hcount := h.count
  rw [htodo] at hcount
  exact hcount.symm

/-- **A document is added.** -/
theorem Tracks.callAdd (h : Tracks schema s) (htodo : s.todo = []) {doc : Doc}
    (hdoc : DocFits schema doc) (hlimit : s.maxDocid + 1 ≤ docLimit) :
    Tracks schema { s with todo := s.script (.add doc true) } := by
  have hdocs : ∀ doc' ∈ [doc], DocFits schema doc' := by
    intro doc' hmem
    rw [List.mem_singleton.mp hmem]
    exact hdoc
  have hmax := h.maxDocid_eq htodo
  have hscript : s.script (.add doc true) = .tableAdd doc s.table.rows.length ::
      (addSteps [doc] s.table.rows.length ++ [.advance 1]) := by
    simp [script, addSteps, hmax]
  obtain ⟨hrows, hadvances⟩ := count_addSteps [doc] s.table.rows.length
  rw [hscript]
  refine h.start htodo ?_ ?_ (.add hdoc (closing_append_advance _ _ _)) fun i _ d =>
    settles_addSteps hdocs s 1 d i
  · simp [hrows, hadvances, newRows, advances]
  · rw [hmax] at hlimit
    simpa [hrows, newRows] using hlimit

/-- **A run of documents is added.** -/
theorem Tracks.callBatchAdd (h : Tracks schema s) (htodo : s.todo = []) {docs : List Doc}
    (hdocs : ∀ doc ∈ docs, DocFits schema doc) (hlimit : s.maxDocid + docs.length ≤ docLimit) :
    Tracks schema { s with todo := s.script (.batchAdd docs) } := by
  have hmax := h.maxDocid_eq htodo
  by_cases hnil : docs = []
  · rw [script, if_pos hnil, ← htodo]
    exact h
  obtain rfl := h.schema_eq
  have hfields : docs.map s.table.withKeyField = docs := by
    rw [List.map_congr_left fun doc hmem => (hdocs doc hmem).complete.withKeyField_eq]
    exact List.map_id docs
  obtain ⟨hrows, hadvances⟩ := count_addSteps docs s.table.rows.length
  have hscript : s.script (.batchAdd docs) = .tableBatchAdd docs s.table.rows.length ::
      (addSteps docs s.table.rows.length ++ [.advance docs.length]) := by
    rw [script, if_neg hnil, hfields, hmax]
    rfl
  rw [hscript]
  refine h.start htodo ?_ ?_ (.batchAdd hdocs (closing_append_advance _ _ _)) fun i _ d =>
    settles_addSteps hdocs s docs.length d i
  · simp [hrows, hadvances, newRows, advances]
  · rw [hmax] at hlimit
    simpa [hrows, newRows] using hlimit

/-- **A document is updated.** -/
theorem Tracks.callUpdate (h : Tracks schema s) (htodo : s.todo = []) {docid : ℕ}
    {fields : List Field} (hd : docid < s.maxDocid) (hnodup : (fields.map Field.name).Nodup)
    (hfits : schema.FitsIndex fields) (htype : ∀ f ∈ fields, schema.SameStringType f) :
    Tracks schema { s with todo := s.script (.update docid fields) } := by
  have hmem : ∀ f ∈ fields, f.name ∈ schema.names := fun f hf => (hfits f hf).1.mem_names
  rw [h.maxDocid_eq htodo] at hd
  have hdelete : ∀ st ∈ fields.map fun field => EngineStep.indexDelete docid field.name,
      Deleting schema docid st := by
    intro st hst
    obtain ⟨f, hf, rfl⟩ := List.mem_map.mp hst
    exact ⟨rfl, hmem f hf⟩
  have hclosing : ∀ st ∈ fields.map fun field => EngineStep.indexAdd docid field.name,
      Closing st := by
    intro st hst
    obtain ⟨f, -, rfl⟩ := List.mem_map.mp hst
    trivial
  have hstage : Stage schema s.table.rows.length s.queue (s.script (.update docid fields)) := by
    refine .update hd hnodup hfits htype hdelete (fun f hf _ _ => ?_) hclosing
    exact ⟨_, List.mem_map.mpr ⟨f, hf, rfl⟩, attrIdx_eq (hmem f hf)⟩
  have hzero : ∀ st ∈ s.script (.update docid fields), newRows st = 0 ∧ advances st = 0 := by
    intro st hst
    rw [script, List.mem_append, List.mem_cons, List.mem_map, List.mem_map] at hst
    obtain ⟨f, -, rfl⟩ | rfl | ⟨f, -, rfl⟩ := hst <;> exact ⟨rfl, rfl⟩
  have hrows := sum_of_closing fun st hst => (hzero st hst).1
  refine h.start htodo ?_ ?_ hstage fun i hkind d => ?_
  · rw [hrows, sum_of_closing fun st hst => (hzero st hst).2]
  · rw [hrows, ← h.maxDocid_eq htodo]
    have hlimit := h.limit
    have hmax := h.maxDocid_eq htodo
    omega
  · rw [script, List.flatMap_append, List.flatMap_cons, List.flatMap_map, List.flatMap_map]
    show Settles ((fields.flatMap fun f => nameEvent schema d i docid f.name .dropCurrent) ++
      (stepEvents schema d i (.tableUpdate fields docid) ++
        fields.flatMap fun f => nameEvent schema d i docid f.name .take)) _ _
    rw [stepEvents]
    by_cases heq : docid = d
    · subst heq
      rw [flatMap_nameEvent _ hnodup hmem, flatMap_nameEvent _ hnodup hmem, if_pos rfl]
      obtain ⟨old, hold, -⟩ := h.value_some hd (lt_of_indexKind hkind)
      cases given schema i fields with
      | none => rfl
      | some v =>
        rw [hold]
        exact ⟨rfl, rfl, rfl, rfl, rfl⟩
    · rw [flatMap_nameEvent_ne heq, flatMap_nameEvent_ne heq, if_neg heq]
      rfl

end Calls

/-! ### Every step, every run -/

/-- **A step of the engine.** -/
theorem Tracks.engine (h : Tracks schema s) (keyId : Bytes → ℤ) (hguard : guard .engine s) :
    ∃ s', step keyId .engine s = some s' ∧ Tracks schema s' := by
  rw [step]
  have hstage := h.stage
  cases htodo : s.todo with
  | nil => exact ⟨s, rfl, h⟩
  | cons st todo =>
    dsimp only
    rw [htodo] at hstage
    generalize hl : st :: todo = l at hstage
    cases hstage with
    | closing hclosing =>
      subst hl
      have hrest : ∀ st ∈ todo, Closing st := fun st' hst' =>
        hclosing st' (List.mem_cons_of_mem st hst')
      have hst := hclosing st List.mem_cons_self
      cases st with
      | indexAdd docid name => exact ⟨_, rfl, h.indexAdd htodo hrest⟩
      | advance num => exact ⟨_, rfl, h.advance htodo hrest⟩
      | tableAdd _ _ => exact hst.elim
      | tableBatchAdd _ _ => exact hst.elim
      | tableUpdate _ _ => exact hst.elim
      | indexDelete _ _ => exact hst.elim
      | pushDelete _ _ _ => exact hst.elim
    | add hdoc hclosing =>
      cases hl
      exact h.tableAdd keyId htodo hdoc hclosing
    | batchAdd hdocs hclosing =>
      cases hl
      exact h.tableBatchAdd keyId htodo hdocs hclosing
    | @update before after fields d hd hnodup hfits htype hbefore hwaits hclosing =>
      cases before with
      | nil =>
        cases hl
        have hqueue : ∀ f ∈ fields, (schema.indexKind (schema.idx f)).isSome →
            .add d (schema.idx f) ∉ s.queue := by
          intro f hf hkind hmem
          obtain ⟨st, hst, -⟩ := hwaits f hf hkind hmem
          cases hst
        have hpopped := hguard fields d (by rw [htodo]; rfl)
        rw [h.schema_eq] at hpopped
        obtain ⟨table, htable, htracks⟩ :=
          h.tableUpdate htodo hd hnodup hfits htype hqueue hpopped hclosing
        exact ⟨_, by rw [runStep, htable, Option.map_some], htracks⟩
      | cons b before =>
        cases hl
        have hdeleting := hbefore st List.mem_cons_self
        have hrest : ∀ st ∈ before, Deleting schema d st := fun st' hst' =>
          hbefore st' (List.mem_cons_of_mem st hst')
        cases st with
        | indexDelete docid name =>
          exact h.indexDelete htodo hd hnodup hfits htype hdeleting hrest hwaits hclosing
        | pushDelete docid i v =>
          by_cases hqueue : s.queue = []
          · refine ⟨_, ?_, h.pushDelete htodo hqueue hd hnodup hfits htype hrest hclosing⟩
            rw [runStep]
            exact if_pos hqueue
          · refine ⟨s, ?_, h⟩
            rw [runStep]
            refine (if_neg hqueue).trans ?_
            rw [← htodo]
        | tableAdd _ _ => exact hdeleting.elim
        | tableBatchAdd _ _ => exact hdeleting.elim
        | tableUpdate _ _ => exact hdeleting.elim
        | indexAdd _ _ => exact hdeleting.elim
        | advance _ => exact hdeleting.elim

/-- **Every event** that meets the condition is defined, and keeps the invariant. -/
theorem Tracks.step (keyId : Bytes → ℤ) (e : Event) (s : IndexWorker) (h : Tracks schema s)
    (hguard : guard e s) : ∃ s', IndexWorker.step keyId e s = some s' ∧ Tracks schema s' := by
  obtain rfl := h.schema_eq
  cases e with
  | call c =>
    cases c with
    | add doc stored =>
      obtain ⟨htodo, rfl, hdoc, hlimit⟩ := hguard
      exact ⟨_, if_pos htodo, h.callAdd htodo hdoc hlimit⟩
    | batchAdd docs =>
      obtain ⟨htodo, hdocs, hlimit⟩ := hguard
      exact ⟨_, if_pos htodo, h.callBatchAdd htodo hdocs hlimit⟩
    | update docid fields =>
      obtain ⟨htodo, hd, hnodup, hfits, htype⟩ := hguard
      exact ⟨_, if_pos htodo, h.callUpdate htodo hd hnodup hfits htype⟩
  | engine => exact h.engine keyId hguard
  | pop =>
    rw [IndexWorker.step]
    cases hpopped : s.popped with
    | some op => exact ⟨s, rfl, h⟩
    | none =>
      cases hqueue : s.queue with
      | nil => exact ⟨s, rfl, h⟩
      | cons op queue => exact ⟨_, rfl, h.pop hpopped hqueue⟩
  | process =>
    rw [IndexWorker.step]
    cases hpopped : s.popped with
    | none => exact ⟨s, rfl, h⟩
    | some op =>
      obtain ⟨s', hrun, htracks⟩ := h.runOp hpopped
      exact ⟨_, by dsimp only; rw [hrun, Option.map_some], htracks⟩

theorem tracks_create (schema : Schema) : Tracks schema (create schema) where
  schema_eq := rfl
  kinds := by
    intro i
    show (schema.attrs[i]?.bind fun info => _).map _ = _
    rw [indexKind]
    cases schema.attrs[i]? with
    | none => rfl
    | some info =>
      rw [Option.bind_some, Option.bind_some]
      split <;> rfl
  rows := fun row hrow => by cases hrow
  count := rfl
  limit := Nat.zero_le _
  stage := .closing fun st hst => by cases hst
  stored := by
    intro i index hi
    obtain ⟨info, -, hinfo⟩ := Option.bind_eq_some_iff.mp hi
    split at hinfo
    · cases hinfo
      exact ⟨fun _ => none, FieldRangeIndex.content_create info.dataType, (fun d v hv => by cases hv),
        fun d => rfl⟩
    · cases hinfo

/-- **When all is done**, what settles has settled. -/
theorem Tracks.agrees (h : Tracks schema s) : s.Agrees := by
  intro htodo hqueue hpopped i index hi key d
  obtain ⟨stored, hcontent, -, hsettles⟩ := h.stored i index hi
  have hsame : stored d = s.value d i := by
    have hd := hsettles d
    rw [pending, waiting, htodo, hqueue, hpopped] at hd
    exact hd
  rw [hcontent.holds_iff, hsame]

end Invariant

/-- A table with a number besides the key. -/
def oneNumber : Schema where
  attrs := [⟨"_id", .string, false⟩, ⟨"n", .int, true⟩]
  names_nodup := by decide
  key_mem := by decide

/-- The number, as its four bytes. -/
def number (n : UInt8) : Field := ⟨"n", [n, 0, 0, 0], .int⟩

/-- A document with the number 1. -/
def oneDoc : Doc := ⟨[97], [⟨"_id", [97], .string⟩, number 1], []⟩

/-- A call, and its steps. -/
def calling (c : Call) : List Event := .call c :: List.replicate 4 .engine

theorem fits_number (n : UInt8) : oneNumber.FitsIndex [number n] := by
  intro f hf
  rw [List.mem_singleton.mp hf]
  refine ⟨rfl, fun numeric hnumeric => ?_⟩
  cases hnumeric
  exact ⟨_, rfl, List.nodup_singleton _⟩

theorem type_number (n : UInt8) : ∀ f ∈ [number n], oneNumber.SameStringType f := by
  intro f hf
  rw [List.mem_singleton.mp hf]
  constructor
  · intro h
    cases h
  · intro h
    cases h

theorem fits_oneDoc : DocFits oneNumber oneDoc where
  complete := List.Perm.refl _
  key := by decide
  fits := by
    intro f hf
    cases hf with
    | head => exact ⟨rfl, fun numeric hnumeric => by cases hnumeric⟩
    | tail _ hf => exact fits_number 1 f hf

theorem guard_engine {s : IndexWorker} (h : s.popped = none) : guard .engine s := by
  intro fields docid _ f _ hpopped
  rw [h] at hpopped
  cases hpopped

/-- The document is added, and updated when the thread is idle. -/
def quietEvents : List Event :=
  calling (.add oneDoc true) ++ [.pop, .process] ++ calling (.update 0 [number 2]) ++
    [.pop, .process, .pop, .process]

/-- The thread holds the `Add` of the document when the update writes the row. -/
def staleEvents : List Event :=
  calling (.add oneDoc true) ++ [.pop] ++ calling (.update 0 [number 2]) ++
    [.process, .pop, .process, .pop, .process] ++ calling (.update 0 [number 3]) ++
    [.pop, .process, .pop, .process]

end IndexWorker

end AwaDB
