import AwaDB.Index.HnswSearch
import AwaDB.Lib.Codec
import AwaDB.Lib.Lists

/-!
# The file of the HNSW index (`saveIndex` and `loadIndex` in `index/impl/hnswlib/hnswalg.h`)

The file has the settings, the memory of level `0`, and behind it the lists of the upper levels of each
element with their size. `loadIndex` goes over the file twice: it skips from size to size to see whether
the file ends where it should, and then it reads.

* `saveIndex`, `loadIndex`: the bytes of a graph, and what is read from bytes;
* `loadIndex_eq`: the check lets exactly those files pass that the reading takes up as a whole;
* `Graph.Tidy`: nothing is kept for elements and levels that are not there;
* `loadIndex_saveIndex`: a graph that was saved is loaded as it was, and an empty one without any room;
* `loadIndex_whole`: a file that is taken is read as a whole; if it loses its end, or gets more bytes, it
  is refused.
-/

namespace AwaDB.Index

open Lib

namespace HierarchicalNSW

variable {V : Type}

/-! ### The settings -/

/-- The members at the start of the file, each as the word that is written; `mult` are the bits of the
`double`, and `-1` is the greatest word. -/
structure Header where
  offsetLevel0 : ℕ
  maxElements : ℕ
  curElementCount : ℕ
  sizeDataPerElement : ℕ
  labelOffset : ℕ
  offsetData : ℕ
  maxlevel : ℕ
  enterpointNode : ℕ
  maxM : ℕ
  maxM0 : ℕ
  M : ℕ
  mult : ℕ
  efConstruction : ℕ
  ef : ℕ
  deriving DecidableEq, Repr

/-- The widths and the values, in the order of the file. -/
def Header.words (h : Header) : List (ℕ × ℕ) :=
  [(8, h.offsetLevel0), (8, h.maxElements), (8, h.curElementCount), (8, h.sizeDataPerElement),
    (8, h.labelOffset), (8, h.offsetData), (4, h.maxlevel), (4, h.enterpointNode), (8, h.maxM),
    (8, h.maxM0), (8, h.M), (8, h.mult), (8, h.efConstruction), (8, h.ef)]

/-- The calls of `writeBinaryPOD`. -/
def Header.bytes (h : Header) : List UInt8 := h.words.flatMap fun word => leWord word.1 word.2

/-- The bytes of a header. -/
def headerSize : ℕ := 104

/-- The calls of `readBinaryPOD`. -/
def readHeader : Reader Header :=
  readBind (readWord 8) fun offsetLevel0 => readBind (readWord 8) fun maxElements =>
  readBind (readWord 8) fun curElementCount => readBind (readWord 8) fun sizeDataPerElement =>
  readBind (readWord 8) fun labelOffset => readBind (readWord 8) fun offsetData =>
  readBind (readWord 4) fun maxlevel => readBind (readWord 4) fun enterpointNode =>
  readBind (readWord 8) fun maxM => readBind (readWord 8) fun maxM0 =>
  readBind (readWord 8) fun M => readBind (readWord 8) fun mult =>
  readBind (readWord 8) fun efConstruction => readBind (readWord 8) fun ef =>
  readPure ⟨offsetLevel0, maxElements, curElementCount, sizeDataPerElement, labelOffset, offsetData,
    maxlevel, enterpointNode, maxM, maxM0, M, mult, efConstruction, ef⟩

/-- `size_links_per_element_` -/
def Header.sizeLinksPerElement (h : Header) : ℕ := h.maxM * 4 + 4

/-- The word of an `int` or a `tableint` that may be `-1`. -/
def minusOne : ℕ := 2 ^ 32 - 1

/-! ### Lists of links in memory -/

/-- A list of links: the count, a byte with the mark, a byte that is not used, and the slots. Behind the
links, slots may have what was there before. -/
def listBytes (slots : ℕ) (mark : Bool) (links : List ℕ) (stale : ℕ → ℕ) : List UInt8 :=
  leWord 2 links.length ++ (leWord 1 mark.toNat ++ (leWord 1 0 ++
    (links.flatMap (leWord 4) ++ (List.range (slots - links.length)).flatMap fun i => leWord 4 (stale i))))

/-- `getListCount`, `isMarkedDeleted`, and the links. -/
def readLinks : Reader (Bool × List ℕ) :=
  readBind (readWord 2) fun count => readBind (readWord 1) fun mark => readBind (readWord 1) fun _ =>
  readBind (readList (readWord 4) count) fun links => readPure (decide (mark % 2 = 1), links)

/-! ### Saving -/

/-- The settings of a graph. -/
def header (p : Params) (mult ef : ℕ) (g : Graph V) : Header where
  offsetLevel0 := 0
  maxElements := g.maxElements
  curElementCount := g.count
  sizeDataPerElement := 2 * p.M * 4 + 4 + 8
  labelOffset := 2 * p.M * 4 + 4
  offsetData := 2 * p.M * 4 + 4
  maxlevel := (g.entry.map Prod.snd).getD minusOne
  enterpointNode := (g.entry.map Prod.fst).getD minusOne
  maxM := p.M
  maxM0 := 2 * p.M
  M := p.M
  mult := mult
  efConstruction := p.ef
  ef := ef

/-- An element in `data_level0_memory_`: its links on level `0`, and its label. -/
def level0Bytes (p : Params) (g : Graph V) (stale : ℕ → ℕ → ℕ → ℕ) (id : ℕ) : List UInt8 :=
  listBytes (p.Mcurmax 0) (g.deleted id) (g.links id 0) (stale id 0) ++ leWord 8 id

/-- `linkLists_` of an element. -/
def upperBytes (p : Params) (g : Graph V) (stale : ℕ → ℕ → ℕ → ℕ) (id : ℕ) : List UInt8 :=
  (List.range (g.level id)).flatMap fun l =>
    listBytes (p.Mcurmax (l + 1)) false (g.links id (l + 1)) (stale id (l + 1))

/-- `saveIndex`. What is left in the slots of the lists is given as `stale`. -/
def saveIndex (p : Params) (mult ef : ℕ) (stale : ℕ → ℕ → ℕ → ℕ) (g : Graph V) : List UInt8 :=
  (header p mult ef g).bytes ++ ((List.range g.count).flatMap (level0Bytes p g stale) ++
    (List.range g.count).flatMap fun id =>
      leWord 4 ((p.M * 4 + 4) * g.level id) ++ upperBytes p g stale id)

/-! ### Loading -/

/-- The members after `loadIndex`: `level0` is `data_level0_memory_`, element after element. -/
structure Loaded where
  header : Header
  level0 : List (List UInt8)
  linkLists : List (List UInt8)
  deriving DecidableEq, Repr

/-- `linkListSize` and that many bytes. -/
def readSized : Reader (List UInt8) := readBind (readWord 4) readTake

/-- What is read behind the header. -/
def readBody (h : Header) : Reader Loaded :=
  readBind (readList (readTake h.sizeDataPerElement) h.curElementCount) fun level0 =>
  readBind (readList readSized h.curElementCount) fun linkLists =>
  readPure ⟨h, level0, linkLists⟩

/-- The loop of the check: the position behind the lists of the last `n` elements. -/
def checkLists (file : List UInt8) : (n pos : ℕ) → Option ℕ
  | 0, pos => some pos
  | n + 1, pos =>
    if file.length ≤ pos then none
    else
      match readWord 4 (file.drop pos) with
      | none => none
      | some (linkListSize, _) => checkLists file n (pos + 4 + linkListSize)

/-- The error of a file that fails the check. -/
def corrupted : Fault := .thrown "Index seems to be corrupted or unsupported"

/-- `loadIndex`. A header whose sizes overflow, or that has more elements than room, leads to memory that
is not there. -/
def loadIndex (file : List UInt8) : Except Fault Loaded :=
  match readHeader file with
  | none => .error corrupted
  | some (h, body) =>
    if 2 ^ 63 ≤ h.curElementCount * h.sizeDataPerElement then .error .undefined
    else if checkLists file h.curElementCount
        (headerSize + h.curElementCount * h.sizeDataPerElement) ≠ some file.length then
      .error corrupted
    else if h.maxElements < h.curElementCount then .error .undefined
    else
      match readBody h body with
      | none => .error .undefined
      | some (x, _) => .ok x

namespace Loaded

/-- `get_linklist_at_level` -/
def linkList (x : Loaded) (id level : ℕ) : List UInt8 :=
  if level = 0 then (x.level0.getD id []).drop x.header.offsetLevel0
  else (x.linkLists.getD id []).drop ((level - 1) * x.header.sizeLinksPerElement)

/-- The mark and the links of a list. -/
def links (x : Loaded) (id level : ℕ) : Bool × List ℕ :=
  ((readLinks (x.linkList id level)).map Prod.fst).getD (false, [])

/-- `getExternalLabel` -/
def label (x : Loaded) (id : ℕ) : Option ℕ :=
  (readWord 8 ((x.level0.getD id []).drop x.header.labelOffset)).map Prod.fst

/-- The graph in the memory that was read into an index after `Init`. `max_elements_` is that of the file
if there are elements. -/
def graph (x : Loaded) (data : ℕ → V) : Graph V where
  data := data
  maxElements := if x.header.curElementCount = 0 then 0 else x.header.maxElements
  count := x.header.curElementCount
  level id := (x.linkLists.getD id []).length / x.header.sizeLinksPerElement
  links id level := (x.links id level).2
  deleted id := (x.links id 0).1
  numDeleted := ((List.range x.header.curElementCount).filter fun id => (x.links id 0).1).length
  entry := if x.header.enterpointNode = minusOne then none
    else some (x.header.enterpointNode, x.header.maxlevel)

end Loaded

/-! ### The check and the reading -/

theorem checkLists_of_length_lt {file : List UInt8} {n pos : ℕ} (h : file.length < pos) :
    checkLists file n pos ≠ some file.length := by
  cases n with
  | zero =>
    intro heq
    have hpos := Option.some.inj heq
    omega
  | succ n =>
    rw [checkLists, if_pos (Nat.le_of_lt h)]
    exact Option.some_ne_none _ ∘ Eq.symm

/-- **The check is exact** for the lists behind a position: it ends at the end of the file if the reading
does. -/
theorem checkLists_iff {file : List UInt8} {n pos : ℕ} (h : pos ≤ file.length) :
    checkLists file n pos = some file.length ↔
      ∃ xs, readList readSized n (file.drop pos) = some (xs, []) := by
  induction n generalizing pos with
  | zero =>
    constructor
    · intro heq
      have hpos : pos = file.length := Option.some.inj heq
      exact ⟨[], by rw [hpos, List.drop_length]; rfl⟩
    · rintro ⟨xs, hxs⟩
      have hnil : file.drop pos = [] := (Prod.mk.inj (Option.some.inj hxs)).2
      have hle := List.drop_eq_nil_iff.mp hnil
      exact congrArg some (Nat.le_antisymm h hle)
  | succ n ih =>
    rw [checkLists, readList]
    by_cases hend : file.length ≤ pos
    · rw [if_pos hend, List.drop_eq_nil_iff.mpr hend]
      refine iff_of_false (by simp) ?_
      rintro ⟨xs, hxs⟩
      cases hxs
    rw [if_neg hend]
    cases hword : readWord 4 (file.drop pos) with
    | none =>
      refine iff_of_false (by simp) ?_
      rintro ⟨xs, hxs⟩
      rw [readSized, readBind, hword] at hxs
      cases hxs
    | some r =>
      obtain ⟨size, rest⟩ := r
      obtain ⟨hfour, hrest⟩ := takes_readWord 4 _ _ _ hword
      rw [List.drop_drop] at hrest
      rw [List.length_drop] at hfour
      have hsized : readSized (file.drop pos) = readTake size rest := by
        rw [readSized, readBind, hword]
        rfl
      simp only [hsized]
      by_cases hfit : pos + 4 + size ≤ file.length
      · have hlen : size ≤ rest.length := by
          rw [hrest, List.length_drop]
          omega
        have htake : readTake size rest = some (rest.take size, file.drop (pos + 4 + size)) := by
          rw [readTake, if_pos hlen, hrest, List.drop_drop]
        rw [htake, Option.bind_some, ih hfit]
        constructor
        · rintro ⟨xs, hxs⟩
          exact ⟨rest.take size :: xs, by rw [hxs]; rfl⟩
        · rintro ⟨xs, hxs⟩
          obtain ⟨r, hr, heq⟩ := Option.map_eq_some_iff.mp hxs
          have hnil : r.2 = [] := (Prod.mk.inj heq).2
          exact ⟨r.1, by rw [← hnil]; exact hr⟩
      · have hlen : ¬size ≤ rest.length := by
          rw [hrest, List.length_drop]
          omega
        rw [readTake, if_neg hlen]
        refine iff_of_false (checkLists_of_length_lt (by omega)) ?_
        rintro ⟨xs, hxs⟩
        cases hxs

theorem takes_readHeader : Takes headerSize readHeader := by
  have h8 : ∀ {α : Type} {n : ℕ} {k : ℕ → Reader α}, (∀ x, Takes n (k x)) →
      Takes (8 + n) (readBind (readWord 8) k) := fun h => (takes_readWord 8).bind h
  have h4 : ∀ {α : Type} {n : ℕ} {k : ℕ → Reader α}, (∀ x, Takes n (k x)) →
      Takes (4 + n) (readBind (readWord 4) k) := fun h => (takes_readWord 4).bind h
  exact h8 fun _ => h8 fun _ => h8 fun _ => h8 fun _ => h8 fun _ => h8 fun _ => h4 fun _ =>
    h4 fun _ => h8 fun _ => h8 fun _ => h8 fun _ => h8 fun _ => h8 fun _ => h8 fun _ =>
    takes_readPure _

/-- **What `loadIndex` does**: a file is taken if the reading takes it up as a whole, and nothing is read
that is not there. -/
theorem loadIndex_eq (file : List UInt8) : loadIndex file =
    match readHeader file with
    | none => .error corrupted
    | some (h, body) =>
      if 2 ^ 63 ≤ h.curElementCount * h.sizeDataPerElement then .error .undefined
      else
        match readBody h body with
        | some (x, []) => if h.maxElements < h.curElementCount then .error .undefined else .ok x
        | _ => .error corrupted := by
  rw [loadIndex]
  cases hheader : readHeader file with
  | none => rfl
  | some r =>
    obtain ⟨h, body⟩ := r
    obtain ⟨hlong, hbody⟩ := takes_readHeader _ _ _ hheader
    dsimp only
    split
    · rfl
    have hblocks := readList_readTake_iff h.sizeDataPerElement h.curElementCount body
    have hlen : body.length = file.length - headerSize := by rw [hbody, List.length_drop]
    by_cases hroom : h.curElementCount * h.sizeDataPerElement ≤ body.length
    · obtain ⟨level0, hlevel0⟩ := (hblocks _).mpr ⟨hroom, rfl⟩
      have hlists := checkLists_iff (n := h.curElementCount)
        (show headerSize + h.curElementCount * h.sizeDataPerElement ≤ file.length by omega)
      rw [← List.drop_drop, ← hbody] at hlists
      cases hread : readList readSized h.curElementCount
          (body.drop (h.curElementCount * h.sizeDataPerElement)) with
      | none =>
        have hfail : checkLists file h.curElementCount
            (headerSize + h.curElementCount * h.sizeDataPerElement) ≠ some file.length := fun heq => by
          obtain ⟨xs, hxs⟩ := hlists.mp heq
          rw [hread] at hxs
          cases hxs
        have hbad : readBody h body = none := by
          rw [readBody, readBind, hlevel0, Option.bind_some, readBind, hread]
          rfl
        rw [if_pos hfail, hbad]
      | some r =>
        obtain ⟨linkLists, rest⟩ := r
        have hgood : readBody h body = some (⟨h, level0, linkLists⟩, rest) := by
          rw [readBody, readBind, hlevel0, Option.bind_some, readBind, hread]
          rfl
        rw [hgood]
        cases rest with
        | nil =>
          rw [if_neg (not_not_intro (hlists.mpr ⟨linkLists, hread⟩))]
        | cons byte rest =>
          refine if_pos fun heq => ?_
          obtain ⟨xs, hxs⟩ := hlists.mp heq
          rw [hread] at hxs
          cases hxs
    · have hfail : checkLists file h.curElementCount
          (headerSize + h.curElementCount * h.sizeDataPerElement) ≠ some file.length :=
        checkLists_of_length_lt (by omega)
      have hbad : readBody h body = none := by
        cases hlevel0 : readList (readTake h.sizeDataPerElement) h.curElementCount body with
        | none => rw [readBody, readBind, hlevel0]; rfl
        | some r => exact absurd ((hblocks r.2).mp ⟨r.1, hlevel0⟩).1 hroom
      rw [if_pos hfail, hbad]

/-! ### What is written is read -/

theorem reads_header {h : Header} (hfits : ∀ word ∈ h.words, word.2 < 256 ^ word.1) :
    Reads readHeader h.bytes h := by
  simp only [Header.words, List.forall_mem_cons] at hfits
  obtain ⟨h₁, h₂, h₃, h₄, h₅, h₆, h₇, h₈, h₉, h₁₀, h₁₁, h₁₂, h₁₃, h₁₄, -⟩ := hfits
  exact (readWord_leWord h₁).bind <| (readWord_leWord h₂).bind <| (readWord_leWord h₃).bind <|
    (readWord_leWord h₄).bind <| (readWord_leWord h₅).bind <| (readWord_leWord h₆).bind <|
    (readWord_leWord h₇).bind <| (readWord_leWord h₈).bind <| (readWord_leWord h₉).bind <|
    (readWord_leWord h₁₀).bind <| (readWord_leWord h₁₁).bind <| (readWord_leWord h₁₂).bind <|
    (readWord_leWord h₁₃).bind <| (readWord_leWord h₁₄).bind <| reads_readPure h

theorem length_flatMap_const {α : Type} {f : α → List UInt8} {w : ℕ} {l : List α}
    (h : ∀ a ∈ l, (f a).length = w) : (l.flatMap f).length = l.length * w := by
  induction l with
  | nil => simp
  | cons a l ih =>
    obtain ⟨ha, hl⟩ := List.forall_mem_cons.mp h
    rw [List.flatMap_cons, List.length_append, ha, ih hl, List.length_cons, Nat.succ_mul, Nat.add_comm]

section Lists

variable {slots : ℕ} {mark : Bool} {links : List ℕ} {stale : ℕ → ℕ}

theorem length_listBytes (h : links.length ≤ slots) :
    (listBytes slots mark links stale).length = slots * 4 + 4 := by
  have hlinks : (links.flatMap (leWord 4)).length = links.length * 4 :=
    length_flatMap_const fun a _ => length_leWord 4 a
  have hstale : ((List.range (slots - links.length)).flatMap fun i => leWord 4 (stale i)).length =
      (slots - links.length) * 4 := by
    rw [length_flatMap_const fun a _ => length_leWord 4 (stale a), List.length_range]
  simp only [listBytes, List.length_append, length_leWord, hlinks, hstale]
  omega

theorem readLinks_listBytes (hcount : links.length < 65536) (hids : ∀ j ∈ links, j < 2 ^ 32)
    (rest : List UInt8) :
    (readLinks (listBytes slots mark links stale ++ rest)).map Prod.fst = some (mark, links) := by
  have hmark : mark.toNat < 256 ^ 1 := by cases mark <;> decide
  have hodd : decide (mark.toNat % 2 = 1) = mark := by cases mark <;> rfl
  have hlist : Reads (readList (readWord 4) links.length) (links.flatMap (leWord 4)) links :=
    readList_flatMap fun j hj => readWord_leWord (hids j hj)
  have hreads : Reads readLinks (leWord 2 links.length ++ (leWord 1 mark.toNat ++ (leWord 1 0 ++
      (links.flatMap (leWord 4) ++ [])))) (decide (mark.toNat % 2 = 1), links) :=
    (readWord_leWord hcount).bind <| (readWord_leWord hmark).bind <|
      (readWord_leWord (by decide)).bind <| hlist.bind <| reads_readPure _
  rw [hodd] at hreads
  have happ : listBytes slots mark links stale ++ rest =
      leWord 2 links.length ++ (leWord 1 mark.toNat ++ (leWord 1 0 ++ (links.flatMap (leWord 4) ++ []))) ++
        (((List.range (slots - links.length)).flatMap fun i => leWord 4 (stale i)) ++ rest) := by
    simp [listBytes]
  rw [happ, hreads, Option.map_some]

end Lists

/-! ### Graphs that can be saved -/

/-- Nothing is kept for elements and levels that are not there. -/
structure Graph.Tidy (g : Graph V) : Prop where
  links : ∀ id level, id ∉ g.onLevel level → g.links id level = []
  level : ∀ id, g.count ≤ id → g.level id = 0
  deleted : ∀ id, g.count ≤ id → g.deleted id = false

/-- The numbers fit their words: the ids are below the `-1` of a `tableint`, and the lists of an element
are not longer than an `unsigned int`. -/
structure Fits (p : Params) (mult ef : ℕ) (g : Graph V) : Prop where
  count : g.count < minusOne
  room : g.maxElements < 2 ^ 64
  mult : mult < 2 ^ 64
  ef : ef < 2 ^ 64
  efConstruction : p.ef < 2 ^ 64
  lists : ∀ id < g.count, (p.M * 4 + 4) * g.level id < 2 ^ 32

variable {p : Params} {mult ef : ℕ} {stale : ℕ → ℕ → ℕ → ℕ} {g : Graph V}

/-- The lists are bounded, also those that are not there. -/
theorem Graph.Tidy.size (h : g.Tidy) (hordered : g.Ordered p) (id level : ℕ) :
    (g.links id level).length ≤ p.Mcurmax level := by
  by_cases hon : id ∈ g.onLevel level
  · obtain ⟨hlt, hlevel⟩ := Graph.mem_onLevel.mp hon
    exact hordered.size id hlt level hlevel
  · rw [h.links id level hon]
    exact Nat.zero_le _

theorem Graph.Tidy.closed (h : g.Tidy) (hordered : g.Ordered p) {id level j : ℕ}
    (hj : j ∈ g.links id level) : j < g.count := by
  by_cases hon : id ∈ g.onLevel level
  · obtain ⟨hlt, hlevel⟩ := Graph.mem_onLevel.mp hon
    exact (hordered.closed id hlt level hlevel j hj).1
  · rw [h.links id level hon] at hj
    exact absurd hj List.not_mem_nil

/-- A list that is saved is read. -/
theorem Graph.Tidy.readLinks (h : g.Tidy) (hordered : g.Ordered p) (hcount : g.count < minusOne)
    (slots id level : ℕ) (mark : Bool) (stale : ℕ → ℕ) (rest : List UInt8) :
    (readLinks (listBytes slots mark (g.links id level) stale ++ rest)).map Prod.fst =
      some (mark, g.links id level) := by
  have hlen := h.size hordered id level
  have hM := p.M_lt
  have hmax : p.Mcurmax level ≤ 2 * p.M := by
    rw [Params.Mcurmax]
    split <;> omega
  refine readLinks_listBytes (by omega) (fun j hj => ?_) rest
  have hj := h.closed hordered hj
  have hword : minusOne < 2 ^ 32 := by decide
  omega

theorem length_level0Bytes (h : g.Tidy) (hordered : g.Ordered p) (id : ℕ) :
    (level0Bytes p g stale id).length = 2 * p.M * 4 + 4 + 8 := by
  rw [level0Bytes, List.length_append, length_listBytes (h.size hordered id 0), length_leWord]
  rfl

theorem length_upperList (h : g.Tidy) (hordered : g.Ordered p) (id l : ℕ) :
    (listBytes (p.Mcurmax (l + 1)) false (g.links id (l + 1)) (stale id (l + 1))).length =
      p.M * 4 + 4 :=
  length_listBytes (h.size hordered id (l + 1))

theorem length_upperBytes (h : g.Tidy) (hordered : g.Ordered p) (id : ℕ) :
    (upperBytes p g stale id).length = (p.M * 4 + 4) * g.level id := by
  rw [upperBytes, length_flatMap_const fun l _ => length_upperList h hordered id l, List.length_range,
    Nat.mul_comm]

/-- What is in memory after a graph was saved and loaded. -/
def loaded (p : Params) (mult ef : ℕ) (stale : ℕ → ℕ → ℕ → ℕ) (g : Graph V) : Loaded where
  header := header p mult ef g
  level0 := (List.range g.count).map (level0Bytes p g stale)
  linkLists := (List.range g.count).map (upperBytes p g stale)

/-- **The body of the file** is read back. -/
theorem reads_readBody (stale : ℕ → ℕ → ℕ → ℕ) (h : g.Tidy) (hordered : g.Ordered p) (hfits : Fits p mult ef g) :
    Reads (readBody (header p mult ef g)) ((List.range g.count).flatMap (level0Bytes p g stale) ++
      (List.range g.count).flatMap fun id =>
        leWord 4 ((p.M * 4 + 4) * g.level id) ++ upperBytes p g stale id) (loaded p mult ef stale g) := by
  have hlevel0 : Reads (readList (readTake (2 * p.M * 4 + 4 + 8)) g.count)
      ((List.range g.count).flatMap (level0Bytes p g stale))
      ((List.range g.count).map (level0Bytes p g stale)) := by
    have hall := @readList_flatMap _ (readTake (2 * p.M * 4 + 4 + 8)) id
      ((List.range g.count).map (level0Bytes p g stale)) fun x hx => by
        obtain ⟨id, -, rfl⟩ := List.mem_map.mp hx
        have hreads := reads_readTake (level0Bytes p g stale id)
        rwa [length_level0Bytes h hordered] at hreads
    rwa [List.flatMap_map, List.length_map, List.length_range] at hall
  have hlists : Reads (readList readSized g.count)
      ((List.range g.count).flatMap fun id =>
        leWord 4 ((p.M * 4 + 4) * g.level id) ++ upperBytes p g stale id)
      ((List.range g.count).map (upperBytes p g stale)) := by
    have hall := @readList_flatMap _ readSized (fun bytes => leWord 4 bytes.length ++ bytes)
      ((List.range g.count).map (upperBytes p g stale)) fun x hx => by
        obtain ⟨id, hid, rfl⟩ := List.mem_map.mp hx
        refine (readWord_leWord ?_).bind (reads_readTake _)
        rw [length_upperBytes h hordered]
        exact hfits.lists id (List.mem_range.mp hid)
    rw [List.flatMap_map, List.length_map, List.length_range] at hall
    simpa only [length_upperBytes h hordered] using hall
  have hpair : Reads (readBind (readList readSized g.count) fun linkLists => readPure
      (Loaded.mk (header p mult ef g) ((List.range g.count).map (level0Bytes p g stale)) linkLists))
      (((List.range g.count).flatMap fun id =>
        leWord 4 ((p.M * 4 + 4) * g.level id) ++ upperBytes p g stale id) ++ []) (loaded p mult ef stale g) :=
    hlists.bind (reads_readPure _)
  rw [List.append_nil] at hpair
  exact hlevel0.bind (k := fun level0 => readBind (readList readSized g.count) fun linkLists =>
    readPure (Loaded.mk (header p mult ef g) level0 linkLists)) hpair

/-- The settings fit their words. -/
theorem Fits.header (hfits : Fits p mult ef g) (hvalid : g.Valid p) :
    ∀ word ∈ (header p mult ef g).words, word.2 < 256 ^ word.1 := by
  have hM := p.M_lt
  have hcount := hfits.count
  have hword : minusOne = 2 ^ 32 - 1 := rfl
  have hentry : ((g.entry.map Prod.snd).getD minusOne < 2 ^ 32) ∧
      ((g.entry.map Prod.fst).getD minusOne < 2 ^ 32) := by
    cases hentry : g.entry with
    | none => exact ⟨by decide, by decide⟩
    | some entry =>
      obtain ⟨enterpoint, maxlevel⟩ := entry
      obtain ⟨hep, hlevel, -⟩ := hvalid.entry_some enterpoint maxlevel hentry
      have hlist := hfits.lists enterpoint hep
      rw [hlevel] at hlist
      have hle : maxlevel ≤ (p.M * 4 + 4) * maxlevel := Nat.le_mul_of_pos_left _ (by omega)
      exact ⟨show maxlevel < 2 ^ 32 by omega, show enterpoint < 2 ^ 32 by omega⟩
  simp only [Header.words, HierarchicalNSW.header, List.forall_mem_cons]
  refine ⟨by decide, hfits.room, ?_, ?_, ?_, ?_, hentry.1, hentry.2, ?_, ?_, ?_, hfits.mult,
    hfits.efConstruction, hfits.ef, by simp⟩ <;> omega

/-- **A graph that was saved is read.** -/
theorem loadIndex_saveIndex (hvalid : g.Valid p) (h : g.Tidy) (hfits : Fits p mult ef g) :
    loadIndex (saveIndex p mult ef stale g) = .ok (loaded p mult ef stale g) := by
  have hheader := reads_header (hfits.header hvalid) ((List.range g.count).flatMap (level0Bytes p g stale) ++
    (List.range g.count).flatMap fun id =>
      leWord 4 ((p.M * 4 + 4) * g.level id) ++ upperBytes p g stale id)
  have hbody := reads_readBody stale h hvalid.toOrdered hfits []
  rw [List.append_nil] at hbody
  have hsmall : ¬2 ^ 63 ≤ (header p mult ef g).curElementCount * (header p mult ef g).sizeDataPerElement := by
    show ¬2 ^ 63 ≤ g.count * (2 * p.M * 4 + 4 + 8)
    have hM := p.M_lt
    have hcount := hfits.count
    have hword : minusOne = 2 ^ 32 - 1 := rfl
    have hmul : g.count * (2 * p.M * 4 + 4 + 8) ≤ 2 ^ 32 * 2 ^ 19 :=
      Nat.mul_le_mul (by omega) (by omega)
    omega
  rw [loadIndex_eq, saveIndex, hheader]
  dsimp only
  rw [if_neg hsmall, hbody]
  exact if_neg (Nat.not_lt.mpr hvalid.room)

/-! ### The graph in memory -/

theorem getD_map_range (f : ℕ → List UInt8) (n id : ℕ) :
    ((List.range n).map f).getD id [] = if id < n then f id else [] := by
  rw [List.getD_eq_getElem?_getD, List.getElem?_map]
  split
  · rename_i hlt
    rw [List.getElem?_range hlt]
    rfl
  · rename_i hge
    rw [List.getElem?_eq_none (by rw [List.length_range]; omega)]
    rfl

/-- **The lists in memory** are those of the graph, and the mark is in the list of level `0`. -/
theorem links_loaded (mult ef : ℕ) (stale : ℕ → ℕ → ℕ → ℕ) (hvalid : g.Valid p) (h : g.Tidy)
    (hcount : g.count < minusOne) (id level : ℕ) :
    (loaded p mult ef stale g).links id level =
      (if level = 0 then g.deleted id else false, g.links id level) := by
  have hordered := hvalid.toOrdered
  rw [Loaded.links, Loaded.linkList]
  cases level with
  | zero =>
    show ((readLinks (List.drop 0 (((List.range g.count).map (level0Bytes p g stale)).getD id []))).map
      Prod.fst).getD (false, []) = (g.deleted id, g.links id 0)
    rw [List.drop_zero, getD_map_range]
    split
    · rw [level0Bytes, h.readLinks hordered hcount]
      rfl
    · rename_i hge
      rw [h.deleted id (by omega), h.links id 0 fun hon => hge (Graph.mem_onLevel.mp hon).1]
      rfl
  | succ l =>
    show ((readLinks (List.drop (l * (p.M * 4 + 4))
      (((List.range g.count).map (upperBytes p g stale)).getD id []))).map Prod.fst).getD (false, []) =
        (false, g.links id (l + 1))
    rw [getD_map_range]
    by_cases hlt : id < g.count
    · rw [if_pos hlt, upperBytes, drop_flatMap fun l => length_upperList h hordered id l]
      by_cases hl : l < g.level id
      · rw [List.drop_eq_getElem_cons (by rw [List.length_range]; exact hl), List.flatMap_cons,
          List.getElem_range, h.readLinks hordered hcount]
        rfl
      · rw [List.drop_eq_nil_iff.mpr (by rw [List.length_range]; omega),
          h.links id (l + 1) fun hon => hl (Graph.mem_onLevel.mp hon).2]
        rfl
    · rw [if_neg hlt, List.drop_nil, h.links id (l + 1) fun hon => hlt (Graph.mem_onLevel.mp hon).1]
      rfl

/-- The label of an element is its id. -/
theorem label_loaded (hordered : g.Ordered p) (h : g.Tidy) {id : ℕ} (hid : id < g.count)
    (hcount : g.count < minusOne) : (loaded p mult ef stale g).label id = some id := by
  show (readWord 8 (List.drop (2 * p.M * 4 + 4)
    (((List.range g.count).map (level0Bytes p g stale)).getD id []))).map Prod.fst = some id
  have hlist : (listBytes (p.Mcurmax 0) (g.deleted id) (g.links id 0) (stale id 0)).length =
      2 * p.M * 4 + 4 := length_listBytes (h.size hordered id 0)
  have hword : id < 256 ^ 8 := by
    have hone : minusOne = 2 ^ 32 - 1 := rfl
    omega
  have hread := readWord_leWord hword []
  rw [List.append_nil] at hread
  rw [getD_map_range, if_pos hid, level0Bytes, ← hlist, List.drop_left, hread]
  rfl

/-- **The graph that is loaded** is the one that was saved. Without an element it has no room. -/
theorem graph_loaded (hvalid : g.Valid p) (h : g.Tidy) (hfits : Fits p mult ef g) :
    (loaded p mult ef stale g).graph g.data =
      { g with maxElements := if g.count = 0 then 0 else g.maxElements } := by
  have hlinks := links_loaded mult ef stale hvalid h hfits.count
  have hlevel : (fun id => ((loaded p mult ef stale g).linkLists.getD id []).length /
      (loaded p mult ef stale g).header.sizeLinksPerElement) = g.level := by
    funext id
    show (((List.range g.count).map (upperBytes p g stale)).getD id []).length / (p.M * 4 + 4) = _
    rw [getD_map_range]
    split
    · rw [length_upperBytes h hvalid.toOrdered, Nat.mul_div_cancel_left _ (Nat.succ_pos _)]
    · rename_i hge
      rw [h.level id (by omega)]
      simp
  have hmarks : (fun id => ((loaded p mult ef stale g).links id 0).1) = g.deleted := by
    funext id
    rw [hlinks]
    rfl
  have hlists : (fun id level => ((loaded p mult ef stale g).links id level).2) = g.links := by
    funext id level
    rw [hlinks]
  have hnum : ((List.range g.count).filter fun id => ((loaded p mult ef stale g).links id 0).1).length =
      g.numDeleted := by
    have hcard : ((List.range g.count).filter fun id => decide (g.deleted id = true)).length =
        ((Finset.range g.count).filter fun id => g.deleted id = true).card := rfl
    rw [hmarks, hvalid.counted, ← hcard]
    simp
  have hentry : (if (header p mult ef g).enterpointNode = minusOne then none
      else some ((header p mult ef g).enterpointNode, (header p mult ef g).maxlevel)) = g.entry := by
    show (if (g.entry.map Prod.fst).getD minusOne = minusOne then none
      else some ((g.entry.map Prod.fst).getD minusOne, (g.entry.map Prod.snd).getD minusOne)) = g.entry
    cases hentry : g.entry with
    | none => rfl
    | some entry =>
      have hep := (hvalid.entry_some entry.1 entry.2 hentry).1
      have hcount := hfits.count
      exact if_neg (show entry.1 ≠ minusOne by omega)
  show Graph.mk g.data _ g.count (fun id => ((loaded p mult ef stale g).linkLists.getD id []).length /
    (loaded p mult ef stale g).header.sizeLinksPerElement)
    (fun id level => ((loaded p mult ef stale g).links id level).2)
    (fun id => ((loaded p mult ef stale g).links id 0).1)
    ((List.range g.count).filter fun id => ((loaded p mult ef stale g).links id 0).1).length
    (if (header p mult ef g).enterpointNode = minusOne then none
      else some ((header p mult ef g).enterpointNode, (header p mult ef g).maxlevel)) = _
  rw [hlevel, hlists, hnum, hmarks, hentry]
  rfl

/-! ### Damaged files -/

theorem local_readHeader : Local readHeader := by
  have hword : ∀ {α : Type} {w : ℕ} {k : ℕ → Reader α}, (∀ x, Local (k x)) →
      Local (readBind (readWord w) k) := fun h => (local_readWord _).bind h
  exact hword fun _ => hword fun _ => hword fun _ => hword fun _ => hword fun _ => hword fun _ =>
    hword fun _ => hword fun _ => hword fun _ => hword fun _ => hword fun _ => hword fun _ =>
    hword fun _ => hword fun _ => local_readPure _

theorem local_readBody (h : Header) : Local (readBody h) :=
  ((local_readTake _).readList _).bind fun _ =>
    (((local_readWord 4).bind local_readTake).readList _).bind fun _ => local_readPure _

/-- **A file that lost its end** is refused. -/
theorem loadIndex_cut {file : List UInt8} {x : Loaded} (h : loadIndex file = .ok x) {n : ℕ}
    (hn : n < file.length) : loadIndex (file.take n) = .error corrupted := by
  rw [loadIndex_eq] at h ⊢
  cases hcut : readHeader (file.take n) with
  | none => rfl
  | some r =>
    obtain ⟨hd, body⟩ := r
    have hwhole := local_readHeader _ hd body (file.drop n) hcut
    rw [List.take_append_drop] at hwhole
    rw [hwhole] at h
    dsimp only at h ⊢
    split at h
    · cases h
    rename_i hsmall
    rw [if_neg hsmall]
    cases hbody : readBody hd body with
    | none => rfl
    | some r =>
      obtain ⟨y, rest⟩ := r
      cases rest with
      | cons byte rest => rfl
      | nil =>
        rw [local_readBody hd _ y [] (file.drop n) hbody] at h
        have hdrop : [] ++ file.drop n ≠ [] := by simpa using hn
        obtain ⟨byte, rest, heq⟩ := List.exists_cons_of_ne_nil hdrop
        rw [heq] at h
        cases h

/-- **A file with more bytes** is refused. -/
theorem loadIndex_longer {file : List UInt8} {x : Loaded} (h : loadIndex file = .ok x) {more : List UInt8}
    (hmore : more ≠ []) : loadIndex (file ++ more) = .error corrupted := by
  rw [loadIndex_eq] at h ⊢
  cases hheader : readHeader file with
  | none =>
    rw [hheader] at h
    cases h
  | some r =>
    obtain ⟨hd, body⟩ := r
    rw [hheader] at h
    rw [local_readHeader _ hd body more hheader]
    dsimp only at h ⊢
    split at h
    · cases h
    rename_i hsmall
    rw [if_neg hsmall]
    cases hbody : readBody hd body with
    | none =>
      rw [hbody] at h
      cases h
    | some r =>
      obtain ⟨y, rest⟩ := r
      rw [local_readBody hd _ y rest more hbody]
      obtain ⟨byte, bytes, heq⟩ := List.exists_cons_of_ne_nil (List.append_ne_nil_of_right_ne_nil rest hmore)
      rw [heq]

/-- **A file that is taken** is read as a whole, and with fewer or more bytes it is not taken. -/
theorem loadIndex_whole {file : List UInt8} {x : Loaded} (h : loadIndex file = .ok x) :
    (∃ body, readHeader file = some (x.header, body) ∧ readBody x.header body = some (x, [])) ∧
      (∀ n < file.length, loadIndex (file.take n) = .error corrupted) ∧
      ∀ more ≠ [], loadIndex (file ++ more) = .error corrupted := by
  refine ⟨?_, fun n => loadIndex_cut h, fun more => loadIndex_longer h⟩
  rw [loadIndex_eq] at h
  split at h
  · cases h
  · rename_i hd body hheader
    split at h
    · cases h
    split at h
    · rename_i y hbody
      split at h
      · cases h
      · cases h
        have hsame : x.header = hd := by
          obtain ⟨r, -, hrest⟩ := Option.bind_eq_some_iff.mp hbody
          obtain ⟨r', -, hpure⟩ := Option.bind_eq_some_iff.mp hrest
          rw [← (Prod.mk.inj (Option.some.inj hpure)).1]
        rw [hsame]
        exact ⟨body, hheader, hbody⟩
    · cases h

/-- A file without elements. -/
def emptyFile : List UInt8 :=
  saveIndex ⟨1, 1, by decide, by decide⟩ 0 10 (fun _ _ _ => 0)
    (⟨fun _ => 0, 5, 0, fun _ => 0, fun _ _ => [], fun _ => false, 0, none⟩ : Graph ℕ)

theorem loadIndex_whole_empty : ∃ x, loadIndex emptyFile = .ok x ∧
    loadIndex (emptyFile.take 50) = .error corrupted ∧ loadIndex (emptyFile ++ [0]) = .error corrupted := by
  have hload : (loadIndex emptyFile).toOption.isSome := by decide
  cases hx : loadIndex emptyFile with
  | error e =>
    rw [hx] at hload
    cases hload
  | ok x =>
    obtain ⟨-, hcut, hlonger⟩ := loadIndex_whole hx
    exact ⟨x, rfl, hcut 50 (by decide), hlonger [0] (by decide)⟩

end HierarchicalNSW

end AwaDB.Index
