import AwaDB.Lib.Outcome
import AwaDB.Lib.Simulation
import Mathlib.Data.List.Count
import Mathlib.Logic.Function.Basic

/-!
# The asynchronous calls of the server (`awadb_async_call.h`, `awadb_server.cc`)

For each method of the service one call object waits for a request. When the completion queue returns
it, it makes the next object for its method, processes its request and sends the reply; when the queue
returns it again, it deletes itself. The objects are known to the runtime by their addresses.

* `AsyncServer`: the objects, what the runtime knows of them, and the completion queue;
* `step`: what the runtime does, and the loop of `HandleRpcs`;
* `Inv`, `inv_event`: every address that the runtime has is that of an object, and it has each only once;
* `safe_of_run`: no freed object is used, no assertion fails, and there is a call for each method;
* `serial_of_run`: the server does what it would do if it got the requests one after the other, and those
  of one method in the order in which they came.
-/

namespace AwaDB

open Lib

/-- The methods of the service; each has its class of calls. -/
inductive Method where
  | create | checkTable | queryTableDetail | addFields | addOrUpdate | get | search | delete
deriving DecidableEq, Repr

/-- `CallStatus` -/
inductive CallStatus where
  | create | process | finish
deriving DecidableEq, Repr

/-- A call: its class, `status_` and `request_`. -/
structure Call (Req : Type) where
  method : Method
  status : CallStatus
  request : Req

/-- The objects at their addresses, the ones that wait for a request, those whose reply is on its way, and
the completion queue with tags and `ok`. `data` is what the calls work on. Recorded are the requests in
the order in which they came, those that were served, with their replies, and the replies that did not
get through. -/
structure AsyncServer (S Req Reply : Type) where
  heap : ℕ → Option (Call Req)
  waiting : List ℕ
  finishing : List ℕ
  queue : List (ℕ × Bool)
  data : S
  came : List (Method × Req)
  served : List (Method × Req)
  replies : List Reply
  lost : List ℕ

/-- The runtime hands a request to a call that waits; a reply is sent, or its client has gone; the loop of
`HandleRpcs` takes an event from the queue, and `fresh` is an address for a new object. -/
inductive ServerEvent (Req : Type) where
  | arrive (tag : ℕ) (request : Req)
  | sent (tag : ℕ) (ok : Bool)
  | next (tag : ℕ) (ok : Bool) (fresh : ℕ)

namespace AsyncServer

variable {S Req Reply : Type}

/-! ### The program -/

section Program

variable (blank : Req) (process : Method → Req → S → Reply × S)

/-- `new` of a call: its constructor calls `Proceed`, which makes it wait for a request. -/
def newCall (method : Method) (tag : ℕ) (s : AsyncServer S Req Reply) : AsyncServer S Req Reply :=
  { s with
    heap := Function.update s.heap tag (some ⟨method, .process, blank⟩)
    waiting := s.waiting ++ [tag] }

/-- `Proceed` -/
def proceed (tag fresh : ℕ) (s : AsyncServer S Req Reply) : Outcome Unit (AsyncServer S Req Reply) :=
  match s.heap tag with
  | none => .broken
  | some call =>
    match call.status with
    | .create =>
      .done { s with
        heap := Function.update s.heap tag (some { call with status := .process })
        waiting := s.waiting ++ [tag] }
    | .process =>
      let s := newCall blank call.method fresh s
      let r := process call.method call.request s.data
      .done { s with
        heap := Function.update s.heap tag (some { call with status := .finish })
        finishing := s.finishing ++ [tag]
        data := r.2
        served := s.served ++ [(call.method, call.request)]
        replies := s.replies ++ [r.1] }
    | .finish => .done { s with heap := Function.update s.heap tag none }

/-- One event; it is refused if it cannot happen. -/
def event : ServerEvent Req → AsyncServer S Req Reply → Outcome Unit (AsyncServer S Req Reply)
  | .arrive tag request, s =>
    if tag ∈ s.waiting then
      match s.heap tag with
      | none => .broken
      | some call =>
        .done { s with
          heap := Function.update s.heap tag (some { call with request := request })
          waiting := s.waiting.erase tag
          queue := s.queue ++ [(tag, true)]
          came := s.came ++ [(call.method, request)] }
    else .refused ()
  | .sent tag ok, s =>
    if tag ∈ s.finishing then
      .done { s with finishing := s.finishing.erase tag, queue := s.queue ++ [(tag, ok)] }
    else .refused ()
  | .next tag ok fresh, s =>
    if (tag, ok) ∈ s.queue ∧ s.heap fresh = none then
      let s := { s with queue := s.queue.erase (tag, ok) }
      -- `if (!ok) continue;`
      if ok then proceed blank process tag fresh s else .done { s with lost := s.lost ++ [tag] }
    else .refused ()

/-- An event that happens. -/
def step (e : ServerEvent Req) (s : AsyncServer S Req Reply) : Option (AsyncServer S Req Reply) :=
  match event blank process e s with
  | .done s => some s
  | _ => none

/-- The server before its first call. -/
def empty (data : S) : AsyncServer S Req Reply := ⟨fun _ => none, [], [], [], data, [], [], [], []⟩

/-- The methods, in the order in which `HandleRpcs` makes a call for each before its loop. -/
def methods : List Method :=
  [.create, .checkTable, .queryTableDetail, .addFields, .addOrUpdate, .get, .search, .delete]

/-- The server with these calls at their addresses. -/
def start (tags : Method → ℕ) (data : S) : AsyncServer S Req Reply :=
  methods.foldl (fun s method => newCall blank method (tags method) s) (empty data)

end Program

/-! ### The objects and the runtime -/

/-- Where the runtime has an address. -/
structure Tag where
  waiting : ℕ
  ready : ℕ
  failed : ℕ
  finishing : ℕ
  lost : ℕ
deriving DecidableEq

/-- How often it has it there. -/
def tag (s : AsyncServer S Req Reply) (a : ℕ) : Tag :=
  ⟨s.waiting.count a, s.queue.count (a, true), s.queue.count (a, false), s.finishing.count a,
    s.lost.count a⟩

/-- A call that waits for its request, or has it and waits in the queue, and one whose reply is on its way,
or in the queue, or did not get through. -/
def Tag.Fits (t : Tag) : Option (Call Req) → Prop
  | none => t = ⟨0, 0, 0, 0, 0⟩
  | some call =>
    match call.status with
    | .create => False
    | .process => t = ⟨1, 0, 0, 0, 0⟩ ∨ t = ⟨0, 1, 0, 0, 0⟩
    | .finish => t = ⟨0, 0, 0, 1, 0⟩ ∨ t = ⟨0, 1, 0, 0, 0⟩ ∨ t = ⟨0, 0, 1, 0, 0⟩ ∨ t = ⟨0, 0, 0, 0, 1⟩

/-- The requests of a method. -/
def ofMethod (method : Method) (l : List (Method × Req)) : List (Method × Req) :=
  l.filter fun r => r.1 = method

/-- **Between two events**, when the calls for some methods were made: for each method there is one call
that takes its requests, at the address `taker method`, and what has come for the method is what was served
and, if the call does not wait any more, its own request. -/
structure Inv (made : List Method) (taker : Method → ℕ) (s : AsyncServer S Req Reply) : Prop where
  fits : ∀ a, (s.tag a).Fits (s.heap a)
  takes : ∀ method ∈ made, ∃ request, s.heap (taker method) = some ⟨method, .process, request⟩ ∧
    ofMethod method s.came = ofMethod method s.served ++
      if taker method ∈ s.waiting then [] else [(method, request)]
  only : ∀ a call, s.heap a = some call → call.status = .process →
    call.method ∈ made ∧ a = taker call.method

variable {blank : Req} {process : Method → Req → S → Reply × S} {made : List Method}
  {taker : Method → ℕ} {s s' : AsyncServer S Req Reply} {a : ℕ}

@[simp] theorem ofMethod_append (method : Method) (l l' : List (Method × Req)) :
    ofMethod method (l ++ l') = ofMethod method l ++ ofMethod method l' :=
  List.filter_append ..

@[simp] theorem ofMethod_self (method : Method) (request : Req) :
    ofMethod method [(method, request)] = [(method, request)] := by
  simp [ofMethod]

theorem ofMethod_of_ne {method method' : Method} (h : method' ≠ method) (request : Req) :
    ofMethod method [(method', request)] = [] := by
  simp [ofMethod, h]

theorem tag_waiting_pos : 0 < (s.tag a).waiting ↔ a ∈ s.waiting := List.count_pos_iff

theorem tag_finishing_pos : 0 < (s.tag a).finishing ↔ a ∈ s.finishing := List.count_pos_iff

theorem tag_ready_pos : 0 < (s.tag a).ready ↔ (a, true) ∈ s.queue := List.count_pos_iff

theorem tag_failed_pos : 0 < (s.tag a).failed ↔ (a, false) ∈ s.queue := List.count_pos_iff

/-- What the runtime has is an object, and where it has it depends on the status. -/
theorem Inv.cases (h : Inv made taker s) (hsome : s.tag a ≠ ⟨0, 0, 0, 0, 0⟩) :
    ∃ call, s.heap a = some call ∧
      (call.status = .process ∧ (s.tag a = ⟨1, 0, 0, 0, 0⟩ ∨ s.tag a = ⟨0, 1, 0, 0, 0⟩) ∨
        call.status = .finish ∧ (s.tag a = ⟨0, 0, 0, 1, 0⟩ ∨ s.tag a = ⟨0, 1, 0, 0, 0⟩ ∨
          s.tag a = ⟨0, 0, 1, 0, 0⟩ ∨ s.tag a = ⟨0, 0, 0, 0, 1⟩)) := by
  have hfits := h.fits a
  cases hcall : s.heap a with
  | none =>
    rw [hcall] at hfits
    exact absurd hfits hsome
  | some call =>
    rw [hcall] at hfits
    refine ⟨call, rfl, ?_⟩
    cases hstatus : call.status <;> simp only [Tag.Fits, hstatus] at hfits
    · exact .inl ⟨rfl, hfits⟩
    · exact .inr ⟨rfl, hfits⟩

/-- A call that waits has no request. -/
theorem Inv.of_waiting (h : Inv made taker s) (ha : a ∈ s.waiting) :
    ∃ call, s.heap a = some call ∧ call.status = .process ∧ s.tag a = ⟨1, 0, 0, 0, 0⟩ := by
  have hpos := tag_waiting_pos.mpr ha
  obtain ⟨call, hcall, hcase⟩ := h.cases (ne_of_apply_ne Tag.waiting (Nat.ne_of_gt hpos))
  refine ⟨call, hcall, ?_⟩
  rcases hcase with ⟨hstatus, heq | heq⟩ | ⟨-, heq | heq | heq | heq⟩ <;> rw [heq] at hpos
  · exact ⟨hstatus, heq⟩
  all_goals exact absurd hpos (Nat.lt_irrefl 0)

/-- A call that is in the queue has its request, or has replied. -/
theorem Inv.of_ready (h : Inv made taker s) (ha : (a, true) ∈ s.queue) :
    ∃ call, s.heap a = some call ∧ (call.status = .process ∨ call.status = .finish) ∧
      s.tag a = ⟨0, 1, 0, 0, 0⟩ := by
  have hpos := tag_ready_pos.mpr ha
  obtain ⟨call, hcall, hcase⟩ := h.cases (ne_of_apply_ne Tag.ready (Nat.ne_of_gt hpos))
  refine ⟨call, hcall, ?_⟩
  rcases hcase with ⟨hstatus, heq | heq⟩ | ⟨hstatus, heq | heq | heq | heq⟩ <;> rw [heq] at hpos
  · exact absurd hpos (Nat.lt_irrefl 0)
  · exact ⟨.inl hstatus, heq⟩
  · exact absurd hpos (Nat.lt_irrefl 0)
  · exact ⟨.inr hstatus, heq⟩
  all_goals exact absurd hpos (Nat.lt_irrefl 0)

/-- A call whose reply did not get through. -/
theorem Inv.of_failed (h : Inv made taker s) (ha : (a, false) ∈ s.queue) :
    ∃ call, s.heap a = some call ∧ call.status = .finish ∧ s.tag a = ⟨0, 0, 1, 0, 0⟩ := by
  have hpos := tag_failed_pos.mpr ha
  obtain ⟨call, hcall, hcase⟩ := h.cases (ne_of_apply_ne Tag.failed (Nat.ne_of_gt hpos))
  refine ⟨call, hcall, ?_⟩
  rcases hcase with ⟨-, heq | heq⟩ | ⟨hstatus, heq | heq | heq | heq⟩ <;> rw [heq] at hpos
  case inr.inr.inr.inl => exact ⟨hstatus, heq⟩
  all_goals exact absurd hpos (Nat.lt_irrefl 0)

/-- A call whose reply is on its way. -/
theorem Inv.of_finishing (h : Inv made taker s) (ha : a ∈ s.finishing) :
    ∃ call, s.heap a = some call ∧ call.status = .finish ∧ s.tag a = ⟨0, 0, 0, 1, 0⟩ := by
  have hpos := tag_finishing_pos.mpr ha
  obtain ⟨call, hcall, hcase⟩ := h.cases (ne_of_apply_ne Tag.finishing (Nat.ne_of_gt hpos))
  refine ⟨call, hcall, ?_⟩
  rcases hcase with ⟨-, heq | heq⟩ | ⟨hstatus, heq | heq | heq | heq⟩ <;> rw [heq] at hpos
  case inr.inl => exact ⟨hstatus, heq⟩
  all_goals exact absurd hpos (Nat.lt_irrefl 0)

/-- A call that takes requests, as the one of its method. -/
theorem Inv.eq_of_process (h : Inv made taker s) {call : Call Req} (hcall : s.heap a = some call)
    (hstatus : call.status = .process) : call.method ∈ made ∧ a = taker call.method ∧
      ofMethod call.method s.came = ofMethod call.method s.served ++
        if a ∈ s.waiting then [] else [(call.method, call.request)] := by
  obtain ⟨hmade, ha⟩ := h.only a call hcall hstatus
  obtain ⟨request, hheap, horder⟩ := h.takes call.method hmade
  rw [← ha, hcall] at hheap
  have hrequest : call.request = request := by rw [Option.some.inj hheap]
  rw [← ha, ← hrequest] at horder
  exact ⟨hmade, ha, horder⟩

/-- The call of another method is another call. -/
theorem Inv.taker_ne (h : Inv made taker s) {call : Call Req} (hcall : s.heap a = some call)
    {method : Method} (hmethod : method ∈ made) (hne : method ≠ call.method) : taker method ≠ a := by
  obtain ⟨request, hheap, -⟩ := h.takes method hmethod
  rintro rfl
  rw [hcall] at hheap
  exact hne (by rw [Option.some.inj hheap])

/-! ### Requests come, and replies go -/

/-- **A request comes.** -/
theorem inv_arrive (h : Inv made taker s) (a : ℕ) (request : Req) :
    (event blank process (.arrive a request) s).Safe (Inv made taker) := by
  rw [event]
  split
  swap
  · trivial
  rename_i hwaiting
  obtain ⟨call, hcall, hstatus, htag⟩ := h.of_waiting hwaiting
  obtain ⟨hmade, ha, horder⟩ := h.eq_of_process hcall hstatus
  have hcounts := Tag.mk.inj htag
  have hgone : a ∉ s.waiting.erase a := by
    rw [← List.count_pos_iff, List.count_erase_self, hcounts.1]
    exact Nat.lt_irrefl 0
  rw [hcall]
  refine ⟨fun b => ?_, fun method hmethod => ?_, fun b call' hcall' hstatus' => ?_⟩
  · by_cases hb : b = a
    · subst hb
      simp [tag, Tag.Fits, hstatus, hcounts, List.count_append]
    · have hsame : tag { s with
          heap := Function.update s.heap a (some { call with request := request })
          waiting := s.waiting.erase a
          queue := s.queue ++ [(a, true)]
          came := s.came ++ [(call.method, request)] } b = s.tag b := by
        simp [tag, List.count_append, List.count_erase_of_ne hb, Ne.symm hb]
      rw [hsame]
      show Tag.Fits _ (Function.update s.heap a _ b)
      rw [Function.update_of_ne hb]
      exact h.fits b
  · by_cases heq : method = call.method
    · subst heq
      refine ⟨request, ?_, ?_⟩
      · rw [← ha]
        simp [hstatus]
      · rw [← ha]
        simp [horder, hwaiting, hgone]
    · have hne := h.taker_ne hcall hmethod heq
      obtain ⟨request', hheap, hsame⟩ := h.takes method hmethod
      refine ⟨request', ?_, ?_⟩
      · show Function.update s.heap a _ _ = _
        rw [Function.update_of_ne hne, hheap]
      · simp [hsame, ofMethod_of_ne (Ne.symm heq), List.mem_erase_of_ne hne]
  · by_cases hb : b = a
    · subst hb
      have hcall' : Function.update s.heap b (some { call with request := request }) b = some call' :=
        hcall'
      rw [Function.update_self] at hcall'
      rw [← Option.some.inj hcall']
      exact ⟨hmade, ha⟩
    · have hcall' : Function.update s.heap a (some { call with request := request }) b = some call' :=
        hcall'
      rw [Function.update_of_ne hb] at hcall'
      exact h.only b call' hcall' hstatus'

/-- A step that changes neither the objects nor what waits. -/
theorem Inv.frame (h : Inv made taker s) (hheap : s'.heap = s.heap) (hwaiting : s'.waiting = s.waiting)
    (hcame : s'.came = s.came) (hserved : s'.served = s.served)
    (hfits : ∀ b, (s'.tag b).Fits (s.heap b)) : Inv made taker s' where
  fits b := by
    rw [hheap]
    exact hfits b
  takes method hmethod := by
    rw [hheap, hwaiting, hcame, hserved]
    exact h.takes method hmethod
  only b call hcall := by
    rw [hheap] at hcall
    exact h.only b call hcall

/-- **A reply is sent**, or cannot be. -/
theorem inv_sent (h : Inv made taker s) (a : ℕ) (ok : Bool) :
    (event blank process (.sent a ok) s).Safe (Inv made taker) := by
  rw [event]
  split
  swap
  · trivial
  rename_i hfinishing
  obtain ⟨call, hcall, hstatus, htag⟩ := h.of_finishing hfinishing
  have hcounts := Tag.mk.inj htag
  show Inv made taker { s with finishing := s.finishing.erase a, queue := s.queue ++ [(a, ok)] }
  refine h.frame rfl rfl rfl rfl fun b => ?_
  by_cases hb : b = a
  · subst hb
    cases ok <;> simp [tag, Tag.Fits, hcall, hstatus, hcounts, List.count_append]
  · have hsame : tag { s with
        finishing := s.finishing.erase a, queue := s.queue ++ [(a, ok)] } b = s.tag b := by
      simp [tag, List.count_append, List.count_erase_of_ne hb, Ne.symm hb]
    rw [hsame]
    exact h.fits b

/-! ### The loop of the server -/

/-- A reply that did not get through: nothing is done, and nothing will be. -/
theorem inv_lost (h : Inv made taker s) (ha : (a, false) ∈ s.queue) :
    Inv made taker { s with queue := s.queue.erase (a, false), lost := s.lost ++ [a] } := by
  obtain ⟨call, hcall, hstatus, htag⟩ := h.of_failed ha
  have hcounts := Tag.mk.inj htag
  refine h.frame rfl rfl rfl rfl fun b => ?_
  by_cases hb : b = a
  · subst hb
    simp [tag, Tag.Fits, hcall, hstatus, hcounts, List.count_append]
  · have hsame : tag { s with queue := s.queue.erase (a, false), lost := s.lost ++ [a] } b = s.tag b := by
      simp [tag, List.count_append, List.count_erase, Ne.symm hb]
    rw [hsame]
    exact h.fits b

/-- The call that takes the requests of a method is at another address from now on. -/
def moved (taker : Method → ℕ) (method : Method) (a : ℕ) : Method → ℕ := Function.update taker method a

/-- **A request is served**, and the object at `fresh` takes the next one. -/
theorem inv_serve (h : Inv made taker s) {fresh : ℕ} {call : Call Req} (hcall : s.heap a = some call)
    (hstatus : call.status = .process) (htag : s.tag a = ⟨0, 1, 0, 0, 0⟩)
    (hfresh : s.heap fresh = none) :
    (proceed blank process a fresh { s with queue := s.queue.erase (a, true) }).Safe
      (Inv made (moved taker call.method fresh)) := by
  have hcounts := Tag.mk.inj htag
  have hne : fresh ≠ a := by
    rintro rfl
    rw [hfresh] at hcall
    cases hcall
  have hnone : s.tag fresh = ⟨0, 0, 0, 0, 0⟩ := by
    have hfits := h.fits fresh
    rw [hfresh] at hfits
    exact hfits
  have hzero := Tag.mk.inj hnone
  unfold proceed
  dsimp only
  rw [hcall]
  obtain ⟨hmade, hat, horder⟩ := h.eq_of_process hcall hstatus
  have hwaiting : a ∉ s.waiting := by
    rw [← tag_waiting_pos, htag]
    exact Nat.lt_irrefl 0
  rw [if_neg hwaiting] at horder
  simp only [hstatus, newCall]
  refine ⟨fun b => ?_, fun method hmethod => ?_, fun b call' hcall' hstatus' => ?_⟩
  · by_cases hb : b = a
    · subst hb
      simp [tag, Tag.Fits, hcounts, List.count_append, hne]
    by_cases hb' : b = fresh
    · subst hb'
      simp [tag, Tag.Fits, hzero, List.count_append, hb, Ne.symm hb]
    · have hfits := h.fits b
      simpa [tag, List.count_append, List.count_erase, hb, hb', Ne.symm hb, Ne.symm hb'] using hfits
  · by_cases heq : method = call.method
    · subst heq
      refine ⟨blank, ?_, ?_⟩
      · simp [moved, hne]
      · simp [moved, horder]
    · have hother := h.taker_ne hcall hmethod heq
      obtain ⟨request, hheap, hsame⟩ := h.takes method hmethod
      have hother' : taker method ≠ fresh := by
        rintro hsame
        rw [hsame, hfresh] at hheap
        cases hheap
      refine ⟨request, ?_, ?_⟩
      · simp [moved, heq, hother, hother', hheap]
      · simp [moved, heq, hsame, hother', ofMethod_of_ne (Ne.symm heq)]
  · by_cases hb : b = a
    · subst hb
      simp only [Function.update_self, Option.some.injEq] at hcall'
      rw [← hcall'] at hstatus'
      cases hstatus'
    by_cases hb' : b = fresh
    · subst hb'
      have hnew : call' = ⟨call.method, .process, blank⟩ := by
        simpa [Function.update_of_ne hb, eq_comm] using hcall'
      rw [hnew]
      exact ⟨hmade, by simp [moved]⟩
    · have hold : s.heap b = some call' := by simpa [hb, hb'] using hcall'
      obtain ⟨hmade', hb''⟩ := h.only b call' hold hstatus'
      have hmethod : call'.method ≠ call.method := by
        intro heq
        exact hb (hb''.trans (by rw [heq]; exact hat.symm))
      refine ⟨hmade', ?_⟩
      rw [moved, Function.update_of_ne hmethod]
      exact hb''

/-- **An object deletes itself.** -/
theorem inv_finish (h : Inv made taker s) {fresh : ℕ} {call : Call Req} (hcall : s.heap a = some call)
    (hstatus : call.status = .finish) (htag : s.tag a = ⟨0, 1, 0, 0, 0⟩) :
    (proceed blank process a fresh { s with queue := s.queue.erase (a, true) }).Safe
      (Inv made taker) := by
  have hcounts := Tag.mk.inj htag
  unfold proceed
  dsimp only
  rw [hcall]
  simp only [hstatus]
  refine ⟨fun b => ?_, fun method hmethod => ?_, fun b call' hcall' hstatus' => ?_⟩
  · by_cases hb : b = a
    · subst hb
      simp [tag, Tag.Fits, hcounts]
    · have hfits := h.fits b
      simpa [tag, List.count_erase, hb, Ne.symm hb] using hfits
  · obtain ⟨request, hheap, hsame⟩ := h.takes method hmethod
    have hother : taker method ≠ a := by
      rintro heq
      rw [heq, hcall] at hheap
      rw [Option.some.inj hheap] at hstatus
      cases hstatus
    refine ⟨request, ?_, hsame⟩
    simp [hother, hheap]
  · have hb : b ≠ a := by
      rintro rfl
      simp at hcall'
    have hold : s.heap b = some call' := by simpa [hb] using hcall'
    exact h.only b call' hold hstatus'

/-- **`Proceed`** of an event of the queue. -/
theorem inv_proceed (h : Inv made taker s) {fresh : ℕ} (ha : (a, true) ∈ s.queue)
    (hfresh : s.heap fresh = none) :
    (proceed blank process a fresh { s with queue := s.queue.erase (a, true) }).Safe
      fun s' => ∃ taker, Inv made taker s' := by
  obtain ⟨call, hcall, hstatus | hstatus, htag⟩ := h.of_ready ha
  · exact Outcome.Safe.imp (inv_serve h hcall hstatus htag hfresh) fun _ h' => ⟨_, h'⟩
  · exact Outcome.Safe.imp (inv_finish h hcall hstatus htag) fun _ h' => ⟨_, h'⟩

/-- **One event.** -/
theorem inv_event (blank : Req) (process : Method → Req → S → Reply × S)
    (h : ∃ taker, Inv made taker s) (e : ServerEvent Req) :
    (event blank process e s).Safe fun s' => ∃ taker, Inv made taker s' := by
  obtain ⟨taker, h⟩ := h
  cases e with
  | arrive a request => exact (inv_arrive h a request).imp fun s' hs' => ⟨taker, hs'⟩
  | sent a ok => exact (inv_sent h a ok).imp fun s' hs' => ⟨taker, hs'⟩
  | next a ok fresh =>
    rw [event]
    split
    · rename_i henabled
      cases ok with
      | true => exact inv_proceed h henabled.1 henabled.2
      | false => exact ⟨taker, inv_lost h henabled.1⟩
    · trivial

/-! ### Runs -/

/-- **A call is made** for a method that has none. -/
theorem Inv.newCall (h : Inv made taker s) {method : Method} (hmethod : method ∉ made)
    (hfresh : s.heap (taker method) = none) (horder : ofMethod method s.came = ofMethod method s.served) :
    Inv (method :: made) taker (newCall blank method (taker method) s) := by
  have hnone := h.fits (taker method)
  rw [hfresh] at hnone
  have hzero := Tag.mk.inj hnone
  refine ⟨fun b => ?_, fun method' hmethod' => ?_, fun b call hcall hstatus => ?_⟩
  · by_cases hb : b = taker method
    · subst hb
      simp [AsyncServer.newCall, tag, Tag.Fits, hzero, List.count_append]
    · have hfits := h.fits b
      simpa [AsyncServer.newCall, tag, List.count_append, Ne.symm hb, hb] using hfits
  · rcases List.mem_cons.mp hmethod' with rfl | hmethod'
    · exact ⟨blank, by simp [AsyncServer.newCall], by simp [AsyncServer.newCall, horder]⟩
    · obtain ⟨request, hheap, hsame⟩ := h.takes method' hmethod'
      have hne : taker method' ≠ taker method := by
        intro heq
        rw [heq, hfresh] at hheap
        cases hheap
      exact ⟨request, by simp [AsyncServer.newCall, hne, hheap],
        by simp [AsyncServer.newCall, hsame, hne]⟩
  · by_cases hb : b = taker method
    · subst hb
      have hnew : call = ⟨method, .process, blank⟩ := by simpa [AsyncServer.newCall, eq_comm] using hcall
      rw [hnew]
      exact ⟨List.mem_cons_self, rfl⟩
    · have hold : s.heap b = some call := by simpa [AsyncServer.newCall, hb] using hcall
      obtain ⟨hmade, hb'⟩ := h.only b call hold hstatus
      exact ⟨List.mem_cons_of_mem _ hmade, hb'⟩

/-- The calls before the loop. -/
theorem inv_calls (blank : Req) {tags : Method → ℕ} (htags : Function.Injective tags)
    {l : List Method} (hl : l.Nodup) (h : Inv made tags s) (hnew : ∀ method ∈ l, method ∉ made)
    (hfresh : ∀ method ∈ l, s.heap (tags method) = none) (hcame : s.came = []) (hserved : s.served = []) :
    Inv (l.reverse ++ made) tags
      (l.foldl (fun s method => AsyncServer.newCall blank method (tags method) s) s) := by
  induction l generalizing made s with
  | nil => exact h
  | cons method l ih =>
    obtain ⟨hout, hl⟩ := List.nodup_cons.mp hl
    have hcall : Inv (method :: made) tags (AsyncServer.newCall blank method (tags method) s) :=
      h.newCall (hnew method List.mem_cons_self) (hfresh method List.mem_cons_self) (by rw [hcame, hserved])
    have hrest := ih hl hcall ?_ ?_ hcame hserved
    · rw [List.reverse_cons, List.append_assoc]
      exact hrest
    · intro method' hmem
      have hne : method' ≠ method := fun heq => hout (heq ▸ hmem)
      simp [hne, hnew method' (List.mem_cons_of_mem _ hmem)]
    · intro method' hmem
      have hne : tags method' ≠ tags method := fun heq => hout (htags heq ▸ hmem)
      show Function.update s.heap _ _ _ = _
      rw [Function.update_of_ne hne]
      exact hfresh method' (List.mem_cons_of_mem _ hmem)

theorem mem_methods (method : Method) : method ∈ methods.reverse := by
  cases method <;> decide

theorem inv_start (blank : Req) {tags : Method → ℕ} (htags : Function.Injective tags) (data : S) :
    Inv methods.reverse tags (start blank tags data : AsyncServer S Req Reply) := by
  have hempty : Inv [] tags (empty data : AsyncServer S Req Reply) :=
    ⟨fun b => rfl, fun method hmethod => absurd hmethod List.not_mem_nil, fun b call hcall => by cases hcall⟩
  have hcalls := inv_calls blank htags (l := methods) (by decide) hempty
    (fun method _ => List.not_mem_nil) (fun method _ => rfl) rfl rfl
  rwa [List.append_nil] at hcalls

theorem inv_step {e : ServerEvent Req} (h : ∃ taker, Inv made taker s)
    (hstep : step blank process e s = some s') : ∃ taker, Inv made taker s' := by
  have hsafe := inv_event blank process h e
  rw [step] at hstep
  cases hevent : event blank process e s with
  | done t =>
    rw [hevent] at hstep hsafe
    cases hstep
    exact hsafe
  | refused u =>
    rw [hevent] at hstep
    cases hstep
  | broken =>
    rw [hevent] at hstep
    cases hstep

/-- In how many places the runtime has an address. -/
def places (s : AsyncServer S Req Reply) (a : ℕ) : ℕ :=
  s.waiting.count a + s.queue.count (a, true) + s.queue.count (a, false) + s.finishing.count a +
    s.lost.count a

theorem Inv.places (h : Inv made taker s) (a : ℕ) : s.places a = if (s.heap a).isSome then 1 else 0 := by
  by_cases hsome : s.tag a = ⟨0, 0, 0, 0, 0⟩
  · have hzero := Tag.mk.inj hsome
    have hnone : s.heap a = none := by
      cases hcall : s.heap a with
      | none => rfl
      | some call =>
        have hfits := h.fits a
        rw [hcall, hsome] at hfits
        cases hstatus : call.status <;> simp [Tag.Fits, hstatus] at hfits
    simp [AsyncServer.places, hnone, hzero]
  · obtain ⟨call, hcall, hcase⟩ := h.cases hsome
    rw [hcall]
    rcases hcase with ⟨-, heq | heq⟩ | ⟨-, heq | heq | heq | heq⟩ <;>
      simp [AsyncServer.places, Tag.mk.inj heq]

/-- **No freed object is used, and no assertion fails**, in every run. Each object is in one place of the
runtime, so what is not there any more is freed. Each method has one call for its next request, which
waits for it, or has it. -/
theorem safe_of_run (blank : Req) (process : Method → Req → S → Reply × S) {tags : Method → ℕ}
    (htags : Function.Injective tags) (data : S) (es : List (ServerEvent Req))
    {s : AsyncServer S Req Reply} (hrun : runOps (step blank process) es (start blank tags data) = some s) :
    (∀ e, event blank process e s ≠ .broken) ∧
      (∀ a, s.places a = if (s.heap a).isSome then 1 else 0) ∧
      ∀ method, ∃! a, ∃ request, s.heap a = some ⟨method, .process, request⟩ ∧
        (a ∈ s.waiting ∨ (a, true) ∈ s.queue) := by
  have hinv : ∃ taker, Inv methods.reverse taker s :=
    runOps_invariant (fun e s s' => inv_step) ⟨tags, inv_start blank htags data⟩ hrun
  refine ⟨fun e hbroken => ?_, fun a => ?_, fun method => ?_⟩
  · have hsafe := inv_event blank process hinv e
    rw [hbroken] at hsafe
    exact hsafe
  · obtain ⟨taker, h⟩ := hinv
    exact h.places a
  · obtain ⟨taker, h⟩ := hinv
    obtain ⟨request, hheap, -⟩ := h.takes method (mem_methods method)
    refine ⟨taker method, ⟨request, hheap, ?_⟩, ?_⟩
    · have hfits := h.fits (taker method)
      rw [hheap] at hfits
      rcases hfits with heq | heq
      · have hpos : 0 < (s.tag (taker method)).waiting := by
          rw [heq]
          exact Nat.one_pos
        exact .inl (tag_waiting_pos.mp hpos)
      · have hpos : 0 < (s.tag (taker method)).ready := by
          rw [heq]
          exact Nat.one_pos
        exact .inr (tag_ready_pos.mp hpos)
    · rintro a ⟨request', hheap', -⟩
      exact (h.only a _ hheap' rfl).2

/-- The addresses 0 to 7. -/
def firstTag (method : Method) : ℕ := methods.idxOf method

theorem firstTag_injective : Function.Injective firstTag := by
  intro method method' h
  cases method <;> cases method' <;> first | rfl | exact absurd h (by decide)

/-- The service adds its requests. -/
def adder (_ : Method) (request total : ℕ) : ℕ × ℕ := (total + request, total + request)

/-- Two requests for one method and one for another; the first reply does not get through. -/
def threeRequests : List (ServerEvent ℕ) :=
  [.arrive 0 3, .arrive 5 4, .next 0 true 8, .arrive 8 5, .sent 0 false, .next 8 true 9, .next 0 false 10,
    .next 5 true 10, .sent 5 true, .next 5 true 11]

theorem safe_of_run_adder : ∃ s : AsyncServer ℕ ℕ ℕ,
    runOps (step 0 adder) threeRequests (start 0 firstTag 0) = some s ∧ s.lost = [0] ∧
      ∀ e, event 0 adder e s ≠ .broken :=
  ⟨_, rfl, rfl, (safe_of_run 0 adder firstTag_injective 0 threeRequests rfl).1⟩

/-! ### The same requests, one after the other -/

/-- A server that serves one request after the other. -/
structure Serial (S Req Reply : Type) where
  data : S
  served : List (Method × Req)
  replies : List Reply

/-- It serves one. -/
def serve (process : Method → Req → S → Reply × S) (r : Method × Req) (t : Serial S Req Reply) :
    Option (Serial S Req Reply) :=
  let result := process r.1 r.2 t.data
  some ⟨result.2, t.served ++ [r], t.replies ++ [result.1]⟩

/-- What it has in common with the asynchronous one. -/
def serial (s : AsyncServer S Req Reply) : Serial S Req Reply := ⟨s.data, s.served, s.replies⟩

/-- The request that an event serves. -/
def request : ServerEvent Req → AsyncServer S Req Reply → Option (Method × Req)
  | .next tag true _, s =>
    match s.heap tag with
    | some ⟨method, .process, request⟩ => some (method, request)
    | _ => none
  | _, _ => none

theorem served_of_run {rs : List (Method × Req)} {t t' : Serial S Req Reply}
    (hrun : runOps (serve process) rs t = some t') : t'.served = t.served ++ rs := by
  induction rs generalizing t with
  | nil =>
    cases hrun
    exact (List.append_nil _).symm
  | cons r rs ih =>
    rw [ih hrun, List.append_assoc]
    rfl

/-- What an event does that is done. -/
theorem serial_of_event {e : ServerEvent Req} (hdone : event blank process e s = .done s') :
    match request e s with
    | none => s'.serial = s.serial
    | some r => serve process r s.serial = some s'.serial := by
  cases e with
  | arrive a r =>
    rw [event] at hdone
    split at hdone
    · split at hdone
      · cases hdone
      · cases hdone
        rfl
    · cases hdone
  | sent a ok =>
    rw [event] at hdone
    split at hdone
    · cases hdone
      rfl
    · cases hdone
  | next a ok fresh =>
    rw [event] at hdone
    split at hdone
    swap
    · cases hdone
    cases ok with
    | false =>
      cases hdone
      rfl
    | true =>
      simp only [if_true, proceed] at hdone
      rw [request]
      rcases hcall : s.heap a with _ | ⟨method, status, r⟩
      · rw [hcall] at hdone
        cases hdone
      · rw [hcall] at hdone
        cases status <;> cases hdone <;> rfl

/-- **The asynchronous server is followed by the serial one.** -/
theorem simulates : Simulates (step blank process) (serve process) request serial fun _ => True := by
  have hdone : ∀ {e : ServerEvent Req} {s s' : AsyncServer S Req Reply},
      step blank process e s = some s' → event blank process e s = .done s' := by
    intro e s s' hstep
    rw [step] at hstep
    split at hstep
    · rename_i hevent
      cases hstep
      exact hevent
    · cases hstep
  refine ⟨fun _ _ _ _ _ => trivial, fun e s s' _ hstep hrequest => ?_,
    fun e s s' r _ hstep hrequest => ?_⟩
  · have hserial := serial_of_event (hdone hstep)
    rwa [hrequest] at hserial
  · have hserial := serial_of_event (hdone hstep)
    rwa [hrequest] at hserial

/-- The requests that were served, one after the other, give the same. -/
theorem serial_of_events (blank : Req) {tags : Method → ℕ} {data : S}
    {es : List (ServerEvent Req)} (hrun : runOps (step blank process) es (start blank tags data) = some s) :
    runOps (serve process) s.served ⟨data, [], []⟩ = some s.serial := by
  have hserial := simulates.run trivial hrun
  have hserved : s.served = labels (step blank process) request es (start blank tags data) :=
    served_of_run hserial
  rw [hserved]
  exact hserial

/-- **The server does what it would do if it got the requests that it served one after the other**, with
the same replies, in every run. Of what has come for a method it has served all but the last one, or all,
in the order in which it came. -/
theorem serial_of_run (blank : Req) (process : Method → Req → S → Reply × S) {tags : Method → ℕ}
    (htags : Function.Injective tags) (data : S) (es : List (ServerEvent Req))
    {s : AsyncServer S Req Reply} (hrun : runOps (step blank process) es (start blank tags data) = some s) :
    runOps (serve process) s.served ⟨data, [], []⟩ = some ⟨s.data, s.served, s.replies⟩ ∧
      ∀ method, ∃ pending, ofMethod method s.came = ofMethod method s.served ++ pending ∧
        pending.length ≤ 1 := by
  refine ⟨serial_of_events blank hrun, fun method => ?_⟩
  obtain ⟨taker, h⟩ := runOps_invariant (fun e s s' => inv_step)
    ⟨tags, inv_start blank htags data⟩ hrun
  obtain ⟨r, -, horder⟩ := h.takes method (mem_methods method)
  refine ⟨_, horder, ?_⟩
  split <;> simp

theorem serial_of_run_adder : ∃ s : AsyncServer ℕ ℕ ℕ,
    runOps (step 0 adder) threeRequests (start 0 firstTag 0) = some s ∧ s.replies = [3, 8, 12] ∧
      runOps (serve adder) s.served ⟨0, [], []⟩ = some ⟨s.data, s.served, s.replies⟩ :=
  ⟨_, rfl, rfl, (serial_of_run 0 adder firstTag_injective 0 threeRequests rfl).1⟩

end AsyncServer

end AwaDB
