import Mathlib.Algebra.Group.Nat.Defs
import Mathlib.Data.List.Basic
import Mathlib.Data.Nat.Notation
import Mathlib.Tactic.Common

/-!
# Writing and reading bytes

A writer appends bytes to a list and a `Reader` takes them off its front. `Reads r bytes x` says
that `r` takes exactly `bytes` off any input that starts with them, and returns `x`; it composes:

* `readWord_leWord`: little-endian words of a given width;
* `readList_flatMap`: a list of values written one after the other;
* `Reads.bind`, `Yields.bind`: a sequence of readers, and what it may return;
* `Local`: a reader that does not look behind what it takes; `Local.not_take`: such a reader does not
  take up a part of what it reads;
* `Takes`: a reader that always takes as many bytes;
* `Format`: a format of which it is only known that what was written is read back.
-/

namespace AwaDB.Lib

variable {α β : Type*}

/-- A reader returns the value and the bytes that are left, or fails. -/
abbrev Reader (α : Type*) := List UInt8 → Option (α × List UInt8)

/-- `r` reads `bytes` as `x`, whatever follows. -/
def Reads (r : Reader α) (bytes : List UInt8) (x : α) : Prop :=
  ∀ rest, r (bytes ++ rest) = some (x, rest)

/-! ### Words -/

/-- The `w` low bytes of `x`, least significant first. -/
def leWord : (w x : ℕ) → List UInt8
  | 0, _ => []
  | w + 1, x => UInt8.ofNat x :: leWord w (x / 256)

/-- Read a word of `w` bytes, least significant first. -/
def readWord : (w : ℕ) → Reader ℕ
  | 0, f => some (0, f)
  | _ + 1, [] => none
  | w + 1, byte :: f => (readWord w f).map fun r => (byte.toNat + 256 * r.1, r.2)

theorem foldr_leWord {w n : ℕ} (h : n < 256 ^ w) :
    (leWord w n).foldr (fun byte m => byte.toNat + 256 * m) 0 = n := by
  induction w generalizing n with
  | zero =>
    have hzero : n = 0 := by simpa using h
    rw [hzero]
    rfl
  | succ w ih =>
    have hdiv : n / 256 < 256 ^ w := by
      rw [Nat.div_lt_iff_lt_mul (by decide), ← Nat.pow_succ]
      exact h
    have hbyte : (UInt8.ofNat n).toNat = n % 256 := rfl
    rw [leWord, List.foldr_cons, ih hdiv, hbyte, Nat.mod_add_div]

@[simp] theorem length_leWord (w n : ℕ) : (leWord w n).length = w := by
  induction w generalizing n with
  | zero => rfl
  | succ w ih => rw [leWord, List.length_cons, ih]

/-- **A word that fits** is read back. -/
theorem readWord_leWord {w x : ℕ} (hx : x < 256 ^ w) : Reads (readWord w) (leWord w x) x := by
  intro rest
  induction w generalizing x with
  | zero =>
    have hzero : x = 0 := by simpa using hx
    subst hzero
    rfl
  | succ w ih =>
    have hdiv : x / 256 < 256 ^ w := by
      rw [Nat.div_lt_iff_lt_mul (by decide), ← Nat.pow_succ]
      exact hx
    show (readWord w (leWord w (x / 256) ++ rest)).map _ = _
    rw [ih hdiv, Option.map_some]
    have hbyte : (UInt8.ofNat x).toNat = x % 256 := rfl
    rw [hbyte, Nat.mod_add_div]

/-! ### Lists -/

/-- Read `k` values. -/
def readList (r : Reader α) : (k : ℕ) → Reader (List α)
  | 0, f => some ([], f)
  | k + 1, f =>
    (r f).bind fun x => (readList r k x.2).map fun xs => (x.1 :: xs.1, xs.2)

/-- **A list of values** that can each be read back is read back. -/
theorem readList_flatMap {r : Reader α} {write : α → List UInt8} {xs : List α}
    (h : ∀ x ∈ xs, Reads r (write x) x) : Reads (readList r xs.length) (xs.flatMap write) xs := by
  intro rest
  induction xs with
  | nil => rfl
  | cons x xs ih =>
    have hx := h x List.mem_cons_self (xs.flatMap write ++ rest)
    have hxs := ih fun y hy => h y (List.mem_cons_of_mem x hy)
    rw [List.flatMap_cons, List.append_assoc, List.length_cons, readList, hx, Option.bind_some, hxs]
    rfl

/-! ### Sequences -/

/-- Read nothing. -/
def readPure (x : α) : Reader α := fun f => some (x, f)

def readFail : Reader α := fun _ => none

/-- Read a value, and what it says is behind it. -/
def readBind (r : Reader α) (k : α → Reader β) : Reader β := fun f => (r f).bind fun p => k p.1 p.2

theorem reads_readPure (x : α) : Reads (readPure x) [] x := fun _ => rfl

theorem Reads.bind {r : Reader α} {k : α → Reader β} {bytes bytes' : List UInt8} {x : α} {y : β}
    (h : Reads r bytes x) (h' : Reads (k x) bytes' y) : Reads (readBind r k) (bytes ++ bytes') y := by
  intro rest
  rw [List.append_assoc, readBind, h, Option.bind_some]
  exact h' rest

/-- The last value of a sequence. -/
theorem Reads.map {r : Reader α} {bytes : List UInt8} {x : α} (h : Reads r bytes x) (g : α → β) :
    Reads (readBind r fun x => readPure (g x)) bytes (g x) := by
  intro rest
  rw [readBind, h, Option.bind_some]
  rfl

/-- Every value that the reader returns has the property. -/
def Yields (r : Reader α) (P : α → Prop) : Prop := ∀ f x rest, r f = some (x, rest) → P x

theorem yields_pure {P : α → Prop} {x : α} (h : P x) : Yields (readPure x) P := by
  intro f y rest hy
  cases hy
  exact h

theorem yields_fail (P : α → Prop) : Yields readFail P := fun _ _ _ h => nomatch h

theorem yields_true (r : Reader α) : Yields r fun _ => True := fun _ _ _ _ => trivial

/-- **A sequence** returns what its last reader returns, after what the others may return. -/
theorem Yields.bind {r : Reader α} {k : α → Reader β} {P : α → Prop} {Q : β → Prop}
    (h : Yields r P) (h' : ∀ x, P x → Yields (k x) Q) : Yields (readBind r k) Q := by
  intro f y rest hy
  obtain ⟨p, hp, hk⟩ := Option.bind_eq_some_iff.mp hy
  exact h' p.1 (h f p.1 p.2 hp) p.2 y rest hk

theorem yields_readList {r : Reader α} {P : α → Prop} (h : Yields r P) (k : ℕ) :
    Yields (readList r k) fun xs => xs.length = k ∧ ∀ x ∈ xs, P x := by
  induction k with
  | zero => exact yields_pure ⟨rfl, fun _ hx => nomatch hx⟩
  | succ k ih =>
    intro f xs rest hxs
    obtain ⟨p, hp, hrest⟩ := Option.bind_eq_some_iff.mp hxs
    obtain ⟨q, hq, heq⟩ := Option.map_eq_some_iff.mp hrest
    cases heq
    obtain ⟨hlen, hall⟩ := ih p.2 q.1 q.2 hq
    exact ⟨congrArg Nat.succ hlen, List.forall_mem_cons.mpr ⟨h f p.1 p.2 hp, hall⟩⟩

/-! ### Readers that do not look ahead -/

/-- Read `n` bytes. -/
def readTake (n : ℕ) : Reader (List UInt8) := fun f =>
  if n ≤ f.length then some (f.take n, f.drop n) else none

theorem reads_readTake (bytes : List UInt8) : Reads (readTake bytes.length) bytes bytes := by
  intro rest
  rw [readTake, if_pos (by simp), List.take_left, List.drop_left]

/-- What follows the bytes that were taken makes no difference. -/
def Local (r : Reader α) : Prop :=
  ∀ f x rest more, r f = some (x, rest) → r (f ++ more) = some (x, rest ++ more)

theorem local_readTake (n : ℕ) : Local (readTake n) := by
  intro f x rest more h
  rw [readTake] at h
  split at h
  · rename_i hle
    cases h
    rw [readTake, if_pos (by rw [List.length_append]; omega), List.take_append_of_le_length hle,
      List.drop_append_of_le_length hle]
  · cases h

theorem local_readWord (w : ℕ) : Local (readWord w) := by
  induction w with
  | zero =>
    intro f x rest more h
    cases h
    rfl
  | succ w ih =>
    intro f x rest more h
    cases f with
    | nil => cases h
    | cons byte f =>
      obtain ⟨r, hr, heq⟩ := Option.map_eq_some_iff.mp h
      cases heq
      show (readWord w (f ++ more)).map _ = _
      rw [ih f r.1 r.2 more hr]
      rfl

theorem local_readPure (x : α) : Local (readPure x) := by
  intro f y rest more h
  cases h
  rfl

theorem Local.bind {r : Reader α} {k : α → Reader β} (h : Local r) (h' : ∀ x, Local (k x)) :
    Local (readBind r k) := by
  intro f y rest more hy
  obtain ⟨p, hp, hk⟩ := Option.bind_eq_some_iff.mp hy
  rw [readBind, h f p.1 p.2 more hp, Option.bind_some]
  exact h' p.1 p.2 y rest more hk

theorem Local.readList {r : Reader α} (h : Local r) (k : ℕ) : Local (readList r k) := by
  induction k with
  | zero => exact local_readPure []
  | succ k ih =>
    intro f xs rest more hxs
    obtain ⟨p, hp, hrest⟩ := Option.bind_eq_some_iff.mp hxs
    obtain ⟨q, hq, heq⟩ := Option.map_eq_some_iff.mp hrest
    cases heq
    rw [Lib.readList, h f p.1 p.2 more hp, Option.bind_some, ih p.2 q.1 q.2 more hq]
    rfl

/-- **A part of what is read is not taken up.** -/
theorem Local.not_take {r : Reader α} (h : Local r) {bytes : List UInt8} {x : α}
    (hreads : r bytes = some (x, [])) {n : ℕ} (hn : n < bytes.length) (y : α) :
    r (bytes.take n) ≠ some (y, []) := by
  intro hy
  have hmore := h _ y [] (bytes.drop n) hy
  rw [List.take_append_drop, hreads] at hmore
  have hnil : bytes.drop n = [] := by simpa using (Prod.mk.inj (Option.some.inj hmore)).2.symm
  have hlen := List.drop_eq_nil_iff.mp hnil
  omega

/-! ### Readers of so many bytes -/

/-- What the reader takes are `n` bytes. -/
def Takes (n : ℕ) (r : Reader α) : Prop :=
  ∀ f x rest, r f = some (x, rest) → n ≤ f.length ∧ rest = f.drop n

theorem takes_readPure (x : α) : Takes 0 (readPure x) := by
  intro f y rest h
  cases h
  exact ⟨Nat.zero_le _, rfl⟩

theorem takes_readWord (w : ℕ) : Takes w (readWord w) := by
  induction w with
  | zero =>
    intro f x rest h
    cases h
    exact ⟨Nat.zero_le _, rfl⟩
  | succ w ih =>
    intro f x rest h
    cases f with
    | nil => cases h
    | cons byte f =>
      obtain ⟨r, hr, heq⟩ := Option.map_eq_some_iff.mp h
      cases heq
      obtain ⟨hle, hrest⟩ := ih f r.1 r.2 hr
      exact ⟨Nat.succ_le_succ hle, hrest⟩

theorem Takes.bind {r : Reader α} {k : α → Reader β} {m n : ℕ} (h : Takes m r)
    (h' : ∀ x, Takes n (k x)) : Takes (m + n) (readBind r k) := by
  intro f y rest hy
  obtain ⟨p, hp, hk⟩ := Option.bind_eq_some_iff.mp hy
  obtain ⟨hm, hdrop⟩ := h f p.1 p.2 hp
  obtain ⟨hn, hrest⟩ := h' p.1 p.2 y rest hk
  rw [hdrop, List.length_drop] at hn
  rw [hrest, hdrop, List.drop_drop]
  exact ⟨by omega, rfl⟩

/-- **Blocks of one size** can be read if there are enough bytes. -/
theorem readList_readTake_iff (size k : ℕ) (f rest : List UInt8) :
    (∃ xs, readList (readTake size) k f = some (xs, rest)) ↔
      k * size ≤ f.length ∧ rest = f.drop (k * size) := by
  induction k generalizing f with
  | zero => simp [readList, eq_comm]
  | succ k ih =>
    rw [Nat.succ_mul, Nat.add_comm (k * size), readList, readTake]
    by_cases hsize : size ≤ f.length
    · rw [if_pos hsize, Option.bind_some, ← List.drop_drop]
      have hlen : k * size ≤ (f.drop size).length ↔ size + k * size ≤ f.length := by
        rw [List.length_drop]
        omega
      rw [← hlen, ← ih]
      simp
    · rw [if_neg hsize]
      refine iff_of_false ?_ fun h => hsize (by omega)
      rintro ⟨xs, hxs⟩
      cases hxs

/-! ### Formats of another library -/

/-- A writer and a reader of one library. -/
structure Format (α β : Type*) where
  write : α → β
  read : β → α
  read_write : ∀ a, read (write a) = a

/-- The value itself. -/
def Format.plain (α : Type*) : Format α α := ⟨id, id, fun _ => rfl⟩

end AwaDB.Lib
