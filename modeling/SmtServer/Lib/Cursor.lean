import SmtServer.Lib.Outcome
import SmtServer.Lib.ByteString

/-!
# Codecs behind a cursor

A cursor decoder takes a byte string and an offset and returns a value with the offset behind
it. It **inverts** an encoder when it returns a value exactly if the encoding of the value
stands at the offset (and the offset behind it still fits a machine word: cursors are machine
words). The statement has both directions of a round trip in it, and it is closed under
repetition: the loop that decodes a counted list inverts the loop that encodes one.
-/

namespace Lib
namespace Cursor

open Outcome

variable {ε α : Type}

/-- Run a step `n` times, collecting the values. -/
def many (read : Nat → Outcome ε (α × Nat)) : (n off : Nat) → Outcome ε (List α × Nat)
  | 0, off => ok ([], off)
  | n + 1, off => do
    let (x, off) ← read off
    let (xs, off) ← many read n off
    pure (x :: xs, off)

/-- The encodings one after the other, or the first error. -/
def encodeAll (enc : α → Outcome ε (List UInt8)) : List α → Outcome ε (List UInt8)
  | [] => pure []
  | x :: xs => do
    let head ← enc x
    let tail ← encodeAll enc xs
    pure (head ++ tail)

/-- The decoder reads what the encoder writes and nothing else, up to offset `bound`. -/
def Inverts (bound : Nat) (enc : α → Outcome ε (List UInt8))
    (dec : List UInt8 → Nat → Outcome ε (α × Nat)) : Prop :=
  ∀ b off x off', dec b off = ok (x, off') ↔
    ∃ s, enc x = ok s ∧ Stands b off s ∧ off' = off + s.length ∧ off' < bound

theorem many_succ_eq_ok {read : Nat → Outcome ε (α × Nat)} {n off off' : Nat} {xs : List α} :
    many read (n + 1) off = ok (xs, off') ↔ ∃ x mid ys, read off = ok (x, mid) ∧
      many read n mid = ok (ys, off') ∧ xs = x :: ys := by
  simp only [many, bind_eq_ok, pure_eq, Outcome.ok.injEq, Prod.mk.injEq, Prod.exists]
  constructor
  · rintro ⟨x, mid, hr, ys, _, hm, rfl, rfl⟩
    exact ⟨x, mid, ys, hr, hm, rfl⟩
  · rintro ⟨x, mid, ys, hr, hm, rfl⟩
    exact ⟨x, mid, hr, ys, off', hm, rfl, rfl⟩

theorem encodeAll_cons_eq_ok {enc : α → Outcome ε (List UInt8)} {x : α} {xs : List α}
    {s : List UInt8} : encodeAll enc (x :: xs) = ok s ↔
      ∃ h t, enc x = ok h ∧ encodeAll enc xs = ok t ∧ s = h ++ t := by
  simp only [encodeAll, bind_eq_ok, pure_eq, Outcome.ok.injEq]
  constructor
  · rintro ⟨h, hh, t, ht, rfl⟩
    exact ⟨h, t, hh, ht, rfl⟩
  · rintro ⟨h, t, hh, ht, rfl⟩
    exact ⟨h, hh, t, ht, rfl⟩

/-- An encoder that cannot fail. -/
theorem encodeAll_ok (f : α → List UInt8) (xs : List α) :
    encodeAll (fun x => (ok (f x) : Outcome ε (List UInt8))) xs = ok (xs.flatMap f) := by
  induction xs with
  | nil => rfl
  | cons x xs ih => simp [encodeAll, ih]

/-- Bounds on the length of the entries bound the length of the list. -/
theorem length_encodeAll_mem {enc : α → Outcome ε (List UInt8)} {lo hi : Nat} {xs : List α}
    {s : List UInt8} (h : encodeAll enc xs = ok s)
    (hlen : ∀ x ∈ xs, ∀ t, enc x = ok t → lo ≤ t.length ∧ t.length ≤ hi) :
    lo * xs.length ≤ s.length ∧ s.length ≤ hi * xs.length := by
  induction xs generalizing s with
  | nil =>
    obtain rfl := Outcome.ok.inj h
    simp
  | cons x xs ih =>
    obtain ⟨a, t, ha, ht, rfl⟩ := encodeAll_cons_eq_ok.mp h
    obtain ⟨h1, h2⟩ := hlen x (by simp) a ha
    obtain ⟨h3, h4⟩ := ih ht fun y hy => hlen y (by simp [hy])
    simp only [List.length_cons, List.length_append, Nat.mul_succ]
    omega

variable {bound : Nat} {enc : α → Outcome ε (List UInt8)}
  {dec : List UInt8 → Nat → Outcome ε (α × Nat)}

/-- **Repetition keeps inversion.** -/
theorem Inverts.many (h : Inverts bound enc dec) {b : List UInt8} {n off off' : Nat}
    {xs : List α} (hoff : off ≤ b.length) (hb : off < bound) :
    many (dec b) n off = ok (xs, off') ↔ xs.length = n ∧
      ∃ s, encodeAll enc xs = ok s ∧ Stands b off s ∧ off' = off + s.length ∧ off' < bound := by
  induction n generalizing off xs with
  | zero =>
    simp only [Cursor.many, Outcome.ok.injEq, Prod.mk.injEq, List.length_eq_zero_iff]
    constructor
    · rintro ⟨rfl, rfl⟩
      exact ⟨rfl, [], rfl, by simpa using hoff, rfl, hb⟩
    · rintro ⟨rfl, s, hs, -, rfl, -⟩
      obtain rfl := Outcome.ok.inj hs
      exact ⟨rfl, rfl⟩
  | succ n ih =>
    rw [many_succ_eq_ok]
    constructor
    · rintro ⟨x, mid, ys, hr, hm, rfl⟩
      obtain ⟨t, ht, hst, rfl, hmid⟩ := (h _ _ _ _).mp hr
      obtain ⟨rfl, u, hu, hsu, rfl, hlt⟩ := (ih hst.le_length hmid).mp hm
      refine ⟨rfl, t ++ u, encodeAll_cons_eq_ok.mpr ⟨t, u, ht, hu, rfl⟩, ?_, ?_, hlt⟩
      · exact stands_append.mpr ⟨hst, hsu⟩
      · simp [Nat.add_assoc]
    · rintro ⟨hl, s, hs, hst, rfl, hlt⟩
      cases xs with
      | nil => simp at hl
      | cons x xs =>
        obtain ⟨t, u, ht, hu, rfl⟩ := encodeAll_cons_eq_ok.mp hs
        rw [List.length_append] at hlt
        obtain ⟨hst, hsu⟩ := stands_append.mp hst
        have hmid : off + t.length < bound := by omega
        refine ⟨x, off + t.length, xs, (h _ _ _ _).mpr ⟨t, ht, hst, rfl, hmid⟩, ?_, rfl⟩
        refine (ih hst.le_length hmid).mpr ⟨by simpa using hl, u, hu, hsu, ?_, ?_⟩
        · simp [Nat.add_assoc]
        · simpa [Nat.add_assoc] using hlt

theorem safe_many {read : Nat → Outcome ε (α × Nat)} {n off : Nat}
    (hread : ∀ off, Safe (read off)) : Safe (Cursor.many read n off) := by
  induction n generalizing off with
  | zero => exact safe_ok _
  | succ n ih => exact (hread off).bind fun _ _ => ih.bind fun _ _ => safe_ok _

end Cursor
end Lib
