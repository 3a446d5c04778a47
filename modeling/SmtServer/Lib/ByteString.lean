import Mathlib.Tactic.Ring
import SmtServer.Lib.LittleEndian

/-!
# Where a byte string stands inside another

A codec has two directions and one fact: *these bytes stand at this offset*. `Stands b off s`
is that fact. A reader returns a value exactly when the spelling of the value stands at the
offset it was given, a writer appends that spelling, and a sequence of fields stands at an
offset exactly when each field stands where the one before it ends (`stands_append`). Round
trips in both directions are then the two halves of one equivalence.

Text is UTF-8: `utf8` spells a string and `utf8?` is its partial inverse.
-/

namespace Lib

/-- The bytes `s` stand in `b` from offset `off` on. -/
def Stands (b : List UInt8) (off : Nat) (s : List UInt8) : Prop :=
  off + s.length ≤ b.length ∧ (b.drop off).take s.length = s

variable {b s t : List UInt8} {off : Nat}

@[simp] theorem stands_nil : Stands b off [] ↔ off ≤ b.length := by
  simp [Stands]

/-- Fields stand one after the other. -/
theorem stands_append : Stands b off (s ++ t) ↔ Stands b off s ∧ Stands b (off + s.length) t := by
  have hsplit : ((b.drop off).take (s.length + t.length)) =
      (b.drop off).take s.length ++ ((b.drop (off + s.length)).take t.length) := by
    rw [List.take_add, List.drop_drop]
  simp only [Stands, List.length_append]
  constructor
  · rintro ⟨hl, he⟩
    rw [hsplit] at he
    have hlen : ((b.drop off).take s.length).length = s.length := by simp; omega
    obtain ⟨h1, h2⟩ := List.append_inj he hlen
    exact ⟨⟨by omega, h1⟩, by omega, h2⟩
  · rintro ⟨⟨_, h1⟩, hl, h2⟩
    exact ⟨by omega, by rw [hsplit, h1, h2]⟩

theorem Stands.le_length (h : Stands b off s) : off + s.length ≤ b.length := h.1

/-- Two strings of one length standing at one offset are the same string. -/
theorem Stands.unique (h₁ : Stands b off s) (h₂ : Stands b off t) (hl : s.length = t.length) :
    s = t := by
  rw [← h₁.2, ← h₂.2, hl]

/-- What stands at the start and is as long as the whole is the whole. -/
theorem stands_zero_and_length : Stands b 0 s ∧ b.length = s.length ↔ b = s := by
  constructor
  · rintro ⟨⟨_, he⟩, hl⟩
    rwa [List.drop_zero, ← hl, List.take_length] at he
  · rintro rfl
    exact ⟨⟨by simp, by simp⟩, rfl⟩

theorem stands_self : Stands s 0 s := (stands_zero_and_length.mpr rfl).1

/-- The bytes between two offsets stand at the first. -/
theorem stands_take_drop {len : Nat} (h : off + len ≤ b.length) :
    Stands b off ((b.drop off).take len) := by
  have hlen : ((b.drop off).take len).length = len := by simp; omega
  exact ⟨by omega, by rw [hlen]⟩

theorem Stands.of_append_left {p : List UInt8} (h : Stands b off s) :
    Stands (p ++ b) (p.length + off) s := by
  refine ⟨by simp only [List.length_append]; have := h.1; omega, ?_⟩
  rw [List.drop_append, List.drop_eq_nil_of_le (by omega), List.nil_append,
    show p.length + off - p.length = off by omega]
  exact h.2

/-! ## Words -/

/-- A number below `256 ^ len` is read from the string that spells it and from no other. -/
theorem leNat_eq_iff {len n : Nat} (hs : s.length = len) (hn : n < 256 ^ len) :
    leNat s = n ↔ s = leBytes len n := by
  constructor
  · rintro rfl
    rw [← hs, leBytes_leNat]
  · rintro rfl
    rw [leNat_leBytes, Nat.mod_eq_of_lt hn]

/-- `to_le_bytes`. -/
def u16Bytes (v : UInt16) : List UInt8 := leBytes 2 v.toNat
def u32Bytes (v : UInt32) : List UInt8 := leBytes 4 v.toNat
def u64Bytes (v : UInt64) : List UInt8 := leBytes 8 v.toNat

@[simp] theorem length_u16Bytes (v : UInt16) : (u16Bytes v).length = 2 := length_leBytes _ _
@[simp] theorem length_u32Bytes (v : UInt32) : (u32Bytes v).length = 4 := length_leBytes _ _
@[simp] theorem length_u64Bytes (v : UInt64) : (u64Bytes v).length = 8 := length_leBytes _ _

theorem ofNat_leNat_u16 {v : UInt16} (hs : s.length = 2) :
    UInt16.ofNat (leNat s) = v ↔ s = u16Bytes v := by
  have hlt := leNat_lt s
  rw [u16Bytes, ← leNat_eq_iff hs v.toNat_lt, ← UInt16.toNat_inj, UInt16.toNat_ofNat',
    Nat.mod_eq_of_lt (by rw [hs] at hlt; exact hlt)]

theorem ofNat_leNat_u32 {v : UInt32} (hs : s.length = 4) :
    UInt32.ofNat (leNat s) = v ↔ s = u32Bytes v := by
  have hlt := leNat_lt s
  rw [u32Bytes, ← leNat_eq_iff hs v.toNat_lt, ← UInt32.toNat_inj, UInt32.toNat_ofNat',
    Nat.mod_eq_of_lt (by rw [hs] at hlt; exact hlt)]

theorem ofNat_leNat_u64 {v : UInt64} (hs : s.length = 8) :
    UInt64.ofNat (leNat s) = v ↔ s = u64Bytes v := by
  have hlt := leNat_lt s
  rw [u64Bytes, ← leNat_eq_iff hs v.toNat_lt, ← UInt64.toNat_inj, UInt64.toNat_ofNat',
    Nat.mod_eq_of_lt (by rw [hs] at hlt; exact hlt)]

/-- The words at an offset; zero bytes stand in for the ones that are not there. -/
def u8At (b : List UInt8) (off : Nat) : UInt8 := b.getD off 0
def u16At (b : List UInt8) (off : Nat) : UInt16 := UInt16.ofNat (leNat ((b.drop off).take 2))
def u32At (b : List UInt8) (off : Nat) : UInt32 := UInt32.ofNat (leNat ((b.drop off).take 4))
def u64At (b : List UInt8) (off : Nat) : UInt64 := UInt64.ofNat (leNat ((b.drop off).take 8))

theorem stands_u8At (h : off + 1 ≤ b.length) : Stands b off [u8At b off] := by
  refine ⟨h, ?_⟩
  rw [u8At, List.getD_eq_getElem _ _ (by omega)]
  exact List.take_one_drop_eq_of_lt_length h

theorem stands_u16At (h : off + 2 ≤ b.length) : Stands b off (u16Bytes (u16At b off)) := by
  have hlen : ((b.drop off).take 2).length = 2 := by simp; omega
  exact (ofNat_leNat_u16 hlen).mp rfl ▸ stands_take_drop h

theorem stands_u32At (h : off + 4 ≤ b.length) : Stands b off (u32Bytes (u32At b off)) := by
  have hlen : ((b.drop off).take 4).length = 4 := by simp; omega
  exact (ofNat_leNat_u32 hlen).mp rfl ▸ stands_take_drop h

theorem stands_u64At (h : off + 8 ≤ b.length) : Stands b off (u64Bytes (u64At b off)) := by
  have hlen : ((b.drop off).take 8).length = 8 := by simp; omega
  exact (ofNat_leNat_u64 hlen).mp rfl ▸ stands_take_drop h

theorem Stands.u8At_eq {v : UInt8} (h : Stands b off [v]) : u8At b off = v := by
  simpa using (stands_u8At h.1).unique h rfl

theorem Stands.u16At_eq {v : UInt16} (h : Stands b off (u16Bytes v)) : u16At b off = v := by
  have hlen : ((b.drop off).take 2).length = 2 := by have := h.1; simp at this ⊢; omega
  exact (ofNat_leNat_u16 hlen).mpr (by simpa using h.2)

theorem Stands.u32At_eq {v : UInt32} (h : Stands b off (u32Bytes v)) : u32At b off = v := by
  have hlen : ((b.drop off).take 4).length = 4 := by have := h.1; simp at this ⊢; omega
  exact (ofNat_leNat_u32 hlen).mpr (by simpa using h.2)

theorem Stands.u64At_eq {v : UInt64} (h : Stands b off (u64Bytes v)) : u64At b off = v := by
  have hlen : ((b.drop off).take 8).length = 8 := by have := h.1; simp at this ⊢; omega
  exact (ofNat_leNat_u64 hlen).mpr (by simpa using h.2)

/-- The entries of an array of equal-sized records stand at multiples of the size. -/
theorem Stands.flatMap_getElem {α : Type} {f : α → List UInt8} {size : Nat}
    (hsize : ∀ x, (f x).length = size) {xs : List α} (h : Stands b off (xs.flatMap f)) {i : Nat}
    (hi : i < xs.length) : Stands b (off + size * i) (f xs[i]) := by
  induction xs generalizing off i with
  | nil => simp at hi
  | cons x xs ih =>
    rw [List.flatMap_cons, stands_append, hsize] at h
    cases i with
    | zero => exact h.1
    | succ i =>
      have := ih h.2 (Nat.lt_of_succ_lt_succ hi)
      rwa [show off + size + size * i = off + size * (i + 1) by ring] at this

/-- An array of equal-sized records stands where each of its entries does. -/
theorem stands_flatMap {α : Type} {f : α → List UInt8} {size : Nat}
    (hsize : ∀ x, (f x).length = size) {xs : List α} (hle : off + size * xs.length ≤ b.length)
    (h : ∀ i, (hi : i < xs.length) → Stands b (off + size * i) (f xs[i])) :
    Stands b off (xs.flatMap f) := by
  induction xs generalizing off with
  | nil => exact stands_nil.mpr (by omega)
  | cons x xs ih =>
    rw [List.flatMap_cons, stands_append, hsize]
    have hlen : off + size + size * xs.length = off + size * (x :: xs).length := by
      rw [List.length_cons]
      ring
    refine ⟨h 0 (by simp), ih (hlen ▸ hle) fun i hi => ?_⟩
    have hnext := h (i + 1) (by simpa using hi)
    rwa [show off + size * (i + 1) = off + size + size * i by ring] at hnext

theorem length_flatMap_const {α β : Type} {f : α → List β} {size : Nat}
    (hsize : ∀ x, (f x).length = size) (xs : List α) :
    (xs.flatMap f).length = size * xs.length := by
  induction xs with
  | nil => simp
  | cons x xs ih =>
    rw [List.flatMap_cons, List.length_append, ih, hsize, List.length_cons]
    ring

/-! ## Text -/

/-- The bytes of a string. -/
def utf8 (s : String) : List UInt8 := s.toByteArray.data.toList

/-- The string some bytes spell. -/
def utf8? (bytes : List UInt8) : Option String := String.fromUTF8? bytes.toByteArray

theorem utf8?_eq_some {bytes : List UInt8} {s : String} : utf8? bytes = some s ↔ bytes = utf8 s := by
  have hback : (utf8 s).toByteArray = s.toByteArray := by
    simp [utf8, ByteArray.ext_iff]
  unfold utf8? String.fromUTF8?
  constructor
  · intro h
    split at h
    · obtain rfl := Option.some.inj h
      simp [utf8, String.fromUTF8]
    · cases h
  · rintro rfl
    rw [dif_pos (by rw [hback]; exact s.isValidUTF8)]
    exact congrArg some (String.toByteArray_inj.mp hback)

theorem utf8_append (s t : String) : utf8 (s ++ t) = utf8 s ++ utf8 t := by
  simp [utf8, String.toByteArray_append]

theorem utf8_injective {s t : String} (h : utf8 s = utf8 t) : s = t :=
  Option.some.inj ((utf8?_eq_some.mpr rfl).symm.trans (utf8?_eq_some.mpr h))

end Lib
