import Mathlib.Data.Nat.Digits.Lemmas
import Mathlib.Data.List.GetD

/-!
# Little-endian byte strings as numbers

`leNat bytes` is the number a byte string spells with its least significant byte first. Its
bits are the bits of the bytes (`testBit_leNat`), a string is determined by its length and
its number (`leNat_inj`), and a number below `256 ^ len` has exactly one spelling of length
`len` (`leBytes`). Everything that works byte by byte or bit by bit is specified through
these three.
-/

namespace Lib

/-- The number a byte string spells, least significant byte first. -/
def leNat (bytes : List UInt8) : Nat := Nat.ofDigits 256 (bytes.map UInt8.toNat)

@[simp] theorem leNat_nil : leNat [] = 0 := rfl

@[simp] theorem leNat_cons (b : UInt8) (bs : List UInt8) :
    leNat (b :: bs) = b.toNat + 256 * leNat bs := by
  simp [leNat, Nat.ofDigits_cons]

theorem leNat_append (xs ys : List UInt8) :
    leNat (xs ++ ys) = leNat xs + 256 ^ xs.length * leNat ys := by
  simp [leNat, Nat.ofDigits_append]

@[simp] theorem leNat_replicate_zero (n : Nat) : leNat (List.replicate n 0) = 0 := by
  simp [leNat]

theorem leNat_lt (bytes : List UInt8) : leNat bytes < 256 ^ bytes.length := by
  have h := Nat.ofDigits_lt_base_pow_length (b := 256) (l := bytes.map UInt8.toNat) (by decide)
    (by
      intro x hx
      obtain ⟨b, -, rfl⟩ := List.mem_map.mp hx
      exact b.toNat_lt)
  simpa [leNat] using h

/-- The first bytes are the number modulo what they can hold. -/
theorem leNat_take (bytes : List UInt8) (n : Nat) :
    leNat (bytes.take n) = leNat bytes % 256 ^ n := by
  by_cases h : n ≤ bytes.length
  · have hlt := leNat_lt (bytes.take n)
    rw [List.length_take, Nat.min_eq_left h] at hlt
    conv_rhs => rw [← List.take_append_drop n bytes, leNat_append, List.length_take,
      Nat.min_eq_left h, Nat.add_mul_mod_self_left, Nat.mod_eq_of_lt hlt]
  · have hle : bytes.length ≤ n := by omega
    have hlt := lt_of_lt_of_le (leNat_lt bytes) (Nat.pow_le_pow_right (by decide) hle)
    rw [List.take_of_length_le hle, Nat.mod_eq_of_lt hlt]

/-- Replacing the byte at `k` changes the number by that byte's weight. -/
theorem leNat_set {bytes : List UInt8} {k : Nat} {byte : UInt8} (h : bytes[k]? = some byte)
    (b : UInt8) :
    leNat (bytes.set k b) + 256 ^ k * byte.toNat = leNat bytes + 256 ^ k * b.toNat := by
  induction bytes generalizing k with
  | nil => simp at h
  | cons x xs ih =>
    cases k with
    | zero =>
      obtain rfl : x = byte := by simpa using h
      simp only [List.set_cons_zero, leNat_cons]
      omega
    | succ k =>
      have ih := ih (k := k) (by simpa using h)
      simp only [List.set_cons_succ, leNat_cons, Nat.pow_succ, Nat.mul_comm (256 ^ k) 256,
        Nat.mul_assoc]
      omega

/-- Two strings of one length that spell one number are equal. -/
theorem leNat_inj {xs ys : List UInt8} (hl : xs.length = ys.length) (h : leNat xs = leNat ys) :
    xs = ys := by
  induction xs generalizing ys with
  | nil => exact (List.length_eq_zero_iff.mp hl.symm).symm
  | cons x xs ih =>
    cases ys with
    | nil => exact absurd hl (by simp)
    | cons y ys =>
      simp only [leNat_cons] at h
      have hx := x.toNat_lt
      have hy := y.toNat_lt
      have h1 : x.toNat = y.toNat := by omega
      have h2 : leNat xs = leNat ys := by omega
      rw [UInt8.toNat_inj.mp h1, ih (by simpa using hl) h2]

/-- A string spells zero exactly when all its bytes are zero. -/
theorem leNat_eq_zero {bytes : List UInt8} : leNat bytes = 0 ↔ ∀ b ∈ bytes, b = 0 := by
  constructor
  · intro h
    have : bytes = List.replicate bytes.length 0 := leNat_inj (by simp) (by simp [h])
    intro b hb
    rw [this] at hb
    exact List.eq_of_mem_replicate hb
  · intro h
    rw [List.eq_replicate_of_mem h, leNat_replicate_zero]

/-- The bits of the number are the bits of the bytes. -/
theorem testBit_leNat (bytes : List UInt8) (i : Nat) :
    (leNat bytes).testBit i = (bytes.getD (i / 8) 0).toNat.testBit (i % 8) := by
  induction bytes generalizing i with
  | nil => simp
  | cons b bs ih =>
    have hb : b.toNat < 2 ^ 8 := b.toNat_lt
    rw [leNat_cons, Nat.add_comm, show (256 : Nat) = 2 ^ 8 from rfl,
      Nat.testBit_two_pow_mul_add _ hb]
    by_cases hi : i < 8
    · rw [if_pos hi, Nat.div_eq_of_lt hi, Nat.mod_eq_of_lt hi]
      rfl
    · rw [if_neg hi, ih, show i / 8 = (i - 8) / 8 + 1 by omega,
        show i % 8 = (i - 8) % 8 by omega]
      rfl

theorem testBit_leNat_of_le {bytes : List UInt8} {i : Nat} (h : 8 * bytes.length ≤ i) :
    (leNat bytes).testBit i = false := by
  rw [testBit_leNat, List.getD_eq_default _ _ (by omega)]
  simp

/-- Clearing the high bits of the last byte is reduction modulo a power of two. -/
theorem leNat_mask_last {bytes : List UInt8} {r : Nat} (hne : bytes ≠ []) (hr : r < 8) :
    leNat (bytes.modify (bytes.length - 1) (· &&& UInt8.ofNat (2 ^ r - 1))) =
      leNat bytes % 2 ^ (8 * (bytes.length - 1) + r) := by
  obtain ⟨front, last, rfl⟩ : ∃ front last, bytes = front ++ [last] := by
    rcases List.eq_nil_or_concat bytes with rfl | ⟨front, last, rfl⟩
    · exact absurd rfl hne
    · exact ⟨front, last, List.concat_eq_append⟩
  have hmask : (UInt8.ofNat (2 ^ r - 1)).toNat = 2 ^ r - 1 := by
    have key : ∀ r : Fin 8, (UInt8.ofNat (2 ^ r.val - 1)).toNat = 2 ^ r.val - 1 := by decide
    exact key ⟨r, hr⟩
  have hfront := leNat_lt front
  rw [List.length_append, List.length_singleton, Nat.add_sub_cancel,
    List.modify_eq_take_cons_drop (by simp)]
  simp only [List.take_left, List.getElem_concat_length, leNat_append, leNat_cons, leNat_nil,
    Nat.mul_zero, Nat.add_zero, UInt8.toNat_and, hmask, Nat.and_two_pow_sub_one_eq_mod,
    List.drop_eq_nil_of_le (show (front ++ [last]).length ≤ front.length + 1 by simp)]
  rw [show (2 : Nat) ^ (8 * front.length + r) = 256 ^ front.length * 2 ^ r by
    rw [show (256 : Nat) = 2 ^ 8 from rfl, ← Nat.pow_mul, ← Nat.pow_add]]
  rw [Nat.mod_mul, Nat.add_mul_mod_self_left, Nat.mod_eq_of_lt hfront,
    Nat.add_mul_div_left _ _ (Nat.pow_pos (by decide)), Nat.div_eq_of_lt hfront, Nat.zero_add]

/-- A string of whole bytes is below the power of two of its bits. -/
theorem leNat_lt_two_pow (bytes : List UInt8) : leNat bytes < 2 ^ (8 * bytes.length) := by
  have h := leNat_lt bytes
  rwa [show (256 : Nat) = 2 ^ 8 from rfl, ← Nat.pow_mul] at h

/-- The `len` low bytes of a number. -/
def leBytes : (len n : Nat) → List UInt8
  | 0, _ => []
  | len + 1, n => UInt8.ofNat (n % 256) :: leBytes len (n / 256)

@[simp] theorem length_leBytes (len n : Nat) : (leBytes len n).length = len := by
  induction len generalizing n with
  | zero => rfl
  | succ len ih => simp [leBytes, ih]

theorem leNat_leBytes (len n : Nat) : leNat (leBytes len n) = n % 256 ^ len := by
  induction len generalizing n with
  | zero => simp [leBytes, Nat.mod_one]
  | succ len ih =>
    rw [leBytes, leNat_cons, ih, Nat.pow_succ, Nat.mul_comm (256 ^ len) 256, Nat.mod_mul,
      UInt8.toNat_ofNat', Nat.mod_eq_of_lt (Nat.mod_lt _ (by decide))]

theorem leBytes_leNat (bytes : List UInt8) : leBytes bytes.length (leNat bytes) = bytes := by
  refine leNat_inj (by simp) ?_
  rw [leNat_leBytes, Nat.mod_eq_of_lt (leNat_lt bytes)]

end Lib
