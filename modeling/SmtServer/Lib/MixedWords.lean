import Mathlib.Data.BitVec
import Mathlib.Tactic.LinearCombination

/-!
# Words under arithmetic and under masks

Identities that mix the ring operations of `BitVec` with its bitwise ones. All of them come from
one fact: words without a common bit add up without a carry (`add_disjoint`), so a word is the sum of
its part inside a mask and its part outside (`and_add_and_not`).
-/

namespace Lib
namespace MixedWords

variable {w : Nat} (x y : BitVec w)

theorem add_disjoint {x y : BitVec w} (h : ∀ i : Nat, x.getLsbD i = true → y.getLsbD i = false) :
    x + y = x ||| y := by
  refine BitVec.add_eq_or_of_and_eq_zero x y (BitVec.eq_of_getLsbD_eq fun i _ => ?_)
  cases hx : x.getLsbD i with
  | false => simp [hx]
  | true => simp [h i hx]

theorem and_add_and_not : (x &&& y) + (x &&& ~~~y) = x := by
  rw [add_disjoint]
  · ext i hi
    simp only [BitVec.getElem_or, BitVec.getElem_and, BitVec.getElem_not]
    cases x[i] <;> cases y[i] <;> rfl
  · intro i hi
    rw [BitVec.getLsbD_and, Bool.and_eq_true] at hi
    simp [hi.2]

theorem and_add_and_not' : (x &&& y) + (y &&& ~~~x) = y := by
  rw [BitVec.and_comm x y]
  exact and_add_and_not y x

theorem or_eq_add : x ||| y = x + (y &&& ~~~x) := by
  rw [add_disjoint]
  · ext i hi
    simp only [BitVec.getElem_or, BitVec.getElem_and, BitVec.getElem_not]
    cases x[i] <;> cases y[i] <;> rfl
  · intro i hi
    simp [hi]

theorem xor_eq_add : x ^^^ y = (x &&& ~~~y) + (y &&& ~~~x) := by
  rw [add_disjoint]
  · ext i hi
    simp only [BitVec.getElem_xor, BitVec.getElem_or, BitVec.getElem_and, BitVec.getElem_not]
    cases x[i] <;> cases y[i] <;> rfl
  · intro i hi
    rw [BitVec.getLsbD_and, Bool.and_eq_true] at hi
    simp [hi.1]

theorem or_not_eq : x ||| ~~~y = -(y &&& ~~~x) - 1 := by
  have h : ~~~(y &&& ~~~x) = x ||| ~~~y := by
    rw [BitVec.not_and, BitVec.not_not, BitVec.or_comm]
  have hneg : -(y &&& ~~~x) = ~~~(y &&& ~~~x) + 1 := BitVec.neg_eq_not_add _
  rw [h] at hneg
  linear_combination -hneg

theorem shiftLeft_one : x <<< 1 = 2 * x := by
  have h : BitVec.twoPow w 1 = 2 := by
    refine BitVec.eq_of_toNat_eq ?_
    rw [BitVec.toNat_twoPow]
    rfl
  rw [BitVec.shiftLeft_eq_mul_twoPow, h, mul_comm]

/-- A product, from the bits that its factors share, that either has, and that only one has. -/
theorem mul_eq : (x ||| y) * (x &&& y) + (x &&& ~~~y) * (y &&& ~~~x) = x * y := by
  have hx := and_add_and_not x y
  have hy := and_add_and_not' x y
  rw [or_eq_add]
  linear_combination (y &&& ~~~x) * hx + x * hy

/-- An exclusive or, from a difference and the carries that it must give back. -/
theorem xor_eq : x ^^^ y = x - (2 : BitVec w) - y - ((x ||| ~~~y) <<< 1) := by
  have hx := and_add_and_not x y
  have hy := and_add_and_not' x y
  rw [shiftLeft_one, xor_eq_add, or_not_eq]
  linear_combination hx - hy

/-! ## Single bits -/

variable {x y : BitVec w}

/-- What clearing its lowest bit makes zero has no other bit. -/
theorem isPowerOfTwo_of_and_sub_one (hne : x ≠ 0) (h : x &&& (x - 1) = 0) :
    x.toNat.isPowerOfTwo := by
  have hpos : x.toNat ≠ 0 := fun h0 => hne (BitVec.eq_of_toNat_eq h0)
  have hw : 0 < w := by
    refine Nat.pos_of_ne_zero fun hw => ?_
    subst hw
    exact hne (BitVec.of_length_zero)
  have hone : (1 : BitVec w).toNat = 1 := BitVec.toNat_one hw
  have hsub : (x - 1).toNat = x.toNat - 1 := by
    rw [BitVec.toNat_sub_of_le, hone]
    rw [BitVec.le_def, hone]
    omega
  refine Nat.ne_zero_and_sub_one_eq_zero_iff_isPowerOfTwo.mp ⟨hpos, ?_⟩
  rw [← hsub, ← BitVec.toNat_and, h]
  rfl

theorem not_isPowerOfTwo_add_of_lt {i j : Nat} (h : i < j) : ¬(2 ^ i + 2 ^ j).isPowerOfTwo := by
  rintro ⟨k, hk⟩
  have hi : 2 ^ i < 2 ^ j := Nat.pow_lt_pow_right (by decide) h
  have hjk : j < k := (Nat.pow_lt_pow_iff_right (by decide : 1 < 2)).mp
    (hk ▸ Nat.lt_add_of_pos_left (Nat.two_pow_pos i))
  have hkj : k < j + 1 := (Nat.pow_lt_pow_iff_right (by decide : 1 < 2)).mp
    (by rw [← hk, Nat.pow_succ]; omega)
  omega

/-- Two different single bits do not add up to a single bit: neither to another one, nor, at the top
of the word, by wrapping around. -/
theorem not_isPowerOfTwo_add (hx : x.toNat.isPowerOfTwo) (hy : y.toNat.isPowerOfTwo) (hne : x ≠ y) :
    ¬(x + y).toNat.isPowerOfTwo := by
  obtain ⟨i, hi⟩ := hx
  obtain ⟨j, hj⟩ := hy
  have hij : i ≠ j := fun h => hne (BitVec.eq_of_toNat_eq (by rw [hi, hj, h]))
  have hxlt := x.isLt
  have hylt := y.isLt
  rw [hi] at hxlt
  rw [hj] at hylt
  have hxw := (Nat.pow_lt_pow_iff_right (by decide : 1 < 2)).mp hxlt
  have hyw := (Nat.pow_lt_pow_iff_right (by decide : 1 < 2)).mp hylt
  have hsum : 2 ^ i + 2 ^ j < 2 ^ w := by
    have hi' : 2 ^ (i + 1) ≤ 2 ^ w := Nat.pow_le_pow_right (by decide) hxw
    have hj' : 2 ^ (j + 1) ≤ 2 ^ w := Nat.pow_le_pow_right (by decide) hyw
    rw [Nat.pow_succ] at hi' hj'
    rcases Nat.lt_or_gt_of_ne hij with h | h
    · have := Nat.pow_lt_pow_right (by decide : 1 < 2) h
      omega
    · have := Nat.pow_lt_pow_right (by decide : 1 < 2) h
      omega
  rw [BitVec.toNat_add_of_lt (by rwa [hi, hj]), hi, hj]
  rcases Nat.lt_or_gt_of_ne hij with h | h
  · exact not_isPowerOfTwo_add_of_lt h
  · rw [Nat.add_comm]
    exact not_isPowerOfTwo_add_of_lt h

/-! ## Sums with a written carry -/

/-- A word whose bits are those of a full adder, over carries that start with nothing and are passed
on from bit to bit. -/
theorem eq_add_of_carries {x y z : BitVec w} {c : Nat → Bool} (h0 : c 0 = false)
    (hsucc : ∀ i, i + 1 < w → c (i + 1) = Bool.atLeastTwo (x.getLsbD i) (y.getLsbD i) (c i))
    (hsum : ∀ i < w, z.getLsbD i = (x.getLsbD i ^^ (y.getLsbD i ^^ c i))) : z = x + y := by
  have hcarry : ∀ i < w, c i = BitVec.carry i x y false := by
    intro i
    induction i with
    | zero => exact fun _ => h0.trans (BitVec.carry_zero).symm
    | succ i ih => exact fun hi => by rw [hsucc i hi, ih (by omega), BitVec.carry_succ]
  refine BitVec.eq_of_getLsbD_eq fun i hi => ?_
  rw [hsum i hi, hcarry i hi, BitVec.getLsbD_add hi]

end MixedWords
end Lib
