import Mathlib.Data.BitVec
import Mathlib.Tactic.Linarith
import SmtServer.Lib.Smt

/-!
# Overflow

An operation on two vectors overflows where the **exact** integer result has no vector of that
width: the unsigned operations where it is not in `[0, 2 ^ w)`, the signed ones where it is not in
`[-2 ^ (w - 1), 2 ^ (w - 1))`. Signed division overflows in one case, the least number divided by
minus one.

Below the definition stand the tests solvers use instead of exact integers: sign bits for sums and
differences, a product of twice the width for products.
-/

namespace Lib

inductive Overflow where
  | uadd | usub | umul | sadd | ssub | smul | neg | sdiv
  deriving Repr, DecidableEq

namespace Overflow

open Smt (Value)

/-- An integer that a vector of width `w` represents without a sign. -/
abbrev Unsigned (w : Nat) (n : Int) : Prop := 0 ≤ n ∧ n < 2 ^ w

/-- An integer that a vector of width `w` represents in two's complement. -/
abbrev Signed (w : Nat) (n : Int) : Prop := -2 ^ (w - 1) ≤ n ∧ n < 2 ^ (w - 1)

variable {w : Nat} {x y : BitVec w}

/-- The exact result cannot be represented; `neg` has one operand and ignores the second. -/
def Happens (x y : BitVec w) : Overflow → Prop
  | uadd => ¬ Unsigned w (x.toNat + y.toNat)
  | usub => ¬ Unsigned w (x.toNat - y.toNat)
  | umul => ¬ Unsigned w (x.toNat * y.toNat)
  | sadd => ¬ Signed w (x.toInt + y.toInt)
  | ssub => ¬ Signed w (x.toInt - y.toInt)
  | smul => ¬ Signed w (x.toInt * y.toInt)
  | neg => ¬ Signed w (-x.toInt)
  | sdiv => x.toInt = -2 ^ (w - 1) ∧ y.toInt = -1

instance (op : Overflow) : Decidable (op.Happens x y) := by
  cases op <;> unfold Happens <;> infer_instance

/-- The predicates of the theory. -/
def test (x y : BitVec w) : Overflow → Bool
  | uadd => x.uaddOverflow y
  | usub => x.usubOverflow y
  | umul => x.umulOverflow y
  | sadd => x.saddOverflow y
  | ssub => x.ssubOverflow y
  | smul => x.smulOverflow y
  | neg => x.negOverflow
  | sdiv => x.sdivOverflow y

theorem toInt_eq_neg_two_pow (hw : 0 < w) : x.toInt = -2 ^ (w - 1) ↔ x = BitVec.intMin w := by
  have := BitVec.toInt_intMin_of_pos hw
  rw [← BitVec.toInt_inj, this]

theorem toInt_eq_neg_one (hw : 0 < w) : y.toInt = -1 ↔ y = BitVec.allOnes w := by
  rw [← BitVec.toInt_inj, BitVec.toInt_allOnes, if_pos hw]

theorem test_eq (op : Overflow) (hw : 0 < w) : op.test x y = decide (op.Happens x y) := by
  rw [Bool.eq_iff_iff, decide_eq_true_eq]
  have hpow : ((2 ^ w : Nat) : Int) = 2 ^ w := by norm_cast
  have hx := x.isLt
  cases op with
  | uadd =>
    simp only [test, Happens, BitVec.uaddOverflow, decide_eq_true_eq]
    omega
  | usub =>
    simp only [test, Happens, BitVec.usubOverflow, decide_eq_true_eq]
    omega
  | umul =>
    simp only [test, Happens, BitVec.umulOverflow, decide_eq_true_eq]
    have hmul : ((x.toNat * y.toNat : Nat) : Int) = x.toNat * y.toNat := by norm_cast
    rw [← hmul]
    omega
  | sadd =>
    simp only [test, Happens, BitVec.saddOverflow, Bool.or_eq_true, decide_eq_true_eq]
    omega
  | ssub =>
    simp only [test, Happens, BitVec.ssubOverflow, Bool.or_eq_true, decide_eq_true_eq]
    omega
  | smul =>
    simp only [test, Happens, BitVec.smulOverflow, Bool.or_eq_true, decide_eq_true_eq]
    omega
  | neg =>
    simp only [test, Happens, BitVec.negOverflow, beq_iff_eq]
    have hle := BitVec.le_toInt x
    have hlt := BitVec.toInt_lt (x := x)
    omega
  | sdiv =>
    simp only [test, Happens, BitVec.sdivOverflow_eq, Bool.and_eq_true, decide_eq_true_eq,
      toInt_eq_neg_two_pow hw, toInt_eq_neg_one hw]
    tauto

/-! ## Tests without exact integers -/

theorem ult_sum : (x + y).ult x = x.uaddOverflow y := by
  have hx := x.isLt
  have hy := y.isLt
  rw [Bool.eq_iff_iff]
  simp only [BitVec.ult, BitVec.uaddOverflow, decide_eq_true_eq, BitVec.toNat_add]
  rcases Nat.lt_or_ge (x.toNat + y.toNat) (2 ^ w) with h | h
  · rw [Nat.mod_eq_of_lt h]
    omega
  · rw [Nat.mod_eq_sub_mod h, Nat.mod_eq_of_lt (by omega)]
    omega

/-- Two operands of one sign and a sum of the other. -/
theorem sadd_signs : ((!x.msb && !y.msb && (x + y).msb) || (x.msb && y.msb && !(x + y).msb)) =
    x.saddOverflow y := by
  rw [BitVec.saddOverflow_eq]
  cases x.msb <;> cases y.msb <;> cases (x + y).msb <;> rfl

/-- Operands of two signs and a difference without the first one's. -/
theorem ssub_signs : ((!x.msb && y.msb && (x - y).msb) || (x.msb && !y.msb && !(x - y).msb)) =
    x.ssubOverflow y := by
  rw [BitVec.ssubOverflow_eq]

theorem beq_intMin (hw : 0 < w) : (x == BitVec.intMin w) = x.negOverflow := by
  rw [BitVec.negOverflow_eq, decide_eq_true hw, Bool.true_and, Bool.eq_iff_iff, beq_iff_eq]

theorem beq_intMin_allOnes (hw : 0 < w) :
    (x == BitVec.intMin w && y == BitVec.allOnes w) = x.sdivOverflow y := by
  rw [BitVec.sdivOverflow_eq, decide_eq_true hw, Bool.true_and, Bool.eq_iff_iff, Bool.and_eq_true,
    Bool.and_eq_true, beq_iff_eq, beq_iff_eq]
  exact and_congr decide_eq_true_iff.symm decide_eq_true_iff.symm

/-! ## Products of twice the width -/

theorem toNat_product : (x.setWidth (w + w) * y.setWidth (w + w)).toNat = x.toNat * y.toNat := by
  have hle : 2 ^ w ≤ 2 ^ (w + w) := Nat.pow_le_pow_right (by omega) (by omega)
  rw [BitVec.toNat_mul, BitVec.toNat_setWidth, BitVec.toNat_setWidth,
    Nat.mod_eq_of_lt (x.isLt.trans_le hle), Nat.mod_eq_of_lt (y.isLt.trans_le hle)]
  refine Nat.mod_eq_of_lt ?_
  rw [Nat.pow_add]
  exact Nat.mul_lt_mul'' x.isLt y.isLt

/-- The high half of the product is zero where it fits. -/
theorem high_eq_zero :
    BitVec.ofNat w ((x.setWidth (w + w) * y.setWidth (w + w)).toNat >>> w) = 0 ↔
      x.umulOverflow y = false := by
  have hlt : x.toNat * y.toNat / 2 ^ w < 2 ^ w := by
    rw [Nat.div_lt_iff_lt_mul (Nat.two_pow_pos w)]
    exact Nat.mul_lt_mul'' x.isLt y.isLt
  rw [toNat_product, Nat.shiftRight_eq_div_pow, ← BitVec.toNat_inj, BitVec.toNat_ofNat,
    Nat.mod_eq_of_lt hlt]
  simp [BitVec.umulOverflow, Nat.div_eq_zero_iff]

theorem two_pow_eq (hw : 0 < w) : 2 ^ w = 2 * 2 ^ (w - 1) := by
  rw [← Nat.pow_succ']
  congr 1
  omega

theorem toInt_product (hw : 0 < w) :
    (x.signExtend (w + w) * y.signExtend (w + w)).toInt = x.toInt * y.toInt := by
  rw [BitVec.toInt_mul, BitVec.toInt_signExtend_of_le (Nat.le_add_left w w),
    BitVec.toInt_signExtend_of_le (Nat.le_add_left w w)]
  have hle := BitVec.toInt_mul_toInt_le (x := x) (y := y)
  have hge := BitVec.le_toInt_mul_toInt (x := x) (y := y)
  have hcast : ((2 ^ (w * 2 - 2) : Nat) : Int) = 2 ^ (w * 2 - 2) := by norm_cast
  have hpow : 2 ^ (w + w) = 4 * 2 ^ (w * 2 - 2) := by
    rw [show w + w = 2 + (w * 2 - 2) by omega, Nat.pow_add]
  have hpos := Nat.two_pow_pos (w * 2 - 2)
  exact Int.bmod_eq_of_le_mul_two (by omega) (by omega)

/-- The product is its low half with the sign extended where it fits. -/
theorem signExtend_low_eq (hw : 0 < w) :
    x.signExtend (w + w) * y.signExtend (w + w) =
        ((x.signExtend (w + w) * y.signExtend (w + w)).setWidth w).signExtend (w + w) ↔
      x.smulOverflow y = false := by
  have hlow : ∀ p : BitVec (w + w), (p.setWidth w).toInt = p.toInt.bmod (2 ^ w) := by
    intro p
    rw [BitVec.toInt_setWidth, BitVec.toInt_eq_toNat_bmod p, Int.bmod_bmod_of_dvd]
    exact pow_dvd_pow 2 (Nat.le_add_left w w)
  rw [← BitVec.toInt_inj, BitVec.toInt_signExtend_of_le (Nat.le_add_left w w), hlow,
    toInt_product hw, eq_comm, Int.bmod_eq_iff (Nat.two_pow_pos w), Int.sub_self]
  have hcast : ((2 ^ (w - 1) : Nat) : Int) = 2 ^ (w - 1) := by norm_cast
  have hpow := two_pow_eq hw
  have hbool : ∀ b : Bool, b = false ↔ ¬ b = true := by decide
  rw [hbool]
  simp only [BitVec.smulOverflow, Bool.or_eq_true, decide_eq_true_eq, dvd_zero, and_true]
  omega

end Overflow
end Lib
