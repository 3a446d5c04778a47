import Mathlib.Data.BitVec
import Mathlib.Tactic.Linarith

/-!
# When a signed quotient multiplies back

The quotient of `x` by `y`, multiplied by `y` in twice the width, lies between zero and `x`. So the
upper half of the product, together with the sign bit of the lower half, is a row of copies of one
bit (`quotient_mul_bits`). The one exception is the quotient that overflows, of the least number by
minus one.
-/

namespace Lib
namespace SignedProduct

variable {w v : Nat}

/-- A small number has copies of its sign in its upper bits. -/
theorem getLsbD_of_range {p : BitVec v} {k : Nat} (hlow : -2 ^ k ≤ p.toInt) (hhigh : p.toInt < 2 ^ k)
    {i : Nat} (hk : k ≤ i) (hi : i < v) : p.getLsbD i = decide (p.toInt < 0) := by
  have hcast : ((2 ^ k : Nat) : Int) = 2 ^ k := by norm_cast
  rw [BitVec.toInt_eq_toNat_cond] at hlow hhigh ⊢
  have hlt := p.isLt
  split at hlow
  · rename_i hsmall
    rw [if_pos hsmall] at hhigh ⊢
    have hp : p.toNat < 2 ^ i :=
      Nat.lt_of_lt_of_le (by omega) (Nat.pow_le_pow_right (by decide) hk)
    rw [BitVec.getLsbD, Nat.testBit_lt_two_pow hp]
    simp
  · rename_i hsmall
    rw [if_neg hsmall] at hhigh ⊢
    have hp : (~~~p).toNat < 2 ^ i := by
      refine Nat.lt_of_lt_of_le ?_ (Nat.pow_le_pow_right (by decide) hk)
      rw [BitVec.toNat_not]
      omega
    have hnot : (~~~p).getLsbD i = false := by rw [BitVec.getLsbD, Nat.testBit_lt_two_pow hp]
    rw [BitVec.getLsbD_not, decide_eq_true hi, Bool.true_and, Bool.not_eq_false'] at hnot
    rw [hnot, decide_eq_true (by omega)]

theorem tdiv_mul_nonneg {x y : Int} (hx : 0 ≤ x) : 0 ≤ x.tdiv y * y := by
  rcases Int.le_total 0 y with hy | hy
  · exact Int.mul_nonneg (Int.tdiv_nonneg hx hy) hy
  · exact Int.mul_nonneg_of_nonpos_of_nonpos (Int.tdiv_nonpos_of_nonneg_of_nonpos hx hy) hy

/-- A truncated quotient, multiplied back, does not leave the range of the dividend. -/
theorem tdiv_mul_range {x y k : Int} (hlow : -k ≤ x) (hhigh : x < k) :
    -k ≤ x.tdiv y * y ∧ x.tdiv y * y < k := by
  have hsum := Int.tdiv_mul_add_tmod x y
  rcases Int.le_total 0 x with hx | hx
  · have h0 := Int.tmod_nonneg y hx
    have h1 := tdiv_mul_nonneg (y := y) hx
    omega
  · have h0 := Int.tmod_nonneg y (Int.neg_nonneg_of_nonpos hx)
    have h1 := tdiv_mul_nonneg (y := y) (Int.neg_nonneg_of_nonpos hx)
    rw [Int.neg_tmod] at h0
    rw [Int.neg_tdiv, Int.neg_mul] at h1
    omega

theorem toInt_smtSDiv {x y : BitVec w} (hy : y ≠ 0) (h : x ≠ BitVec.intMin w ∨ y ≠ BitVec.allOnes w) :
    (x.smtSDiv y).toInt = x.toInt.tdiv y.toInt := by
  have hsdiv : x.smtSDiv y = x.sdiv y := by
    have hy' : -y ≠ 0 := fun h0 => hy (by simpa using h0)
    rw [BitVec.smtSDiv_eq, BitVec.sdiv_eq]
    simp only [BitVec.smtUDiv_eq, BitVec.ofNat_eq_ofNat] at hy hy' ⊢
    simp [hy]
  rw [hsdiv, BitVec.toInt_sdiv_of_ne_or_ne]
  rwa [BitVec.neg_one_eq_allOnes]

theorem quotient_mul_bits {x y : BitVec w} (hy : y ≠ 0)
    (h : x ≠ BitVec.intMin w ∨ y ≠ BitVec.allOnes w) :
    ∃ b, ∀ i, w - 1 ≤ i → i < w + w →
      ((x.smtSDiv y).signExtend (w + w) * y.signExtend (w + w)).getLsbD i = b := by
  have hrange := tdiv_mul_range (y := y.toInt) (BitVec.le_toInt x) (BitVec.toInt_lt (x := x))
  have hw : 0 < w := by
    refine Nat.pos_of_ne_zero fun hw => ?_
    subst hw
    exact hy BitVec.of_length_zero
  have htoInt : ((x.smtSDiv y).signExtend (w + w) * y.signExtend (w + w)).toInt =
      x.toInt.tdiv y.toInt * y.toInt := by
    rw [BitVec.toInt_mul, BitVec.toInt_signExtend_of_le (Nat.le_add_left w w),
      BitVec.toInt_signExtend_of_le (Nat.le_add_left w w), toInt_smtSDiv hy h]
    have hpow : (2 : Int) ^ (w - 1) * 2 ≤ 2 ^ (w + w) := by
      rw [← pow_succ]
      exact pow_le_pow_right₀ (by norm_num) (by omega)
    have hcast : ((2 ^ (w + w) : Nat) : Int) = 2 ^ (w + w) := by norm_cast
    exact Int.bmod_eq_of_le_mul_two (by omega) (by omega)
  refine ⟨_, fun i hlow hhigh => getLsbD_of_range (k := w - 1) ?_ ?_ hlow hhigh⟩
  · rw [htoInt]
    exact hrange.1
  · rw [htoInt]
    exact hrange.2

end SignedProduct
end Lib
