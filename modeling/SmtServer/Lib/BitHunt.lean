import Mathlib.Data.Nat.Bitwise
import Mathlib.Tactic.Common

/-!
# `BitHunt` — the best number of a set, one bit at a time

From the highest bit down, take the preferred value of each bit if some number of the set has it
(with the bits already taken), and the other value otherwise. The result is the element of the set
that is first in the lexicographic order given by the preferences (`Prefers`), for **any**
preference of each bit; the numeric orders are the instances `Prefers.le`, `Prefers.ge` and, with
the preference of the top bit reversed, the two's-complement ones.
-/

namespace Lib
namespace BitHunt

/-- `x` and `y` have the same bits from `k` up. -/
def Agree (k x y : Nat) : Prop := ∀ j, k ≤ j → x.testBit j = y.testBit j

/-- From bit `k` up, `x` is `y` or has the preferred value at the highest bit where they
differ. -/
def Prefers (pref : Nat → Bool) (k x y : Nat) : Prop :=
  Agree k x y ∨ ∃ j, k ≤ j ∧ x.testBit j = pref j ∧ y.testBit j = !pref j ∧ Agree (j + 1) x y

/-- The state of a hunt through `P` that has settled the bits from `k` up. -/
structure Settled (P : Nat → Prop) (pref : Nat → Bool) (k x : Nat) : Prop where
  low : ∀ j, j < k → x.testBit j = false
  feasible : ∃ y, P y ∧ Agree k x y
  best : ∀ y, P y → Prefers pref k x y

variable {P : Nat → Prop} {pref : Nat → Bool} {k w x y z : Nat}

theorem Agree.symm (h : Agree k x y) : Agree k y x := fun j hj => (h j hj).symm

theorem Agree.trans (h : Agree k x y) (h' : Agree k y z) : Agree k x z :=
  fun j hj => (h j hj).trans (h' j hj)

theorem Agree.mono {l : Nat} (h : Agree k x y) (hkl : k ≤ l) : Agree l x y :=
  fun j hj => h j (Nat.le_trans hkl hj)

theorem Agree.extend (h : Agree (k + 1) x y) (hk : x.testBit k = y.testBit k) : Agree k x y := by
  intro j hj
  rcases Nat.eq_or_lt_of_le hj with rfl | hlt
  · exact hk
  · exact h j hlt

theorem Agree.eq (h : Agree 0 x y) : x = y :=
  Nat.eq_of_testBit_eq fun j => h j (Nat.zero_le j)

/-- The next state: bit `k` set as given, the bits above kept. -/
structure Next (k : Nat) (b : Bool) (x x' : Nat) : Prop where
  low : ∀ j, j < k → x'.testBit j = false
  bit : x'.testBit k = b
  high : Agree (k + 1) x' x

/-- Before the first bit nothing is settled but that all numbers are small. -/
theorem settled_start (hw : ∀ y, P y → y < 2 ^ w) (hne : ∃ y, P y) : Settled P pref w 0 := by
  have hagree : ∀ y, P y → Agree w 0 y := by
    intro y hy j hj
    rw [Nat.zero_testBit, Nat.testBit_lt_two_pow]
    exact Nat.lt_of_lt_of_le (hw y hy) (Nat.pow_le_pow_right (by decide) hj)
  obtain ⟨y, hy⟩ := hne
  exact ⟨fun j _ => Nat.zero_testBit j, ⟨y, hy, hagree y hy⟩, fun y hy => .inl (hagree y hy)⟩

/-- The preferred value is taken where it is feasible. -/
theorem Settled.take {x' : Nat} (h : Settled P pref (k + 1) x)
    (hfeas : ∃ y, P y ∧ Agree (k + 1) x y ∧ y.testBit k = pref k)
    (hnext : Next k (pref k) x x') : Settled P pref k x' := by
  refine ⟨hnext.low, ?_, ?_⟩
  · obtain ⟨y, hy, hagree, hbit⟩ := hfeas
    exact ⟨y, hy, (hnext.high.trans hagree).extend (by rw [hnext.bit, hbit])⟩
  · intro y hy
    rcases h.best y hy with hagree | ⟨j, hj, hx, hyj, hagree⟩
    · by_cases hbit : y.testBit k = pref k
      · exact .inl ((hnext.high.trans hagree).extend (by rw [hnext.bit, hbit]))
      · refine .inr ⟨k, Nat.le_refl k, hnext.bit, ?_, hnext.high.trans hagree⟩
        cases hp : pref k <;> simp_all
    · refine .inr ⟨j, by omega, ?_, hyj, (hnext.high.mono (by omega)).trans hagree⟩
      rw [hnext.high j hj, hx]

/-- The other value is taken where the preferred one is not feasible. -/
theorem Settled.skip {x' : Nat} (h : Settled P pref (k + 1) x)
    (hinfeas : ∀ y, P y → Agree (k + 1) x y → y.testBit k ≠ pref k)
    (hnext : Next k (!pref k) x x') : Settled P pref k x' := by
  have hother : ∀ y, P y → Agree (k + 1) x y → y.testBit k = !pref k := by
    intro y hy hagree
    have := hinfeas y hy hagree
    cases hp : pref k <;> simp_all
  refine ⟨hnext.low, ?_, ?_⟩
  · obtain ⟨y, hy, hagree⟩ := h.feasible
    exact ⟨y, hy, (hnext.high.trans hagree).extend (by rw [hnext.bit, hother y hy hagree])⟩
  · intro y hy
    rcases h.best y hy with hagree | ⟨j, hj, hx, hyj, hagree⟩
    · exact .inl ((hnext.high.trans hagree).extend (by rw [hnext.bit, hother y hy hagree]))
    · refine .inr ⟨j, by omega, ?_, hyj, (hnext.high.mono (by omega)).trans hagree⟩
      rw [hnext.high j hj, hx]

/-- When all bits are settled the number is in the set. -/
theorem Settled.mem (h : Settled P pref 0 x) : P x := by
  obtain ⟨y, hy, hagree⟩ := h.feasible
  rwa [hagree.eq]

/-! ## Numeric orders -/

/-- The highest bit where two numbers differ decides which is smaller. -/
theorem lt_of_differ {j : Nat} (hx : x.testBit j = false) (hy : y.testBit j = true)
    (h : Agree (j + 1) x y) : x < y :=
  Nat.lt_of_testBit j hx hy fun i hi => h i hi

theorem Prefers.le (h : Prefers (fun _ => false) 0 x y) : x ≤ y := by
  rcases h with hagree | ⟨j, -, hx, hy, hagree⟩
  · exact Nat.le_of_eq hagree.eq
  · exact Nat.le_of_lt (lt_of_differ hx hy hagree)

theorem Prefers.ge (h : Prefers (fun _ => true) 0 x y) : y ≤ x := by
  rcases h with hagree | ⟨j, -, hx, hy, hagree⟩
  · exact Nat.le_of_eq hagree.eq.symm
  · exact Nat.le_of_lt (lt_of_differ hy hx hagree.symm)

/-- Two vectors of one width that agree in the top bit compare as their numbers do. -/
theorem toInt_le_of_toNat {w : Nat} {a b : BitVec w} (hmsb : a.msb = b.msb)
    (h : a.toNat ≤ b.toNat) : a.toInt ≤ b.toInt := by
  rw [BitVec.toInt_eq_msb_cond, BitVec.toInt_eq_msb_cond, hmsb]
  split <;> omega

theorem toInt_le_of_msb {w : Nat} {a b : BitVec w} (ha : a.msb = true) (hb : b.msb = false) :
    a.toInt ≤ b.toInt := by
  have hlt := a.isLt
  rw [BitVec.toInt_eq_msb_cond, BitVec.toInt_eq_msb_cond, ha, hb, if_pos rfl]
  simp only [Bool.false_eq_true, if_false]
  omega

theorem msb_eq_testBit {w : Nat} (a : BitVec w) :
    a.msb = a.toNat.testBit (w - 1) := by
  rw [BitVec.msb_eq_getLsbD_last, BitVec.testBit_toNat]

/-- Two's complement: the top bit is preferred the other way round. -/
theorem Prefers.toInt_le {w : Nat} {a b : BitVec w}
    (h : Prefers (fun j => decide (j = w - 1)) 0 a.toNat b.toNat) : a.toInt ≤ b.toInt := by
  rcases h with hagree | ⟨j, -, hx, hy, hagree⟩
  · exact Int.le_of_eq (congrArg BitVec.toInt (BitVec.eq_of_toNat_eq hagree.eq))
  · by_cases hj : j = w - 1
    · subst hj
      simp only [decide_true, Bool.not_true] at hx hy
      exact toInt_le_of_msb ((msb_eq_testBit a).trans hx) ((msb_eq_testBit b).trans hy)
    · simp only [hj, decide_false, Bool.not_false] at hx hy
      have hj' : j < w := by
        by_contra hge
        rw [BitVec.testBit_toNat, BitVec.getLsbD_of_ge b j (by omega)] at hy
        cases hy
      refine toInt_le_of_toNat ?_ (Nat.le_of_lt (lt_of_differ hx hy hagree))
      rw [msb_eq_testBit, msb_eq_testBit]
      exact hagree _ (by omega)

theorem Prefers.toInt_ge {w : Nat} {a b : BitVec w}
    (h : Prefers (fun j => !decide (j = w - 1)) 0 a.toNat b.toNat) : b.toInt ≤ a.toInt := by
  rcases h with hagree | ⟨j, -, hx, hy, hagree⟩
  · exact Int.le_of_eq (congrArg BitVec.toInt (BitVec.eq_of_toNat_eq hagree.eq).symm)
  · by_cases hj : j = w - 1
    · subst hj
      simp only [decide_true, Bool.not_true, Bool.not_false] at hx hy
      exact toInt_le_of_msb ((msb_eq_testBit b).trans hy) ((msb_eq_testBit a).trans hx)
    · simp only [hj, decide_false, Bool.not_false, Bool.not_true] at hx hy
      have hj' : j < w := by
        by_contra hge
        rw [BitVec.testBit_toNat, BitVec.getLsbD_of_ge a j (by omega)] at hx
        cases hx
      refine toInt_le_of_toNat ?_ (Nat.le_of_lt (lt_of_differ hy hx hagree.symm))
      rw [msb_eq_testBit, msb_eq_testBit]
      exact (hagree _ (by omega)).symm

end BitHunt
end Lib
