import SmtServer.Qfbv.Bits
import SmtServer.Qfbv.Eval

/-!
# The evaluator's arithmetic

Every helper of the evaluator is specified by the SMT-LIB operator whose operands and result it
spells. What `Bytes` proves of single operations is put together here for division, which goes bit
by bit and keeps quotient and remainder of the high part of the dividend (`divState_step`), and for
the overflow predicates, which look at a product of twice the width.
-/

namespace SmtServer
namespace Qfbv

open Lib Outcome

namespace Eval

open Arena (SortOk bytesForWidth_ok)
open Bytes

variable {w : Nat} {x y : BitVec w} {a b bytes : List UInt8}

theorem constantBytes_eq (hw : SortOk (.bv w)) (ones : Bool) :
    constantBytes w ones =
      ok (maskUnusedHighBits (List.replicate (divCeil8 w) (if ones then 0xff else 0)) w) := by
  rw [constantBytes, bytesForWidth_ok hw]
  rfl

theorem spells_constantBytes (hw : SortOk (.bv w)) (ones : Bool) :
    ∃ bytes, constantBytes w ones = ok bytes ∧
      Spells bytes (if ones then BitVec.allOnes w else 0) := by
  refine ⟨_, constantBytes_eq hw ones, ?_⟩
  cases ones with
  | true => exact Spells.allOnes w
  | false =>
    have h := spells_zeros w
    rw [← h.mask] at h
    exact h

/-! ## Division -/

/-- What the bit-serial division holds when the bits from `i` on are done: quotient and remainder
of the high part of the dividend, the quotient in the high bits. -/
structure DivState (x y : BitVec w) (i : Nat) (st : List UInt8 × List UInt8) : Prop where
  length_quotient : st.1.length = divCeil8 w
  length_remainder : st.2.length = divCeil8 w
  quotient : leNat st.1 = (x.toNat >>> i / y.toNat) <<< i
  remainder : leNat st.2 = x.toNat >>> i % y.toNat

/-- Setting a bit below all bits that are set adds it. -/
theorem leNat_setBit {i n : Nat} (hi : i < 8 * bytes.length) (h : leNat bytes = n <<< (i + 1)) :
    leNat (setBit bytes i) = leNat bytes + 2 ^ i := by
  have hlt : 2 ^ i < 2 ^ (i + 1) := Nat.pow_lt_pow_right (by decide) (by omega)
  rw [h, Nat.shiftLeft_add_eq_or_of_lt hlt, ← h]
  refine Nat.eq_of_testBit_eq fun j => ?_
  rw [testBit_setBit hi, Nat.testBit_or, Nat.testBit_two_pow]

/-- The high part of a number, one bit longer. -/
theorem shiftRight_succ (n i : Nat) :
    n >>> i = 2 * n >>> (i + 1) + if n.testBit i then 1 else 0 := by
  rw [Nat.shiftRight_succ, Nat.testBit_eq_decide_div_mod_eq, ← Nat.shiftRight_eq_div_pow]
  rcases Nat.mod_two_eq_zero_or_one (n >>> i) with h | h <;> simp [h] <;> omega

/-- The remainder so far, with the next bit of the dividend: doubling it loses nothing, since it is
part of the dividend. -/
theorem shifted_remainder (ha : Spells a x) {i : Nat} (hi : i < w) {st : List UInt8 × List UInt8}
    (h : DivState x y (i + 1) st) :
    let shifted := shlBytes st.2 w 1
    let shifted := if getBit a i then setBit shifted 0 else shifted
    shifted.length = divCeil8 w ∧
      leNat shifted = 2 * (x.toNat >>> (i + 1) % y.toNat) + if x.toNat.testBit i then 1 else 0 := by
  have hN := shiftRight_succ x.toNat i
  have hle : x.toNat >>> i ≤ x.toNat := by
    rw [Nat.shiftRight_eq_div_pow]
    exact Nat.div_le_self ..
  have hmod : x.toNat >>> (i + 1) % y.toNat ≤ x.toNat >>> (i + 1) := Nat.mod_le ..
  have hx := x.isLt
  have hrem : leNat st.2 < 2 ^ w := by
    rw [h.remainder]
    omega
  have hshl := (spells_of_lt h.length_remainder hrem).shlBytes 1
  have hval : leNat (shlBytes st.2 w 1) = leNat st.2 <<< 1 := by
    rw [hshl.toNat, BitVec.toNat_shiftLeft, BitVec.toNat_ofNat, Nat.mod_eq_of_lt hrem,
      Nat.mod_eq_of_lt]
    rw [Nat.shiftLeft_eq, h.remainder]
    omega
  have hlen := hshl.length
  have hcover := le_eight_mul_divCeil8 w
  dsimp only
  rw [ha.getBit, ← BitVec.testBit_toNat]
  cases hbit : x.toNat.testBit i with
  | false =>
    refine ⟨hlen, ?_⟩
    rw [if_neg (by simp), if_neg (by simp), hval, Nat.shiftLeft_eq, h.remainder]
    omega
  | true =>
    refine ⟨by rw [if_pos rfl, length_setBit, hlen], ?_⟩
    rw [if_pos rfl, if_pos rfl, leNat_setBit (by rw [hlen]; omega) hval, hval, Nat.shiftLeft_eq,
      h.remainder]
    omega

/-- A round of the loop: the next bit of the dividend goes to the remainder, and the divisor is
taken out if it fits. -/
theorem divState_step (ha : Spells a x) (hb : Spells b y) (hy : y.toNat ≠ 0) {i : Nat} (hi : i < w)
    {st : List UInt8 × List UInt8} (h : DivState x y (i + 1) st) :
    DivState x y i (udivUremStep a b w st i) := by
  obtain ⟨hlen, hval⟩ := shifted_remainder ha hi h
  have hcover := le_eight_mul_divCeil8 w
  have hpos : 0 < y.toNat := Nat.pos_of_ne_zero hy
  have hN := shiftRight_succ x.toNat i
  have hrest := Nat.mod_lt (x.toNat >>> (i + 1)) hpos
  have hdm := Nat.mod_add_div (x.toNat >>> (i + 1)) y.toNat
  unfold udivUremStep
  dsimp only at hlen hval ⊢
  generalize (if getBit a i then setBit (shlBytes st.2 w 1) 0 else shlBytes st.2 w 1) = shifted
    at hlen hval ⊢
  have hd : (if x.toNat.testBit i then 1 else 0) ≤ 1 := by split <;> omega
  generalize (if x.toNat.testBit i then 1 else 0) = d at hN hval hd
  have hcmp : cmpUnsignedBytes shifted b ≠ .lt ↔ y.toNat ≤ leNat shifted := by
    rw [cmpUnsignedBytes_eq (hlen.trans hb.length.symm), hb.toNat, ne_eq, compare_lt_iff_lt, not_lt]
  by_cases hfits : y.toNat ≤ leNat shifted
  · -- the quotient gets a one
    rw [if_pos (hcmp.mpr hfits)]
    obtain ⟨hq, hr⟩ := (Nat.div_mod_unique (c := leNat shifted - y.toNat)
      (d := 2 * (x.toNat >>> (i + 1) / y.toNat) + 1) hpos (a := x.toNat >>> i)).mpr
        ⟨by rw [hN, Nat.mul_add, Nat.mul_left_comm]; omega, by omega⟩
    have hx := x.isLt
    have hle : x.toNat >>> i ≤ x.toNat := by
      rw [Nat.shiftRight_eq_div_pow]
      exact Nat.div_le_self ..
    have hmod := Nat.mod_le (x.toNat >>> (i + 1)) y.toNat
    have hlt : leNat shifted < 2 ^ w := by omega
    have hsub := (spells_of_lt hlen hlt).subBytes hb
    refine ⟨by rw [length_setBit, h.length_quotient], hsub.length, ?_, ?_⟩
    · rw [leNat_setBit (by rw [h.length_quotient]; omega) h.quotient, h.quotient, hq,
        Nat.shiftLeft_eq, Nat.shiftLeft_eq, Nat.pow_succ]
      ring
    · rw [hsub.toNat, BitVec.toNat_sub_of_le, BitVec.toNat_ofNat, Nat.mod_eq_of_lt hlt, hr]
      rwa [BitVec.le_def, BitVec.toNat_ofNat, Nat.mod_eq_of_lt hlt]
  · rw [if_neg (mt hcmp.mp hfits)]
    obtain ⟨hq, hr⟩ := (Nat.div_mod_unique (c := leNat shifted)
      (d := 2 * (x.toNat >>> (i + 1) / y.toNat)) hpos (a := x.toNat >>> i)).mpr
        ⟨by rw [hN, Nat.mul_left_comm]; omega, by omega⟩
    refine ⟨h.length_quotient, hlen, ?_, by rw [hr]⟩
    rw [h.quotient, hq, Nat.shiftLeft_eq, Nat.shiftLeft_eq, Nat.pow_succ]
    ring

theorem divState_run (ha : Spells a x) (hb : Spells b y) (hy : y.toNat ≠ 0) :
    ∀ {n : Nat} {st : List UInt8 × List UInt8}, n ≤ w → DivState x y n st →
      DivState x y 0 ((List.range n).reverse.foldl (udivUremStep a b w) st) := by
  intro n
  induction n with
  | zero => exact fun _ h => h
  | succ n ih =>
    intro st hn h
    rw [List.range_succ, List.reverse_append, List.reverse_singleton, List.singleton_append,
      List.foldl_cons]
    exact ih (by omega) (divState_step ha hb hy hn h)

/-- `udiv_urem_bytes` is the division of SMT-LIB. -/
theorem udivUremBytes_answers (hw : SortOk (.bv w)) (ha : Spells a x) (hb : Spells b y) :
    Answers (udivUremBytes a b w) fun (q, r) => Spells q (x.smtUDiv y) ∧ Spells r (x.umod y) := by
  rw [udivUremBytes]
  by_cases hz : isZeroBytes b = true
  · have hy : y = 0 := hb.isZeroBytes.mp hz
    obtain ⟨ones, hones, hs⟩ := spells_constantBytes hw true
    rw [if_pos hz, hones]
    refine answers_ok ⟨?_, ?_⟩
    · rw [BitVec.smtUDiv, if_pos hy]
      exact hs
    · rw [hy]
      simpa using ha
  · have hy : y ≠ 0 := mt hb.isZeroBytes.mpr hz
    have hy0 : y.toNat ≠ 0 := by
      intro h0
      exact hy (BitVec.eq_of_toNat_eq (by simpa using h0))
    obtain ⟨zs, hzs, hs⟩ := spells_constantBytes hw false
    rw [if_neg hz, hzs]
    have hx : x.toNat >>> w = 0 := by
      rw [Nat.shiftRight_eq_div_pow, Nat.div_eq_of_lt x.isLt]
    have hzero : leNat zs = 0 := by
      rw [hs.toNat]
      simp
    have hstart : DivState x y w (zs, zs) :=
      ⟨hs.length, hs.length, by simp [hzero, hx], by simp [hzero, hx]⟩
    have hrun := divState_run ha hb hy0 (le_refl w) hstart
    refine answers_ok ⟨⟨hrun.length_quotient, ?_⟩, ⟨hrun.length_remainder, ?_⟩⟩
    · rw [hrun.quotient, BitVec.smtUDiv, if_neg hy, BitVec.udiv_eq, BitVec.toNat_udiv]
      rfl
    · rw [hrun.remainder, BitVec.umod_eq, BitVec.toNat_umod]
      rfl

theorem getBit_msb (h : Spells bytes x) : getBit bytes (w - 1) = x.msb := by
  rw [h.getBit, BitVec.msb_eq_getLsbD_last]

theorem spells_absBytes (h : Spells bytes x) :
    Spells (absBytes bytes w) (if x.msb then -x else x) := by
  rw [absBytes, getBit_msb h]
  split
  · exact h.negBytes
  · exact h

/-- The three signed operators, on quotient and remainder of the absolute values. -/
def signedOp (x y : BitVec w) : SignedDivKind → BitVec w
  | .div => x.smtSDiv y
  | .rem => x.srem y
  | .mod => x.smod y

/-- The signed modulus, by the sign of the operands: a zero remainder stays zero. -/
theorem smod_eq (x y : BitVec w) :
    let u := (if x.msb then -x else x).umod (if y.msb then -y else y)
    x.smod y = if u = 0 then u else
      match x.msb, y.msb with
      | false, false => u
      | true, false => y - u
      | false, true => y + u
      | true, true => -u := by
  unfold BitVec.smod
  cases x.msb <;> cases y.msb <;> simp only [if_true, Bool.false_eq_true, if_false]
  · exact (ite_self _).symm
  · rw [BitVec.add_comm]
    rfl
  · rfl
  · show -BitVec.umod (-x) (-y) = _
    split
    · rename_i hz
      rw [hz]
      simp
    · rfl

theorem spells_signedResult (hb : Spells b y) {q r : List UInt8}
    (hq : Spells q ((if x.msb then -x else x).smtUDiv (if y.msb then -y else y)))
    (hr : Spells r ((if x.msb then -x else x).umod (if y.msb then -y else y)))
    (kind : SignedDivKind) :
    Spells (signedResult kind x.msb y.msb b q r w) (signedOp x y kind) := by
  cases kind with
  | div =>
    simp only [signedResult, signedOp, BitVec.smtSDiv]
    cases hx : x.msb <;> cases hy : y.msb <;>
      simp only [hx, hy, if_true, Bool.false_eq_true, if_false] at hq ⊢
    · exact hq
    · exact hq.negBytes
    · exact hq.negBytes
    · exact hq
  | rem =>
    simp only [signedResult, signedOp, BitVec.srem]
    cases hx : x.msb <;> cases hy : y.msb <;>
      simp only [hx, hy, if_true, Bool.false_eq_true, if_false] at hr ⊢
    · exact hr
    · exact hr
    · exact hr.negBytes
    · exact hr.negBytes
  | mod =>
    simp only [signedResult, signedOp, smod_eq, hr.isZeroBytes]
    generalize (if x.msb then -x else x).umod (if y.msb then -y else y) = u at hr ⊢
    split
    · exact hr
    · cases x.msb <;> cases y.msb
      · exact hr
      · exact hb.addBytes hr
      · exact hb.subBytes hr
      · exact hr.negBytes

/-! ## Shifts -/

/-- `shift_value` reads no more of the amount than the width. -/
theorem bytesToBoundedUsize_width (hw : w ≤ maxBvWidth) (hb : Spells b y) :
    bytesToBoundedUsize b w = min y.toNat w := by
  rw [bytesToBoundedUsize_eq (Nat.lt_of_le_of_lt hw (by decide)), hb.toNat]

theorem shiftLeft_min (x : BitVec w) (n : Nat) : x <<< min n w = x <<< n := by
  rcases Nat.le_total n w with h | h
  · rw [Nat.min_eq_left h]
  · rw [Nat.min_eq_right h, BitVec.shiftLeft_eq_zero h, BitVec.shiftLeft_eq_zero (le_refl w)]

theorem ushiftRight_min (x : BitVec w) (n : Nat) : x >>> min n w = x >>> n := by
  rcases Nat.le_total n w with h | h
  · rw [Nat.min_eq_left h]
  · rw [Nat.min_eq_right h, BitVec.ushiftRight_eq_zero h, BitVec.ushiftRight_eq_zero (le_refl w)]

theorem sshiftRight_min (x : BitVec w) (n : Nat) : x.sshiftRight (min n w) = x.sshiftRight n := by
  refine BitVec.eq_of_getLsbD_eq fun i hi => ?_
  rw [BitVec.getLsbD_sshiftRight, BitVec.getLsbD_sshiftRight]
  rcases Nat.le_total n w with h | h
  · rw [Nat.min_eq_left h]
  · rw [Nat.min_eq_right h, if_neg (by omega), if_neg (by omega)]

/-! ## Overflow -/

theorem cmp_lt (ha : Spells a x) (hb : Spells b y) : (cmpUnsignedBytes a b == .lt) = x.ult y := by
  rw [ha.cmpUnsignedBytes hb, Bool.eq_iff_iff, beq_iff_eq, compare_lt_iff_lt, BitVec.ult_iff_lt,
    BitVec.lt_def]

theorem cmp_le (ha : Spells a x) (hb : Spells b y) : (cmpUnsignedBytes a b != .gt) = x.ule y := by
  rw [ha.cmpUnsignedBytes hb, Bool.eq_iff_iff, bne_iff_ne, ne_eq, compare_gt_iff_gt,
    BitVec.ule_iff_le, BitVec.le_def, not_lt]

theorem add_ult_self (x y : BitVec w) : (x + y).ult x = x.uaddOverflow y := by
  have hx := x.isLt
  have hy := y.isLt
  rw [Bool.eq_iff_iff, BitVec.ult_iff_lt, BitVec.lt_def, BitVec.toNat_add, BitVec.uaddOverflow,
    decide_eq_true_eq]
  by_cases h : x.toNat + y.toNat < 2 ^ w
  · rw [Nat.mod_eq_of_lt h]
    omega
  · rw [Nat.mod_eq_sub_mod (by omega), Nat.mod_eq_of_lt (by omega)]
    omega

theorem minBytes_iff (h : Spells bytes x) (hw : 1 ≤ w) :
    isMinBytes bytes w = decide (x = BitVec.intMin w) := by
  rw [isMinBytes, Bool.eq_iff_iff, Bool.and_eq_true, List.all_eq_true, decide_eq_true_eq,
    h.getBit]
  constructor
  · rintro ⟨hmsb, hrest⟩
    refine BitVec.eq_of_getLsbD_eq fun i hi => ?_
    rw [BitVec.getLsbD_intMin]
    by_cases hlast : i = w - 1
    · subst hlast
      rw [hmsb]
      simp [hw]
    · have hbit := hrest i (List.mem_range.mpr (by omega))
      rw [h.getBit, Bool.not_eq_true'] at hbit
      rw [hbit]
      simp
      omega
  · rintro rfl
    refine ⟨by rw [BitVec.getLsbD_intMin]; simp; omega, fun i hi => ?_⟩
    rw [List.mem_range] at hi
    rw [h.getBit, BitVec.getLsbD_intMin]
    simp
    omega

/-- The product at twice the width, unsigned: it has a bit from the width on when it overflows. -/
theorem unsigned_product (ha : Spells a x) (hb : Spells b y) :
    let len := divCeil8 (w * 2)
    let product := mulBytes (resize a len) (resize b len) (w * 2)
    ((List.range' w (w * 2 - w)).any fun bit => getBit product bit) = x.umulOverflow y := by
  have hp := (ha.zextBytes w).mulBytes (hb.zextBytes w)
  have hlt := BitVec.toNat_mul_toNat_lt (x := x) (y := y)
  rw [Nat.mul_two] at hlt ⊢
  have hwide : ∀ z : BitVec w, (z.setWidth (w + w)).toNat = z.toNat := fun z => by
    rw [BitVec.toNat_setWidth, Nat.mod_eq_of_lt]
    exact Nat.lt_of_lt_of_le z.isLt (Nat.pow_le_pow_right (by decide) (by omega))
  have hval := hp.toNat
  rw [BitVec.toNat_mul, hwide, hwide, Nat.mod_eq_of_lt hlt] at hval
  dsimp only
  rw [Bool.eq_iff_iff, List.any_eq_true, BitVec.umulOverflow, decide_eq_true_eq, ge_iff_le, ← hval]
  simp only [getBit_eq, List.mem_range'_1]
  constructor
  · rintro ⟨i, hi, hbit⟩
    exact Nat.le_trans (Nat.pow_le_pow_right (by decide) hi.1) (Nat.ge_two_pow_of_testBit hbit)
  · intro hle
    obtain ⟨i, hi, hbit⟩ := Nat.exists_ge_and_testBit_of_ge_two_pow hle
    refine ⟨i, ⟨hi, ?_⟩, hbit⟩
    by_contra hge
    have hpow : 2 ^ (w + w) ≤ 2 ^ i := Nat.pow_le_pow_right (by decide) (by omega)
    have := Nat.ge_two_pow_of_testBit hbit
    omega

/-- A number is the word of its low bits exactly when it is in the range of the word. -/
theorem bmod_two_pow (hw : 1 ≤ w) (n : Int) :
    n = n.bmod (2 ^ w) ↔ -2 ^ (w - 1) ≤ n ∧ n < 2 ^ (w - 1) := by
  have hpow : (2 : Int) ^ w = 2 * 2 ^ (w - 1) := by
    rw [← pow_succ', Nat.sub_add_cancel hw]
  have hpos : 0 < 2 ^ w := Nat.two_pow_pos w
  have hcast : ((2 ^ w : Nat) : Int) = 2 * 2 ^ (w - 1) := by
    rw [← hpow]
    push_cast
    rfl
  constructor
  · intro h
    have h1 := Int.le_bmod (x := n) hpos
    have h2 := Int.bmod_lt (x := n) hpos
    rw [← h, hcast] at h1 h2
    omega
  · rintro ⟨h1, h2⟩
    refine (Int.bmod_eq_of_le ?_ ?_).symm
    · rw [hcast]
      omega
    · rw [hcast]
      omega

/-- The product at twice the width, signed: it overflows when it is not the extension of its low
half. -/
theorem signed_product (hw : 1 ≤ w) (ha : Spells a x) (hb : Spells b y) :
    let product := mulBytes (sextBytes a w w) (sextBytes b w w) (w * 2)
    (product != sextBytes (extractBytes product 0 w) w w) = x.smulOverflow y := by
  have hp := (ha.sextBytes w).mulBytes (hb.sextBytes w)
  have hlow := (hp.extractBytes 0 w).sextBytes w
  have h1 := BitVec.toInt_mul_toInt_le (x := x) (y := y)
  have h2 := BitVec.le_toInt_mul_toInt (x := x) (y := y)
  have hval : (x.signExtend (w + w) * y.signExtend (w + w)).toInt = x.toInt * y.toInt := by
    rw [BitVec.toInt_mul, BitVec.toInt_signExtend_of_le (by omega),
      BitVec.toInt_signExtend_of_le (by omega), eq_comm, bmod_two_pow (by omega)]
    have hpow : (2 : Int) ^ (w + w - 1) = 2 * 2 ^ (w * 2 - 2) := by
      rw [← pow_succ', show w * 2 - 2 + 1 = w + w - 1 by omega]
    have hpos : (0 : Int) < 2 ^ (w * 2 - 2) := by positivity
    omega
  have hcut : ∀ z : BitVec (w + w), ((z.extractLsb' 0 w).signExtend (w + w)).toInt =
      z.toInt.bmod (2 ^ w) := by
    intro z
    rw [BitVec.toInt_signExtend_of_le (by omega), ← BitVec.setWidth_eq_extractLsb' (by omega),
      ← BitVec.signExtend_eq_setWidth_of_le _ (by omega),
      BitVec.toInt_signExtend_eq_toInt_bmod_of_le _ (by omega)]
  rw [Nat.mul_two]
  dsimp only
  rw [Bool.eq_iff_iff, bne_iff_ne, ne_eq, hp.inj hlow, ← BitVec.toInt_inj, hcut, hval,
    bmod_two_pow hw, BitVec.smulOverflow, Bool.or_eq_true, decide_eq_true_eq, decide_eq_true_eq]
  omega

end Eval
end Qfbv
end SmtServer
