import SmtServer.Lib.Overflow
import SmtServer.Qfbv.Circuits
import SmtServer.Qfbv.Tseitin
import SmtServer.Server.Smt2Terms

/-!
# Overflow predicates in every backend

A request with an overflow predicate may go to Z3, to a solver that reads SMT-LIB, or to the
bit-blaster, and each has its own formula for it: `z3_backend.rs` builds a Z3 term, `smt2.rs` prints
a term, `circuits.rs` builds gates. All three are compared with the exact integer result
(`Overflow.Happens`), over the vectors' own predicates (`Overflow.test`).

Z3 terms are values here: an operation of Z3 is the operation of the theory it is named after.
-/

namespace SmtServer
namespace Server

open Lib
open Lib.Smt (Value)

/-! ## Z3 -/

namespace Z3

/-- `BV::from_bits`, the least significant bit first. -/
def fromBits (bits : List Bool) : Value := .bv bits.length (.ofNat _ (BitList.toNat bits))

/-- `BV::from_u64`. -/
def fromU64 (n : Nat) (width : Nat) : Value := .bv width (.ofNat _ n)

def signBool (value : Value) : Value :=
  Smt.bveq (Smt.extract (value.width - 1) (value.width - 1) value) (fromU64 1 1)

def unsignedAddOverflow (a b : Value) : Value :=
  let sum := Smt.bvadd a b
  Smt.bvult sum a

def signedAddOverflow (a b : Value) : Value :=
  let sum := Smt.bvadd a b
  let sa := signBool a
  let sb := signBool b
  let ss := signBool sum
  Smt.or (Smt.and (Smt.and (Smt.not sa) (Smt.not sb)) ss) (Smt.and (Smt.and sa sb) (Smt.not ss))

def signedSubOverflow (a b : Value) : Value :=
  let diff := Smt.bvsub a b
  let sa := signBool a
  let sb := signBool b
  let sd := signBool diff
  Smt.or (Smt.and (Smt.and (Smt.not sa) sb) sd) (Smt.and (Smt.and sa (Smt.not sb)) (Smt.not sd))

def unsignedMulOverflow (a b : Value) : Value :=
  let width := a.width
  let product := Smt.bvmul (Smt.zeroExtend width a) (Smt.zeroExtend width b)
  let high := Smt.extract (width * 2 - 1) width product
  Smt.not (Smt.bveq high (fromU64 0 width))

def signedMulOverflow (a b : Value) : Value :=
  let width := a.width
  let product := Smt.bvmul (Smt.signExtend width a) (Smt.signExtend width b)
  let low := Smt.extract (width - 1) 0 product
  Smt.not (Smt.bveq product (Smt.signExtend width low))

def signedMinBv (width : Nat) : Value :=
  fromBits ((List.replicate width false).set (width - 1) true)

def onesBv (width : Nat) : Value := fromBits (List.replicate width true)

/-- The overflow arms of `translate`. -/
def overflow (a b : Value) : Overflow → Value
  | .uadd => unsignedAddOverflow a b
  | .usub => Smt.bvult a b
  | .umul => unsignedMulOverflow a b
  | .sadd => signedAddOverflow a b
  | .ssub => signedSubOverflow a b
  | .smul => signedMulOverflow a b
  | .neg => Smt.bveq a (signedMinBv a.width)
  | .sdiv => Smt.and (Smt.bveq a (signedMinBv a.width)) (Smt.bveq b (onesBv a.width))

/-! ## Z3 formulas are overflow predicates -/

variable {w : Nat} {x y : BitVec w}

theorem fromBits_eq {bits : List Bool} (h : bits = BitList.bits x) : fromBits bits = .bv w x := by
  rw [fromBits, h, BitList.toNat_bits]
  exact Value.bv_ofNat BitList.length_bits x

theorem signedMinBv_eq (hw : 0 < w) : signedMinBv w = .bv w (BitVec.intMin w) :=
  fromBits_eq (BitList.bits_intMin hw)

theorem onesBv_eq : onesBv w = .bv w (BitVec.allOnes w) := fromBits_eq BitList.replicate_true

theorem signBool_eq : signBool (.bv w x) = .bool x.msb := by
  have hone : fromU64 1 1 = .bv 1 (.ofBool true) := rfl
  rw [signBool, Value.width_bv, Smt.extract_sign, hone, Smt.bveq, Value.rel₂_bv]
  cases x.msb <;> rfl

theorem unsignedMulOverflow_eq (hw : 0 < w) :
    unsignedMulOverflow (.bv w x) (.bv w y) = .bool (x.umulOverflow y) := by
  dsimp only [unsignedMulOverflow, Value.width_bv]
  rw [Smt.zeroExtend_bv, Smt.zeroExtend_bv, Smt.bvmul, Value.map₂_bv,
    Smt.extract_eq (n := w) (by omega), fromU64, Smt.bveq, Value.rel₂_bv, Smt.not,
    Value.toBool_bool, Value.bool.injEq, Bool.eq_iff_iff, ← not_iff_not, Bool.not_eq_true,
    Bool.not_eq_true, Bool.not_eq_false', beq_iff_eq]
  exact Overflow.high_eq_zero

theorem signedMulOverflow_eq (hw : 0 < w) :
    signedMulOverflow (.bv w x) (.bv w y) = .bool (x.smulOverflow y) := by
  dsimp only [signedMulOverflow, Value.width_bv]
  rw [Smt.signExtend_bv, Smt.signExtend_bv, Smt.bvmul, Value.map₂_bv,
    Smt.extract_eq (n := w) (by omega), Nat.shiftRight_zero, BitVec.ofNat_toNat,
    Smt.signExtend_bv, Smt.bveq, Value.rel₂_bv, Smt.not, Value.toBool_bool, Value.bool.injEq,
    Bool.eq_iff_iff, ← not_iff_not, Bool.not_eq_true, Bool.not_eq_true, Bool.not_eq_false',
    beq_iff_eq]
  exact Overflow.signExtend_low_eq hw

/-- The formulas built for Z3 are the predicates. -/
theorem overflow_eq (op : Overflow) (hw : 0 < w) :
    overflow (.bv w x) (.bv w y) op = .bool (op.test x y) := by
  cases op with
  | uadd =>
    show Smt.bvult (Smt.bvadd (.bv w x) (.bv w y)) (.bv w x) = .bool (x.uaddOverflow y)
    rw [Smt.bvadd, Value.map₂_bv, Smt.bvult, Value.rel₂_bv, Overflow.ult_sum]
  | usub => exact Value.rel₂_bv _ x y
  | umul => exact unsignedMulOverflow_eq hw
  | sadd =>
    show signedAddOverflow (.bv w x) (.bv w y) = .bool (x.saddOverflow y)
    rw [← Overflow.sadd_signs, signedAddOverflow, Smt.bvadd, Value.map₂_bv, signBool_eq,
      signBool_eq, signBool_eq]
    rfl
  | ssub =>
    show signedSubOverflow (.bv w x) (.bv w y) = .bool (x.ssubOverflow y)
    rw [← Overflow.ssub_signs, signedSubOverflow, Smt.bvsub, Value.map₂_bv, signBool_eq,
      signBool_eq, signBool_eq]
    rfl
  | smul => exact signedMulOverflow_eq hw
  | neg =>
    show Smt.bveq (.bv w x) (signedMinBv w) = .bool x.negOverflow
    rw [signedMinBv_eq hw, Smt.bveq, Value.rel₂_bv, Overflow.beq_intMin hw]
  | sdiv =>
    show Smt.and (Smt.bveq (.bv w x) (signedMinBv w)) (Smt.bveq (.bv w y) (onesBv w)) =
      .bool (x.sdivOverflow y)
    rw [signedMinBv_eq hw, onesBv_eq, Smt.bveq, Value.rel₂_bv, Value.rel₂_bv,
      ← Overflow.beq_intMin_allOnes hw]
    rfl

end Z3

namespace Smt2

open Smtlib (IsToken Operation Printed Reading theory)

variable {a b : Printed} {w : Nat}

/-! ## The overflow formulas -/

/-- `sign`. -/
def signBit (a : Printed) (w : Nat) : Printed :=
  indexedApp "extract" (by decide) [w - 1, w - 1] a

/-- The sign bit of a term is the given one. -/
def signIs (a : Printed) (w : Nat) (bit : Bool) : Printed := equal (signBit a w) (literal [bit])

/-- The signs of both operands and of the result of a signed operation that overflows. -/
def signsClash (a b result : Printed) (w : Nat) (signs : List (Bool × Bool × Bool)) : Printed :=
  app "or" (by decide) (signs.map fun s => app "and" (by decide)
    [signIs a w s.1, signIs b w s.2.1, signIs result w s.2.2])

/-- The operands in twice the width, multiplied. -/
def wideProduct (extend : String) (h : IsToken extend) (a b : Printed) (w : Nat) : Printed :=
  app "bvmul" (by decide) [indexedApp extend h [w] a, indexedApp extend h [w] b]

theorem isToken_bvadd : IsToken "bvadd" := by decide

theorem isToken_bvsub : IsToken "bvsub" := by decide

/-- The least number of a width. -/
def minBits (w : Nat) : List Bool := List.replicate (w - 1) false ++ [true]

def overflowTerm (a b : Printed) (w : Nat) : Overflow → Printed
  | .uadd => app "bvult" (by decide) [app "bvadd" (by decide) [a, b], a]
  | .usub => app "bvult" (by decide) [a, b]
  | .umul =>
    let product := wideProduct "zero_extend" isToken_zero_extend a b w
    app "not" (by decide) [equal (indexedApp "extract" (by decide) [w * 2 - 1, w] product)
      (literal (List.replicate w false))]
  | .sadd => signsClash a b (app "bvadd" isToken_bvadd [a, b]) w
      [(false, false, true), (true, true, false)]
  | .ssub => signsClash a b (app "bvsub" isToken_bvsub [a, b]) w
      [(false, true, true), (true, false, false)]
  | .smul =>
    let product := wideProduct "sign_extend" isToken_sign_extend a b w
    let low := indexedApp "extract" (by decide) [w - 1, 0] product
    app "not" (by decide) [equal product (indexedApp "sign_extend" isToken_sign_extend [w] low)]
  | .neg => equal a (literal (minBits w))
  | .sdiv => app "and" (by decide) [equal a (literal (minBits w)),
      equal b (literal (List.replicate w true))]

section Texts

variable {s t : String} (ha : s.toList = a.text) (hb : t.toList = b.text)

theorem toList_zeroBv : (zeroBv w).toList = (literal (List.replicate w false)).text := by
  rw [text_literal, toList_binaryText]
  unfold zeroBv
  simp only [String.toList_append, String.toList_ofList, toString]
  simp

theorem toList_onesBv : (onesBv w).toList = (literal (List.replicate w true)).text := by
  rw [text_literal, toList_binaryText]
  unfold onesBv
  simp only [String.toList_append, String.toList_ofList, toString]
  simp

theorem toList_signedMinBv : (signedMinBv w).toList = (literal (minBits w)).text := by
  rw [text_literal, toList_binaryText]
  unfold signedMinBv minBits
  simp only [String.toList_append, String.toList_ofList]
  simp

include ha

theorem toList_sign : (sign s w).toList = (signBit a w).text := by
  unfold sign signBit
  simp only [String.toList_append, ha, text_indexedApp, toString]
  simp

theorem toList_negOverflow : (negOverflow s w).toList = (overflowTerm a b w .neg).text := by
  unfold negOverflow overflowTerm equal
  simp only [String.toList_append, ha, toList_signedMinBv, text_app, toString]
  simp

include hb

theorem toList_unsignedAddOverflow :
    (unsignedAddOverflow s t).toList = (overflowTerm a b w .uadd).text := by
  unfold unsignedAddOverflow overflowTerm
  simp only [String.toList_append, ha, hb, text_app, toString]
  simp [text_app]

theorem toList_unsignedSubOverflow :
    (unsignedSubOverflow s t).toList = (overflowTerm a b w .usub).text := by
  unfold unsignedSubOverflow overflowTerm
  simp only [String.toList_append, ha, hb, text_app, toString]
  simp

theorem toList_unsignedMulOverflow :
    (unsignedMulOverflow s t w).toList = (overflowTerm a b w .umul).text := by
  unfold unsignedMulOverflow overflowTerm wideProduct equal
  simp only [String.toList_append, ha, hb, toList_zeroBv, text_app, toString]
  simp [text_app, text_indexedApp]

theorem toList_bvadd :
    ("(bvadd " ++ s ++ " " ++ t ++ ")").toList = (app "bvadd" isToken_bvadd [a, b]).text := by
  simp only [String.toList_append, ha, hb, text_app]
  simp

theorem toList_bvsub :
    ("(bvsub " ++ s ++ " " ++ t ++ ")").toList = (app "bvsub" isToken_bvsub [a, b]).text := by
  simp only [String.toList_append, ha, hb, text_app]
  simp

theorem toList_signedAddOverflow :
    (signedAddOverflow s t w).toList = (overflowTerm a b w .sadd).text := by
  unfold signedAddOverflow overflowTerm signsClash signIs equal
  simp only [String.toList_append, toList_sign ha, toList_sign hb, toList_sign (toList_bvadd ha hb),
    text_app, toString]
  simp [text_app, toList_binaryText]

theorem toList_signedSubOverflow :
    (signedSubOverflow s t w).toList = (overflowTerm a b w .ssub).text := by
  unfold signedSubOverflow overflowTerm signsClash signIs equal
  simp only [String.toList_append, toList_sign ha, toList_sign hb, toList_sign (toList_bvsub ha hb),
    text_app, toString]
  simp [text_app, toList_binaryText]

theorem toList_signedMulOverflow :
    (signedMulOverflow s t w).toList = (overflowTerm a b w .smul).text := by
  unfold signedMulOverflow overflowTerm wideProduct equal
  simp only [String.toList_append, ha, hb, text_app, toString]
  simp [text_app, text_indexedApp]

theorem toList_signedDivOverflow :
    (signedDivOverflow s t w).toList = (overflowTerm a b w .sdiv).text := by
  unfold signedDivOverflow overflowTerm equal
  simp only [String.toList_append, ha, hb, toList_signedMinBv, toList_onesBv, text_app, toString]
  simp [text_app]

/-- The formula is printed as its text. -/
theorem toList_overflowText (op : Overflow) :
    (overflowText s t w op).toList = (overflowTerm a b w op).text := by
  cases op with
  | uadd => exact toList_unsignedAddOverflow ha hb
  | usub => exact toList_unsignedSubOverflow ha hb
  | umul => exact toList_unsignedMulOverflow ha hb
  | sadd => exact toList_signedAddOverflow ha hb
  | ssub => exact toList_signedSubOverflow ha hb
  | smul => exact toList_signedMulOverflow ha hb
  | neg => exact toList_negOverflow ha
  | sdiv => exact toList_signedDivOverflow ha hb

end Texts

/-! ## Printed formulas are overflow predicates -/

section Values

variable {R : Reading} {scope : Smtlib.Scope} {x y z : BitVec w} {c : Printed}
  (hR : PlainReading R scope) (hw : 0 < w) (hlen : w ≤ 65536)
  (ha : Denotes R scope a (.bv w x)) (hb : Denotes R scope b (.bv w y))
  (hc : Denotes R scope c (.bv w z))

include hw hlen

include ha in
theorem denotes_signBit : Denotes R scope (signBit a w) (.bv 1 (.ofBool x.msb)) := by
  rw [← Smt.extract_sign, Smt.extract_eq (n := 1) (by omega)]
  exact denotes_extract _ _ ha le_rfl (by omega) (by omega) (by omega)

include hR

include ha in
theorem denotes_signIs (bit : Bool) :
    Denotes R scope (signIs a w bit) (.bool (x.msb == bit)) := by
  have hlit : Denotes R scope (literal [bit]) (.bv 1 (.ofBool bit)) := by
    have h : Denotes R scope (literal [bit]) _ := denotes_literal hR (by simp) (by simp)
    cases bit <;> exact h
  have h := denotes_equal hR (denotes_signBit hw hlen ha) hlit
  have hbits : (BitVec.ofBool x.msb == BitVec.ofBool bit) = (x.msb == bit) := by
    cases x.msb <;> cases bit <;> rfl
  rwa [hbits] at h

include ha hb hc in
theorem denotes_signs {p q r : Bool} :
    Denotes R scope (app "and" (by decide) [signIs a w p, signIs b w q, signIs c w r])
      (.bool (x.msb == p && y.msb == q && z.msb == r)) := by
  refine denotes_app hR (f := Smtlib.foldBools true Smt.and) rfl
    (.cons (denotes_signIs hR hw hlen ha p) (.cons (denotes_signIs hR hw hlen hb q)
      (.cons (denotes_signIs hR hw hlen hc r) .nil))) ?_
  simp [Smtlib.foldBools, Smtlib.sortOf, Smt.and]

theorem denotes_bits {bits : List Bool} (h : bits = BitList.bits x) :
    Denotes R scope (literal bits) (.bv w x) := by
  have hbits : bits.length = w := by rw [h, BitList.length_bits]
  rw [← Value.bv_ofNat hbits x, ← BitList.toNat_bits (v := x), ← h]
  exact denotes_literal hR (List.ne_nil_of_length_pos (by omega)) (by omega)

theorem denotes_minBits : Denotes R scope (literal (minBits w)) (.bv w (BitVec.intMin w)) := by
  refine denotes_bits hR hw hlen ?_
  rw [← BitList.bits_intMin hw, minBits]
  obtain ⟨k, rfl⟩ := Nat.exists_eq_add_one_of_ne_zero hw.ne'
  simp [List.replicate_succ']

omit hw in
include ha hb in
theorem denotes_wideProduct {extend : String} {h : IsToken extend} {k : Nat → Value → Value}
    (hop : ∀ n, (Smtlib.indexedTheory n).lookup extend = some (Smtlib.onBv (k n)))
    {f : ∀ n, BitVec w → BitVec n} (hf : ∀ z, k w (.bv w z) = .bv (w + w) (f (w + w) z)) :
    Denotes R scope (wideProduct extend h a b w) (.bv (w + w) (f (w + w) x * f (w + w) y)) := by
  have hwide : ∀ {c : Printed} {z : BitVec w}, Denotes R scope c (.bv w z) →
      Denotes R scope (indexedApp extend h [w] c) (.bv (w + w) (f (w + w) z)) := by
    intro c z hc
    rw [← hf]
    exact denotes_indexed (hop w) (by omega) hc rfl
  have hmul := denotes_foldBvs (h := (by decide : IsToken "bvmul")) hR (g := Smt.bvmul) rfl
    (hwide ha) (hwide hb)
  rwa [Smt.bvmul, Value.map₂_bv] at hmul

include ha hb in
theorem denotes_unsignedMulOverflow :
    Denotes R scope (overflowTerm a b w .umul) (.bool (x.umulOverflow y)) := by
  have hproduct := denotes_wideProduct (h := isToken_zero_extend) hR hlen ha hb (fun _ => rfl)
    (fun z => Smt.zeroExtend_bv w z)
  have hhigh := denotes_extract (w * 2 - 1) w hproduct (n := w) (by omega) (by omega)
    (by omega) (by omega)
  have hzero : Denotes R scope (literal (List.replicate w false)) (.bv w 0) :=
    denotes_bits hR hw hlen (BitList.eq_bits (by simp) (by simp))
  have h := denotes_not hR (denotes_equal hR hhigh hzero)
  have hbool : (!(BitVec.ofNat w ((x.setWidth (w + w) * y.setWidth (w + w)).toNat >>> w) == 0)) =
      x.umulOverflow y := by
    rw [Bool.eq_iff_iff, ← not_iff_not, Bool.not_eq_true, Bool.not_eq_true, Bool.not_eq_false',
      beq_iff_eq]
    exact Overflow.high_eq_zero
  rwa [hbool] at h

include ha hb in
theorem denotes_signedMulOverflow :
    Denotes R scope (overflowTerm a b w .smul) (.bool (x.smulOverflow y)) := by
  have hproduct := denotes_wideProduct (h := isToken_sign_extend) hR hlen ha hb (fun _ => rfl)
    (fun z => Smt.signExtend_bv w z)
  have hlow := denotes_extract (w - 1) 0 hproduct (n := w) (by omega) (by omega)
    (by omega) (by omega)
  rw [Nat.shiftRight_zero, BitVec.ofNat_toNat] at hlow
  have hext := denotes_indexed (h := isToken_sign_extend) rfl (by omega) hlow
    (congrArg some (Smt.signExtend_bv w _))
  have h := denotes_not hR (denotes_equal hR hproduct hext)
  have hbool : (!(x.signExtend (w + w) * y.signExtend (w + w) ==
      ((x.signExtend (w + w) * y.signExtend (w + w)).setWidth w).signExtend (w + w))) =
        x.smulOverflow y := by
    rw [Bool.eq_iff_iff, ← not_iff_not, Bool.not_eq_true, Bool.not_eq_true, Bool.not_eq_false',
      beq_iff_eq]
    exact Overflow.signExtend_low_eq hw
  rwa [hbool] at h

include ha hb hc in
theorem denotes_signsClash (p q : Bool × Bool × Bool) :
    Denotes R scope (signsClash a b c w [p, q])
      (.bool (x.msb == p.1 && y.msb == p.2.1 && z.msb == p.2.2 ||
        x.msb == q.1 && y.msb == q.2.1 && z.msb == q.2.2)) :=
  denotes_app₂ hR (f := Smtlib.foldBools false Smt.or) rfl (denotes_signs hR hw hlen ha hb hc)
    (denotes_signs hR hw hlen ha hb hc) (by simp [Smtlib.foldBools, Smtlib.sortOf, Smt.or])

include ha hb in
/-- A printed formula has the value of the predicate. -/
theorem denotes_overflowTerm (op : Overflow) :
    Denotes R scope (overflowTerm a b w op) (.bool (op.test x y)) := by
  have hmin {c : Printed} {z : BitVec w} (hc : Denotes R scope c (.bv w z)) :
      Denotes R scope (equal c (literal (minBits w))) (.bool (z == BitVec.intMin w)) :=
    denotes_equal hR hc (denotes_minBits hR hw hlen)
  cases op with
  | uadd =>
    have hsum := denotes_foldBvs (h := isToken_bvadd) hR (g := Smt.bvadd) rfl ha hb
    rw [Smt.bvadd, Value.map₂_bv] at hsum
    have h := denotes_onBvs (h := (by decide : IsToken "bvult")) hR (g := Smt.bvult) rfl hsum ha
    rwa [Smt.bvult, Value.rel₂_bv, Overflow.ult_sum] at h
  | usub =>
    have h := denotes_onBvs (h := (by decide : IsToken "bvult")) hR (g := Smt.bvult) rfl ha hb
    rwa [Smt.bvult, Value.rel₂_bv] at h
  | umul => exact denotes_unsignedMulOverflow hR hw hlen ha hb
  | sadd =>
    have hsum := denotes_foldBvs (h := isToken_bvadd) hR (g := Smt.bvadd) rfl ha hb
    rw [Smt.bvadd, Value.map₂_bv] at hsum
    have h := denotes_signsClash hR hw hlen ha hb hsum (false, false, true) (true, true, false)
    simp only [beq_false, beq_true, Overflow.sadd_signs] at h
    exact h
  | ssub =>
    have hdiff := denotes_onBvs (h := isToken_bvsub) hR (g := Smt.bvsub) rfl ha hb
    rw [Smt.bvsub, Value.map₂_bv] at hdiff
    have h := denotes_signsClash hR hw hlen ha hb hdiff (false, true, true) (true, false, false)
    simp only [beq_false, beq_true, Overflow.ssub_signs] at h
    exact h
  | smul => exact denotes_signedMulOverflow hR hw hlen ha hb
  | neg =>
    have h := hmin ha
    rwa [Overflow.beq_intMin hw] at h
  | sdiv =>
    have hones := denotes_equal hR hb (denotes_bits hR hw hlen BitList.replicate_true)
    have h := denotes_app₂ (h := (by decide : IsToken "and")) hR
      (f := Smtlib.foldBools true Smt.and) rfl
      (hmin ha) hones (r := .bool (x == BitVec.intMin w && y == BitVec.allOnes w))
      (by simp [Smtlib.foldBools, Smtlib.sortOf, Smt.and])
    rwa [Overflow.beq_intMin_allOnes hw] at h

end Values

end Smt2

/-! ## All three backends -/

section Backends

open Qfbv (Bits Circuits.overflow GateArena GateKind)
open Qfbv.Cnf (inputsArena length_inputsArena)
open Smtlib (Printed Reading readScript)
open Smt2 (PlainReading Denotes overflowText)

/-- Gates of the arena that compute the bits of `x`. -/
def GatesOf (arena : GateArena) (inputs : Nat → Bool) {w : Nat} (gates : Bits) (x : BitVec w) :
    Prop :=
  (∀ g ∈ gates, g < arena.gates.length) ∧ gates.map (arena.value inputs) = BitList.bits x

variable {arena : GateArena} {inputs : Nat → Bool} {w : Nat} {x y : BitVec w} {a b : Bits}

theorem GatesOf.computesAll (h : GatesOf arena inputs a x) :
    arena.ComputesAll inputs a (BitList.bits x) := by
  rw [← h.2]
  exact GateArena.computesAll_self h.1

/-- In an arena with all its ids in use, the carry of two inputs is the constant true. -/
theorem uaddOverflow_run {n : Nat} (hn : n + 2 = 2 ^ 32) :
    ∃ arena', (Circuits.overflow [2] [3] .uadd).run (inputsArena n) = (.ok 1, arena') := by
  let s₁ : GateArena := ⟨(inputsArena n).gates ++ [.xor 2 3], n⟩
  let s₂ : GateArena := ⟨s₁.gates ++ [.and 2 3], n⟩
  have hlen : s₁.gates.length = 2 ^ 32 + 1 := by
    show ((inputsArena n).gates ++ [GateKind.xor 2 3]).length = _
    rw [List.length_append, length_inputsArena, hn]
    rfl
  have hxor : (GateArena.xor 2 3).run (inputsArena n) = (.ok 0, s₁) := by
    show (GateArena.addRaw (.xor 2 3)).run (inputsArena n) = _
    rw [GateArena.addRaw_run (by simp [inputsArena]), length_inputsArena, hn, Nat.mod_self]
    rfl
  have hsum : (GateArena.xor 0 0).run s₁ = (.ok 0, s₁) := rfl
  have hget : ∀ id, id < 2 → s₁.gates[id + 2]? = some (.input id) := by
    intro id hid
    have hid : id < n := by omega
    simp [s₁, inputsArena, List.getElem?_append_left, hid]
  have hnot : (GateArena.isNegationPair 2 3).run s₁ = (.ok false, s₁) := by
    have hfirst : (GateArena.gate 2).run s₁ = (.ok (.input 0), s₁) := by
      rw [GateArena.gate, Grow.run_read, hget 0 (by omega)]
      rfl
    have hsecond : (GateArena.gate 3).run s₁ = (.ok (.input 1), s₁) := by
      rw [GateArena.gate, Grow.run_read, hget 1 (by omega)]
      rfl
    rw [GateArena.isNegationPair, Grow.run_bind_ok hfirst, if_neg (by decide),
      Grow.run_bind_ok hsecond]
    rfl
  have hand : (GateArena.and 2 3).run s₁ = (.ok 1, s₂) := by
    show (do if ← GateArena.isNegationPair 2 3 then pure 0 else GateArena.addRaw (.and 2 3) :
      Qfbv.GateM Nat).run s₁ = _
    rw [Grow.run_bind_ok hnot, if_neg (by decide), GateArena.addRaw_run (by simp [s₁, inputsArena]), hlen]
    rfl
  have hcarry : (GateArena.and 0 0).run s₂ = (.ok 0, s₂) := rfl
  have hor : (GateArena.or 1 0).run s₂ = (.ok 1, s₂) := rfl
  refine ⟨s₂, ?_⟩
  show (do
    let sum ← Qfbv.Circuits.addWithCarry [2] [3] 0
    pure sum.2 : Qfbv.GateM Nat).run (inputsArena n) = _
  have hadd :
      (Qfbv.Circuits.addWithCarry [2] [3] 0).run (inputsArena n) = (.ok ([0], 1), s₂) := by
    rw [Qfbv.Circuits.addWithCarry, Grow.run_bind_ok hxor, Grow.run_bind_ok hsum,
      Grow.run_bind_ok hand, Grow.run_bind_ok hcarry, Grow.run_bind_ok hor]
    rfl
  rw [Grow.run_bind_ok hadd]
  rfl

theorem gatesOf_inputsArena {n id : Nat} (hn : n < 2 ^ 32) (hid : id < n) :
    GatesOf (inputsArena n) (fun _ => false) [id + 2] 0#1 := by
  have hget : (inputsArena n).gates[id + 2]? = some (.input id) := by
    simp [inputsArena, hid]
  have hvalue : (inputsArena n).value (fun _ => false) (id + 2) = _ :=
    GateArena.value_of_get (Qfbv.Cnf.inputsArena_built hn).inv hget
  refine ⟨?_, ?_⟩
  · simpa [length_inputsArena] using hid
  · rw [List.map_singleton, hvalue]
    rfl

end Backends

end Server
end SmtServer
