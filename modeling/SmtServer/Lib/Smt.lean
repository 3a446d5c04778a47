import Mathlib.Data.List.Basic

/-!
# QF_BV values and operators

The meaning of the SMT-LIB theory of fixed-size bit-vectors, as functions on values. A value
is a Bool or a bit-vector together with its width, so that a term of any sort denotes in one
type; an operator that expects two vectors of one width reads its second operand at the width
of its first (`Value.toBv`), which on well-sorted arguments is no conversion at all.

The operators themselves are the ones of core's `BitVec`, whose definitions carry the SMT-LIB
names; division is the SMT-LIB one (`smtUDiv`, `smtSDiv`), where a zero divisor gives all ones
and a zero modulus gives the dividend.
-/

namespace Lib
namespace Smt

/-- A value of the theory. -/
inductive Value where
  | bool (b : Bool)
  | bv (width : Nat) (x : BitVec width)
  deriving DecidableEq

namespace Value

instance : Inhabited Value := ⟨.bool false⟩

/-- The Bool a value stands for. -/
def toBool : Value → Bool
  | bool b => b
  | bv _ _ => false

/-- The width of a bit-vector value. -/
def width : Value → Nat
  | bool _ => 0
  | bv w _ => w

/-- The value read as a vector of width `w`. -/
def toBv (w : Nat) : Value → BitVec w
  | bool _ => 0
  | bv _ x => x.setWidth w

/-- The value read as a vector of its own width. -/
def bits (v : Value) : BitVec v.width := v.toBv v.width

@[simp] theorem toBool_bool (b : Bool) : (bool b).toBool = b := rfl
@[simp] theorem width_bv (w : Nat) (x : BitVec w) : (bv w x).width = w := rfl
@[simp] theorem toBv_bv (w : Nat) (x : BitVec w) : (bv w x).toBv w = x := BitVec.setWidth_eq x
@[simp] theorem bits_bv (w : Nat) (x : BitVec w) : (bv w x).bits = x := BitVec.setWidth_eq x

theorem bv_inj {w : Nat} {x y : BitVec w} : bv w x = bv w y ↔ x = y := by simp

/-- Vectors of one width, however it is written, with the same bits. -/
theorem bv_ext {w w' : Nat} {x : BitVec w} {y : BitVec w'} (hw : w = w')
    (h : ∀ i, i < w → x.getLsbD i = y.getLsbD i) : bv w x = bv w' y := by
  subst hw
  exact bv_inj.mpr (BitVec.eq_of_getLsbD_eq h)

theorem bv_ofNat {n w : Nat} (h : n = w) (x : BitVec w) :
    bv n (.ofNat n x.toNat) = bv w x := by
  subst h
  rw [BitVec.ofNat_toNat, BitVec.setWidth_eq]

/-- Lift a function on vectors of one width. -/
def map (f : ∀ {w : Nat}, BitVec w → BitVec w) (x : Value) : Value :=
  .bv x.width (f x.bits)

/-- Lift a binary function on vectors of one width. -/
def map₂ (f : ∀ {w : Nat}, BitVec w → BitVec w → BitVec w) (x y : Value) : Value :=
  .bv x.width (f x.bits (y.toBv x.width))

/-- Lift a predicate on two vectors of one width. -/
def rel₂ (f : ∀ {w : Nat}, BitVec w → BitVec w → Bool) (x y : Value) : Value :=
  .bool (f x.bits (y.toBv x.width))

@[simp] theorem map_bv (f : ∀ {w : Nat}, BitVec w → BitVec w) {w : Nat} (x : BitVec w) :
    map f (.bv w x) = .bv w (f x) := by
  rw [map, bits_bv]
  rfl

@[simp] theorem map₂_bv (f : ∀ {w : Nat}, BitVec w → BitVec w → BitVec w) {w : Nat}
    (x y : BitVec w) : map₂ f (.bv w x) (.bv w y) = .bv w (f x y) := by
  rw [map₂, bits_bv]
  simp

@[simp] theorem rel₂_bv (f : ∀ {w : Nat}, BitVec w → BitVec w → Bool) {w : Nat}
    (x y : BitVec w) : rel₂ f (.bv w x) (.bv w y) = .bool (f x y) := by
  rw [rel₂, bits_bv]
  simp

end Value

open Value

/-! ## Bit-vector operators -/

def bvnot : Value → Value := map fun x => ~~~x
def bvneg : Value → Value := map fun x => -x
def bvand : Value → Value → Value := map₂ fun x y => x &&& y
def bvor : Value → Value → Value := map₂ fun x y => x ||| y
def bvxor : Value → Value → Value := map₂ fun x y => x ^^^ y
def bvadd : Value → Value → Value := map₂ fun x y => x + y
def bvsub : Value → Value → Value := map₂ fun x y => x - y
def bvmul : Value → Value → Value := map₂ fun x y => x * y
def bvudiv : Value → Value → Value := map₂ fun x y => x.smtUDiv y
def bvurem : Value → Value → Value := map₂ fun x y => x.umod y
def bvsdiv : Value → Value → Value := map₂ fun x y => x.smtSDiv y
def bvsrem : Value → Value → Value := map₂ fun x y => x.srem y
def bvsmod : Value → Value → Value := map₂ fun x y => x.smod y
def bvshl : Value → Value → Value := map₂ fun x y => x <<< y
def bvlshr : Value → Value → Value := map₂ fun x y => x >>> y
def bvashr : Value → Value → Value := map₂ fun x y => x.sshiftRight' y

def extract (high low : Nat) (x : Value) : Value := .bv (high - low + 1) (x.bits.extractLsb high low)
def concat (x y : Value) : Value := .bv (x.width + y.width) (x.bits ++ y.bits)
def zeroExtend (extra : Nat) (x : Value) : Value := .bv (x.width + extra) (x.bits.setWidth _)
def signExtend (extra : Nat) (x : Value) : Value := .bv (x.width + extra) (x.bits.signExtend _)
def repeated (count : Nat) (x : Value) : Value := .bv (x.width * count) (x.bits.replicate count)
def rotateLeft (amount : Nat) : Value → Value := map fun x => x.rotateLeft amount
def rotateRight (amount : Nat) : Value → Value := map fun x => x.rotateRight amount

theorem extract_bv (high low : Nat) {w : Nat} (x : BitVec w) :
    extract high low (.bv w x) = .bv (high - low + 1) (x.extractLsb high low) := by
  rw [extract, bits_bv]
  rfl

theorem concat_bv {w v : Nat} (x : BitVec w) (y : BitVec v) :
    concat (.bv w x) (.bv v y) = .bv (w + v) (x ++ y) := by
  rw [concat, bits_bv, bits_bv]
  rfl

theorem zeroExtend_bv (extra : Nat) {w : Nat} (x : BitVec w) :
    zeroExtend extra (.bv w x) = .bv (w + extra) (x.setWidth (w + extra)) := by
  rw [zeroExtend, bits_bv]
  rfl

theorem signExtend_bv (extra : Nat) {w : Nat} (x : BitVec w) :
    signExtend extra (.bv w x) = .bv (w + extra) (x.signExtend (w + extra)) := by
  rw [signExtend, bits_bv]
  rfl

theorem repeated_bv (count : Nat) {w : Nat} (x : BitVec w) :
    repeated count (.bv w x) = .bv (w * count) (x.replicate count) := by
  rw [repeated, bits_bv]
  rfl

def ite (c t e : Value) : Value := if c.toBool then t else e

/-- A single bit. -/
theorem extract_self {w : Nat} (x : BitVec w) (i : Nat) :
    extract i i (.bv w x) = .bv 1 (.ofBool (x.getLsbD i)) := by
  rw [extract]
  refine bv_ext (by omega) fun j hj => ?_
  obtain rfl : j = 0 := by omega
  rw [BitVec.getLsbD_extractLsb, bits_bv]
  simp

/-- The first bit of a vector is its sign. -/
theorem extract_sign {w : Nat} (x : BitVec w) :
    extract (w - 1) (w - 1) (.bv w x) = .bv 1 (.ofBool x.msb) := by
  rw [extract_self, BitVec.msb_eq_getLsbD_last]

/-- The bits from `low` up, at the width the indices give. -/
theorem extract_eq {high low n w : Nat} (h : high - low + 1 = n) (x : BitVec w) :
    extract high low (.bv w x) = .bv n (.ofNat n (x.toNat >>> low)) := by
  subst h
  exact extract_bv high low x

/-- The value of the first case whose selector holds. -/
def select (cases : List (Value × Value)) (default : Value) : Value :=
  match cases with
  | [] => default
  | (c, v) :: rest => if c.toBool then v else select rest default

/-! ## Predicates -/

def not (x : Value) : Value := .bool (!x.toBool)
def and (x y : Value) : Value := .bool (x.toBool && y.toBool)
def or (x y : Value) : Value := .bool (x.toBool || y.toBool)
def implies (x y : Value) : Value := .bool (!x.toBool || y.toBool)
def iff (x y : Value) : Value := .bool (x.toBool == y.toBool)

def bveq : Value → Value → Value := rel₂ fun x y => x == y
def bvult : Value → Value → Value := rel₂ fun x y => x.ult y
def bvule : Value → Value → Value := rel₂ fun x y => x.ule y
def bvslt : Value → Value → Value := rel₂ fun x y => x.slt y
def bvsle : Value → Value → Value := rel₂ fun x y => x.sle y

def bvuaddo : Value → Value → Value := rel₂ fun x y => x.uaddOverflow y
def bvsaddo : Value → Value → Value := rel₂ fun x y => x.saddOverflow y
def bvusubo : Value → Value → Value := rel₂ fun x y => x.usubOverflow y
def bvssubo : Value → Value → Value := rel₂ fun x y => x.ssubOverflow y
def bvumulo : Value → Value → Value := rel₂ fun x y => x.umulOverflow y
def bvsmulo : Value → Value → Value := rel₂ fun x y => x.smulOverflow y
def bvnego (x : Value) : Value := .bool x.bits.negOverflow
def bvsdivo : Value → Value → Value := rel₂ fun x y => x.sdivOverflow y

end Smt
end Lib
