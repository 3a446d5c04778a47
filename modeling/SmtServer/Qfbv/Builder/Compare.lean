import SmtServer.Qfbv.Builder.Structure

/-!
# `builder.rs` — comparisons

An equality is decided, where that is possible, by bringing both sides to polynomial normal form,
and an equality or an unsigned comparison of an extension with a constant becomes one of what is
extended. These reductions call the comparison again, with a term that comes earlier and a constant.

A `BTreeMap` is the list of its entries in the order of their keys.
-/

namespace SmtServer
namespace Qfbv

open Lib Bytes

namespace Builder

/-! ## Polynomials -/

abbrev Monomial := List TermId

/-- `BTreeMap<Monomial, Vec<u8>>`. -/
abbrev Polynomial := List (Monomial × List UInt8)

/-- `get`, and then `insert` or `remove`. -/
def alterEntry (monomial : Monomial) (f : Option (List UInt8) → Option (List UInt8)) :
    Polynomial → Polynomial
  | [] => (f none).toList.map (monomial, ·)
  | (key, value) :: rest =>
    if key < monomial then (key, value) :: alterEntry monomial f rest
    else if key = monomial then (f (some value)).toList.map (monomial, ·) ++ rest
    else (f none).toList.map (monomial, ·) ++ (key, value) :: rest

def polynomialAddAssign (polynomial : Polynomial) (monomial : Monomial) (coefficient : List UInt8)
    (width : Nat) : Polynomial :=
  if isZeroBytes coefficient then polynomial
  else
    alterEntry monomial (fun existing =>
      let updated := match existing with
        | some existing => addBytes existing coefficient width
        | none => coefficient
      if isZeroBytes updated then none else some updated) polynomial

def polynomialConstant (bytes : List UInt8) : Polynomial :=
  if isZeroBytes bytes then [] else [([], bytes)]

def polynomialAtom (term : TermId) (width : Nat) : Result Polynomial := do
  let coefficient ← oneBytes width
  return [([term], coefficient)]

def polynomialAdd (left right : Polynomial) (width : Nat) : Polynomial :=
  right.foldl (fun out e => polynomialAddAssign out e.1 e.2 width) left

def polynomialSub (left right : Polynomial) (width : Nat) : Polynomial :=
  right.foldl (fun out e => polynomialAddAssign out e.1 (negBytes e.2 width) width) left

def polynomialNeg (poly : Polynomial) (width : Nat) : Polynomial :=
  poly.foldl (fun out e => polynomialAddAssign out e.1 (negBytes e.2 width) width) []

def polynomialScale (poly : Polynomial) (factor : List UInt8) (width : Nat) : Polynomial :=
  if isZeroBytes factor then []
  else poly.foldl (fun out e => polynomialAddAssign out e.1 (mulBytes e.2 factor width) width) []

/-- The inner loop of `polynomial_mul`. -/
def polynomialMulRow (left : Monomial × List UInt8) (right : Polynomial) (width : Nat)
    (out : Polynomial) : Option Polynomial :=
  right.foldlM (fun out e =>
    let monomial := (left.1 ++ e.1).mergeSort (· ≤ ·)
    if 16 < monomial.length then none
    else
      let out := polynomialAddAssign out monomial (mulBytes left.2 e.2 width) width
      if 512 < out.length then none else some out) out

def polynomialMul (left right : Polynomial) (width : Nat) : Option Polynomial :=
  left.foldlM (fun out e => polynomialMulRow e right width out) []

/-- `polynomial`, returning what is left of the budget with the polynomial. -/
def polynomial : (rounds : Nat) → (term : TermId) → (width budget : Nat) →
    ArenaR (Option (Polynomial × Nat))
  | 0, _, _, _ => (.panic : Result _)
  | rounds + 1, term, width, budget => do
    if budget = 0 then
      return none
    let budget := budget - 1
    if (← expectBv term "BV polynomial term") ≠ width then
      return none
    match (← node term).kind with
    | .bvConst _ bytes => return some (polynomialConstant bytes, budget)
    | .bvAdd a b =>
      let some (left, budget) ← polynomial rounds a width budget | return none
      let some (right, budget) ← polynomial rounds b width budget | return none
      return some (polynomialAdd left right width, budget)
    | .bvSub a b =>
      let some (left, budget) ← polynomial rounds a width budget | return none
      let some (right, budget) ← polynomial rounds b width budget | return none
      return some (polynomialSub left right width, budget)
    | .bvNeg child =>
      let some (poly, budget) ← polynomial rounds child width budget | return none
      return some (polynomialNeg poly width, budget)
    | .bvNot child =>
      let some (poly, budget) ← polynomial rounds child width budget | return none
      let minus := polynomialNeg poly width
      let one ← (oneBytes width : Result _)
      return some (polynomialAddAssign minus [] (negBytes one width) width, budget)
    | .bvMul a b =>
      let some (left, budget) ← polynomial rounds a width budget | return none
      let some (right, budget) ← polynomial rounds b width budget | return none
      return (polynomialMul left right width).map (·, budget)
    | .bvShl value amount =>
      let some shift ← constShiftAmount amount width
        | return some (← (polynomialAtom term width : Result _), budget)
      if width ≤ shift then
        return some ([], budget)
      let some (poly, budget) ← polynomial rounds value width budget | return none
      let len ← (bytesForWidth width : Result _)
      let factor := setBit (List.replicate len 0) shift
      return some (polynomialScale poly factor width, budget)
    | _ => return some (← (polynomialAtom term width : Result _), budget)

def polynomialEquality (a b : TermId) : ArenaR (Option Bool) := do
  let width ← expectSameBv a b "BV polynomial equality"
  if 128 < width then
    return none
  let some (left, budget) ← polynomial (a + 1) a width 512 | return none
  let some (right, _) ← polynomial (b + 1) b width budget | return none
  if left = right then
    return some true
  let diff := polynomialSub left right width
  if diff.isEmpty then
    return some true
  if diff.all fun e => e.1.isEmpty then
    return some false
  return none

/-! ## Equality -/

def oneBitIteConstEquality (ite constant : TermId) : ArenaM (Option TermId) := do
  let some (constWidth, constBytes) ← Grow.read (bvConstValue constant) | return none
  if constWidth ≠ 1 then
    return none
  let some (cond, thenValue, elseValue) ← Grow.read (bvIteParts ite) | return none
  let some thenBit ← Grow.read (oneBitConstValue thenValue) | return none
  let some elseBit ← Grow.read (oneBitConstValue elseValue) | return none
  let byte ← Grow.lift (.expect constBytes[0]?)
  let expected : Bool := byte &&& 1 ≠ 0
  if thenBit = expected ∧ elseBit ≠ expected then
    return some cond
  if thenBit ≠ expected ∧ elseBit = expected then
    return some (← boolNot cond)
  return some (← boolConst (thenBit == expected))

/-- `extension_const_equality`, given the equality it becomes. -/
def extensionConstEqualityWith (bvEq : TermId → TermId → ArenaM TermId)
    (extended constant : TermId) : ArenaM (Option TermId) := do
  let some (constWidth, constBytes) ← Grow.read (bvConstValue constant) | return none
  let some (child, childWidth, extra, signed) ← Grow.read (extensionParts extended) | return none
  if constWidth ≠ childWidth + extra then
    return none
  let childBytes := extractBytes constBytes 0 childWidth
  let inRange :=
    if signed then sextBytes childBytes childWidth extra == constBytes
    else highBitsZero constBytes childWidth constWidth
  if !inRange then
    return some (← boolFalse)
  let childConst ← bvConstBytes childBytes childWidth
  return some (← bvEq child childConst)

def bvEqRounds : (rounds : Nat) → (a b : TermId) → ArenaM TermId
  | 0, _, _ => outOfRounds
  | rounds + 1, a, b => do
    let _ ← Grow.read (expectSameBv a b "BV eq")
    if a = b then
      return ← boolTrue
    if ← Grow.read (isBvNegationPair a b) then
      return ← boolFalse
    if let some reduced ← oneBitIteConstEquality a b then
      return reduced
    if let some reduced ← oneBitIteConstEquality b a then
      return reduced
    if let some reduced ← extensionConstEqualityWith (bvEqRounds rounds) a b then
      return reduced
    if let some reduced ← extensionConstEqualityWith (bvEqRounds rounds) b a then
      return reduced
    if let some (av, bv) ← Grow.read (bvConstPair a b) then
      return ← boolConst (av == bv)
    if let some value ← Grow.read (polynomialEquality a b) then
      return ← boolConst value
    let (a, b) := orderPair a b
    Arena.add (.bvEq a b) .bool

def bvEq (a b : TermId) : ArenaM TermId := bvEqRounds (a + b + 1) a b

def bvNe (a b : TermId) : ArenaM TermId := do
  let eq ← bvEq a b
  boolNot eq

/-! ## Orders -/

/-- The constructors that `bv_cmp` is called with. -/
inductive Comparison where
  | ult
  | ule
  | slt
  | sle
  deriving DecidableEq

namespace Comparison

def node : Comparison → TermId → TermId → NodeKind
  | ult => .bvUlt
  | ule => .bvUle
  | slt => .bvSlt
  | sle => .bvSle

/-- The comparison of a term with itself. -/
def reflexive : Comparison → Bool
  | ult | slt => false
  | ule | sle => true

/-- The comparison of two constants. -/
def decide (av bv : List UInt8) (width : Nat) : Comparison → Bool
  | ult => cmpUnsignedBytes av bv == .lt
  | ule => cmpUnsignedBytes av bv != .gt
  | slt => signedLessThan av bv width
  | sle => signedLessThan av bv width || av == bv

/-- Whether an unsigned comparison is strict. -/
def strict? : Comparison → Option Bool
  | ult => some true
  | ule => some false
  | slt | sle => none

def ofStrict (strict : Bool) : Comparison := if strict then ult else ule

end Comparison

/-- `zero_extend_const_unsigned_cmp`, given the comparison it becomes. -/
def zeroExtendConstUnsignedCmpWith (bvCmp : Comparison → TermId → TermId → ArenaM TermId)
    (extended constant : TermId) (strict extendedOnLeft : Bool) : ArenaM (Option TermId) := do
  let some (constWidth, constBytes) ← Grow.read (bvConstValue constant) | return none
  let some (child, childWidth, extra, signed) ← Grow.read (extensionParts extended) | return none
  if signed ∨ constWidth ≠ childWidth + extra then
    return none
  let highZero := highBitsZero constBytes childWidth constWidth
  let constZero := isZeroBytes constBytes
  let constLow := extractBytes constBytes 0 childWidth
  let lowConst ← bvConstBytes constLow childWidth
  if extendedOnLeft then
    if strict then
      if constZero then
        return some (← boolFalse)
      if !highZero then
        return some (← boolTrue)
      return some (← bvCmp .ult child lowConst)
    if !highZero then
      return some (← boolTrue)
    return some (← bvCmp .ule child lowConst)
  if !highZero then
    return some (← boolFalse)
  if strict then
    if ← Grow.read (isAllOnes lowConst) then
      return some (← boolFalse)
    return some (← bvCmp .ult lowConst child)
  if constZero then
    return some (← boolTrue)
  return some (← bvCmp .ule lowConst child)

/-- The reductions of an unsigned comparison. -/
def unsignedCmpWith (bvCmp : Comparison → TermId → TermId → ArenaM TermId) (cmp : Comparison)
    (a b : TermId) : ArenaM (Option TermId) := do
  let some strict := cmp.strict? | return none
  if let some reduced ← zeroExtendConstUnsignedCmpWith bvCmp a b strict true then
    return some reduced
  zeroExtendConstUnsignedCmpWith bvCmp b a strict false

def bvCmpRounds : (rounds : Nat) → (cmp : Comparison) → (a b : TermId) → ArenaM TermId
  | 0, _, _, _ => outOfRounds
  | rounds + 1, cmp, a, b => do
    let width ← Grow.read (expectSameBv a b "BV comparison")
    if a = b then
      return ← boolConst cmp.reflexive
    if let some reduced ← unsignedCmpWith (bvCmpRounds rounds) cmp a b then
      return reduced
    if let some (av, bv) ← Grow.read (bvConstPair a b) then
      return ← boolConst (cmp.decide av bv width)
    Arena.add (cmp.node a b) .bool

def bvCmp (cmp : Comparison) (a b : TermId) : ArenaM TermId := bvCmpRounds (a + b + 1) cmp a b

def bvUlt (a b : TermId) : ArenaM TermId := bvCmp .ult a b

def bvUle (a b : TermId) : ArenaM TermId := bvCmp .ule a b

def bvUgt (a b : TermId) : ArenaM TermId := bvUlt b a

def bvUge (a b : TermId) : ArenaM TermId := bvUle b a

def bvSlt (a b : TermId) : ArenaM TermId := bvCmp .slt a b

def bvSle (a b : TermId) : ArenaM TermId := bvCmp .sle a b

def bvSgt (a b : TermId) : ArenaM TermId := bvSlt b a

def bvSge (a b : TermId) : ArenaM TermId := bvSle b a

/-! ## Overflow predicates -/

def uaddOvf (a b : TermId) : ArenaM TermId := overflowBinary a b .uAddOverflow

def saddOvf (a b : TermId) : ArenaM TermId := overflowBinary a b .sAddOverflow

def usubOvf (a b : TermId) : ArenaM TermId := overflowBinary a b .uSubOverflow

def ssubOvf (a b : TermId) : ArenaM TermId := overflowBinary a b .sSubOverflow

def umulOvf (a b : TermId) : ArenaM TermId := overflowBinary a b .uMulOverflow

def smulOvf (a b : TermId) : ArenaM TermId := overflowBinary a b .sMulOverflow

def negOvf (x : TermId) : ArenaM TermId := do
  let _ ← Grow.read (expectBv x "neg overflow")
  Arena.add (.negOverflow x) .bool

def sdivOvf (a b : TermId) : ArenaM TermId := overflowBinary a b .sDivOverflow

end Builder
end Qfbv
end SmtServer
