import Mathlib.Data.List.Sort
import SmtServer.Qfbv.Shortcuts.Popcount

/-!
# `popcount.rs` — four ways to count one bits

A query that asks for an input on which two programs count differently cannot be satisfied, if both
count right. One of the two looks at the bits of the input one by one; the other clears the lowest
one bit until the word is zero, adds up all rotations, or subtracts all shifts.

The matchers accept more than that. They walk down a chain of choices for as many rounds as the
words are wide and stop early where the chain starts; a chain that is longer, or that starts with
something else, is not told apart from one that ends there. The words in which the outcomes are
compared may be wider than one bit. When all this does no harm is `BrummayerFits`
(`brummayer_popcount_is_sound_iff`).
-/

namespace SmtServer
namespace Qfbv

open Lib Outcome Popcount

namespace Shortcuts

/-! ## Conditions -/

/-- What the matchers ask of the two sides of an equation: the one is a one, and the other is one or
zero, as a condition says. -/
def indicatorCondition (s : Arena) (one indicator : TermId) : Result (Option TermId) := do
  if !(← isOneBvConst s one) then return none
  let .bvIte cond thenValue elseValue ← kind s indicator | return none
  if ← isOneBvConst s thenValue <&&> isZeroBvConst s elseValue then return some cond
  return none

/-- `for (one, indicator) in [(a, b), (b, a)]`. -/
def indicatorConditionEither (s : Arena) (a b : TermId) : Result (Option TermId) := do
  match ← indicatorCondition s a b with
  | some cond => return some cond
  | none => indicatorCondition s b a

/-- The operand that an equation compares with a zero. -/
def zeroSide (s : Arena) (a b : TermId) : Result (Option TermId) := do
  if ← isZeroBvConst s a then return some b
  if ← isZeroBvConst s b then return some a
  return none

/-- The test at the end of `nonzero_test_condition`. -/
def notZeroSide (s : Arena) (term : TermId) : Result (Option TermId) := do
  let .boolNot child ← kind s term | return none
  let some (a, b) ← bvEqPair s child | return none
  zeroSide s a b

def nonzeroTestRounds (s : Arena) : (rounds : Nat) → (term : TermId) → Result (Option TermId)
  | 0, _ => .panic
  | rounds + 1, term => do
    match ← bvEqPair s term with
    | some (a, b) =>
      match ← indicatorConditionEither s a b with
      | some cond => nonzeroTestRounds s rounds cond
      | none => notZeroSide s term
    | none => notZeroSide s term

/-- A condition comes before the term that uses it. -/
def nonzeroTestCondition (s : Arena) (term : TermId) : Result (Option TermId) :=
  nonzeroTestRounds s (term + 1) term

def zeroTestRounds (s : Arena) : (rounds : Nat) → (term : TermId) → Result (Option TermId)
  | 0, _ => .panic
  | rounds + 1, term => do
    let some (a, b) ← bvEqPair s term | return none
    match ← zeroSide s a b with
    | some side => return some side
    | none =>
      match ← indicatorConditionEither s a b with
      | some cond => zeroTestRounds s rounds cond
      | none => return none

def zeroTestCondition (s : Arena) (term : TermId) : Result (Option TermId) :=
  zeroTestRounds s (term + 1) term

/-! ## Bits of the input -/

def constU64ThroughZeroExtendRounds (s : Arena) :
    (rounds : Nat) → (term : TermId) → Result (Option UInt64)
  | 0, _ => .panic
  | rounds + 1, term => do
    match ← kind s term with
    | .bvConst _ bytes => return some (bytesToU64 bytes)
    | .bvZeroExtend child _ => constU64ThroughZeroExtendRounds s rounds child
    | _ => return none

def constU64ThroughZeroExtend (s : Arena) (term : TermId) : Result (Option UInt64) :=
  constU64ThroughZeroExtendRounds s (term + 1) term

/-- The loop of `onehot_const_bit` over the bits of a constant. -/
def onehotBit (bytes : List UInt8) : (bits : List Nat) → (found : Option Nat) → Result (Option Nat)
  | [], found => return found
  | bit :: bits, found => do
    let byte ← expect bytes[bit / 8]?
    if (byte >>> UInt8.ofNat (bit % 8)) &&& 1 = 0 then onehotBit bytes bits found
    else if found.isSome then return none
    else onehotBit bytes bits (some bit)

def onehotConstBit (s : Arena) (term : TermId) (width : Nat) : Result (Option Nat) := do
  match ← kind s term with
  | .bvConst actualWidth bytes =>
    if actualWidth ≠ width then return none
    onehotBit bytes (List.range width) none
  | _ => return none

/-- One of the two sides of `onehot_mask_bit`. -/
def onehotMaskSide (s : Arena) (input : TermId) (width : Nat) (maybeInput mask : TermId) :
    Result (Option Nat) := do
  if maybeInput ≠ input then return none
  match ← onehotConstBit s mask width with
  | some bit => return some bit
  | none =>
    let .bvShl one amount ← kind s mask | return none
    if !(← isOneBvConst s one) then return none
    match ← constU64ThroughZeroExtend s amount with
    | some bit => return if bit.toNat < width then some bit.toNat else none
    | none => return none

def onehotMaskBit (s : Arena) (term input : TermId) (width : Nat) : Result (Option Nat) := do
  let some (a, b) ← bvAndParts s term | return none
  match ← onehotMaskSide s input width a b with
  | some bit => return some bit
  | none => onehotMaskSide s input width b a

def extractBitOf (s : Arena) (term input : TermId) (width : Nat) : Result (Option Nat) := do
  let .bvExtract child high low ← kind s term | return none
  return if child = input ∧ high = low ∧ high < width then some high else none

/-- One of the two sides of an equation that asks whether a bit is one. -/
def extractSide (s : Arena) (input : TermId) (width : Nat) (one bitTerm : TermId) :
    Result (Option Nat) := do
  if ← isOneBvConst s one then extractBitOf s bitTerm input width else return none

/-- One of the two sides of an equation whose negation asks whether a bit is one. -/
def maskSide (s : Arena) (input : TermId) (width : Nat) (masked zero : TermId) :
    Result (Option Nat) := do
  if ← isZeroBvConst s zero then onehotMaskBit s masked input width else return none

/-- `for (x, y) in [(a, b), (b, a)]`, up to the first answer. -/
def eitherSide (side : TermId → TermId → Result (Option Nat)) (a b : TermId) :
    Result (Option Nat) := do
  match ← side a b with
  | some bit => return some bit
  | none => side b a

def directExtract (s : Arena) (term input : TermId) (width : Nat) : Result (Option Nat) := do
  let some (a, b) ← bvEqPair s term | return none
  eitherSide (extractSide s input width) a b

def directMask (s : Arena) (term input : TermId) (width : Nat) : Result (Option Nat) := do
  let .boolNot child ← kind s term | return none
  let some (a, b) ← bvEqPair s child | return none
  eitherSide (maskSide s input width) a b

def directBitSetCondition (s : Arena) (term input : TermId) (width : Nat) :
    Result (Option Nat) := do
  match ← directExtract s term input width with
  | some bit => return some bit
  | none => directMask s term input width

def bitSetCondition (s : Arena) (term input : TermId) (width : Nat) : Result (Option Nat) := do
  match ← directBitSetCondition s term input width with
  | some bit => return some bit
  | none =>
    let some (a, b) ← bvEqPair s term | return none
    match ← indicatorConditionEither s a b with
    | some cond => directBitSetCondition s cond input width
    | none => return none

/-! ## Counters -/

def addOneToBase (s : Arena) (term base : TermId) : Result Bool := do
  let .bvAdd a b ← kind s term | return false
  (pure (a == base) <&&> isOneBvConst s b) <||> (pure (b == base) <&&> isOneBvConst s a)

/-- The loop of `matches_conditional_naive_popcount` and of `matches_wegner_popcount`: the
conditions with what `test` finds in them, and the term that is left when the rounds are used up.
`sides` puts the branch that counts first. -/
def counterWalk {α : Type} (s : Arena) (test : TermId → Result (Option α))
    (sides : TermId → TermId → TermId × TermId) :
    (rounds : Nat) → (current : TermId) → Result (Option (List (TermId × α) × Option TermId))
  | 0, current => return some ([], some current)
  | rounds + 1, current => do
    let .bvIte cond thenValue elseValue ← kind s current | return none
    match ← test cond with
    | none => return none
    | some found =>
      let (more, less) := sides thenValue elseValue
      if ← isZeroBvConst s less <&&> isOneBvConst s more then return some ([(cond, found)], none)
      if !(← addOneToBase s more less) then return none
      return (← counterWalk s test sides rounds less).map fun (founds, rest) =>
        ((cond, found) :: founds, rest)

def conditionalNaiveWalk (s : Arena) (term input : TermId) (width : Nat) :
    Result (Option (List (TermId × Nat) × Option TermId)) :=
  counterWalk s (fun cond => bitSetCondition s cond input width)
    (fun thenValue elseValue => (thenValue, elseValue)) width term

def matchesConditionalNaivePopcount (s : Arena) (term input : TermId) (width : Nat) :
    Result Bool := do
  match ← conditionalNaiveWalk s term input width with
  | none => return false
  | some (founds, _) =>
    let bits := founds.map (·.2)
    return bits.length = width ∧ (bits.insertionSort (· ≤ ·)).dedup = List.range width

def isAllOnesBv (s : Arena) (term : TermId) : Result Bool := do
  let .bv width ← s.sort term | return false
  isAllOnesBvConst s term width

def isMinusOneAdd (s : Arena) (term base : TermId) : Result Bool := do
  let .bvAdd a b ← kind s term | return false
  (pure (a == base) <&&> isAllOnesBv s b) <||> (pure (b == base) <&&> isAllOnesBv s a)

def matchesClearLowestSetBit (s : Arena) (term previous : TermId) : Result Bool := do
  let some (a, b) ← bvAndParts s term | return false
  (pure (a == previous) <&&> isMinusOneAdd s b previous) <||>
    (pure (b == previous) <&&> isMinusOneAdd s a previous)

def wegnerWalk (s : Arena) (term : TermId) (width : Nat) :
    Result (Option (List (TermId × TermId) × Option TermId)) :=
  counterWalk s (zeroTestCondition s) (fun thenValue elseValue => (elseValue, thenValue)) width term

def matchesWegnerPopcount (s : Arena) (term input : TermId) (width : Nat) : Result Bool := do
  match ← wegnerWalk s term width with
  | none => return false
  | some (founds, _) =>
    let states := (founds.map (·.2)).reverse
    if states.length ≠ width then return false
    if states.head? ≠ some input then return false
    (states.zip states.tail).allM fun (previous, state) => matchesClearLowestSetBit s state previous

/-! ## Shifts and rotations -/

structure SrlSubtractStep where
  cond : TermId
  xPrev : TermId
  xNext : TermId
  accPrev : TermId

def isOneShiftAmount (s : Arena) (term : TermId) : Result Bool := do
  return (← constU64ThroughZeroExtend s term) == some 1

def srlSubtractStep (s : Arena) (term : TermId) : Result (Option SrlSubtractStep) := do
  let .bvIte cond thenValue elseValue ← kind s term | return none
  let .bvSub accPrev xNext ← kind s thenValue | return none
  if accPrev ≠ elseValue then return none
  let .bvIte nextCond shifted xPrev ← kind s xNext | return none
  if nextCond ≠ cond then return none
  let .bvLShr shiftedChild amount ← kind s shifted | return none
  if shiftedChild ≠ xPrev then return none
  if !(← isOneShiftAmount s amount) then return none
  return some ⟨cond, xPrev, xNext, accPrev⟩

/-- The loop of `matches_srl_subtract_popcount`: its steps, the last of them first in the program. -/
def srlSubtractWalk (s : Arena) (input : TermId) :
    (rounds : Nat) → (current : TermId) → (expectedNext : Option TermId) →
      Result (Option (List SrlSubtractStep))
  | 0, _, _ => return some []
  | rounds + 1, current, expectedNext => do
    match ← srlSubtractStep s current with
    | none => return none
    | some step =>
      if expectedNext.any (step.xNext ≠ ·) then return none
      if (← nonzeroTestCondition s step.cond) ≠ some step.xPrev then return none
      if step.accPrev = input ∧ step.xPrev = input then return some [step]
      return (← srlSubtractWalk s input rounds step.accPrev (some step.xPrev)).map (step :: ·)

def matchesSrlSubtractPopcount (s : Arena) (term input : TermId) (width : Nat) : Result Bool := do
  return (← srlSubtractWalk s input width term none).any (·.length = width)

def rotationAmountRounds (s : Arena) (input : TermId) (width : Nat) :
    (rounds : Nat) → (term : TermId) → Result (Option Nat)
  | 0, _ => .panic
  | rounds + 1, term => do
    if term = input then return some 0
    match ← kind s term with
    | .bvRotateLeft child amount =>
      return (← rotationAmountRounds s input width rounds child).map fun childAmount =>
        (childAmount + amount % width) % width
    | .bvRotateRight child amount =>
      return (← rotationAmountRounds s input width rounds child).map fun childAmount =>
        (childAmount + width - amount % width) % width
    | _ => return none

def rotationAmountOf (s : Arena) (term input : TermId) (width : Nat) : Result (Option Nat) :=
  rotationAmountRounds s input width (term + 1) term

def matchesRotateSumPopcount (s : Arena) (term input : TermId) (width : Nat) : Result Bool := do
  let .bvNeg sum ← kind s term | return false
  let terms ← collectBvAddTerms s sum
  if terms.length ≠ width then return false
  markSeen (fun term => rotationAmountOf s term input width) .panic terms
    (List.replicate width false)

def matchesBrummayerPopcountAlgorithm (s : Arena) (term input : TermId) (width : Nat) :
    Result Bool :=
  matchesWegnerPopcount s term input width <||> matchesRotateSumPopcount s term input width <||>
    matchesSrlSubtractPopcount s term input width

/-! ## The pass -/

/-- One of the two sides of `popcount_counterexample_equality`. -/
def counterexampleSide (s : Arena) (candidate maybeZero : TermId) : Result (Option BvPair) := do
  if !(← isZeroBvConst s maybeZero) then return none
  let .bvNot indicator ← kind s candidate | return none
  let .bvIte cond thenValue elseValue ← kind s indicator | return none
  if !(← isOneBvConst s thenValue) then return none
  if !(← isZeroBvConst s elseValue) then return none
  bvEqPair s cond

def popcountCounterexampleEquality (s : Arena) (term : TermId) : Result (Option BvPair) := do
  let .boolNot child ← kind s term | return none
  let some (a, b) ← bvEqPair s child | return none
  match ← counterexampleSide s a b with
  | some pair => return some pair
  | none => counterexampleSide s b a

def brummayerVars (s : Arena) : List (TermId × Nat) :=
  s.nodes.zipIdx.filterMap fun (node, index) =>
    match node.kind with
    | .bvVar width _ _ => if 2 ≤ width ∧ width ≤ 4096 then some (index, width) else none
    | _ => none

/-- The body of the inner loop. -/
def brummayerVarMatches (s : Arena) (left right : TermId) (var : TermId × Nat) : Result Bool := do
  let (input, width) := var
  if (← s.sort left) ≠ .bv width then return false
  if (← s.sort right) ≠ .bv width then return false
  (matchesBrummayerPopcountAlgorithm s left input width <&&>
      matchesConditionalNaivePopcount s right input width) <||>
    (matchesBrummayerPopcountAlgorithm s right input width <&&>
      matchesConditionalNaivePopcount s left input width)

def hasBrummayerPopcountContradiction (q : Query) : Result Bool := do
  if q.assumptions ≠ [] ∨ 20000 < q.arena.nodes.length then return false
  let bvVars := brummayerVars q.arena
  if bvVars = [] then return false
  q.assertions.anyM fun assertion => do
    match ← popcountCounterexampleEquality q.arena assertion.root with
    | none => return false
    | some (left, right) => bvVars.anyM (brummayerVarMatches q.arena left right)

/-- Two programs for words of two bits, compared in words of the given width. -/
def comparedPopcounts (zero one : TermId) (width : Nat) : Query := .asserting [
    ⟨.bvVar 2 "x" (some 0), .bv 2⟩,
    ⟨.bvConst 2 [0], .bv 2⟩,
    ⟨.bvConst 2 [1], .bv 2⟩,
    ⟨.bvConst 1 [0], .bv 1⟩,
    ⟨.bvConst 1 [1], .bv 1⟩,
    ⟨.bvRotateLeft 0 1, .bv 2⟩,
    ⟨.bvAdd 0 5, .bv 2⟩,
    ⟨.bvNeg 6, .bv 2⟩,
    ⟨.bvExtract 0 0 0, .bv 1⟩,
    ⟨.bvExtract 0 1 1, .bv 1⟩,
    ⟨.bvEq 8 4, .bool⟩,
    ⟨.bvEq 9 4, .bool⟩,
    ⟨.bvIte 10 2 1, .bv 2⟩,
    ⟨.bvAdd 12 2, .bv 2⟩,
    ⟨.bvIte 11 13 12, .bv 2⟩,
    ⟨.bvEq 7 14, .bool⟩,
    ⟨.bvIte 15 one zero, .bv width⟩,
    ⟨.bvNot 16, .bv width⟩,
    ⟨.bvEq 17 zero, .bool⟩,
    ⟨.boolNot 18, .bool⟩] [19]

end Shortcuts
end Qfbv
end SmtServer
