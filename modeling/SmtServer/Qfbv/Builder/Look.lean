import SmtServer.Qfbv.Arena
import SmtServer.Qfbv.Bytes

/-!
# `builder.rs` — building terms

`Builder` is the public way to make terms. Its methods add nodes to the arena, but they also
**rewrite**: constants are folded, sums are flattened and regrouped modulo `2 ^ w`, disjoint sums
become disjunctions, negations and shifts are pulled out of products, equalities between
polynomials are decided. A method that only looks at the arena (`&self`) is an `ArenaR`, one that
may add terms (`&mut self`) is an `ArenaM`.

Some methods call each other without a bound in sight: `bv_add` may call `bv_or`, which may call
`bv_add`; a nested right shift is taken apart and put together again; an extract goes down through
concatenations. They take a number of rounds, and running out of rounds is a **panic**. That it
never happens is part of what the specifications of these methods say, so the number of rounds is
not a restriction of the model.
-/

namespace SmtServer
namespace Qfbv

open Lib Bytes

/-- A method that looks at the arena. -/
abbrev ArenaR := ReaderT Arena Result

namespace Builder

def node (id : TermId) : ArenaR Node := fun s => s.node id

def sort (id : TermId) : ArenaR TermSort := fun s => s.sort id

def expectBool (id : TermId) (context : String) : ArenaR Unit := fun s => s.expectBool id context

def expectBv (id : TermId) (context : String) : ArenaR Nat := fun s => s.expectBv id context

def expectSameBv (a b : TermId) (context : String) : ArenaR Nat :=
  fun s => s.expectSameBv a b context

/-- No rounds left. -/
def outOfRounds {α : Type} : ArenaM α := Grow.lift .panic

def orderPair (a b : TermId) : TermId × TermId := if a ≤ b then (a, b) else (b, a)

/-! ## Looking at a term -/

end Builder

namespace NodeKind

def bvConst? : NodeKind → Option (Nat × List UInt8)
  | .bvConst width bytes => some (width, bytes)
  | _ => none

def boolConst? : NodeKind → Option Bool
  | .boolConst value => some value
  | _ => none

def bvIte? : NodeKind → Option (TermId × TermId × TermId)
  | .bvIte cond thenValue elseValue => some (cond, thenValue, elseValue)
  | _ => none

def bvNot? : NodeKind → Option TermId
  | .bvNot child => some child
  | _ => none

def bvNeg? : NodeKind → Option TermId
  | .bvNeg child => some child
  | _ => none

def boolNot? : NodeKind → Option TermId
  | .boolNot child => some child
  | _ => none

def bvShl? : NodeKind → Option (TermId × TermId)
  | .bvShl value amount => some (value, amount)
  | _ => none

def bvLShr? : NodeKind → Option (TermId × TermId)
  | .bvLShr value amount => some (value, amount)
  | _ => none

def bvAnd? : NodeKind → Option (TermId × TermId)
  | .bvAnd a b => some (a, b)
  | _ => none

def bvOr? : NodeKind → Option (TermId × TermId)
  | .bvOr a b => some (a, b)
  | _ => none

def bvMul? : NodeKind → Option (TermId × TermId)
  | .bvMul a b => some (a, b)
  | _ => none

def bvConcat? : NodeKind → Option (TermId × TermId)
  | .bvConcat high low => some (high, low)
  | _ => none

def bvExtract? : NodeKind → Option (TermId × Nat × Nat)
  | .bvExtract child high low => some (child, high, low)
  | _ => none

end NodeKind

namespace Builder

/-- `Ok(match &self.arena.node(id)?.kind { … => Some(…), _ => None })`. -/
def look {α : Type} (id : TermId) (f : NodeKind → Option α) : ArenaR (Option α) := do
  return f (← node id).kind

def bvConstValue (id : TermId) : ArenaR (Option (Nat × List UInt8)) := look id (·.bvConst?)

/-- `if let (Some((_, av)), Some((_, bv))) = (self.bv_const_value(a)?, self.bv_const_value(b)?)`. -/
def bvConstPair (a b : TermId) : ArenaR (Option (List UInt8 × List UInt8)) := do
  match ← bvConstValue a, ← bvConstValue b with
  | some (_, av), some (_, bv) => pure (some (av, bv))
  | _, _ => pure none

def boolConstValue (id : TermId) : ArenaR (Option Bool) := look id (·.boolConst?)

def oneBitConstValue (id : TermId) : ArenaR (Option Bool) := do
  match ← bvConstValue id with
  | some (1, bytes) =>
    let byte ← (.expect bytes[0]? : Result UInt8)
    pure (some (byte &&& 1 ≠ 0))
  | _ => pure none

def bvIteParts (id : TermId) : ArenaR (Option (TermId × TermId × TermId)) := look id (·.bvIte?)

def extensionParts (id : TermId) : ArenaR (Option (TermId × Nat × Nat × Bool)) := do
  match (← node id).kind with
  | .bvZeroExtend child extra =>
    let width ← expectBv child "BV zero extension child"
    pure (some (child, width, extra, false))
  | .bvSignExtend child extra =>
    let width ← expectBv child "BV sign extension child"
    pure (some (child, width, extra, true))
  | _ => pure none

def bvNegChild (id : TermId) : ArenaR (Option TermId) := look id (·.bvNeg?)

def bvShlParts (id : TermId) : ArenaR (Option (TermId × TermId)) := look id (·.bvShl?)

def bvLshrParts (id : TermId) : ArenaR (Option (TermId × TermId)) := look id (·.bvLShr?)

def bvExtractParts (id : TermId) : ArenaR (Option (TermId × Nat × Nat)) := look id (·.bvExtract?)

def isZero (id : TermId) : ArenaR Bool := do
  return (← bvConstValue id).any fun (_, bytes) => isZeroBytes bytes

def isOne (id : TermId) : ArenaR Bool := do
  return (← bvConstValue id).any fun (_, bytes) => isOneBytes bytes

def isAllOnes (id : TermId) : ArenaR Bool := do
  return (← bvConstValue id).any fun (width, bytes) =>
    bytes == maskUnusedHighBits (List.replicate bytes.length 0xff) width

def isBoolNegationPair (a b : TermId) : ArenaR Bool := do
  return (← look a (·.boolNot?)) == some b || (← look b (·.boolNot?)) == some a

def isBvNegationPair (a b : TermId) : ArenaR Bool := do
  return (← look a (·.bvNot?)) == some b || (← look b (·.bvNot?)) == some a

def bvAndContains (id child : TermId) : ArenaR Bool := do
  return (← look id (·.bvAnd?)).any fun (a, b) => a == child || b == child

def bvOrContains (id child : TermId) : ArenaR Bool := do
  return (← look id (·.bvOr?)).any fun (a, b) => a == child || b == child

def selfShiftLeftPair (a b : TermId) : ArenaR Bool := do
  return (← bvShlParts a) == some (b, b) || (← bvShlParts b) == some (a, a)

def constShiftAmount (id : TermId) (width : Nat) : ArenaR (Option Nat) := do
  match ← bvConstValue id with
  | none => pure none
  | some (_, bytes) => pure (some (bytesToBoundedUsize bytes width))

def shiftedSameAddParts (a b : TermId) : ArenaR (Option (TermId × TermId)) := do
  if let some (value, amount) ← bvShlParts a then
    if value = b ∧ (← bvConstValue value).isNone then
      return some (value, amount)
  if let some (value, amount) ← bvShlParts b then
    if value = a ∧ (← bvConstValue value).isNone then
      return some (value, amount)
  return none

/-- `possible_bit_mask_bytes`: which bits of a term may be set. `rounds` is `65 - depth`. -/
def possibleBitMaskBytes : (rounds : Nat) → (term : TermId) → (width : Nat) →
    ArenaR (Option (List UInt8))
  | 0, _, _ => pure none
  | rounds + 1, term, width => do
    if 4096 < width then return none
    let byteLen ← (bytesForWidth width : Result Nat)
    match (← node term).kind with
    | .bvConst actualWidth bytes =>
      if actualWidth = width then
        return some (maskUnusedHighBits (resize bytes byteLen) width)
      else return none
    | .bvVar actual _ _ =>
      if actual = width then
        return some (maskUnusedHighBits (List.replicate byteLen 0xff) width)
      else return none
    | .bvZeroExtend child extra =>
      let .bv childWidth ← sort child | return none
      if childWidth + extra = width then
        return (← possibleBitMaskBytes rounds child childWidth).map fun mask =>
          maskUnusedHighBits (resize mask byteLen) width
      else return none
    | .bvShl value amount =>
      let some shift ← constShiftAmount amount width | return none
      return (← possibleBitMaskBytes rounds value width).map fun mask => shlBytes mask width shift
    | .bvLShr value amount =>
      let some shift ← constShiftAmount amount width | return none
      return (← possibleBitMaskBytes rounds value width).map fun mask => lshrBytes mask width shift
    | .bvExtract child high low =>
      let .bv childWidth ← sort child | return none
      if high - low + 1 ≠ width then return none
      return (← possibleBitMaskBytes rounds child childWidth).map fun mask =>
        extractBytes mask low width
    | .bvConcat high low =>
      let .bv highWidth ← sort high | return none
      let .bv lowWidth ← sort low | return none
      if highWidth + lowWidth ≠ width then return none
      match ← possibleBitMaskBytes rounds high highWidth,
          ← possibleBitMaskBytes rounds low lowWidth with
      | some highMask, some lowMask =>
        return some (concatBytes highMask highWidth lowMask lowWidth)
      | _, _ => return none
    | .bvAnd left right =>
      match ← possibleBitMaskBytes rounds left width,
          ← possibleBitMaskBytes rounds right width with
      | some left, some right => return some (left.zipWith (· &&& ·) right)
      | some mask, none | none, some mask => return some mask
      | none, none => return none
    | .bvOr left right | .bvXor left right =>
      match ← possibleBitMaskBytes rounds left width,
          ← possibleBitMaskBytes rounds right width with
      | some left, some right => return some (left.zipWith (· ||| ·) right)
      | _, _ => return none
    | _ => return none

def haveDisjointPossibleBits (a b : TermId) (width : Nat) : ArenaR Bool := do
  if 4096 < width then return false
  match ← possibleBitMaskBytes 65 a width, ← possibleBitMaskBytes 65 b width with
  | some left, some right => return (left.zipWith (· &&& ·) right).all (· == 0)
  | _, _ => return false

end Builder
end Qfbv
end SmtServer
