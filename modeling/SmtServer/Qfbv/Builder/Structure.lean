import SmtServer.Qfbv.Builder.Arith

/-!
# `builder.rs` — slices, extensions, choices and connectives

An extract goes down through extracts and concatenations, and a concatenation of two neighbouring
extracts is one extract again, so these two call each other.
-/

namespace SmtServer
namespace Qfbv

open Lib Bytes

namespace Builder

/-! ## Slices -/

/-- `bv_concat`, given the extract it may become. -/
def bvConcatWith (bvExtract : TermId → Nat → Nat → ArenaM TermId) (high low : TermId) :
    ArenaM TermId := do
  let highWidth ← Grow.read (expectBv high "BV concat")
  let lowWidth ← Grow.read (expectBv low "BV concat")
  let width := highWidth + lowWidth
  Grow.lift (.ensure (width < 2 ^ 32) (.invalid "BV concat" "width overflow"))
  Grow.lift (validateBvWidth width "BV concat width")
  if let some (highBytes, lowBytes) ← Grow.read (bvConstPair high low) then
    return ← bvConstBytes (concatBytes highBytes highWidth lowBytes lowWidth) width
  if let some (highChild, highHi, highLo) ← Grow.read (bvExtractParts high) then
    if let some (lowChild, lowHi, lowLo) ← Grow.read (bvExtractParts low) then
      if highChild = lowChild ∧ lowHi + 1 = highLo then
        return ← bvExtract highChild highHi lowLo
  Arena.add (.bvConcat high low) (.bv width)

def bvExtractRounds : (rounds : Nat) → (child : TermId) → (high low : Nat) → ArenaM TermId
  | 0, _, _, _ => outOfRounds
  | rounds + 1, child, high, low => do
    let width ← Grow.read (expectBv child "BV extract")
    Grow.lift (.ensure (low ≤ high ∧ high < width) (.invalid "BV extract"
      s!"invalid bounds high={high}, low={low}, child width={width}"))
    if low = 0 ∧ high + 1 = width then
      return child
    let outWidth := high - low + 1
    if let some (_, bytes) ← Grow.read (bvConstValue child) then
      return ← bvConstBytes (extractBytes bytes low outWidth) outWidth
    if let some (inner, _, innerLow) ← Grow.read (look child (·.bvExtract?)) then
      return ← bvExtractRounds rounds inner (innerLow + high) (innerLow + low)
    if let some (highChild, lowChild) ← Grow.read (look child (·.bvConcat?)) then
      let lowWidth ← Grow.read (expectBv lowChild "BV concat low child")
      if high < lowWidth then
        return ← bvExtractRounds rounds lowChild high low
      if lowWidth ≤ low then
        return ← bvExtractRounds rounds highChild (high - lowWidth) (low - lowWidth)
      let lowPart ← bvExtractRounds rounds lowChild (lowWidth - 1) low
      let highPart ← bvExtractRounds rounds highChild (high - lowWidth) 0
      return ← bvConcatWith (bvExtractRounds rounds) highPart lowPart
    Arena.add (.bvExtract child high low) (.bv outWidth)

def bvExtract (child : TermId) (high low : Nat) : ArenaM TermId :=
  bvExtractRounds (child + 1) child high low

def bvConcat (high low : TermId) : ArenaM TermId := bvConcatWith bvExtract high low

/-! ## Extensions, repetitions and rotations -/

/-- `bv_zext` and `bv_sext`, which differ in the bits they add. -/
def bvExtend (what : String) (node : TermId → Nat → NodeKind)
    (fold : List UInt8 → Nat → Nat → List UInt8) (child : TermId) (extra : Nat) :
    ArenaM TermId := do
  let width ← Grow.read (expectBv child what)
  let outWidth := width + extra
  Grow.lift (.ensure (outWidth < 2 ^ 32) (.invalid what "width overflow"))
  Grow.lift (validateBvWidth outWidth (what ++ " width"))
  if extra = 0 then
    return child
  if let some (_, bytes) ← Grow.read (bvConstValue child) then
    return ← bvConstBytes (fold bytes width extra) outWidth
  Arena.add (node child extra) (.bv outWidth)

def bvZext (child : TermId) (extra : Nat) : ArenaM TermId :=
  bvExtend "BV zero extension" .bvZeroExtend
    (fun bytes width extra => resize bytes (divCeil8 (width + extra))) child extra

def bvSext (child : TermId) (extra : Nat) : ArenaM TermId :=
  bvExtend "BV sign extension" .bvSignExtend sextBytes child extra

def bvRepeat (child : TermId) (count : Nat) : ArenaM TermId := do
  Grow.lift (.ensure (count ≠ 0) (.invalid "BV repeat" "count must be positive"))
  let width ← Grow.read (expectBv child "BV repeat")
  let outWidth := width * count
  Grow.lift (.ensure (outWidth < 2 ^ 32) (.invalid "BV repeat" "width overflow"))
  Grow.lift (validateBvWidth outWidth "BV repeat width")
  if count = 1 then
    return child
  if let some (_, bytes) ← Grow.read (bvConstValue child) then
    return ← bvConstBytes (repeatBytes bytes width count) outWidth
  Arena.add (.bvRepeat child count) (.bv outWidth)

/-- `bv_rotate_left` and `bv_rotate_right`. -/
def bvRotate (what : String) (node : TermId → Nat → NodeKind)
    (fold : List UInt8 → Nat → Nat → List UInt8) (child : TermId) (amount : Nat) :
    ArenaM TermId := do
  let width ← Grow.read (expectBv child what)
  let amount := amount % width
  if amount = 0 then
    return child
  if let some (_, bytes) ← Grow.read (bvConstValue child) then
    return ← bvConstBytes (fold bytes width amount) width
  Arena.add (node child amount) (.bv width)

def bvRotateLeft (child : TermId) (amount : Nat) : ArenaM TermId :=
  bvRotate "BV rotate_left" .bvRotateLeft rotateLeftBytes child amount

def bvRotateRight (child : TermId) (amount : Nat) : ArenaM TermId :=
  bvRotate "BV rotate_right" .bvRotateRight rotateRightBytes child amount

/-! ## Choices -/

def bvIte (cond thenValue elseValue : TermId) : ArenaM TermId := do
  Grow.read (expectBool cond "BV ite condition")
  let width ← Grow.read (expectSameBv thenValue elseValue "BV ite branches")
  if thenValue = elseValue then
    return thenValue
  if let some value ← Grow.read (boolConstValue cond) then
    return if value then thenValue else elseValue
  Arena.add (.bvIte cond thenValue elseValue) (.bv width)

/-- One round of the loop of `bv_select`. -/
def checkSelectCase (width : Nat) (p : TermId × TermId) : ArenaR Unit := do
  expectBool p.1 "BV select selector"
  let valueWidth ← expectBv p.2 "BV select value"
  (.ensure (valueWidth = width) (.invalid "BV select"
    s!"value width {valueWidth} does not match default width {width}") : Result Unit)

def bvSelect (cases : List (TermId × TermId)) (default : TermId) : ArenaM TermId := do
  let width ← Grow.read (expectBv default "BV select default")
  Grow.read (cases.forM (checkSelectCase width))
  Arena.add (.bvSelect cases default) (.bv width)

/-! ## Connectives -/

def boolNot (x : TermId) : ArenaM TermId := do
  Grow.read (expectBool x "Bool not")
  if let some value ← Grow.read (boolConstValue x) then
    return ← boolConst (!value)
  if let some inner ← Grow.read (look x (·.boolNot?)) then
    return inner
  Arena.add (.boolNot x) .bool

def boolAnd (a b : TermId) : ArenaM TermId := do
  let (a, b) := orderPair a b
  Grow.read (expectBool a "Bool and")
  Grow.read (expectBool b "Bool and")
  if a = b then
    return a
  if ← Grow.read (isBoolNegationPair a b) then
    return ← boolFalse
  if let some value ← Grow.read (boolConstValue a) then
    return if value then b else a
  if let some value ← Grow.read (boolConstValue b) then
    return if value then a else b
  Arena.add (.boolAnd a b) .bool

def boolOr (a b : TermId) : ArenaM TermId := do
  let (a, b) := orderPair a b
  Grow.read (expectBool a "Bool or")
  Grow.read (expectBool b "Bool or")
  if a = b then
    return a
  if ← Grow.read (isBoolNegationPair a b) then
    return ← boolTrue
  if let some value ← Grow.read (boolConstValue a) then
    return if value then a else b
  if let some value ← Grow.read (boolConstValue b) then
    return if value then b else a
  Arena.add (.boolOr a b) .bool

def boolImplies (a b : TermId) : ArenaM TermId := do
  Grow.read (expectBool a "Bool implies")
  Grow.read (expectBool b "Bool implies")
  if a = b then
    return ← boolTrue
  if let some value ← Grow.read (boolConstValue a) then
    if value then
      return b
    return ← boolTrue
  if let some value ← Grow.read (boolConstValue b) then
    if value then
      return ← boolTrue
    return ← boolNot a
  Arena.add (.boolImplies a b) .bool

def boolEq (a b : TermId) : ArenaM TermId := do
  Grow.read (expectBool a "Bool eq")
  Grow.read (expectBool b "Bool eq")
  if a = b then
    return ← boolTrue
  if ← Grow.read (isBoolNegationPair a b) then
    return ← boolFalse
  if let some av ← Grow.read (boolConstValue a) then
    if let some bv ← Grow.read (boolConstValue b) then
      return ← boolConst (av == bv)
  let (a, b) := orderPair a b
  Arena.add (.boolEq a b) .bool

def boolXor (a b : TermId) : ArenaM TermId := do
  let eq ← boolEq a b
  boolNot eq

def boolIte (cond thenValue elseValue : TermId) : ArenaM TermId := do
  Grow.read (expectBool cond "Bool ite condition")
  Grow.read (expectBool thenValue "Bool ite then")
  Grow.read (expectBool elseValue "Bool ite else")
  if thenValue = elseValue then
    return thenValue
  if let some value ← Grow.read (boolConstValue cond) then
    return if value then thenValue else elseValue
  Arena.add (.boolIte cond thenValue elseValue) .bool

end Builder
end Qfbv
end SmtServer
