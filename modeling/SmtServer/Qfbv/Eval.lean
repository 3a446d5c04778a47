import SmtServer.Lib.ByteString
import SmtServer.Qfbv.Bytes

/-!
# `eval.rs` — evaluating a query on bytes

The evaluator goes through the arena once and computes the value of every node from the values of
its children, on the byte strings of constants. Variables get their values from an assignment: the
same bit everywhere, words of a generator, or the strings of a table. A string from a table is taken
**as it is**: nothing checks its length, or masks the bits above the width of the variable.

Errors are those of `bytes_for_width`, and `values[id]` panics where there is no such value. Widths
are natural numbers: in an arena with the invariant none of the sums and products of widths below
comes near `2 ^ 32`.
-/

namespace SmtServer
namespace Qfbv

open Lib Outcome

/-- `Value`. -/
inductive EvalValue where
  | bool (value : Bool)
  | bv (width : Nat) (bytes : List UInt8)
  deriving DecidableEq

namespace EvalValue

def asBool : EvalValue → Result Bool
  | .bool value => ok value
  | .bv .. => err (.internal "expected Bool value during evaluation")

def asBv : EvalValue → Result (Nat × List UInt8)
  | .bv width bytes => ok (width, bytes)
  | .bool _ => err (.internal "expected BV value during evaluation")

end EvalValue

/-- A `BTreeMap` of values for variables that is only looked up in. -/
abbrev Assignment := TermId → Option (List UInt8)

inductive EvalAssignment where
  | constant (value : Bool)
  | seed (seed : UInt64)
  | explicit (values : Assignment)

namespace Eval

open Bytes

/-! ## Values of variables -/

def constantBytes (width : Nat) (ones : Bool) : Result (List UInt8) := do
  let len ← bytesForWidth width
  pure (maskUnusedHighBits (List.replicate len (if ones then 0xff else 0)) width)

def splitmix64 (value : UInt64) : UInt64 :=
  let value : UInt64 := value + 0x9e3779b97f4a7c15
  let value : UInt64 := (value ^^^ (value >>> 30)) * 0xbf58476d1ce4e5b9
  let value : UInt64 := (value ^^^ (value >>> 27)) * 0x94d049bb133111eb
  value ^^^ (value >>> 31)

/-- `seeded_word`; an external id is a `u32`. -/
def seededWord (seed : UInt64) (index : Nat) (name : String) (external : Option Nat)
    (chunk : UInt64) : UInt64 :=
  let indexWord : UInt64 := UInt64.ofNat index * 0x9e3779b97f4a7c15
  let externalWord : UInt64 := UInt64.ofNat (external.getD (2 ^ 32 - 1)) <<< 32
  let chunkWord : UInt64 := chunk * 0xbf58476d1ce4e5b9
  let state := seed ^^^ indexWord ^^^ externalWord ^^^ chunkWord
  let state := (utf8 name).foldl (fun (state : UInt64) byte =>
    let state : UInt64 := (state ^^^ byte.toUInt64) * 0x100000001b3
    state ^^^ (state >>> 32)) state
  splitmix64 state

def seededBool (seed : UInt64) (index : Nat) (name : String) (external : Option Nat) : Bool :=
  seededWord seed index name external 0 &&& 1 ≠ 0

/-- `seeded_bytes`: the last of the words may be cut off. -/
def seededBytes (width : Nat) (seed : UInt64) (index : Nat) (name : String)
    (external : Option Nat) : Result (List UInt8) := do
  let len ← bytesForWidth width
  let words := (List.range ((len + 7) / 8)).flatMap fun chunk =>
    leBytes 8 (seededWord seed index name external (UInt64.ofNat chunk)).toNat
  pure (maskUnusedHighBits (words.take len) width)

/-- The value of a Bool variable. -/
def boolVarValue (assignment : EvalAssignment) (index : Nat) (name : String)
    (external : Option Nat) : Bool :=
  match assignment with
  | .constant value => value
  | .seed seed => seededBool seed index name external
  | .explicit _ => false

/-- The bytes of a vector variable. -/
def bvVarBytes (assignment : EvalAssignment) (index : Nat) (width : Nat) (name : String)
    (external : Option Nat) : Result (List UInt8) :=
  match assignment with
  | .constant value => constantBytes width value
  | .seed seed => seededBytes width seed index name external
  | .explicit values =>
      ok ((values index).getD (List.replicate
        (match bytesForWidth width with | .ok len => len | _ => 0) 0))

/-! ## Operators

`values[x.index()].bool()?` and `values[x.index()].bv()?`. -/

variable (values : List EvalValue)

def boolAt (x : TermId) : Result Bool := do (← expect values[x]?).asBool

def bvAt (x : TermId) : Result (Nat × List UInt8) := do (← expect values[x]?).asBv

def unaryBv (x : TermId) (f : List UInt8 → Nat → List UInt8) : Result EvalValue := do
  let (width, bytes) ← bvAt values x
  pure (.bv width (f bytes width))

def binaryBv (a b : TermId) (f : List UInt8 → List UInt8 → Nat → List UInt8) :
    Result EvalValue := do
  let (width, av) ← bvAt values a
  let (_, bv) ← bvAt values b
  pure (.bv width (f av bv width))

def bitwiseBv (a b : TermId) (f : UInt8 → UInt8 → UInt8) : Result EvalValue :=
  binaryBv values a b fun av bv _ => av.zipWith f bv

def shiftValue (value amount : TermId) (f : List UInt8 → Nat → Nat → List UInt8) :
    Result EvalValue :=
  binaryBv values value amount fun bytes amountBytes width =>
    f bytes width (bytesToBoundedUsize amountBytes width)

/-- A predicate on two vectors. -/
def binaryBool (a b : TermId) (f : List UInt8 → List UInt8 → Nat → Bool) : Result EvalValue := do
  let (width, av) ← bvAt values a
  let (_, bv) ← bvAt values b
  pure (.bool (f av bv width))

def unsignedCmpValue (a b : TermId) (strict : Bool) : Result EvalValue :=
  binaryBool values a b fun av bv _ =>
    if strict then cmpUnsignedBytes av bv == .lt else cmpUnsignedBytes av bv != .gt

def signedCmpValue (a b : TermId) (strict : Bool) : Result EvalValue :=
  binaryBool values a b fun av bv width =>
    if strict then signedLessThan av bv width else !signedLessThan bv av width

/-- One round of `udiv_urem_bytes`, on quotient and remainder. -/
def udivUremStep (dividend divisor : List UInt8) (width : Nat) (st : List UInt8 × List UInt8)
    (bit : Nat) : List UInt8 × List UInt8 :=
  let remainder := shlBytes st.2 width 1
  let remainder := if getBit dividend bit then setBit remainder 0 else remainder
  if cmpUnsignedBytes remainder divisor ≠ .lt then
    (setBit st.1 bit, subBytes remainder divisor width)
  else (st.1, remainder)

def udivUremBytes (dividend divisor : List UInt8) (width : Nat) :
    Result (List UInt8 × List UInt8) :=
  if isZeroBytes divisor then do
    let quotient ← constantBytes width true
    pure (quotient, dividend)
  else do
    let quotient ← constantBytes width false
    let remainder ← constantBytes width false
    pure ((List.range width).reverse.foldl (udivUremStep dividend divisor width)
      (quotient, remainder))

def udivUremValue (a b : TermId) : Result (EvalValue × EvalValue) := do
  let (width, dividend) ← bvAt values a
  let (_, divisor) ← bvAt values b
  let (quotient, remainder) ← udivUremBytes dividend divisor width
  pure (.bv width quotient, .bv width remainder)

inductive SignedDivKind where
  | div
  | rem
  | mod

/-- The absolute value of a vector. -/
def absBytes (bytes : List UInt8) (width : Nat) : List UInt8 :=
  if getBit bytes (width - 1) then negBytes bytes width else bytes

/-- What `signed_div_rem_value` makes of the quotient and the remainder of the absolute values. -/
def signedResult (kind : SignedDivKind) (signA signB : Bool) (bv q r : List UInt8)
    (width : Nat) : List UInt8 :=
  match kind with
  | .div => if signA ^^ signB then negBytes q width else q
  | .rem => if signA then negBytes r width else r
  | .mod =>
      if isZeroBytes r then r
      else
        match signA, signB with
        | false, false => r
        | true, false => subBytes bv r width
        | false, true => addBytes bv r width
        | true, true => negBytes r width

def signedDivRemValue (a b : TermId) (kind : SignedDivKind) : Result EvalValue := do
  let (width, av) ← bvAt values a
  let (_, bv) ← bvAt values b
  let (q, r) ← udivUremBytes (absBytes av width) (absBytes bv width) width
  pure (.bv width (signedResult kind (getBit av (width - 1)) (getBit bv (width - 1)) bv q r width))

def unsignedAddOverflowValue (a b : TermId) : Result EvalValue :=
  binaryBool values a b fun av bv width => cmpUnsignedBytes (addBytes av bv width) av == .lt

def signedAddOverflowValue (a b : TermId) : Result EvalValue :=
  binaryBool values a b fun av bv width =>
    let sa := getBit av (width - 1)
    let sb := getBit bv (width - 1)
    let ss := getBit (addBytes av bv width) (width - 1)
    sa == sb && sa != ss

def signedSubOverflowValue (a b : TermId) : Result EvalValue :=
  binaryBool values a b fun av bv width =>
    let sa := getBit av (width - 1)
    let sb := getBit bv (width - 1)
    let sd := getBit (subBytes av bv width) (width - 1)
    sa != sb && sa != sd

/-- `unsigned_mul_overflow_value`: the product is computed at twice the width, and
`bytes_for_width` refuses that of operands wider than half of the widest vector. -/
def unsignedMulOverflowValue (a b : TermId) : Result EvalValue := do
  let (width, av) ← bvAt values a
  let (_, bv) ← bvAt values b
  let len ← bytesForWidth (width * 2)
  let product := mulBytes (resize av len) (resize bv len) (width * 2)
  pure (.bool ((List.range' width (width * 2 - width)).any fun bit => getBit product bit))

def signedMulOverflowValue (a b : TermId) : Result EvalValue :=
  binaryBool values a b fun av bv width =>
    let product := mulBytes (sextBytes av width width) (sextBytes bv width width) (width * 2)
    product != sextBytes (extractBytes product 0 width) width width

/-- Only the highest bit is set. -/
def isMinBytes (bytes : List UInt8) (width : Nat) : Bool :=
  getBit bytes (width - 1) && (List.range (width - 1)).all fun bit => !getBit bytes bit

def negOverflowValue (x : TermId) : Result EvalValue := do
  let (width, bytes) ← bvAt values x
  pure (.bool (isMinBytes bytes width))

def signedDivOverflowValue (a b : TermId) : Result EvalValue := do
  let (width, av) ← bvAt values a
  let (_, bv) ← bvAt values b
  let minusOne ← constantBytes width true
  pure (.bool (isMinBytes av width && bv == minusOne))

/-- The value of the first case whose selector holds. -/
def selected (default : TermId) : List (TermId × TermId) → Result TermId
  | [] => ok default
  | (selector, value) :: cases => do
      if ← boolAt values selector then pure value else selected default cases

/-! ## The pass -/

/-- One round of `evaluate`. -/
def evaluateNode (assignment : EvalAssignment) (index : Nat) : NodeKind → Result EvalValue
  | .boolConst value => ok (.bool value)
  | .boolVar name external => ok (.bool (boolVarValue assignment index name external))
  | .bvConst width bytes => ok (.bv width bytes)
  | .bvVar width name external => do
      let bytes ← bvVarBytes assignment index width name external
      pure (.bv width bytes)
  | .bvNot x => unaryBv values x fun bytes => maskUnusedHighBits (bytes.map (~~~ ·))
  | .bvNeg x => unaryBv values x negBytes
  | .bvAnd a b => bitwiseBv values a b (· &&& ·)
  | .bvOr a b => bitwiseBv values a b (· ||| ·)
  | .bvXor a b => bitwiseBv values a b (· ^^^ ·)
  | .bvAdd a b => binaryBv values a b addBytes
  | .bvSub a b => binaryBv values a b subBytes
  | .bvMul a b => binaryBv values a b mulBytes
  | .bvUDiv a b => do
      let (quotient, _) ← udivUremValue values a b
      pure quotient
  | .bvURem a b => do
      let (_, remainder) ← udivUremValue values a b
      pure remainder
  | .bvSDiv a b => signedDivRemValue values a b .div
  | .bvSRem a b => signedDivRemValue values a b .rem
  | .bvSMod a b => signedDivRemValue values a b .mod
  | .bvShl a b => shiftValue values a b shlBytes
  | .bvLShr a b => shiftValue values a b lshrBytes
  | .bvAShr a b => shiftValue values a b ashrBytes
  | .bvExtract child high low => do
      let (_, bytes) ← bvAt values child
      let width := high - low + 1
      pure (.bv width (extractBytes bytes low width))
  | .bvConcat high low => do
      let (highWidth, highBytes) ← bvAt values high
      let (lowWidth, lowBytes) ← bvAt values low
      pure (.bv (highWidth + lowWidth) (concatBytes highBytes highWidth lowBytes lowWidth))
  | .bvZeroExtend child extra => do
      let (childWidth, childBytes) ← bvAt values child
      let width := childWidth + extra
      let len ← bytesForWidth width
      pure (.bv width (maskUnusedHighBits (resize childBytes len) width))
  | .bvSignExtend child extra => do
      let (childWidth, childBytes) ← bvAt values child
      pure (.bv (childWidth + extra) (sextBytes childBytes childWidth extra))
  | .bvRepeat child count => do
      let (childWidth, childBytes) ← bvAt values child
      pure (.bv (childWidth * count) (repeatBytes childBytes childWidth count))
  | .bvRotateLeft child amount =>
      unaryBv values child fun bytes width => rotateLeftBytes bytes width (amount % width)
  | .bvRotateRight child amount =>
      unaryBv values child fun bytes width => rotateRightBytes bytes width (amount % width)
  | .bvIte cond thenValue elseValue | .boolIte cond thenValue elseValue => do
      if ← boolAt values cond then expect values[thenValue]? else expect values[elseValue]?
  | .bvSelect cases default => do
      let selected ← selected values default cases
      expect values[selected]?
  | .boolNot x => do
      let value ← boolAt values x
      pure (.bool !value)
  | .boolAnd a b => do
      if ← boolAt values a then return .bool (← boolAt values b) else return .bool false
  | .boolOr a b => do
      if ← boolAt values a then return .bool true else return .bool (← boolAt values b)
  | .boolImplies a b => do
      if ← boolAt values a then return .bool (← boolAt values b) else return .bool true
  | .boolEq a b => do
      let av ← boolAt values a
      let bv ← boolAt values b
      pure (.bool (av == bv))
  | .bvEq a b => binaryBool values a b fun av bv _ => av == bv
  | .bvUlt a b => unsignedCmpValue values a b true
  | .bvUle a b => unsignedCmpValue values a b false
  | .bvSlt a b => signedCmpValue values a b true
  | .bvSle a b => signedCmpValue values a b false
  | .uAddOverflow a b => unsignedAddOverflowValue values a b
  | .sAddOverflow a b => signedAddOverflowValue values a b
  | .uSubOverflow a b => unsignedCmpValue values a b true
  | .sSubOverflow a b => signedSubOverflowValue values a b
  | .uMulOverflow a b => unsignedMulOverflowValue values a b
  | .sMulOverflow a b => signedMulOverflowValue values a b
  | .negOverflow x => negOverflowValue values x
  | .sDivOverflow a b => signedDivOverflowValue values a b

end Eval

open Eval

def evaluate (query : Query) (assignment : EvalAssignment) : Result (List EvalValue) :=
  query.arena.nodes.zipIdx.foldlM (fun values (node, index) => do
    let value ← evaluateNode values assignment index node.kind
    pure (values ++ [value])) []

/-- The three `query_satisfied_by_*_assignment` functions: the first assertion or assumption that
is false ends the search. -/
def querySatisfiedBy (query : Query) (assignment : EvalAssignment) : Result Bool := do
  let values ← evaluate query assignment
  query.assertionsAndAssumptions.allM fun root => boolAt values root

def querySatisfiedByConstantAssignment (query : Query) (ones : Bool) : Result Bool :=
  querySatisfiedBy query (.constant ones)

def querySatisfiedBySeededAssignment (query : Query) (seed : UInt64) : Result Bool :=
  querySatisfiedBy query (.seed seed)

def querySatisfiedByBvAssignment (query : Query) (assignment : Assignment) : Result Bool :=
  querySatisfiedBy query (.explicit assignment)

end Qfbv
end SmtServer
