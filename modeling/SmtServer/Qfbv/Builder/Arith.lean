import SmtServer.Qfbv.Builder.Look

/-!
# `builder.rs` — arithmetic

Leaves, arithmetic, shifts and bitwise operations, with the rewriting each of them does first.
A loop over a vector is a recursion over the list, and a `while` loop over a sorted vector that
takes a run of equal keys at a time is a fold over its runs (`splitBy`). `sort_unstable` is a merge
sort: equal ids cannot be told apart, and where pairs are sorted by their ids, the coefficients of
equal ids are only ever added up.
-/

namespace SmtServer
namespace Qfbv

open Lib Bytes

namespace Builder

/-! ## Leaves -/

def bvVarExternal (name : String) (width : Nat) (external : Option Nat) : ArenaM TermId := do
  Grow.lift (validateBvWidth width "BV variable width")
  Arena.add (.bvVar width name external) (.bv width)

def bvVar (name : String) (width : Nat) : ArenaM TermId := bvVarExternal name width none

def boolVarExternal (name : String) (external : Option Nat) : ArenaM TermId :=
  Arena.add (.boolVar name external) .bool

def boolVar (name : String) : ArenaM TermId := boolVarExternal name none

def boolConst (value : Bool) : ArenaM TermId := Arena.add (.boolConst value) .bool

def boolTrue : ArenaM TermId := boolConst true

def boolFalse : ArenaM TermId := boolConst false

def bvConstBytes (bytes : List UInt8) (width : Nat) : ArenaM TermId := do
  let bytes ← Grow.lift (normalizedBytes bytes width)
  Arena.add (.bvConst width bytes) (.bv width)

def bvConst (value : UInt64) (width : Nat) : ArenaM TermId := do
  Grow.lift (validateBvWidth width "BV constant width")
  let len ← Grow.lift (bytesForWidth width)
  let raw := leBytes 8 value.toNat
  bvConstBytes (maskUnusedHighBits (resize (raw.take len) len) width) width

def zero (width : Nat) : ArenaM TermId := do
  let len ← Grow.lift (bytesForWidth width)
  bvConstBytes (List.replicate len 0) width

def allOnes (width : Nat) : ArenaM TermId := do
  let len ← Grow.lift (bytesForWidth width)
  bvConstBytes (maskUnusedHighBits (List.replicate len 0xff) width) width

/-! ## Nodes without rewriting -/

def bvUnary (x : TermId) (f : TermId → NodeKind) : ArenaM TermId := do
  let width ← Grow.read (expectBv x "BV unary")
  Arena.add (f x) (.bv width)

def bvBinary (a b : TermId) (f : TermId → TermId → NodeKind) : ArenaM TermId := do
  let width ← Grow.read (expectSameBv a b "BV binary")
  Arena.add (f a b) (.bv width)

def overflowBinary (a b : TermId) (f : TermId → TermId → NodeKind) : ArenaM TermId := do
  let _ ← Grow.read (expectSameBv a b "overflow predicate")
  Arena.add (f a b) .bool

def bvAddNode (a b : TermId) (width : Nat) : ArenaM TermId :=
  let (a, b) := orderPair a b
  Arena.add (.bvAdd a b) (.bv width)

def bvMulNode (a b : TermId) (width : Nat) : ArenaM TermId :=
  let (a, b) := orderPair a b
  Arena.add (.bvMul a b) (.bv width)

/-! ## Negation, subtraction and division -/

def bvNot (x : TermId) : ArenaM TermId := do
  if let some (width, bytes) ← Grow.read (bvConstValue x) then
    return ← bvConstBytes (maskUnusedHighBits (bytes.map (~~~ ·)) width) width
  if let some inner ← Grow.read (look x (·.bvNot?)) then
    return inner
  bvUnary x .bvNot

def bvNeg (x : TermId) : ArenaM TermId := do
  if let some (width, bytes) ← Grow.read (bvConstValue x) then
    return ← bvConstBytes (negBytes bytes width) width
  if let some inner ← Grow.read (bvNegChild x) then
    return inner
  bvUnary x .bvNeg

def bvSub (a b : TermId) : ArenaM TermId := do
  let width ← Grow.read (expectSameBv a b "BV_SUB")
  if a = b ∨ (← Grow.read (isZero a <&&> isZero b)) then
    return ← zero width
  if ← Grow.read (isZero b) then
    return a
  if let some (av, bv) ← Grow.read (bvConstPair a b) then
    return ← bvConstBytes (subBytes av bv width) width
  Arena.add (.bvSub a b) (.bv width)

def bvUdiv (a b : TermId) : ArenaM TermId := do
  let width ← Grow.read (expectSameBv a b "BV udiv")
  if ← Grow.read (isZero b) then
    return ← allOnes width
  if ← Grow.read (isOne b) then
    return a
  if (← Grow.read (isZero a)) ∧ (← Grow.read (bvConstValue b)).isSome then
    return ← zero width
  Arena.add (.bvUDiv a b) (.bv width)

def bvUrem (a b : TermId) : ArenaM TermId := do
  let width ← Grow.read (expectSameBv a b "BV urem")
  if ← Grow.read (isZero a <||> isOne b) then
    return ← zero width
  if ← Grow.read (isZero b) then
    return a
  Arena.add (.bvURem a b) (.bv width)

def bvSdiv (a b : TermId) : ArenaM TermId := bvBinary a b .bvSDiv

def bvSrem (a b : TermId) : ArenaM TermId := bvBinary a b .bvSRem

def bvSmod (a b : TermId) : ArenaM TermId := bvBinary a b .bvSMod

/-! ## Shifts -/

/-- The block that `bv_shl` and `bv_lshr` share: a shift by a constant. -/
def shiftByConst (a b : TermId) (width : Nat) (fold : List UInt8 → Nat → Nat → List UInt8) :
    ArenaM (Option TermId) := do
  let some amount ← Grow.read (constShiftAmount b width) | return none
  if amount = 0 then
    return some a
  if width ≤ amount then
    return some (← zero width)
  let some (_, bytes) ← Grow.read (bvConstValue a) | return none
  return some (← bvConstBytes (fold bytes width amount) width)

def bvShlRounds : (rounds : Nat) → (a b : TermId) → ArenaM TermId
  | 0, _, _ => outOfRounds
  | rounds + 1, a, b => do
    let width ← Grow.read (expectSameBv a b "BV shl")
    if ← Grow.read (isZero a) then
      return ← zero width
    if let some folded ← shiftByConst a b width shlBytes then
      return folded
    if let some inner ← Grow.read (bvNegChild a) then
      let shifted ← bvShlRounds rounds inner b
      return ← bvNeg shifted
    Arena.add (.bvShl a b) (.bv width)

def bvShl (a b : TermId) : ArenaM TermId := bvShlRounds (a + 1) a b

def bvLshrRounds : (rounds : Nat) → (a b : TermId) → ArenaM TermId
  | 0, _, _ => outOfRounds
  | rounds + 1, a, b => do
    let width ← Grow.read (expectSameBv a b "BV lshr")
    if a = b ∨ (← Grow.read (isZero a)) then
      return ← zero width
    if let some folded ← shiftByConst a b width lshrBytes then
      return folded
    if let some (inner, innerAmount) ← Grow.read (bvLshrParts a) then
      if b < innerAmount then
        let shifted ← bvLshrRounds rounds inner b
        return ← bvLshrRounds rounds shifted innerAmount
    Arena.add (.bvLShr a b) (.bv width)

def bvLshr (a b : TermId) : ArenaM TermId := bvLshrRounds (a + 2) a b

def bvAshr (a b : TermId) : ArenaM TermId := do
  let width ← Grow.read (expectSameBv a b "BV ashr")
  if let some amount ← Grow.read (constShiftAmount b width) then
    if amount = 0 then
      return a
    if let some (_, bytes) ← Grow.read (bvConstValue a) then
      return ← bvConstBytes (ashrBytes bytes width amount) width
  Arena.add (.bvAShr a b) (.bv width)

/-! ## Products -/

/-- `collect_bv_mul`, returning what it pushes. -/
def collectBvMul : (rounds : Nat) → (id : TermId) → ArenaR (List TermId)
  | 0, _ => (.panic : Result _)
  | rounds + 1, id => do
    match (← node id).kind with
    | .bvMul a b => return (← collectBvMul rounds a) ++ (← collectBvMul rounds b)
    | _ => return [id]

/-- The loops that end `rebuild_bv_add` and `rebuild_bv_mul`. -/
def chain (f : TermId → TermId → Nat → ArenaM TermId) (width : Nat) (cur : TermId)
    (terms : List TermId) : ArenaM TermId :=
  terms.foldlM (fun cur next => f cur next width) cur

def rebuildBvMul (terms : List TermId) (width : Nat) : ArenaM TermId :=
  match terms.mergeSort (· ≤ ·) with
  | [] => bvConst 1 width
  | first :: rest => chain bvMulNode width first rest

/-- The loop of `canonical_bv_mul`: the product of the constants and the other factors, or `none`
when a constant is zero. -/
def splitFactors (width : Nat) : (terms : List TermId) → (constant : List UInt8) →
    (nonConst : List TermId) → ArenaR (Option (List UInt8 × List TermId))
  | [], constant, nonConst => pure (some (constant, nonConst))
  | term :: terms, constant, nonConst => do
    match ← bvConstValue term with
    | some (_, bytes) =>
      if isZeroBytes bytes then return none
      splitFactors width terms (mulBytes constant bytes width) nonConst
    | none => splitFactors width terms constant (nonConst ++ [term])

/-- `vec![0; bytes_for_width(width)?]` with `one[0] = 1`. -/
def oneBytes (width : Nat) : Result (List UInt8) := do
  let len ← bytesForWidth width
  if 0 < len then pure ((List.replicate len 0).set 0 1) else .panic

def canonicalBvMul (a b : TermId) (width : Nat) : ArenaM (Option TermId) := do
  let left ← Grow.read (collectBvMul (a + 1) a)
  let right ← Grow.read (collectBvMul (b + 1) b)
  let terms := left ++ right
  if terms.length ≤ 2 then
    return none
  let constant ← Grow.lift (oneBytes width)
  let some (constant, nonConst) ← Grow.read (splitFactors width terms constant [])
    | return some (← zero width)
  if isOneBytes constant then
    return some (← rebuildBvMul nonConst width)
  let constant ← bvConstBytes constant width
  return some (← rebuildBvMul (nonConst ++ [constant]) width)

def bvMulRounds : (rounds : Nat) → (a b : TermId) → ArenaM TermId
  | 0, _, _ => outOfRounds
  | rounds + 1, a, b => do
    let (a, b) := orderPair a b
    let width ← Grow.read (expectSameBv a b "BV_MUL")
    if ← Grow.read (isZero a <||> isZero b) then
      return ← zero width
    if ← Grow.read (isOne a <||> isOne b) then
      return if ← Grow.read (isOne a) then b else a
    if ← Grow.read (isAllOnes a <||> isAllOnes b) then
      let value := if ← Grow.read (isAllOnes a) then b else a
      return ← bvNeg value
    if let some inner ← Grow.read (bvNegChild a) then
      let product ← bvMulRounds rounds inner b
      return ← bvNeg product
    if let some inner ← Grow.read (bvNegChild b) then
      let product ← bvMulRounds rounds a inner
      return ← bvNeg product
    if let some (av, bv) ← Grow.read (bvConstPair a b) then
      return ← bvConstBytes (mulBytes av bv width) width
    if let some (value, amount) ← Grow.read (bvShlParts a) then
      let product ← bvMulRounds rounds value b
      return ← bvShl product amount
    if let some (value, amount) ← Grow.read (bvShlParts b) then
      let product ← bvMulRounds rounds a value
      return ← bvShl product amount
    if let some canonical ← canonicalBvMul a b width then
      return canonical
    bvMulNode a b width

def bvMul (a b : TermId) : ArenaM TermId := bvMulRounds (a + b + 1) a b

/-! ## Sums and bitwise operations -/

/-- `collect_bv_add`, returning what it pushes. -/
def collectBvAdd : (rounds : Nat) → (id : TermId) → ArenaR (List TermId)
  | 0, _ => (.panic : Result _)
  | rounds + 1, id => do
    match (← node id).kind with
    | .bvAdd a b => return (← collectBvAdd rounds a) ++ (← collectBvAdd rounds b)
    | _ => return [id]

def rebuildBvAdd (terms : List TermId) (width : Nat) : ArenaM TermId :=
  match terms.mergeSort (· ≤ ·) with
  | [] => zero width
  | first :: rest => chain bvAddNode width first rest

def scaledAddTerm (term : TermId) (width : Nat) : ArenaR (TermId × List UInt8) := do
  let one ← (oneBytes width : Result _)
  let some (a, b) ← look term (·.bvMul?) | return (term, one)
  if let some (_, coefficient) ← bvConstValue a then
    return (b, coefficient)
  if let some (_, coefficient) ← bvConstValue b then
    return (a, coefficient)
  return (term, one)

/-- The first loop of `canonical_bv_add`: the sum of the constants and the other summands. -/
def splitSummands (width : Nat) : (terms : List TermId) → (constant : List UInt8) →
    (nonConst : List TermId) → ArenaR (List UInt8 × List TermId)
  | [], constant, nonConst => pure (constant, nonConst)
  | term :: terms, constant, nonConst => do
    match ← bvConstValue term with
    | some (_, bytes) => splitSummands width terms (addBytes constant bytes width) nonConst
    | none => splitSummands width terms constant (nonConst ++ [term])

/-- One round of the `while` loop of `canonical_bv_add`: a run of summands with one base. -/
def groupRun (width : Nat) (grouped : List TermId) (run : List (TermId × List UInt8)) :
    ArenaM (List TermId) := do
  match run with
  | [] => return grouped
  | (base, _) :: _ =>
    let coefficient := run.foldl (fun sum p => addBytes sum p.2 width) (zeros width)
    if isZeroBytes coefficient then
      return grouped
    if isOneBytes coefficient then
      return grouped ++ [base]
    let coefficient ← bvConstBytes coefficient width
    return grouped ++ [← bvMul base coefficient]

def canonicalBvAdd (a b : TermId) (width : Nat) : ArenaM (Option TermId) := do
  let left ← Grow.read (collectBvAdd (a + 1) a)
  let right ← Grow.read (collectBvAdd (b + 1) b)
  let terms := left ++ right
  let len ← Grow.lift (bytesForWidth width)
  let (constant, nonConst) ← Grow.read (splitSummands width terms (List.replicate len 0) [])
  let scaled ← nonConst.mapM fun term => Grow.read (scaledAddTerm term width)
  let runs := (scaled.mergeSort fun p q => p.1 ≤ q.1).splitBy fun p q => p.1 == q.1
  let changed := 2 < terms.length ∨ ∃ run ∈ runs, 1 < run.length
  let grouped ← runs.foldlM (groupRun width) []
  let grouped ←
    if isZeroBytes constant then pure grouped
    else do pure (grouped ++ [← bvConstBytes constant width])
  if ¬changed then
    return none
  return some (← rebuildBvAdd grouped width)

/-- `bv_or`, given the sum it may become. -/
def bvOrWith (bvAdd : TermId → TermId → ArenaM TermId) (a b : TermId) : ArenaM TermId := do
  let (a, b) := orderPair a b
  let width ← Grow.read (expectSameBv a b "BV_OR")
  if a = b then
    return a
  if ← Grow.read (isZero a <||> isZero b) then
    return if ← Grow.read (isZero a) then b else a
  if ← Grow.read (isAllOnes a <||> isAllOnes b) then
    return if ← Grow.read (isAllOnes a) then a else b
  if let some (av, bv) ← Grow.read (bvConstPair a b) then
    return ← bvConstBytes (av.zipWith (· ||| ·) bv) width
  if ← Grow.read (isBvNegationPair a b) then
    return ← allOnes width
  if ← Grow.read (bvAndContains a b) then
    return b
  if ← Grow.read (bvAndContains b a) then
    return a
  if ← Grow.read (selfShiftLeftPair a b) then
    return ← bvAdd a b
  Arena.add (.bvOr a b) (.bv width)

/-- `bv_add`; each round may call `bv_or` and `bv_add` of the round below. -/
def bvAddRounds : (rounds : Nat) → (a b : TermId) → ArenaM TermId
  | 0, _, _ => outOfRounds
  | rounds + 1, a, b => do
    let (a, b) := orderPair a b
    let width ← Grow.read (expectSameBv a b "BV_ADD")
    if ← Grow.read (isZero a <||> isZero b) then
      return if ← Grow.read (isZero a) then b else a
    if let some (av, bv) ← Grow.read (bvConstPair a b) then
      return ← bvConstBytes (addBytes av bv width) width
    if ← Grow.read (haveDisjointPossibleBits a b width) then
      return ← bvOrWith (bvAddRounds rounds) a b
    if let some canonical ← canonicalBvAdd a b width then
      return canonical
    if let some (value, amount) ← Grow.read (shiftedSameAddParts a b) then
      let one ← bvConst 1 width
      let shiftedOne ← bvShl one amount
      let factor ← bvAddRounds rounds one shiftedOne
      return ← bvMul value factor
    bvAddNode a b width

/-- `bv_add`. A sum calls a sum once, with a constant, and that one calls no other. -/
def bvAdd (a b : TermId) : ArenaM TermId := bvAddRounds 2 a b

def bvOr (a b : TermId) : ArenaM TermId := bvOrWith bvAdd a b

def bvAnd (a b : TermId) : ArenaM TermId := do
  let (a, b) := orderPair a b
  let width ← Grow.read (expectSameBv a b "BV_AND")
  if a = b then
    return a
  if ← Grow.read (isZero a <||> isZero b) then
    return if ← Grow.read (isZero a) then a else b
  if ← Grow.read (isAllOnes a <||> isAllOnes b) then
    return if ← Grow.read (isAllOnes a) then b else a
  if let some (av, bv) ← Grow.read (bvConstPair a b) then
    return ← bvConstBytes (av.zipWith (· &&& ·) bv) width
  if ← Grow.read (isBvNegationPair a b) then
    return ← zero width
  if ← Grow.read (haveDisjointPossibleBits a b width) then
    return ← zero width
  if ← Grow.read (bvOrContains a b) then
    return b
  if ← Grow.read (bvOrContains b a) then
    return a
  Arena.add (.bvAnd a b) (.bv width)

def bvXor (a b : TermId) : ArenaM TermId := do
  let (a, b) := orderPair a b
  let width ← Grow.read (expectSameBv a b "BV_XOR")
  if a = b then
    return ← zero width
  if ← Grow.read (isZero a <||> isZero b) then
    return if ← Grow.read (isZero a) then b else a
  if let some (av, bv) ← Grow.read (bvConstPair a b) then
    return ← bvConstBytes (av.zipWith (· ^^^ ·) bv) width
  if ← Grow.read (isBvNegationPair a b) then
    return ← allOnes width
  if ← Grow.read (haveDisjointPossibleBits a b width) then
    return ← bvOr a b
  Arena.add (.bvXor a b) (.bv width)

end Builder
end Qfbv
end SmtServer
