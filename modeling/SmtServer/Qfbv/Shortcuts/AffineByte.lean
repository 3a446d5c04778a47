import Mathlib.Data.List.Sort
import SmtServer.Lib.MeetInMiddle
import SmtServer.Qfbv.EvalSound
import SmtServer.Qfbv.Shortcuts.Matching
import SmtServer.Qfbv.Shortcuts.Polynomial

/-!
# `witnesses.rs` — solving an equation over bytes

The pass takes an asserted equation between two terms that are affine in variables of at most eight
bits, and looks for bytes, one for each variable, that solve it. It knows of simple bounds on single
variables (`collectByteDomains`), gives at most six variables a choice, and lets the two halves of
them meet in the middle. What it finds is a candidate, and the evaluator decides whether it satisfies
the query. The domain of a variable is made of **bytes**, whatever the width of the variable.
-/

namespace SmtServer
namespace Qfbv

open Lib Outcome

namespace Shortcuts

/-! ## Affine terms -/

structure AffineTerm where
  width : Nat
  constant : UInt64
  coeffs : Std.TreeMap TermId UInt64

def addAffineCoeff (term : AffineTerm) (var : TermId) (coeff : UInt64) : AffineTerm :=
  let updated := ((term.coeffs[var]?).getD 0 + coeff) &&& maskForWidth term.width
  { term with
    coeffs := if updated = 0 then term.coeffs.erase var else term.coeffs.insert var updated }

/-- Add the coefficients of a map, after `f`, to a term. -/
def addAffineCoeffs (term : AffineTerm) (coeffs : Std.TreeMap TermId UInt64)
    (f : UInt64 → UInt64) : AffineTerm :=
  coeffs.toList.foldl (fun term e => addAffineCoeff term e.1 (f e.2)) term

def affineAddAssign (left right : AffineTerm) : AffineTerm :=
  addAffineCoeffs
    { left with constant := (left.constant + right.constant) &&& maskForWidth left.width }
    right.coeffs id

def affineSubAssign (left right : AffineTerm) : AffineTerm :=
  addAffineCoeffs
    { left with constant := (left.constant - right.constant) &&& maskForWidth left.width }
    right.coeffs (0 - ·)

def affineNegAssign (value : AffineTerm) : AffineTerm :=
  addAffineCoeffs
    { value with constant := (0 - value.constant) &&& maskForWidth value.width, coeffs := ∅ }
    value.coeffs (0 - ·)

def affineScaleAssign (value : AffineTerm) (factor : UInt64) : AffineTerm :=
  addAffineCoeffs
    { value with constant := (value.constant * factor) &&& maskForWidth value.width, coeffs := ∅ }
    value.coeffs (· * factor)

/-- The bits that may be one, going down the term for a number of rounds. -/
def possibleBitMask (s : Arena) : (rounds : Nat) → (term : TermId) → Result (Option UInt64)
  | 0, _ => .panic
  | rounds + 1, term => do
    let .bv width ← s.sort term | return none
    if 64 < width then return none
    let widthMask := maskForWidth width
    match ← kind s term with
    | .bvConst _ bytes => return some (bytesToU64 bytes &&& widthMask)
    | .bvVar width .. => return if width ≤ 8 then some (maskForWidth width) else none
    | .bvZeroExtend child extra => do
      let .bv childWidth ← s.sort child | return none
      if childWidth + extra ≠ width then return none
      possibleBitMask s rounds child
    | .bvShl value amount => do
      let some shift ← constU64 s amount | return none
      if UInt64.ofNat width ≤ shift then return some 0
      return (← possibleBitMask s rounds value).map fun mask => (mask <<< shift) &&& widthMask
    | .bvOr a b => do
      let left ← possibleBitMask s rounds a
      let right ← possibleBitMask s rounds b
      return left.bind fun left => right.map fun right => (left ||| right) &&& widthMask
    | .bvConcat a b => do
      let .bv rightWidth ← s.sort b | return none
      if 64 ≤ rightWidth then return none
      let left ← possibleBitMask s rounds a
      let right ← possibleBitMask s rounds b
      return left.bind fun left => right.map fun right =>
        ((left <<< UInt64.ofNat rightWidth) ||| right) &&& widthMask
    | _ => return none

def constTimesOther (s : Arena) (a b : TermId) : Result (Option (UInt64 × TermId)) := do
  match ← constU64 s a with
  | some constant => return some (constant, b)
  | none => return (← constU64 s b).map (·, a)

/-- Two affine terms of one width put together. -/
def combineAffine (left right : Option AffineTerm) (f : AffineTerm → AffineTerm → AffineTerm) :
    Option AffineTerm :=
  left.bind fun left => right.bind fun right =>
    if left.width ≠ right.width then none else some (f left right)

def affineTerm (s : Arena) : (rounds : Nat) → (term : TermId) → Result (Option AffineTerm)
  | 0, _ => .panic
  | rounds + 1, term => do
    let .bv width ← s.sort term | return none
    if 32 < width then return none
    let mask := maskForWidth width
    match ← kind s term with
    | .bvConst _ bytes => return some ⟨width, bytesToU64 bytes &&& mask, ∅⟩
    | .bvVar width .. => return if width ≤ 8 then some ⟨width, 0, .insert ∅ term 1⟩ else none
    | .bvZeroExtend child extra => do
      let .bv childWidth ← s.sort child | return none
      if childWidth + extra ≠ width ∨ 8 < childWidth then return none
      return (← affineTerm s rounds child).map fun childTerm =>
        { childTerm with width := width, constant := childTerm.constant &&& mask }
    | .bvOr a b => do
      let some leftMask ← possibleBitMask s (a + 1) a | return none
      let some rightMask ← possibleBitMask s (b + 1) b | return none
      if leftMask &&& rightMask ≠ 0 then return none
      return combineAffine (← affineTerm s rounds a) (← affineTerm s rounds b) affineAddAssign
    | .bvAdd a b =>
      return combineAffine (← affineTerm s rounds a) (← affineTerm s rounds b) affineAddAssign
    | .bvSub a b =>
      return combineAffine (← affineTerm s rounds a) (← affineTerm s rounds b) affineSubAssign
    | .bvNeg child => return (← affineTerm s rounds child).map affineNegAssign
    | .bvMul a b => do
      let some (constant, other) ← constTimesOther s a b | return none
      return (← affineTerm s rounds other).map (affineScaleAssign · constant)
    | .bvShl value amount => do
      let some shift ← constU64 s amount | return none
      if UInt64.ofNat width ≤ shift then return some ⟨width, 0, ∅⟩
      let some value ← affineTerm s rounds value | return none
      if value.width ≠ width then return none
      return some (affineScaleAssign value (1 <<< shift))
    | .bvConcat a b => do
      let .bv leftWidth ← s.sort a | return none
      let .bv rightWidth ← s.sort b | return none
      if leftWidth + rightWidth ≠ width ∨ 64 ≤ rightWidth then return none
      let left ← affineTerm s rounds a
      let right ← affineTerm s rounds b
      return left.bind fun left => right.map fun right =>
        affineAddAssign
          (affineScaleAssign { left with width := width } (1 <<< UInt64.ofNat rightWidth))
          { right with width := width }
    | _ => return none

/-! ## Domains -/

abbrev ByteDomains := TermMap (List UInt8)

/-- `(0..=u8::MAX).collect()`. -/
def allBytes : List UInt8 := (List.range 256).map .ofNat

def byteVar (s : Arena) (term : TermId) : Result (Option TermId) := do
  match ← kind s term with
  | .bvVar width .. => return if width ≤ 8 then some term else none
  | .bvZeroExtend child _ =>
    match ← kind s child with
    | .bvVar width .. => return if width ≤ 8 then some child else none
    | _ => return none
  | _ => return none

/-- `(byte_var(query, a)?, const_u64(query, b)?)`, where there are both. -/
def varAndConst (s : Arena) (a b : TermId) : Result (Option (TermId × UInt64)) := do
  let var ← byteVar s a
  let value ← constU64 s b
  return var.bind fun var => value.map (var, ·)

def byteVarConst (s : Arena) (a b : TermId) : Result (Option (TermId × UInt8)) := do
  match (← varAndConst s a b).filter fun p => p.2 ≤ 255 with
  | some (var, value) => return some (var, value.toUInt8)
  | none =>
    let swapped := (← varAndConst s b a).filter fun p => p.2 ≤ 255
    return swapped.map fun p => (p.1, p.2.toUInt8)

/-- `ensure_byte_domain(domains, var).retain(keep)`. -/
def retainByteDomain (domains : ByteDomains) (var : TermId) (keep : UInt8 → Bool) : ByteDomains :=
  domains.insert var (((domains.lookup var).getD allBytes).filter keep)

def signedValueForWidth (value : UInt64) (width : Nat) : Int :=
  let masked := value &&& maskForWidth width
  if width = 0 then 0
  else if width < 64 ∧ (masked >>> UInt64.ofNat (width - 1)) &&& 1 ≠ 0 then
    masked.toNat - 2 ^ width
  else if width = 64 ∧ masked &&& ((1 : UInt64) <<< 63) ≠ 0 then masked.toNat - 2 ^ 64
  else masked.toNat

/-- The two `restrict_*_byte_domain` functions; `view` is the number that a word is read as. -/
def restrictByteDomain (s : Arena) (a b : TermId) (allowEqual : Bool)
    (view : UInt64 → (width : Nat) → Int) (domains : ByteDomains) : Result ByteDomains := do
  let .bv width ← s.sort a | return domains
  let below (x y : UInt64) : Bool :=
    view x width < view y width || (allowEqual && view x width == view y width)
  let left ← varAndConst s a b
  let domains := match left with
    | some (var, bound) => retainByteDomain domains var fun candidate => below candidate.toUInt64 bound
    | none => domains
  let right ← varAndConst s b a
  return match right with
    | some (var, bound) => retainByteDomain domains var fun candidate => below bound candidate.toUInt64
    | none => domains

def restrictUnsignedByteDomain (s : Arena) (a b : TermId) (allowEqual : Bool)
    (domains : ByteDomains) : Result ByteDomains :=
  restrictByteDomain s a b allowEqual (fun x width => (x &&& maskForWidth width).toNat) domains

def restrictSignedByteDomain (s : Arena) (a b : TermId) (allowEqual : Bool)
    (domains : ByteDomains) : Result ByteDomains :=
  restrictByteDomain s a b allowEqual signedValueForWidth domains

/-- `collect_byte_domains` on a conjunct. -/
def collectByteDomains (s : Arena) (leaf : TermId) (domains : ByteDomains) :
    Result ByteDomains := do
  match ← kind s leaf with
  | .boolNot child =>
    match ← kind s child with
    | .bvEq a b =>
      match ← byteVarConst s a b with
      | some (var, value) => return retainByteDomain domains var (· != value)
      | none => return domains
    | _ => return domains
  | .bvEq a b =>
    match ← byteVarConst s a b with
    | some (var, value) => return retainByteDomain domains var (· == value)
    | none => return domains
  | .bvUlt a b => restrictUnsignedByteDomain s a b false domains
  | .bvUle a b => restrictUnsignedByteDomain s a b true domains
  | .bvSlt a b => restrictSignedByteDomain s a b false domains
  | .bvSle a b => restrictSignedByteDomain s a b true domains
  | _ => return domains

/-! ## Solving -/

/-- A variable of the equation, its coefficient and its domain. -/
structure AffineVar where
  var : TermId
  coeff : UInt64
  domain : List UInt8

/-- The variables of an equation, if all of them are bytes and have a domain that is not empty. -/
def affineVars (s : Arena) (equation : AffineTerm) (domains : ByteDomains) :
    (coeffs : List (TermId × UInt64)) → Result (Option (List AffineVar))
  | [] => return some []
  | (var, coeff) :: coeffs => do
    let .bv width ← s.sort var | return none
    if 8 < width then return none
    let domain := (domains.lookup var).getD allBytes
    if domain = [] then return none
    return (← affineVars s equation domains coeffs).map
      (⟨var, coeff &&& maskForWidth equation.width, domain⟩ :: ·)

/-- `vars.sort_by_key(|(_, _, domain)| Reverse(domain.len()))`, which keeps the order of variables
with domains of one size. -/
def sortByDomain (vars : List AffineVar) : List AffineVar :=
  vars.insertionSort fun a b => b.domain.length ≤ a.domain.length

/-- A side has at most three domains of at most 256 bytes, whose product is no overflow. -/
def domainProduct (side : List AffineVar) : Nat := (side.map (·.domain.length)).prod

/-- What `enumerate_affine_side` emits, in order. -/
def enumerateAffineSide (mask : UInt64) : (vars : List AffineVar) → (sum : UInt64) →
    List (UInt64 × List UInt8)
  | [], sum => [(sum, [])]
  | v :: vars, sum =>
    v.domain.flatMap fun value =>
      (enumerateAffineSide mask vars ((sum + v.coeff * value.toUInt64) &&& mask)).map
        fun e => (e.1, value :: e.2)

/-- `assignment.insert(*var, vec![value])` for one variable after the other. -/
def insertBytes (assignment : Assignment) (entries : List (AffineVar × UInt8)) : Assignment :=
  entries.foldl (fun assignment e t => if t = e.1.var then some [e.2] else assignment t) assignment

/-- The variables without a choice, with the first byte of their domain. -/
def fixedBytes (fixed : List AffineVar) : List (AffineVar × UInt8) :=
  fixed.map fun v => (v, v.domain.headD 0)

def solveAffineByteEquation (s : Arena) (equation : AffineTerm) (domains : ByteDomains) :
    Result (Option Assignment) := do
  if equation.coeffs.isEmpty then
    return if equation.constant = 0 then some fun _ => none else none
  let mask := maskForWidth equation.width
  let some vars ← affineVars s equation domains equation.coeffs.toList | return none
  let vars := sortByDomain vars
  let freeCount := min vars.length 6
  let free := vars.take freeCount
  let fixed := vars.drop freeCount
  if freeCount = 0 then return none
  let fixedSum := (fixedBytes fixed).foldl
    (fun sum e => (sum + e.1.coeff * e.2.toUInt64) &&& mask) 0
  let rhs := (0 - (equation.constant + fixedSum)) &&& mask
  let left := free.take (freeCount / 2)
  let right := free.drop (freeCount / 2)
  if 1500000 < domainProduct left ∨ 1500000 < domainProduct right then return none
  let found := MeetInMiddle.meet (enumerateAffineSide mask left 0)
    (enumerateAffineSide mask right 0) fun sum => (rhs - sum) &&& mask
  return found.map fun (leftValues, rightValues) =>
    insertBytes (insertBytes (insertBytes (fun _ => none) (fixedBytes fixed))
      (left.zip leftValues)) (right.zip rightValues)

/-! ## The pass -/

/-- The equation over bytes that an asserted equation is. -/
def affineEquation (s : Arena) (a b : TermId) : Result (Option AffineTerm) := do
  let some left ← affineTerm s (a + 1) a | return none
  let some right ← affineTerm s (b + 1) b | return none
  if left.width ≠ right.width ∨ 32 < left.width ∨ left.width < 8 then return none
  return some (affineSubAssign left right)

/-- The candidate that an asserted equation gives. -/
def affineByteCandidate (s : Arena) (domains : ByteDomains) (a b : TermId) :
    Result (Option Assignment) := do
  let some equation ← affineEquation s a b | return none
  solveAffineByteEquation s equation domains

/-- The loop of the pass on one equation. -/
def tryAffineByteEquation (q : Query) (domains : ByteDomains) (equality : BvPair) :
    Result Bool := do
  match ← affineByteCandidate q.arena domains equality.1 equality.2 with
  | some assignment => querySatisfiedByBvAssignment q assignment
  | none => return false

def hasAffineByteSatWitness (q : Query) : Result Bool := do
  if q.assumptions ≠ [] ∨ 20000 < q.arena.nodes.length then return false
  let (equalities, _) ← forAllConjuncts q (collectBvEqualitiesAndDisequalities q.arena) ([], [])
  let domains ← forAllConjuncts q (collectByteDomains q.arena) ∅
  equalities.anyM (tryAffineByteEquation q domains)

end Shortcuts
end Qfbv
end SmtServer
