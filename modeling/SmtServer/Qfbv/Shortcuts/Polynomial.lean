import Mathlib.Data.List.Sort
import Mathlib.Data.UInt
import SmtServer.Lib.Rounds
import SmtServer.Qfbv.Shortcuts.Definitions

/-!
# `polynomial.rs` — the pass

What the definitions and the merged terms of a query are good for: terms are evaluated to constants
(`evalPolynomialBvConst`), brought to polynomial normal form (`bvPolynomial`) and compared
(`evalPolynomialBvEquality`), constants are inferred from the conjuncts until nothing changes, and
an assertion that evaluates to false makes the query contradictory.

A variable is evaluated by its definition, which is any term that some conjunct equates with it.
So the evaluators do not go down the arena. `bvPolynomial` keeps a stack of the terms it is working
on, and stops at its 65th; the other evaluators keep none, and whether they return is a question.
Here they are the body of a recursion (`evalPolynomial`), to be run for a number of rounds.

The coefficients of the normal forms are `u64`s, whatever the width of the terms. The functions on
them are written for coefficients of any kind, so that the normal forms of the code can be compared
with those over the integers.
-/

namespace SmtServer
namespace Qfbv

open Lib Outcome

namespace Shortcuts

def maskForWidth (width : Nat) : UInt64 :=
  if 64 ≤ width then .ofNat (2 ^ 64 - 1) else (1 : UInt64) <<< UInt64.ofNat width - 1

/-! ## Polynomials -/

/-- What coefficients can do. `mask` reduces one to a width. -/
class Coefficient (κ : Type) extends Zero κ, One κ, Add κ, Neg κ, Mul κ where
  ofBytes : List UInt8 → κ
  mask : (width : Nat) → κ → κ

/-- The coefficients of the code: wrapping words, masked to the width where it is below 64. -/
instance : Coefficient UInt64 where
  ofBytes := bytesToU64
  mask width coeff := coeff &&& maskForWidth width

/-- Integers modulo `2 ^ width`, at every width. -/
instance : Coefficient Int where
  ofBytes bytes := leNat (bytes.take 8)
  mask width coeff := coeff % 2 ^ width

/-- A map from monomials, sorted lists of terms, to coefficients. -/
structure BvPolynomial (κ : Type) where
  width : Nat
  terms : AList fun _ : List TermId => κ

section Operations

variable {κ : Type} [Coefficient κ] [DecidableEq κ]

def polynomialAddMonomial (polynomial : BvPolynomial κ) (monomial : List TermId) (coeff : κ) :
    BvPolynomial κ :=
  let updated := Coefficient.mask polynomial.width
    ((polynomial.terms.lookup monomial).getD 0 + coeff)
  if updated = 0 then
    { polynomial with terms := polynomial.terms.erase monomial }
  else
    { polynomial with terms := polynomial.terms.insert monomial updated }

def polynomialBase (term : TermId) (width : Nat) : BvPolynomial κ :=
  ⟨width, (∅ : AList _).insert [term] 1⟩

def polynomialAddAssign (left right : BvPolynomial κ) : BvPolynomial κ :=
  right.terms.entries.foldl (fun left e => polynomialAddMonomial left e.1 e.2) left

def polynomialSubAssign (left right : BvPolynomial κ) : BvPolynomial κ :=
  right.terms.entries.foldl (fun left e => polynomialAddMonomial left e.1 (-e.2)) left

def polynomialNegAssign (value : BvPolynomial κ) : BvPolynomial κ :=
  value.terms.entries.foldl (fun value e => polynomialAddMonomial value e.1 (-e.2))
    { value with terms := ∅ }

def polynomialMulAssign (left right : BvPolynomial κ) : Option (BvPolynomial κ) :=
  if 20000 < left.terms.entries.length * right.terms.entries.length then
    none
  else
    some <| left.terms.entries.foldl (fun acc l =>
      right.terms.entries.foldl (fun acc r =>
        polynomialAddMonomial acc ((l.1 ++ r.1).insertionSort (· ≤ ·))
          (Coefficient.mask left.width (l.2 * r.2))) acc)
      { left with terms := ∅ }

end Operations

/-! ## Normal forms -/

/-- What the evaluators know: the definitions of variables, the representatives of the merged
terms, and the values of representatives that have been inferred. -/
structure PolynomialFacts where
  definitions : TermMap TermId
  canonical : TermMap TermId
  constants : TermMap UInt64

def canonicalPolynomialTerm (canonical : TermMap TermId) (term : TermId) : TermId :=
  (canonical.lookup term).getD term

/-- `definitions.get(&term).or_else(|| definitions.get(&canonical_term))`. -/
def PolynomialFacts.definition (facts : PolynomialFacts) (term : TermId) : Option TermId :=
  (facts.definitions.lookup term).or
    (facts.definitions.lookup (canonicalPolynomialTerm facts.canonical term))

section Normal

variable (κ : Type) [Coefficient κ] [DecidableEq κ]

/-- A recursive call gets the stack and gives it back. -/
abbrev PolynomialCall := TermId → List TermId → Result (Option (BvPolynomial κ) × List TermId)

variable {κ}

def combinePolynomial (call : PolynomialCall κ) (a b : TermId)
    (combine : BvPolynomial κ → BvPolynomial κ → Option (BvPolynomial κ)) (stack : List TermId) :
    Result (Option (BvPolynomial κ) × List TermId) := do
  let (left, stack) ← call a stack
  let (right, stack) ← call b stack
  match left, right with
  | some left, some right =>
    if left.width ≠ right.width then return (none, stack) else return (combine left right, stack)
  | _, _ => return (none, stack)

/-- The bytes of a constant, if the first eight are all that count. -/
def constPolynomial (width : Nat) (bytes : List UInt8) : Option (BvPolynomial κ) :=
  if (bytes.drop 8).any (· ≠ 0) then
    none
  else
    some (polynomialAddMonomial ⟨width, ∅⟩ [] (Coefficient.ofBytes bytes))

/-- `stack.pop()`. -/
def popped (result : Option (BvPolynomial κ) × List TermId) :
    Option (BvPolynomial κ) × List TermId :=
  (result.1, result.2.tail)

/-- The stack keeps the recursion finite: its 66th round stops. -/
def bvPolynomial (s : Arena) (facts : PolynomialFacts) : (rounds : Nat) → PolynomialCall κ
  | 0, _, _ => .panic
  | rounds + 1, term, stack => do
    let width ← s.expectBv term "polynomial term"
    if 4096 < width then return (none, stack)
    let base (term : TermId) : BvPolynomial κ :=
      polynomialBase (canonicalPolynomialTerm facts.canonical term) width
    if 64 < stack.length ∨ term ∈ stack then return (some (base term), stack)
    let call := bvPolynomial s facts rounds
    match ← kind s term with
    | .bvConst _ bytes => return (constPolynomial width bytes, stack)
    | .bvVar .. =>
      match facts.definition term with
      | some definition => return popped (← call definition (term :: stack))
      | none => return (some (base term), stack)
    | .bvAdd a b =>
      return popped (← combinePolynomial call a b (fun l r => some (polynomialAddAssign l r))
        (term :: stack))
    | .bvSub a b =>
      return popped (← combinePolynomial call a b (fun l r => some (polynomialSubAssign l r))
        (term :: stack))
    | .bvNeg child =>
      let (value, stack) ← call child (term :: stack)
      return popped (value.map polynomialNegAssign, stack)
    | .bvMul a b => return popped (← combinePolynomial call a b polynomialMulAssign (term :: stack))
    | .bvZeroExtend child _ =>
      match ← kind s child with
      | .bvConst .. =>
        match ← call child (term :: stack) with
        | (some value, stack) => return popped (some { value with width := width }, stack)
        -- this return leaves the term on the stack
        | (none, stack) => return (none, stack)
      | .bvVar .. => return (some (base child), stack)
      | _ => return (some (base term), stack)
    | _ => return (some (base term), stack)

/-- The normal form of a term. -/
def polynomialOf (κ : Type) [Coefficient κ] [DecidableEq κ] (s : Arena) (facts : PolynomialFacts)
    (term : TermId) : Result (Option (BvPolynomial κ)) := do
  return (← bvPolynomial s facts 66 term []).1

/-- `left.width == right.width && left.terms == right.terms`. -/
def BvPolynomial.same (left right : BvPolynomial κ) : Bool :=
  left.width = right.width ∧ left.terms.entries.Perm right.terms.entries

end Normal

/-! ## Evaluation -/

/-- The two evaluators that call each other. -/
inductive PolynomialEval where
  | const (term : TermId)
  | bool (term : TermId)
  deriving DecidableEq

abbrev PolynomialEval.Value : PolynomialEval → Type
  | .const _ => Option UInt64
  | .bool _ => Option Bool

/-- What the recursive calls return. -/
abbrev PolynomialEvaluator := ∀ c : PolynomialEval, Result c.Value

variable (s : Arena) (facts : PolynomialFacts) (eval : PolynomialEvaluator)

/-- Two constants of one operation. -/
def evalConstPair (a b : TermId) (f : UInt64 → UInt64 → UInt64) : Result (Option UInt64) := do
  match ← eval (.const a), ← eval (.const b) with
  | some a, some b => return some (f a b)
  | _, _ => return none

def evalPolynomialBvConst (term : TermId) : Result (Option UInt64) := do
  let width ← s.expectBv term "polynomial const eval"
  if 64 < width then return none
  let mask := maskForWidth width
  match ← kind s term with
  | .bvConst _ bytes => return some (bytesToU64 bytes &&& mask)
  | .bvVar .. =>
    match facts.constants.lookup (canonicalPolynomialTerm facts.canonical term) with
    | some value => return some (value &&& mask)
    | none =>
      match facts.definition term with
      | some definition => eval (.const definition)
      | none => return none
  | .bvNot child => return (← eval (.const child)).map fun value => ~~~value &&& mask
  | .bvNeg child => return (← eval (.const child)).map fun value => -value &&& mask
  | .bvAnd a b => evalConstPair eval a b fun a b => a &&& b &&& mask
  | .bvOr a b => evalConstPair eval a b fun a b => (a ||| b) &&& mask
  | .bvXor a b => evalConstPair eval a b fun a b => (a ^^^ b) &&& mask
  | .bvAdd a b => evalConstPair eval a b fun a b => (a + b) &&& mask
  | .bvSub a b => evalConstPair eval a b fun a b => (a - b) &&& mask
  | .bvMul a b => evalConstPair eval a b fun a b => (a * b) &&& mask
  | .bvExtract child high low =>
    return (← eval (.const child)).map fun value =>
      value >>> UInt64.ofNat low &&& maskForWidth (high - low + 1)
  | .bvConcat a b =>
    let rightWidth ← s.expectBv b "polynomial concat"
    match ← eval (.const a), ← eval (.const b) with
    | some a, some b =>
      return if rightWidth < 64 then some ((a <<< UInt64.ofNat rightWidth ||| b) &&& mask) else none
    | _, _ => return none
  | .bvZeroExtend child _ => return (← eval (.const child)).map fun value => value &&& mask
  | .bvIte cond thenValue elseValue =>
    match ← eval (.bool cond) with
    | some true => eval (.const thenValue)
    | some false => eval (.const elseValue)
    | none => return none
  | _ => return none

def evalPolynomialBvEquality (a b : TermId) : Result (Option Bool) := do
  match ← eval (.const a), ← eval (.const b) with
  | some left, some right =>
    let mask := maskForWidth (← s.expectBv a "polynomial equality")
    return some (left &&& mask == right &&& mask)
  | _, _ =>
    let some left ← polynomialOf UInt64 s facts a | return none
    let some right ← polynomialOf UInt64 s facts b | return none
    return if left.same right then some true else none

/-- `match (eval(a)?, eval(b)?)`. -/
def evalBoolPair (a b : TermId) (f : Option Bool → Option Bool → Option Bool) :
    Result (Option Bool) := do
  return f (← eval (.bool a)) (← eval (.bool b))

def evalPolynomialBool (term : TermId) : Result (Option Bool) := do
  match ← kind s term with
  | .boolConst value => return some value
  | .boolNot child => return (← eval (.bool child)).map (!·)
  | .boolAnd a b => evalBoolPair eval a b fun
    | some false, _ | _, some false => some false
    | some true, some true => some true
    | _, _ => none
  | .boolOr a b => evalBoolPair eval a b fun
    | some true, _ | _, some true => some true
    | some false, some false => some false
    | _, _ => none
  | .boolImplies a b => evalBoolPair eval a b fun
    | some false, _ | _, some true => some true
    | some true, some false => some false
    | _, _ => none
  | .boolEq a b => evalBoolPair eval a b fun
    | some left, some right => some (left == right)
    | _, _ => none
  | .bvEq a b => evalPolynomialBvEquality s facts eval a b
  | _ => return none

/-- One call of either evaluator; the calls it makes go to `eval`. -/
def evalPolynomial : PolynomialEvaluator
  | .const term => evalPolynomialBvConst s facts eval term
  | .bool term => evalPolynomialBool s facts eval term

end Shortcuts
end Qfbv
end SmtServer
