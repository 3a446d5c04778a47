import SmtServer.Lib.Smt
import SmtServer.Smtlib.Lower

/-!
# What a term means

The value of a term under an assignment, read off SMT-LIB and not off the lowering: names stand for
what the innermost binder, then the declarations, say; an operator is a partial function on values
(`theory`), undefined where the standard gives the term no sort; an application of a defined function
is the value of its body where the parameters, and no other local name, are bound to the values of
the arguments.

Two readings go beyond the standard, because the frontend accepts more. `and`, `or` and the
left-associative bit-vector operators have a value on fewer than two arguments; `bvnand`, `bvnor`
and `bvxnor` are the complement of the fold on any number of them.

How an atom is read is a parameter. The standard's way is `atomValue`; the frontend has a way of its
own (`frontendAtom`), and the lowering is first compared with the meaning that results from it.

A function may call functions, so its meaning is given at a depth; a term that has a value at one
depth has that value at every larger one (`value_mono`).
-/

namespace SmtServer
namespace Smtlib

open Lib
open Lib.Smt (Value)

def sortOf : Value → SmtSort
  | .bool _ => .bool
  | .bv w _ => .bv w

/-! ## Operators on values -/

/-- A partial function on the values of the arguments. -/
abbrev Operation := List Value → Option Value

def onBool (f : Value → Value) : Operation
  | [.bool a] => some (f (.bool a))
  | _ => none

def onBools (f : Value → Value → Value) : Operation
  | [.bool a, .bool b] => some (f (.bool a) (.bool b))
  | _ => none

/-- The left fold of Bools from the identity. -/
def foldBools (identity : Bool) (f : Value → Value → Value) : Operation := fun vs =>
  if vs.all (sortOf · = .bool) then some (vs.foldl f (.bool identity)) else none

def onBv (f : Value → Value) : Operation
  | [.bv w x] => some (f (.bv w x))
  | _ => none

def onBvs (f : Value → Value → Value) : Operation
  | [.bv w x, .bv w' y] => if w = w' then some (f (.bv w x) (.bv w' y)) else none
  | _ => none

/-- The left fold of bit-vectors of one width. -/
def foldBvs (f : Value → Value → Value) : Operation
  | .bv w x :: vs => if vs.all (sortOf · = .bv w) then some (vs.foldl f (.bv w x)) else none
  | _ => none

/-- The complement of the left fold. -/
def foldBvsNot (f : Value → Value → Value) : Operation := fun vs => (foldBvs f vs).map Smt.bvnot

def concatValue : Operation
  | [.bv w x, .bv w' y] => some (Smt.concat (.bv w x) (.bv w' y))
  | _ => none

/-- One bit that says whether the vectors are equal. -/
def compValue : Operation := onBvs fun x y => .bv 1 (.ofBool (x = y))

def iteValue : Operation
  | [.bool c, t, e] => if sortOf t = sortOf e then some (if c then t else e) else none
  | _ => none

/-- Two or more values of one sort. -/
def sameSorts : List Value → Bool
  | v :: w :: vs => (w :: vs).all (sortOf · = sortOf v)
  | _ => false

/-- Each argument equals the next. -/
def chainable (vs : List Value) : Option Value :=
  if sameSorts vs then some (.bool (decide (vs.IsChain (· = ·)))) else none

/-- No two arguments are equal. -/
def pairwise (vs : List Value) : Option Value :=
  if sameSorts vs then some (.bool (decide (vs.Pairwise (· ≠ ·)))) else none

/-- The operators of QF_BV, with the overflow predicates under both of their names. -/
def theory : NameMap Operation := [
  ("ite", iteValue),
  ("=", chainable),
  ("distinct", pairwise),
  ("not", onBool Smt.not),
  ("and", foldBools true Smt.and),
  ("or", foldBools false Smt.or),
  ("=>", onBools Smt.implies),
  ("xor", onBools fun a b => Smt.not (Smt.iff a b)),
  ("bvnot", onBv Smt.bvnot),
  ("bvneg", onBv Smt.bvneg),
  ("bvand", foldBvs Smt.bvand),
  ("bvnand", foldBvsNot Smt.bvand),
  ("bvor", foldBvs Smt.bvor),
  ("bvnor", foldBvsNot Smt.bvor),
  ("bvxor", foldBvs Smt.bvxor),
  ("bvxnor", foldBvsNot Smt.bvxor),
  ("bvadd", foldBvs Smt.bvadd),
  ("bvsub", onBvs Smt.bvsub),
  ("bvmul", foldBvs Smt.bvmul),
  ("bvudiv", onBvs Smt.bvudiv),
  ("bvurem", onBvs Smt.bvurem),
  ("bvsdiv", onBvs Smt.bvsdiv),
  ("bvsrem", onBvs Smt.bvsrem),
  ("bvsmod", onBvs Smt.bvsmod),
  ("bvshl", onBvs Smt.bvshl),
  ("bvlshr", onBvs Smt.bvlshr),
  ("bvashr", onBvs Smt.bvashr),
  ("bvcomp", compValue),
  ("concat", concatValue),
  ("bvult", onBvs Smt.bvult),
  ("bvule", onBvs Smt.bvule),
  ("bvugt", onBvs fun x y => Smt.bvult y x),
  ("bvuge", onBvs fun x y => Smt.bvule y x),
  ("bvslt", onBvs Smt.bvslt),
  ("bvsle", onBvs Smt.bvsle),
  ("bvsgt", onBvs fun x y => Smt.bvslt y x),
  ("bvsge", onBvs fun x y => Smt.bvsle y x),
  ("bvuaddo", onBvs Smt.bvuaddo), ("uaddo", onBvs Smt.bvuaddo),
  ("bvsaddo", onBvs Smt.bvsaddo), ("saddo", onBvs Smt.bvsaddo),
  ("bvusubo", onBvs Smt.bvusubo), ("usubo", onBvs Smt.bvusubo),
  ("bvssubo", onBvs Smt.bvssubo), ("ssubo", onBvs Smt.bvssubo),
  ("bvumulo", onBvs Smt.bvumulo), ("umulo", onBvs Smt.bvumulo),
  ("bvsmulo", onBvs Smt.bvsmulo), ("smulo", onBvs Smt.bvsmulo),
  ("bvsdivo", onBvs Smt.bvsdivo), ("sdivo", onBvs Smt.bvsdivo),
  ("bvnego", onBv Smt.bvnego), ("nego", onBv Smt.bvnego)]

/-- The operators with one index. -/
def indexedTheory (amount : Nat) : NameMap Operation := [
  ("zero_extend", onBv (Smt.zeroExtend amount)),
  ("sign_extend", onBv (Smt.signExtend amount)),
  ("repeat", if amount = 0 then fun _ => none else onBv (Smt.repeated amount)),
  ("rotate_left", onBv (Smt.rotateLeft amount)),
  ("rotate_right", onBv (Smt.rotateRight amount))]

/-- Bits `high` down to `low` of a vector that has them. -/
def extractValue (high low : Nat) : Operation
  | [.bv w x] => if low ≤ high ∧ high < w then some (Smt.extract high low (.bv w x)) else none
  | _ => none

def indexedValue (opItems : List SExpr) (vs : List Value) : Option Value :=
  match opItems with
  | [.atom "_", .atom "extract", .atom high, .atom low] => do
    extractValue (← parseU32 high) (← parseU32 low) vs
  | [.atom "_", .atom op, .atom index] => do
    let operation ← (indexedTheory (← parseU32 index)).lookup op
    operation vs
  | _ => none

/-! ## Literals and names -/

/-- `#b…` has as many bits as digits, `#x…` four times as many. -/
def hashLiteral (text : String) : Option Value := do
  let (digits, radix) ← literalDigits text
  let ds ← digits.mapM (toDigit radix)
  let width := if radix = 2 then ds.length else 4 * ds.length
  some (.bv width (.ofNat width (digitsValue radix ds)))

/-- `(_ bvN W)`. -/
def indexedLiteralValue (items : List SExpr) : Option Value :=
  match literalParts items with
  | .ok (some (value, width)) => do
    let ds ← value.toList.mapM (toDigit 10)
    let width ← parseU32 width
    some (.bv width (.ofNat width (digitsValue 10 ds)))
  | _ => none

/-- What an atom stands for where no name of a scope or of a declaration is meant. -/
def builtinValue (text : String) : Option Value :=
  if text = "true" then some (.bool true)
  else if text = "false" then some (.bool false)
  else hashLiteral text

/-- The names bound around a term, innermost first, with their values. -/
abbrev Scope := NameMap Value

/-- How atoms are read, given the names bound around them. -/
abbrev AtomReader := Scope → String → Option Value

/-- A name is looked up in its scope, then among the constants. -/
def atomValue (constants : Scope) : AtomReader := fun scope name =>
  ((scope.lookup name).or (constants.lookup name)).or (builtinValue name)

/-- A literal at the width the frontend computes for it. -/
def wrappedLiteral (text : String) : Option Value := do
  let (digits, radix) ← literalDigits text
  let ds ← digits.mapM (toDigit radix)
  match literalWidth digits radix with
  | .ok width => some (.bv width (.ofNat width (digitsValue radix ds)))
  | _ => none

/-- Literals are recognised before any scope is looked at. -/
def frontendAtom (constants : Scope) : AtomReader := fun scope name =>
  if name = "true" then some (.bool true)
  else if name = "false" then some (.bool false)
  else if (literalDigits name).isSome then wrappedLiteral name
  else (scope.lookup name).or (constants.lookup name)

/-! ## Terms -/

/-- What a term is read in: how atoms are read, the defined functions and their meaning. -/
structure Reading where
  atom : AtomReader
  functions : NameMap FunctionBinding
  apply : FunctionBinding → Operation

mutual

def value (R : Reading) : SExpr → Scope → Option Value
  | .atom name, scope => R.atom scope name
  | .list [], _ => none
  | .list (.list opItems :: args), scope => do indexedValue opItems (← values R args scope)
  | .list (.atom op :: args), scope =>
    if op = "_" then indexedLiteralValue (.atom op :: args)
    else
      match R.functions.lookup op with
      | some function => do R.apply function (← values R args scope)
      | none =>
        if op = "!" then annotatedValue R args scope
        else if op = "let" then letValue R args scope
        else
          match theory.lookup op with
          | some operation => do operation (← values R args scope)
          | none => none

/-- Attributes do not change a term. -/
def annotatedValue (R : Reading) : List SExpr → Scope → Option Value
  | term :: _, scope => value R term scope
  | [], _ => none

def letValue (R : Reading) : List SExpr → Scope → Option Value
  | [.list bindings, body], scope => do
    let bound ← bindingValues R bindings scope
    value R body (scope.insertAll bound)
  | _, _ => none

def values (R : Reading) : List SExpr → Scope → Option (List Value)
  | [], _ => some []
  | term :: terms, scope => do
    let v ← value R term scope
    let vs ← values R terms scope
    some (v :: vs)

/-- Every bound term is read in the scope around the `let`. -/
def bindingValues (R : Reading) : List SExpr → Scope → Option Scope
  | [], _ => some []
  | .list [.atom name, term] :: rest, scope => do
    let v ← value R term scope
    let bound ← bindingValues R rest scope
    some ((name, v) :: bound)
  | _ :: _, _ => none

end

/-- The value of a body where exactly the parameters are bound. -/
def applyFunction (atom : AtomReader) (functions : NameMap FunctionBinding) :
    Nat → FunctionBinding → Operation
  | 0, _, _ => none
  | depth + 1, function, vs =>
    if vs.map sortOf = function.params.map (·.2) then
      (value ⟨atom, functions, applyFunction atom functions depth⟩ function.body
        (NameMap.insertAll [] ((function.params.map (·.1)).zip vs))).filter
          (sortOf · = function.result)
    else none

/-- Reading with functions expanded to depth `depth`. -/
def readingAt (atom : AtomReader) (functions : NameMap FunctionBinding) (depth : Nat) : Reading :=
  ⟨atom, functions, applyFunction atom functions depth⟩

/-- The value of a term whose functions are expanded to depth `depth`. -/
def termValue (atom : AtomReader) (functions : NameMap FunctionBinding) (depth : Nat)
    (expr : SExpr) (scope : Scope) : Option Value :=
  value (readingAt atom functions depth) expr scope

/-! ## Depth -/

/-- A reading with the same names whose functions are defined wherever those of `R` are. -/
structure Reading.Le (R R' : Reading) : Prop where
  atom : R.atom = R'.atom
  functions : R.functions = R'.functions
  apply : ∀ {f vs v}, R.apply f vs = some v → R'.apply f vs = some v

mutual

theorem value_of_le {R R' : Reading} (h : R.Le R') :
    ∀ (e : SExpr) (scope : Scope) {v : Value}, value R e scope = some v → value R' e scope = some v
  | .atom name, scope, v, hv => by
    rw [value, ← h.atom]
    exact hv
  | .list [], _, _, hv => by simp [value] at hv
  | .list (.list opItems :: args), scope, v, hv => by
    rw [value, Option.bind_eq_bind, Option.bind_eq_some_iff] at hv ⊢
    obtain ⟨vs, hvs, hv⟩ := hv
    exact ⟨vs, values_of_le h args scope hvs, hv⟩
  | .list (.atom op :: args), scope, v, hv => by
    rw [value] at hv ⊢
    rw [← h.functions]
    split at hv
    · rwa [if_pos ‹_›]
    · rw [if_neg ‹_›]
      split at hv
      · obtain ⟨vs, hvs, hv⟩ := Option.bind_eq_some_iff.mp hv
        exact Option.bind_eq_some_iff.mpr ⟨vs, values_of_le h args scope hvs, h.apply hv⟩
      · split at hv
        · rw [if_pos ‹_›]
          exact annotatedValue_of_le h args scope hv
        · rw [if_neg ‹_›]
          split at hv
          · rw [if_pos ‹_›]
            exact letValue_of_le h args scope hv
          · rw [if_neg ‹_›]
            split at hv
            · obtain ⟨vs, hvs, hv⟩ := Option.bind_eq_some_iff.mp hv
              exact Option.bind_eq_some_iff.mpr ⟨vs, values_of_le h args scope hvs, hv⟩
            · simp at hv

theorem annotatedValue_of_le {R R' : Reading} (h : R.Le R') :
    ∀ (es : List SExpr) (scope : Scope) {v : Value},
      annotatedValue R es scope = some v → annotatedValue R' es scope = some v
  | term :: _, scope, _, hv => value_of_le h term scope hv

theorem letValue_of_le {R R' : Reading} (h : R.Le R') :
    ∀ (es : List SExpr) (scope : Scope) {v : Value},
      letValue R es scope = some v → letValue R' es scope = some v
  | [.list bindings, body], scope, v, hv => by
    rw [letValue] at hv ⊢
    obtain ⟨bound, hbound, hv⟩ := Option.bind_eq_some_iff.mp hv
    rw [bindingValues_of_le h bindings scope hbound]
    exact value_of_le h body _ hv

theorem values_of_le {R R' : Reading} (h : R.Le R') :
    ∀ (es : List SExpr) (scope : Scope) {vs : List Value},
      values R es scope = some vs → values R' es scope = some vs
  | [], _, _, hvs => hvs
  | e :: es, scope, vs, hvs => by
    rw [values] at hvs ⊢
    obtain ⟨v, hv, hvs⟩ := Option.bind_eq_some_iff.mp hvs
    obtain ⟨rest, hrest, hvs⟩ := Option.bind_eq_some_iff.mp hvs
    rw [value_of_le h e scope hv, values_of_le h es scope hrest]
    exact hvs

theorem bindingValues_of_le {R R' : Reading} (h : R.Le R') :
    ∀ (es : List SExpr) (scope : Scope) {bound : Scope},
      bindingValues R es scope = some bound → bindingValues R' es scope = some bound
  | [], _, _, hb => hb
  | .list [.atom name, term] :: rest, scope, bound, hb => by
    rw [bindingValues] at hb ⊢
    obtain ⟨v, hv, hb⟩ := Option.bind_eq_some_iff.mp hb
    obtain ⟨more, hmore, hb⟩ := Option.bind_eq_some_iff.mp hb
    rw [value_of_le h term scope hv, bindingValues_of_le h rest scope hmore]
    exact hb

end

theorem applyFunction_succ (atom : AtomReader) (functions : NameMap FunctionBinding)
    (depth : Nat) {f : FunctionBinding} {vs : List Value} {v : Value}
    (h : applyFunction atom functions depth f vs = some v) :
    applyFunction atom functions (depth + 1) f vs = some v := by
  induction depth generalizing f vs v with
  | zero => simp [applyFunction] at h
  | succ depth ih =>
    rw [applyFunction] at h ⊢
    split at h
    · rw [if_pos ‹_›]
      obtain ⟨hv, hs⟩ := Option.filter_eq_some_iff.mp h
      refine Option.filter_eq_some_iff.mpr ⟨value_of_le (R := ⟨_, _, _⟩) ?_ _ _ hv, hs⟩
      exact ⟨rfl, rfl, ih⟩
    · simp at h

/-- A term has at most one value, whatever the depth it is read at. -/
theorem value_mono {atom : AtomReader} {functions : NameMap FunctionBinding} {depth depth' : Nat}
    (hle : depth ≤ depth') {e : SExpr} {scope : Scope} {v : Value}
    (h : termValue atom functions depth e scope = some v) :
    termValue atom functions depth' e scope = some v := by
  induction hle with
  | refl => exact h
  | step _ ih =>
    refine value_of_le (R := readingAt _ _ _) ?_ _ _ ih
    exact ⟨rfl, rfl, applyFunction_succ atom functions _⟩

end Smtlib
end SmtServer
