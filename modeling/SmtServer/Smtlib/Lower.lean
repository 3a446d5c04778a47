import SmtServer.Lib.Grow
import SmtServer.Smtlib.Syntax

/-!
# `smt-qfbv-smtlib` — lowering terms into a sink

`expr_with_locals` walks a term and builds it in a **sink**, a solver's own store of nodes. The
lowering keeps the sort of every node itself, in `LoweredExpr`, and never asks the sink for one.

The walk is a mutual recursion over S-expressions. An operator is a function on the *lowerings* of
its arguments (`Term`), not on the arguments: running a term is what the source calls
`expr_with_locals(&items[i], locals)`, so the order in which operands and sink operations happen is
the order in which the source makes those calls. Only `let` needs more than the lowerings of its
arguments, since it lowers its body in another scope.

Macro expansion is bounded by a counter in the source. Here the recursion is on what is left of it
(`expansion`): at depth `0` there is no expansion to make.

A hash map is an association list with the newest entry first. The operations of a sink may extend
its state but not take a node back, which is what `Grow` says; the order on states is the sink's.
-/

namespace SmtServer
namespace Smtlib

open Lib Outcome
open Wire (debugStr)

/-! ## The sink -/

/-- A call into a sink; its error is the displayed one. -/
abbrev SinkM (S : Type) [Preorder S] := Grow S String

/-- `QfBvSink`, over the state `S` and the nodes `N`. -/
structure Sink (S N : Type) [Preorder S] where
  boolConst : Bool → SinkM S N
  bvConst : List UInt8 → Nat → SinkM S N
  boolVar : String → SinkM S N
  bvVar : String → Nat → SinkM S N
  boolNot : N → SinkM S N
  boolAnd : N → N → SinkM S N
  boolOr : N → N → SinkM S N
  boolImplies : N → N → SinkM S N
  boolEq : N → N → SinkM S N
  boolXor : N → N → SinkM S N
  boolIte : N → N → N → SinkM S N
  bvNot : N → SinkM S N
  bvNeg : N → SinkM S N
  bvAnd : N → N → SinkM S N
  bvOr : N → N → SinkM S N
  bvXor : N → N → SinkM S N
  bvAdd : N → N → SinkM S N
  bvSub : N → N → SinkM S N
  bvMul : N → N → SinkM S N
  bvUdiv : N → N → SinkM S N
  bvUrem : N → N → SinkM S N
  bvSdiv : N → N → SinkM S N
  bvSrem : N → N → SinkM S N
  bvSmod : N → N → SinkM S N
  bvShl : N → N → SinkM S N
  bvLshr : N → N → SinkM S N
  bvAshr : N → N → SinkM S N
  bvExtract : N → Nat → Nat → SinkM S N
  bvConcat : N → N → SinkM S N
  bvZext : N → Nat → SinkM S N
  bvSext : N → Nat → SinkM S N
  bvRepeat : N → Nat → SinkM S N
  bvRotateLeft : N → Nat → SinkM S N
  bvRotateRight : N → Nat → SinkM S N
  bvIte : N → N → N → SinkM S N
  bvEq : N → N → SinkM S N
  bvUlt : N → N → SinkM S N
  bvUle : N → N → SinkM S N
  bvSlt : N → N → SinkM S N
  bvSle : N → N → SinkM S N
  uaddOvf : N → N → SinkM S N
  saddOvf : N → N → SinkM S N
  usubOvf : N → N → SinkM S N
  ssubOvf : N → N → SinkM S N
  umulOvf : N → N → SinkM S N
  smulOvf : N → N → SinkM S N
  negOvf : N → SinkM S N
  sdivOvf : N → N → SinkM S N
  assert : N → Option String → SinkM S Unit
  assume : N → SinkM S Unit
  push : SinkM S Unit
  pop : SinkM S Unit

structure LoweredExpr (N : Type) where
  node : N
  sort : SmtSort
  deriving Repr, DecidableEq

structure FunctionBinding where
  params : List (String × SmtSort)
  result : SmtSort
  body : SExpr

/-- A hash map from names. -/
abbrev NameMap (α : Type) := List (String × α)

/-- `map.insert(name, value)` for each pair in turn. -/
def NameMap.insertAll {α : Type} (map : NameMap α) (pairs : List (String × α)) : NameMap α :=
  pairs.foldl (fun map pair => pair :: map) map

abbrev LowerM (S : Type) [Preorder S] := Grow S FrontendError

section

variable {S N : Type} [Preorder S]

def sinkResult {α : Type} (m : SinkM S α) : LowerM S α := Grow.mapErr .sink m

/-- The lowering of a term in a scope that is already chosen. -/
abbrev Term (S N : Type) [Preorder S] := LowerM S (LoweredExpr N)

def invalid {α : Type} (context message : String) : LowerM S α :=
  Grow.fail (.invalid context message)

/-- `expect_len` on a list that does not have the length. -/
def wrongLen {α : Type} (expected : Nat) (context : String) : LowerM S α :=
  invalid context s!"expected {expected} items"

def lowerSort (actual expected : SmtSort) (context : String) : LowerM S Unit :=
  Grow.lift (expectSort actual expected context)

/-! ## Operators -/

def unaryBool (f : N → SinkM S N) : List (Term S N) → Term S N
  | [x] => do
    let x ← x
    lowerSort x.sort .bool "unary bool"
    return ⟨← sinkResult (f x.node), .bool⟩
  | _ => wrongLen 2 "unary bool"

def binaryBool (f : N → N → SinkM S N) : List (Term S N) → Term S N
  | [a, b] => do
    let a ← a
    let b ← b
    lowerSort a.sort .bool "binary bool"
    lowerSort b.sort .bool "binary bool"
    return ⟨← sinkResult (f a.node b.node), .bool⟩
  | _ => wrongLen 3 "binary bool"

/-- One round of `fold_bool`. -/
def foldBoolStep (f : N → N → SinkM S N) (cur : LoweredExpr N) (arg : Term S N) : Term S N := do
  let next ← arg
  lowerSort next.sort .bool "fold bool"
  return ⟨← sinkResult (f cur.node next.node), .bool⟩

def foldBool (sink : Sink S N) (identity : Bool) (f : N → N → SinkM S N) :
    List (Term S N) → Term S N
  | [] => do return ⟨← sinkResult (sink.boolConst identity), .bool⟩
  | first :: rest => do
    let cur ← first
    lowerSort cur.sort .bool "fold bool"
    rest.foldlM (foldBoolStep f) cur

def unaryBv (f : N → SinkM S N) : List (Term S N) → Term S N
  | [x] => do
    let x ← x
    match x.sort with
    | .bv width => return ⟨← sinkResult (f x.node), .bv width⟩
    | .bool => invalid "unary BV" "argument is not BV"
  | _ => wrongLen 2 "unary BV"

def binaryBvBindings (f : N → N → SinkM S N) (context : String) (a b : LoweredExpr N) :
    Term S N :=
  match a.sort, b.sort with
  | .bv w₁, .bv w₂ =>
    if w₁ ≠ w₂ then invalid context "width mismatch"
    else do return ⟨← sinkResult (f a.node b.node), .bv w₁⟩
  | _, _ => invalid context "argument is not BV"

def binaryBv (f : N → N → SinkM S N) : List (Term S N) → Term S N
  | [a, b] => do
    let a ← a
    let b ← b
    binaryBvBindings f "binary BV" a b
  | _ => wrongLen 3 "binary BV"

def foldBvStep (f : N → N → SinkM S N) (cur : LoweredExpr N) (arg : Term S N) : Term S N := do
  let next ← arg
  binaryBvBindings f "BV fold" cur next

def foldBv (f : N → N → SinkM S N) : List (Term S N) → Term S N
  | [] => invalid "BV fold" "expected at least one argument"
  | first :: rest => do
    let cur ← first
    match cur.sort with
    | .bv _ => rest.foldlM (foldBvStep f) cur
    | .bool => invalid "BV fold" "argument is not BV"

def invertedFoldBv (sink : Sink S N) (f : N → N → SinkM S N) (args : List (Term S N)) :
    Term S N := do
  let value ← foldBv f args
  return ⟨← sinkResult (sink.bvNot value.node), value.sort⟩

def bvcomp (sink : Sink S N) : List (Term S N) → Term S N
  | [a, b] => do
    let a ← a
    let b ← b
    match a.sort, b.sort with
    | .bv w₁, .bv w₂ =>
      if w₁ ≠ w₂ then invalid "bvcomp" "width mismatch"
      else
        let eq ← sinkResult (sink.bvEq a.node b.node)
        let one ← sinkResult (sink.bvConst [1] 1)
        let zero ← sinkResult (sink.bvConst [0] 1)
        return ⟨← sinkResult (sink.bvIte eq one zero), .bv 1⟩
    | _, _ => invalid "bvcomp" "argument is not BV"
  | _ => wrongLen 3 "bvcomp"

/-- The result of a checked operation on `u32`. -/
def checkedWidth (width : Nat) (context : String) : LowerM S Nat :=
  Grow.lift (if width < 2 ^ 32 then ok width else err (.invalid context "width overflow"))

def concat (sink : Sink S N) : List (Term S N) → Term S N
  | [a, b] => do
    let a ← a
    let b ← b
    match a.sort, b.sort with
    | .bv w₁, .bv w₂ =>
      let node ← sinkResult (sink.bvConcat a.node b.node)
      let width ← checkedWidth (w₁ + w₂) "concat"
      return ⟨node, .bv width⟩
    | _, _ => invalid "concat" "argument is not BV"
  | _ => wrongLen 3 "concat"

def bvCmp (f : N → N → SinkM S N) (args : List (Term S N)) : Term S N := do
  let value ← binaryBv f args
  return ⟨value.node, .bool⟩

def overflowCmp (f : N → N → SinkM S N) (args : List (Term S N)) : Term S N := bvCmp f args

def unaryOverflow (f : N → SinkM S N) (args : List (Term S N)) : Term S N := do
  let value ← unaryBv f args
  return ⟨value.node, .bool⟩

def iteExpr (sink : Sink S N) : List (Term S N) → Term S N
  | [c, t, e] => do
    let c ← c
    let t ← t
    let e ← e
    lowerSort c.sort .bool "ite condition"
    match t.sort, e.sort with
    | .bool, .bool => return ⟨← sinkResult (sink.boolIte c.node t.node e.node), .bool⟩
    | .bv w₁, .bv w₂ =>
      if w₁ = w₂ then return ⟨← sinkResult (sink.bvIte c.node t.node e.node), .bv w₁⟩
      else invalid "ite" "branch sorts differ"
    | _, _ => invalid "ite" "branch sorts differ"
  | _ => wrongLen 4 "ite"

def equalityNode (sink : Sink S N) (context : String) (a b : LoweredExpr N) : LowerM S N :=
  match a.sort, b.sort with
  | .bool, .bool => sinkResult (sink.boolEq a.node b.node)
  | .bv w₁, .bv w₂ =>
    if w₁ = w₂ then sinkResult (sink.bvEq a.node b.node)
    else invalid context "argument sorts differ"
  | _, _ => invalid context "argument sorts differ"

/-- One round of `equals`: the conjunction so far and the argument before. -/
def equalsStep (sink : Sink S N) (state : N × LoweredExpr N) (arg : Term S N) :
    LowerM S (N × LoweredExpr N) := do
  let next ← arg
  let eq ← equalityNode sink "=" state.2 next
  return (← sinkResult (sink.boolAnd state.1 eq), next)

def equals (sink : Sink S N) : List (Term S N) → Term S N
  | first :: second :: rest => do
    let result ← sinkResult (sink.boolConst true)
    let previous ← first
    let (result, _) ← (second :: rest).foldlM (equalsStep sink) (result, previous)
    return ⟨result, .bool⟩
  | _ => invalid "=" "expected at least two arguments"

/-- The pairs `(values[i], values[j])` with `i < j`, in the order of the two loops. -/
def orderedPairs {α : Type} : List α → List (α × α)
  | [] => []
  | x :: xs => xs.map (fun y => (x, y)) ++ orderedPairs xs

def distinctStep (sink : Sink S N) (result : N) (pair : LoweredExpr N × LoweredExpr N) :
    LowerM S N := do
  let eq ← equalityNode sink "distinct" pair.1 pair.2
  let ne ← sinkResult (sink.boolNot eq)
  sinkResult (sink.boolAnd result ne)

def distinct (sink : Sink S N) (args : List (Term S N)) : Term S N :=
  if args.length < 2 then invalid "distinct" "expected at least two arguments"
  else do
    let values ← args.mapM id
    let result ← sinkResult (sink.boolConst true)
    let result ← (orderedPairs values).foldlM (distinctStep sink) result
    return ⟨result, .bool⟩

/-- The arms of `list_expr` that only look at the lowerings of their arguments. -/
def operators (sink : Sink S N) : NameMap (List (Term S N) → Term S N) := [
  ("ite", iteExpr sink),
  ("=", equals sink),
  ("distinct", distinct sink),
  ("not", unaryBool sink.boolNot),
  ("and", foldBool sink true sink.boolAnd),
  ("or", foldBool sink false sink.boolOr),
  ("=>", binaryBool sink.boolImplies),
  ("xor", binaryBool sink.boolXor),
  ("bvnot", unaryBv sink.bvNot),
  ("bvneg", unaryBv sink.bvNeg),
  ("bvand", foldBv sink.bvAnd),
  ("bvnand", invertedFoldBv sink sink.bvAnd),
  ("bvor", foldBv sink.bvOr),
  ("bvnor", invertedFoldBv sink sink.bvOr),
  ("bvxor", foldBv sink.bvXor),
  ("bvxnor", invertedFoldBv sink sink.bvXor),
  ("bvadd", foldBv sink.bvAdd),
  ("bvsub", binaryBv sink.bvSub),
  ("bvmul", foldBv sink.bvMul),
  ("bvudiv", binaryBv sink.bvUdiv),
  ("bvurem", binaryBv sink.bvUrem),
  ("bvsdiv", binaryBv sink.bvSdiv),
  ("bvsrem", binaryBv sink.bvSrem),
  ("bvsmod", binaryBv sink.bvSmod),
  ("bvshl", binaryBv sink.bvShl),
  ("bvlshr", binaryBv sink.bvLshr),
  ("bvashr", binaryBv sink.bvAshr),
  ("bvcomp", bvcomp sink),
  ("concat", concat sink),
  ("bvult", bvCmp sink.bvUlt),
  ("bvule", bvCmp sink.bvUle),
  ("bvugt", bvCmp fun a b => sink.bvUlt b a),
  ("bvuge", bvCmp fun a b => sink.bvUle b a),
  ("bvslt", bvCmp sink.bvSlt),
  ("bvsle", bvCmp sink.bvSle),
  ("bvsgt", bvCmp fun a b => sink.bvSlt b a),
  ("bvsge", bvCmp fun a b => sink.bvSle b a),
  ("bvuaddo", overflowCmp sink.uaddOvf), ("uaddo", overflowCmp sink.uaddOvf),
  ("bvsaddo", overflowCmp sink.saddOvf), ("saddo", overflowCmp sink.saddOvf),
  ("bvusubo", overflowCmp sink.usubOvf), ("usubo", overflowCmp sink.usubOvf),
  ("bvssubo", overflowCmp sink.ssubOvf), ("ssubo", overflowCmp sink.ssubOvf),
  ("bvumulo", overflowCmp sink.umulOvf), ("umulo", overflowCmp sink.umulOvf),
  ("bvsmulo", overflowCmp sink.smulOvf), ("smulo", overflowCmp sink.smulOvf),
  ("bvsdivo", overflowCmp sink.sdivOvf), ("sdivo", overflowCmp sink.sdivOvf),
  ("bvnego", unaryOverflow sink.negOvf), ("nego", unaryOverflow sink.negOvf)]

/-! ## Indexed operators -/

/-- `((_ extract hi lo) x)`. -/
def extractOp (sink : Sink S N) (high low : SExpr) : List (Term S N) → Term S N
  | [x] => do
    let hi ← Grow.lift (parseU32Atom high "extract high")
    let lo ← Grow.lift (parseU32Atom low "extract low")
    let x ← x
    match x.sort with
    | .bool => invalid "extract" "argument is not BV"
    | .bv _ =>
      let width ← Grow.lift (if lo ≤ hi ∧ hi - lo + 1 < 2 ^ 32 then ok (hi - lo + 1)
        else err (.invalid "extract" "invalid bounds"))
      return ⟨← sinkResult (sink.bvExtract x.node hi lo), .bv width⟩
  | _ => invalid "extract" "expected one argument"

/-- The five operators with one index, on an argument of width `width`. -/
def oneIndexOp (sink : Sink S N) (op : String) (amount width : Nat) (x : N) : Term S N :=
  match op with
  | "zero_extend" => do
    let node ← sinkResult (sink.bvZext x amount)
    return ⟨node, .bv (← checkedWidth (width + amount) "zero_extend")⟩
  | "sign_extend" => do
    let node ← sinkResult (sink.bvSext x amount)
    return ⟨node, .bv (← checkedWidth (width + amount) "sign_extend")⟩
  | "repeat" =>
    if amount = 0 then invalid "repeat" "count must be positive"
    else do
      let node ← sinkResult (sink.bvRepeat x amount)
      return ⟨node, .bv (← checkedWidth (width * amount) "repeat")⟩
  | "rotate_left" => do return ⟨← sinkResult (sink.bvRotateLeft x amount), .bv width⟩
  | "rotate_right" => do return ⟨← sinkResult (sink.bvRotateRight x amount), .bv width⟩
  | _ => Grow.fail (.unsupported "indexed operator")

def extendOp (sink : Sink S N) (op index : SExpr) : List (Term S N) → Term S N
  | [x] => do
    let amount ← Grow.lift (parseU32Atom index "indexed amount")
    let x ← x
    match x.sort with
    | .bool => invalid "indexed operator" "argument is not BV"
    | .bv width => do
      let op ← Grow.lift (atom op)
      oneIndexOp sink op amount width x.node
  | _ => invalid "indexed operator" "expected one argument"

def indexedOp (sink : Sink S N) (opItems : List SExpr) (args : List (Term S N)) : Term S N :=
  match opItems with
  | [underscore, extract, high, low] => do
    let underscore ← Grow.lift (atom underscore)
    if underscore ≠ "_" then Grow.fail (.unsupported "indexed operator")
    else
      let extract ← Grow.lift (atom extract)
      if extract ≠ "extract" then Grow.fail (.unsupported "indexed operator")
      else extractOp sink high low args
  | [underscore, op, index] => do
    let underscore ← Grow.lift (atom underscore)
    if underscore ≠ "_" then Grow.fail (.unsupported "indexed operator")
    else extendOp sink op index args
  | _ => Grow.fail (.unsupported "indexed operator")

/-! ## Terms -/

/-- What the lowering of a term looks names up in. -/
structure Tables (N : Type) where
  env : NameMap (LoweredExpr N)
  functions : NameMap FunctionBinding

/-- The digits and the radix of `#b…` and `#x…`. -/
def literalDigits (value : String) : Option (List Char × Nat) :=
  match stripText "#b".toList value.toList with
  | some digits => some (digits, 2)
  | none => (stripText "#x".toList value.toList).map fun digits => (digits, 16)

/-- `digits.len() as u32`, and four times that: the length is in bytes, and the cast truncates. -/
def literalWidth (digits : List Char) (radix : Nat) : Result Nat :=
  let len := (String.ofList digits).utf8ByteSize % 2 ^ 32
  if radix = 2 then ok len else mulU 32 len 4

/-- Literals are recognised before any scope is looked at. -/
def atomExpr (sink : Sink S N) (tables : Tables N) (value : String)
    (locals : NameMap (LoweredExpr N)) : Term S N :=
  if value = "true" then do return ⟨← sinkResult (sink.boolConst true), .bool⟩
  else if value = "false" then do return ⟨← sinkResult (sink.boolConst false), .bool⟩
  else
    match literalDigits value with
    | some (digits, radix) => do
      let width ← Grow.lift (literalWidth digits radix)
      let bytes ← Grow.lift (literalBytes digits radix width value)
      return ⟨← sinkResult (sink.bvConst bytes width), .bv width⟩
    | none =>
      Grow.lift (ofOption ((locals.lookup value).or (tables.env.lookup value))
        (.invalid "SMT-LIB symbol" s!"undefined symbol {debugStr value}"))

/-- The lowering of a term, in a scope still to come. -/
abbrev ScopedTerm (S N : Type) [Preorder S] := NameMap (LoweredExpr N) → Term S N

/-- The arguments of a call, checked against the parameters and bound to their names. -/
def bindArgs (locals : NameMap (LoweredExpr N)) :
    List (String × SmtSort) → List (ScopedTerm S N) → NameMap (LoweredExpr N) →
      LowerM S (NameMap (LoweredExpr N))
  | (name, sort) :: params, arg :: args, bound => do
    let binding ← arg locals
    lowerSort binding.sort sort "define-fun application"
    bindArgs locals params args ((name, binding) :: bound)
  | _, _, bound => pure bound

/-- `expand` lowers a body, unless the expansion depth is used up. -/
def functionCall (expand : Option (SExpr → ScopedTerm S N)) (name : String)
    (function : FunctionBinding) (args : List (ScopedTerm S N))
    (locals : NameMap (LoweredExpr N)) : Term S N :=
  if args.length ≠ function.params.length then
    invalid "define-fun application"
      s!"{name} expected {function.params.length} arguments, got {args.length}"
  else
    match expand with
    | none => invalid "define-fun application" "macro expansion depth exceeded"
    | some expand => do
      let expansionLocals ← bindArgs locals function.params args []
      let binding ← expand function.body expansionLocals
      lowerSort binding.sort function.result "define-fun result"
      return binding

def indexedLiteral (sink : Sink S N) (items : List SExpr) : Term S N := do
  let (bytes, width) ← Grow.lift (indexedBvLiteralBytes items)
  return ⟨← sinkResult (sink.bvConst bytes width), .bv width⟩

/-- The loop of `let_expr` over the bindings, with those lowered so far. Each binding comes with the
lowerings of its items. -/
def letLoop (locals : NameMap (LoweredExpr N)) :
    List (SExpr × List (ScopedTerm S N)) → List (String × LoweredExpr N) →
      LowerM S (List (String × LoweredExpr N))
  | [], parsed => pure parsed
  | (.list [name, _], [_, term]) :: rest, parsed => do
    let name ← Grow.lift (atom name)
    if parsed.any (·.1 = name) then invalid "let" s!"duplicate binding {debugStr name}"
    else
      let value ← term locals
      letLoop locals rest (parsed ++ [(name, value)])
  | _ :: _, _ => invalid "let" "bad binding"

/-- `bindings` are the lowerings of the parts of the binding list. -/
def letExpr (args : List SExpr) (terms : List (ScopedTerm S N))
    (bindings : List (List (ScopedTerm S N))) (locals : NameMap (LoweredExpr N)) : Term S N :=
  match args, terms with
  | [.list pairs, _], [_, body] => do
    let parsed ← letLoop locals (pairs.zip bindings) []
    body (locals.insertAll parsed)
  | [_, _], _ => invalid "let" "expected binding list"
  | _, _ => wrongLen 3 "let"

/-- `items` are not empty: `head` and `args`. -/
def listExpr (sink : Sink S N) (tables : Tables N) (expand : Option (SExpr → ScopedTerm S N))
    (head : SExpr) (args : List SExpr) (terms : List (ScopedTerm S N))
    (bindings : List (List (ScopedTerm S N))) (locals : NameMap (LoweredExpr N)) : Term S N :=
  match head with
  | .list opItems => indexedOp sink opItems (terms.map (· locals))
  | .atom op =>
    if op = "_" then indexedLiteral sink (head :: args)
    else
      match tables.functions.lookup op with
      | some function => functionCall expand op function terms locals
      | none =>
        if op = "!" then do
          match ← Grow.lift ( parseAnnotation (head :: args)), terms with
          | some _, term :: _ => term locals
          | _, _ => invalid "annotation" "expected annotation"
        else if op = "let" then letExpr args terms bindings locals
        else
          match (operators sink).lookup op with
          | some operator => operator (terms.map (· locals))
          | none => Grow.fail (.unsupported s!"SMT-LIB operator {op}")

mutual

/-- `expr_with_locals`, with the expansion that is still allowed. -/
def lowerTerm (sink : Sink S N) (tables : Tables N) (expand : Option (SExpr → ScopedTerm S N)) :
    SExpr → ScopedTerm S N
  | .atom value => atomExpr sink tables value
  | .list [] => fun _ => invalid "SMT-LIB expression" "empty list"
  | .list (head :: args) =>
    listExpr sink tables expand head args (lowerTerms sink tables expand args)
      (lowerFirst sink tables expand args)

/-- The lowerings of the terms of a list. -/
def lowerTerms (sink : Sink S N) (tables : Tables N) (expand : Option (SExpr → ScopedTerm S N)) :
    List SExpr → List (ScopedTerm S N)
  | [] => []
  | term :: terms => lowerTerm sink tables expand term :: lowerTerms sink tables expand terms

/-- The lowerings of the parts of the parts of the first argument: what a `let` binds. -/
def lowerFirst (sink : Sink S N) (tables : Tables N) (expand : Option (SExpr → ScopedTerm S N)) :
    List SExpr → List (List (ScopedTerm S N))
  | .list bindings :: _ => lowerParts sink tables expand bindings
  | _ => []

def lowerParts (sink : Sink S N) (tables : Tables N) (expand : Option (SExpr → ScopedTerm S N)) :
    List SExpr → List (List (ScopedTerm S N))
  | [] => []
  | .atom _ :: rest => [] :: lowerParts sink tables expand rest
  | .list items :: rest =>
    lowerTerms sink tables expand items :: lowerParts sink tables expand rest

end

/-- The lowering of the body of a function at a depth that leaves `depth` expansions. -/
def expansion (sink : Sink S N) (tables : Tables N) : Nat → Option (SExpr → ScopedTerm S N)
  | 0 => none
  | depth + 1 => some (lowerTerm sink tables (expansion sink tables depth))

/-- `expr_with_locals` outside any expansion. -/
def exprWithLocals (sink : Sink S N) (tables : Tables N) (maxMacroExpansionDepth : Nat)
    (expr : SExpr) (locals : NameMap (LoweredExpr N)) : Term S N :=
  lowerTerm sink tables (expansion sink tables maxMacroExpansionDepth) expr locals

end

end Smtlib
end SmtServer
