import SmtServer.Lib.Overflow
import SmtServer.Qfbv.Ir
import SmtServer.Server.Text

/-!
# `smt2.rs` — requests as SMT-LIB scripts

A request is printed as a script: declarations, assertions, assumptions as further assertions, one
`check-sat`. Terms are printed through a cache with a slot for every node, so that a shared node is
printed once and its text copied. Overflow predicates are printed as the formulas they stand for and
`BV_SELECT` as nested `ite`.

`term_node` calls itself on the operands of a node. The recursion here is on the number of calls
that may still be open, and running out of them is a panic; in a validated expression operands come
first, so `node_count` calls are enough.
-/

namespace SmtServer
namespace Server

open Lib Outcome Wire

namespace Smt2

structure Smt2Variable where
  nodeRef : NodeRef
  name : String
  sort : WireSort
  width : UInt32
  deriving Repr, DecidableEq

structure Smt2Script where
  script : String
  vars : List Smt2Variable
  deriving Repr, DecidableEq

/-- The variables of one node. -/
def nodeVariable (expr : ExprView) (index : Nat) : Result (List Smt2Variable) := do
  let node ← expr.node index
  match Tag.tryFrom node.tag with
  | some .bvVar => do
    let nodeRef ← NodeRef.new .bv (UInt32.ofNat index)
    let name ← expr.blobStr node.blobRef "BV variable"
    pure [⟨nodeRef, name, .bv, node.width⟩]
  | some .boolVar => do
    let nodeRef ← NodeRef.new .bool (UInt32.ofNat index)
    let name ← expr.blobStr node.blobRef "Bool variable"
    pure [⟨nodeRef, name, .bool, 0⟩]
  | _ => pure []

def collectVariables (expr : ExprView) : Result (List Smt2Variable) := do
  let vars ← (List.range expr.header.nodeCount.toNat).mapM (nodeVariable expr)
  pure vars.flatten

/-- The same text as in `smtlib.rs`. -/
def quoteSymbol (symbol : String) : String := Server.quoteSymbol symbol

def sortToSmt2 (sort : WireSort) (width : UInt32) : String :=
  match sort with
  | .bool => "Bool"
  | .bv => s!"(_ BitVec {width.toNat})"

/-! ## Constants -/

/-- The bytes of a constant, its unused bits cleared. -/
def constBytes (expr : ExprView) (width : UInt32) (payload : UInt64) : Result (List UInt8) := do
  let bytes ←
    if width.toNat ≤ 64 then ok ((u64Bytes payload).take (Qfbv.divCeil8 width.toNat))
    else expr.blobRef (BlobRef.fromPayload payload)
  pure (Qfbv.maskUnusedHighBits bytes width.toNat)

/-- The digit of one bit; a byte that is not there panics. -/
def bitChar (bytes : List UInt8) (bit : Nat) : Result Char := do
  let byte ← expect bytes[bit / 8]?
  pure (if byte.toNat.testBit (bit % 8) then '1' else '0')

def constToSmt2 (expr : ExprView) (width : UInt32) (payload : UInt64) : Result String := do
  let bytes ← constBytes expr width payload
  let bits ← (List.range width.toNat).reverse.mapM (bitChar bytes)
  pure ("#b" ++ String.ofList bits)

def zeroBv (width : Nat) : String := "#b" ++ String.ofList (List.replicate width '0')

def onesBv (width : Nat) : String := "#b" ++ String.ofList (List.replicate width '1')

def signedMinBv (width : Nat) : String :=
  "#b1" ++ String.ofList (List.replicate (width - 1) '0')

/-! ## Overflow predicates -/

def sign (term : String) (width : Nat) : String :=
  s!"((_ extract {width - 1} {width - 1}) {term})"

def unsignedAddOverflow (a b : String) : String := s!"(bvult (bvadd {a} {b}) {a})"

def unsignedSubOverflow (a b : String) : String := s!"(bvult {a} {b})"

def unsignedMulOverflow (a b : String) (width : Nat) : String :=
  let product := s!"(bvmul ((_ zero_extend {width}) {a}) ((_ zero_extend {width}) {b}))"
  s!"(not (= ((_ extract {width * 2 - 1} {width}) {product}) {zeroBv width}))"

def signedAddOverflow (a b : String) (width : Nat) : String :=
  let sum := s!"(bvadd {a} {b})"
  s!"(or (and (= {sign a width} #b0) (= {sign b width} #b0) (= {sign sum width} #b1)) " ++
    s!"(and (= {sign a width} #b1) (= {sign b width} #b1) (= {sign sum width} #b0)))"

def signedSubOverflow (a b : String) (width : Nat) : String :=
  let diff := s!"(bvsub {a} {b})"
  s!"(or (and (= {sign a width} #b0) (= {sign b width} #b1) (= {sign diff width} #b1)) " ++
    s!"(and (= {sign a width} #b1) (= {sign b width} #b0) (= {sign diff width} #b0)))"

def signedMulOverflow (a b : String) (width : Nat) : String :=
  let product := s!"(bvmul ((_ sign_extend {width}) {a}) ((_ sign_extend {width}) {b}))"
  let low := s!"((_ extract {width - 1} 0) {product})"
  s!"(not (= {product} ((_ sign_extend {width}) {low})))"

def negOverflow (a : String) (width : Nat) : String := s!"(= {a} {signedMinBv width})"

def signedDivOverflow (a b : String) (width : Nat) : String :=
  s!"(and (= {a} {signedMinBv width}) (= {b} {onesBv width}))"

/-- The formula printed for an overflow predicate on operands of a width. -/
def overflowText (a b : String) (width : Nat) : Overflow → String
  | .uadd => unsignedAddOverflow a b
  | .usub => unsignedSubOverflow a b
  | .umul => unsignedMulOverflow a b width
  | .sadd => signedAddOverflow a b width
  | .ssub => signedSubOverflow a b width
  | .smul => signedMulOverflow a b width
  | .neg => negOverflow a width
  | .sdiv => signedDivOverflow a b width

/-! ## Terms -/

/-- `vec![None; node_count]`, filled as nodes are printed. -/
abbrev Cache := List (Option String)

abbrev PrintM := StateT Cache Result

/-- `expr.child_ref(child_index)?` and the term there; `printNode` is `term_node`. -/
def childTerm (expr : ExprView) (printNode : Nat → PrintM String) (childIndex : Nat) :
    PrintM String := do
  let reference ← liftM (expr.childRef childIndex)
  printNode reference.idx

/-- `node.children + k` on `u32`. -/
def childIndex (children : UInt32) (k : Nat) : PrintM Nat :=
  liftM (addU 32 children.toNat k : Result Nat)

section

variable (expr : ExprView) (printNode : Nat → PrintM String) (children : UInt32)

def unary (op : String) : PrintM String := do
  let child ← childTerm expr printNode children.toNat
  pure s!"({op} {child})"

/-- The terms of the first two operands. -/
def twoTerms : PrintM (String × String) := do
  let a ← childTerm expr printNode children.toNat
  let b ← childTerm expr printNode (← childIndex children 1)
  pure (a, b)

def binary (op : String) : PrintM String := do
  let (a, b) ← twoTerms expr printNode children
  pure s!"({op} {a} {b})"

/-- The width of the first operand. -/
def operandWidth : PrintM Nat := do
  let aRef ← liftM (expr.childRef children.toNat)
  let node ← liftM (expr.node aRef.idx)
  pure node.width.toNat

/-- An overflow predicate on two operands that looks at their width. -/
def overflow (op : Overflow) : PrintM String := do
  let width ← operandWidth expr children
  let (a, b) ← twoTerms expr printNode children
  pure (overflowText a b width op)

/-- The pairs of a `BV_SELECT` from pair `pair` down, around the term so far. -/
def selectLoop : (pair : Nat) → String → PrintM String
  | 0, result => pure result
  | pair + 1, result => do
    let selector ← childTerm expr printNode (← childIndex children (pair * 2))
    let value ← childTerm expr printNode (← childIndex children (pair * 2 + 1))
    selectLoop pair s!"(ite {selector} {value} {result})"

end

/-- The arms of `term_node`. -/
def nodeTerm (expr : ExprView) (printNode : Nat → PrintM String) (node : RawNode) :
    PrintM String :=
  let child := childTerm expr printNode node.children.toNat
  let unary := unary expr printNode node.children
  let binary := binary expr printNode node.children
  let overflow := overflow expr printNode node.children
  match Tag.tryFrom node.tag with
  | some .bvVar | some .boolVar => do
    let name ← liftM (expr.blobStr node.blobRef "variable name")
    pure (quoteSymbol name)
  | some .bvConst => liftM (constToSmt2 expr node.width node.payload)
  | some .boolTrue => pure "true"
  | some .boolFalse => pure "false"
  | some .bvNot => unary "bvnot"
  | some .bvNeg => unary "bvneg"
  | some .bvAnd => binary "bvand"
  | some .bvOr => binary "bvor"
  | some .bvXor => binary "bvxor"
  | some .bvAdd => binary "bvadd"
  | some .bvSub => binary "bvsub"
  | some .bvMul => binary "bvmul"
  | some .bvUdiv => binary "bvudiv"
  | some .bvUrem => binary "bvurem"
  | some .bvSdiv => binary "bvsdiv"
  | some .bvSrem => binary "bvsrem"
  | some .bvSmod => binary "bvsmod"
  | some .bvShl => binary "bvshl"
  | some .bvLshr => binary "bvlshr"
  | some .bvAshr => binary "bvashr"
  | some .bvExtract => do
    let child ← child
    pure s!"((_ extract {node.auxHi.toNat} {node.auxLo.toNat}) {child})"
  | some .bvConcat => binary "concat"
  | some .bvZext => do
    let child ← child
    pure s!"((_ zero_extend {node.auxHi.toNat}) {child})"
  | some .bvSext => do
    let child ← child
    pure s!"((_ sign_extend {node.auxHi.toNat}) {child})"
  | some .bvIte => do
    let c ← child
    let t ← childTerm expr printNode (← childIndex node.children 1)
    let e ← childTerm expr printNode (← childIndex node.children 2)
    pure s!"(ite {c} {t} {e})"
  | some .bvSelect => do
    let pairs := node.auxHi.toNat
    let result ← childTerm expr printNode (← childIndex node.children (pairs * 2))
    selectLoop expr printNode node.children pairs result
  | some .boolNot => unary "not"
  | some .boolAnd => binary "and"
  | some .boolOr => binary "or"
  | some .boolImplies => binary "=>"
  | some .bvEq => binary "="
  | some .bvUlt => binary "bvult"
  | some .bvUle => binary "bvule"
  | some .bvSlt => binary "bvslt"
  | some .bvSle => binary "bvsle"
  | some .uaddOvf => do
    let (a, b) ← twoTerms expr printNode node.children
    pure (unsignedAddOverflow a b)
  | some .usubOvf => binary "bvult"
  | some .umulOvf => overflow .umul
  | some .saddOvf => overflow .sadd
  | some .ssubOvf => overflow .ssub
  | some .smulOvf => overflow .smul
  | some .negOvf => do
    let width ← operandWidth expr node.children
    let a ← child
    pure (negOverflow a width)
  | some .sdivOvf => overflow .sdiv
  | none => liftM (err (.invalid "SMT-LIB translation" s!"unknown tag {node.tag}") : Result String)

/-- `term_node`, with the number of calls that may still be open. -/
def termNode (expr : ExprView) : (calls : Nat) → Nat → PrintM String
  | 0, _ => liftM (panic : Result String)
  | calls + 1, index => do
    match ← liftM (expect (← get)[index]? : Result (Option String)) with
    | some term => pure term
    | none =>
      let node ← liftM (expr.node index)
      let term ← nodeTerm expr (termNode expr calls) node
      modify (·.set index (some term))
      pure term

def termRef (expr : ExprView) (reference : NodeRef) : PrintM String :=
  termNode expr expr.header.nodeCount.toNat reference.idx

/-! ## Scripts -/

def sortClash (variable_ : Smt2Variable) (sort : WireSort) (width : UInt32) : WireError :=
  .invalid "SMT-LIB translation"
    (s!"symbol {debugStr variable_.name} is used with both {sort.debug}/{width} and " ++
      s!"{variable_.sort.debug}/{variable_.width} sorts")

/-- The declarations, with the names declared so far. -/
def declarations : List Smt2Variable → List (String × WireSort × UInt32) → Result String
  | [], _ => pure ""
  | v :: rest, declared =>
    match declared.lookup v.name with
    | some (sort, width) =>
      if sort = v.sort ∧ width = v.width then declarations rest declared
      else err (sortClash v sort width)
    | none => do
      let line := s!"(declare-fun {quoteSymbol v.name} () {sortToSmt2 v.sort v.width})\n"
      let lines ← declarations rest ((v.name, v.sort, v.width) :: declared)
      pure (line ++ lines)

/-- The assertions, the first ones with the names there are. -/
def assertions (expr : ExprView) : List NodeRef → List BlobRef → PrintM String
  | [], _ => pure ""
  | root :: roots, name :: names => do
    let term ← termRef expr root
    let name ← liftM (expr.blobStr name "named assertion")
    let lines ← assertions expr roots names
    pure (s!"(assert (! {term} :named {quoteSymbol name}))\n" ++ lines)
  | root :: roots, [] => do
    let term ← termRef expr root
    let lines ← assertions expr roots []
    pure (s!"(assert {term})\n" ++ lines)

/-- The names of the variables, each once. -/
def emittedNames (vars : List Smt2Variable) : List String :=
  vars.foldl (fun emitted v => if v.name ∈ emitted then emitted else emitted ++ [v.name]) []

def header (request : BinaryRequest) : String :=
  "(set-logic QF_BV)\n" ++
    (if request.envelope.budgetMs ≠ 0 then
      s!"(set-option :timeout {request.envelope.budgetMs.toNat})\n" else "") ++
    (if request.envelope.flags &&& RequestFlags.wantCore ≠ 0 then
      "(set-option :produce-unsat-cores true)\n" else "") ++
    (if request.envelope.flags &&& RequestFlags.wantModel ≠ 0 then
      "(set-option :produce-models true)\n" else "")

def footer (request : BinaryRequest) (vars : List Smt2Variable) : String :=
  "(check-sat)\n" ++
    (if request.envelope.flags &&& RequestFlags.wantModel ≠ 0 ∧ vars ≠ [] then
      let names := (emittedNames vars).map fun name => " " ++ quoteSymbol name
      "(get-value (" ++ String.join names ++ "))\n" else "") ++
    (if request.envelope.flags &&& RequestFlags.wantCore ≠ 0 then "(get-unsat-core)\n" else "")

def requestToSmt2 (request : BinaryRequest) : Result Smt2Script := do
  let expr ← request.expressionView
  let vars ← collectVariables expr
  let declared ← declarations vars []
  let cache : Cache := List.replicate expr.header.nodeCount.toNat none
  let (asserted, cache) ←
    (assertions expr request.assertionRoots request.namedAssertionRefs).run cache
  let (assumed, _) ← (assertions expr request.assumptionRoots []).run cache
  pure ⟨header request ++ declared ++ asserted ++ assumed ++ footer request vars, vars⟩

end Smt2
end Server
end SmtServer
