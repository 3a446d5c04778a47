import SmtServer.Qfbv.Builder.Operations
import SmtServer.Qfbv.Query
import SmtServer.Wire.Response

/-!
# `wire.rs` — queries from requests, and models back

A request is turned into a query in one pass over the nodes of its expression: each becomes the term
that the builder makes of the terms of its operands, and `terms` remembers it. Two nodes that carry
one name become one term: the term of the first of them, under its reference (`external`).

The two hash maps are only asked for what was inserted, so they are association lists with the
newest entry first. The calls on the builder that make no term follow the pass, so up to there only
its arena is carried.
-/

namespace SmtServer
namespace Qfbv

open Lib Outcome
open Wire (ExprView RawNode NodeRef BlobRef Tag BinaryRequest)

/-- `map_err`: the text of the reader's error, in one of the solver's. -/
def wireErr {α : Type} (context : String) : Wire.Result α → Result α
  | .ok a => .ok a
  | .err e => .err (.invalid context e.display)
  | .panic => .panic

/-! ## Operands -/

def termForRef (terms : List (Option TermId)) (reference : NodeRef) : Result TermId :=
  .ofOption terms[reference.idx]?.join
    (.invalid "node reference" s!"missing term for NodeRef({reference.raw})")

def child (expr : ExprView) (terms : List (Option TermId)) (node : RawNode) (offset : Nat) :
    Result TermId := do
  let index ← addU 32 node.children.toNat offset
  let reference ← wireErr "child reference" (expr.childRef index)
  termForRef terms reference

def child2 (expr : ExprView) (terms : List (Option TermId)) (node : RawNode) :
    Result (TermId × TermId) := do
  return (← child expr terms node 0, ← child expr terms node 1)

/-- The loop over the cases of a `BV_SELECT`. -/
def selectCases (expr : ExprView) (terms : List (Option TermId)) (node : RawNode) (pairs : Nat) :
    Result (List (TermId × TermId)) :=
  (List.range pairs).mapM fun pair => do
    let selector ← child expr terms node (pair * 2)
    let value ← child expr terms node (pair * 2 + 1)
    return (selector, value)

/-- The bytes of a constant; `bv_const_bytes`, like the builder's method that they go to. -/
def wireConstBytes (expr : ExprView) (width : Nat) (payload : UInt64) : Result (List UInt8) :=
  if width ≤ 64 then pure ((leBytes 8 payload.toNat).take (divCeil8 width))
  else wireErr "wide BV const" (expr.blobRef (.fromPayload payload))

/-! ## Nodes -/

/-- What the pass carries, beside the arena. -/
structure WireTerms where
  terms : List (Option TermId)
  bvVars : List ((String × Nat) × TermId)
  boolVars : List (String × TermId)

def bvVarTerm (expr : ExprView) (index : Nat) (node : RawNode) (st : WireTerms) :
    ArenaM (TermId × WireTerms) := do
  let name ← Grow.lift (wireErr "smt-wire BV variable" (expr.blobStr node.blobRef "BV variable"))
  match st.bvVars.lookup (name, node.width.toNat) with
  | some term => pure (term, st)
  | none =>
    let reference ← Grow.lift (wireErr "node ref" (NodeRef.new .bv (UInt32.ofNat index)))
    let term ← Builder.bvVarExternal name node.width.toNat (some reference.raw.toNat)
    pure (term, { st with bvVars := ((name, node.width.toNat), term) :: st.bvVars })

def boolVarTerm (expr : ExprView) (index : Nat) (node : RawNode) (st : WireTerms) :
    ArenaM (TermId × WireTerms) := do
  let name ←
    Grow.lift (wireErr "smt-wire Bool variable" (expr.blobStr node.blobRef "Bool variable"))
  match st.boolVars.lookup name with
  | some term => pure (term, st)
  | none =>
    let reference ← Grow.lift (wireErr "node ref" (NodeRef.new .bool (UInt32.ofNat index)))
    let term ← Builder.boolVarExternal name (some reference.raw.toNat)
    pure (term, { st with boolVars := (name, term) :: st.boolVars })

/-- A call of one of the builder's methods, once its arguments are there. -/
def callTerm (st : WireTerms) (op : Result TermOp) : ArenaM (TermId × WireTerms) := do
  let op ← Grow.lift op
  let term ← op.build
  pure (term, st)

/-- A method of one term. -/
def callOne (expr : ExprView) (st : WireTerms) (node : RawNode) (op : TermId → TermOp) :
    ArenaM (TermId × WireTerms) :=
  callTerm st do return op (← child expr st.terms node 0)

/-- A method of two terms. -/
def callTwo (expr : ExprView) (st : WireTerms) (node : RawNode) (op : TermId → TermId → TermOp) :
    ArenaM (TermId × WireTerms) :=
  callTerm st do
    let (a, b) ← child2 expr st.terms node
    return op a b

/-- The arms of the big `match`. -/
def nodeTerm (expr : ExprView) (index : Nat) (node : RawNode) (st : WireTerms) (tag : Tag) :
    ArenaM (TermId × WireTerms) :=
  let one := callOne expr st node
  let two := callTwo expr st node
  match tag with
  | .bvVar => bvVarTerm expr index node st
  | .boolVar => boolVarTerm expr index node st
  | .bvConst => callTerm st do
    return .bvConstBytes (← wireConstBytes expr node.width.toNat node.payload) node.width.toNat
  | .boolTrue => callTerm st (pure (.boolConst true))
  | .boolFalse => callTerm st (pure (.boolConst false))
  | .bvNot => one (.unary .bvNot)
  | .bvNeg => one (.unary .bvNeg)
  | .bvAnd => two (.binary .bvAnd)
  | .bvOr => two (.binary .bvOr)
  | .bvXor => two (.binary .bvXor)
  | .bvAdd => two (.binary .bvAdd)
  | .bvSub => two (.binary .bvSub)
  | .bvMul => two (.binary .bvMul)
  | .bvUdiv => two (.binary .bvUdiv)
  | .bvUrem => two (.binary .bvUrem)
  | .bvSdiv => two (.binary .bvSdiv)
  | .bvSrem => two (.binary .bvSrem)
  | .bvSmod => two (.binary .bvSmod)
  | .bvShl => two (.binary .bvShl)
  | .bvLshr => two (.binary .bvLshr)
  | .bvAshr => two (.binary .bvAshr)
  | .bvExtract => one fun x => .bvExtract x node.auxHi.toNat node.auxLo.toNat
  | .bvConcat => two .bvConcat
  | .bvZext => one fun x => .bvZext x node.auxHi.toNat
  | .bvSext => one fun x => .bvSext x node.auxHi.toNat
  | .bvIte => callTerm st do
    let c ← child expr st.terms node 0
    let t ← child expr st.terms node 1
    let e ← child expr st.terms node 2
    return .bvIte c t e
  | .bvSelect => callTerm st do
    let pairs := node.auxHi.toNat
    let cases ← selectCases expr st.terms node pairs
    let default ← child expr st.terms node (pairs * 2)
    return .bvSelect cases default
  | .boolNot => one .boolNot
  | .boolAnd => two (.connective .boolAnd)
  | .boolOr => two (.connective .boolOr)
  | .boolImplies => two (.connective .boolImplies)
  | .bvEq => two (.relation .bvEq)
  | .bvUlt => two (.relation .bvUlt)
  | .bvUle => two (.relation .bvUle)
  | .bvSlt => two (.relation .bvSlt)
  | .bvSle => two (.relation .bvSle)
  | .uaddOvf => two (.overflow .uaddOvf)
  | .saddOvf => two (.overflow .saddOvf)
  | .usubOvf => two (.overflow .usubOvf)
  | .ssubOvf => two (.overflow .ssubOvf)
  | .umulOvf => two (.overflow .umulOvf)
  | .smulOvf => two (.overflow .smulOvf)
  | .negOvf => one .negOvf
  | .sdivOvf => two (.overflow .sdivOvf)

/-- One round of the pass. -/
def wireNode (expr : ExprView) (st : WireTerms) (index : Nat) : ArenaM WireTerms := do
  let node ← Grow.lift (wireErr "smt-wire node" (expr.node index))
  match Tag.tryFrom node.tag with
  | some tag =>
    let (term, st) ← nodeTerm expr index node st tag
    let _ ← Grow.lift (expect st.terms[index]?)
    pure { st with terms := st.terms.set index (some term) }
  | none => Grow.fail (.unsupported s!"smt-wire tag {node.tag}")

def wireTerms (expr : ExprView) : ArenaM WireTerms :=
  (List.range expr.header.nodeCount.toNat).foldlM (wireNode expr)
    ⟨List.replicate expr.header.nodeCount.toNat none, [], []⟩

/-! ## Roots -/

/-- `?` after a method of the builder. -/
def Builder.proceed (r : Result Unit × Builder) : Result Builder := do
  r.1
  pure r.2

def setWireCommand (request : BinaryRequest) (terms : List (Option TermId)) (builder : Builder) :
    Result Builder :=
  match request.envelope.command with
  | .solve => pure (builder.setCommand .solve)
  | .simplify => pure (builder.setCommand .simplify)
  | .minimize | .maximize => do
    let targetRef ← .ofOption request.targetRef (.invalid "wire target" "missing target node")
    let target ← termForRef terms targetRef
    let signed := decide (request.envelope.flags &&& Wire.RequestFlags.signed ≠ 0)
    let command := if request.envelope.command = .minimize then .minimize else .maximize
    Builder.proceed (builder.setOptimization command target signed)

/-- One round of the loop over the assertions. -/
def assertRoot (expr : ExprView) (request : BinaryRequest) (terms : List (Option TermId))
    (builder : Builder) (root : NodeRef × Nat) : Result Builder := do
  let term ← termForRef terms root.1
  match request.namedAssertionRefs[root.2]? with
  | some reference =>
    let name ← wireErr "named assertion" (expr.blobStr reference "named assertion")
    Builder.proceed (builder.assertNamed name term)
  | none => Builder.proceed (builder.assert term)

def assumeRoot (terms : List (Option TermId)) (builder : Builder) (root : NodeRef) :
    Result Builder := do
  Builder.proceed (builder.assume (← termForRef terms root))

/-- The calls that follow the pass. -/
def wireRoots (expr : ExprView) (request : BinaryRequest) (terms : List (Option TermId))
    (builder : Builder) : Result Query := do
  let builder :=
    builder.setWantModel (decide (request.envelope.flags &&& Wire.RequestFlags.wantModel ≠ 0))
  let builder :=
    builder.setWantCore (decide (request.envelope.flags &&& Wire.RequestFlags.wantCore ≠ 0))
  let builder ← setWireCommand request terms builder
  let builder ← request.assertionRoots.zipIdx.foldlM (assertRoot expr request terms) builder
  let builder ← request.assumptionRoots.foldlM (assumeRoot terms) builder
  builder.finish

def queryFromWire (request : BinaryRequest) : Result Query := do
  let expr ← wireErr "smt-wire expression" request.expressionView
  match (wireTerms expr).run Builder.new.arena with
  | (.ok st, arena) => wireRoots expr request st.terms { Builder.new with arena }
  | (.err e, _) => .err e
  | (.panic, _) => .panic

/-! ## Models -/

def scalarToWire : ScalarValue → Wire.Result Wire.ScalarValue
  | .bool value => pure (Wire.ScalarValue.bool value)
  | .bv width bytes => Wire.ScalarValue.bv (UInt32.ofNat width) bytes

/-- The entries of the nodes that the terms came from. -/
def modelToWire (model : Model) : Result Wire.ModelBlock := do
  let entries ← model.entries.mapM fun entry =>
    match entry.external with
    | none => pure none
    | some raw => do
      let value ← wireErr "wire model value" (scalarToWire entry.value)
      pure (some (⟨⟨UInt32.ofNat raw⟩, value⟩ : Wire.ModelEntry))
  pure ⟨entries.filterMap id⟩

end Qfbv
end SmtServer
