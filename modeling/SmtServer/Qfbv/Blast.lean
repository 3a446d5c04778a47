import SmtServer.Lib.Reach
import SmtServer.Qfbv.Query
import SmtServer.Qfbv.Semantics
import SmtServer.Qfbv.WordCircuits

/-!
# `blast.rs` — terms as gates

The nodes of a query that its roots reach are turned into gates, in the order of the arena, so that
the children of a node have their gates before it does. A variable gets fresh input gates, and is
remembered with them; for a model the variables that nothing reaches get theirs as well. What is
asserted in the end is the conjunction of the roots.

As in `cnf.rs` and `sat.rs`, time does not pass: a deadline has passed or not, a token is cancelled
or not. The loops look at both every so often, and all they can do about it is to give up.
-/

namespace SmtServer
namespace Qfbv

open Lib Outcome

inductive BlastedValue where
  | bool (gate : GateId)
  | bv (bits : Bits)
  deriving DecidableEq

structure BlastedVariable where
  term : TermId
  name : String
  external : Option Nat
  sort : TermSort
  bits : Bits
  deriving DecidableEq

/-- `variables`, a command in Lean, is called `vars`. -/
structure BlastResult where
  gates : GateArena
  assertion : GateId
  vars : List BlastedVariable

/-- The gates are the state of the computation. -/
structure BlastContext where
  values : List (Option BlastedValue)
  vars : List BlastedVariable

namespace BlastContext

def value (self : BlastContext) (id : TermId) : Result BlastedValue :=
  .ofOption self.values[id]?.join (.internal s!"term {id} has not been blasted")

def bool (self : BlastContext) (id : TermId) : Result GateId := do
  match ← self.value id with
  | .bool gate => pure gate
  | .bv _ => .err (.internal "expected Bool blasted value")

def bv (self : BlastContext) (id : TermId) : Result Bits := do
  match ← self.value id with
  | .bv bits => pure bits
  | .bool _ => .err (.internal "expected BV blasted value")

end BlastContext

namespace Blast

open Circuits GateArena
open Cnf (checkLimits)

/-! ## What the roots reach -/

/-- What `push_children` pushes. -/
def pushChildren (arena : Arena) (id : TermId) : Result (List TermId) := do
  let node ← arena.node id
  pure node.kind.children

/-- A round for each root and for each child of a node is enough (`reachableTerms_answers`). -/
def reachableTerms (query : Query) (deadline cancellation : Option Bool) : Result (List Bool) :=
  let stack := query.assertionsAndAssumptions ++ query.target.toList
  let rounds := stack.length + (query.arena.nodes.map fun node => node.kind.children.length).sum
  Reach.mark (fun steps => if steps % 4096 = 0 then checkLimits deadline cancellation else pure ())
    (fun id => .invalid "term id" s!"term {id} is out of bounds")
    (pushChildren query.arena) rounds 0 (List.replicate query.arena.nodes.length false)
    stack.reverse

/-! ## One node -/

/-- What a node becomes, and the variable it declares. -/
abbrev Blasted := BlastedValue × Option BlastedVariable

def blastUnary (ctx : BlastContext) (circuit : Bits → GateM Bits) (x : TermId) : GateM Blasted := do
  let x ← Grow.lift (ctx.bv x)
  let out ← circuit x
  pure (.bv out, none)

def blastBinary (ctx : BlastContext) (circuit : Bits → Bits → GateM Bits) (a b : TermId) :
    GateM Blasted := do
  let a ← Grow.lift (ctx.bv a)
  let b ← Grow.lift (ctx.bv b)
  let out ← circuit a b
  pure (.bv out, none)

def blastTest (ctx : BlastContext) (circuit : Bits → GateM GateId) (x : TermId) :
    GateM Blasted := do
  let x ← Grow.lift (ctx.bv x)
  let out ← circuit x
  pure (.bool out, none)

def blastCompare (ctx : BlastContext) (circuit : Bits → Bits → GateM GateId) (a b : TermId) :
    GateM Blasted := do
  let a ← Grow.lift (ctx.bv a)
  let b ← Grow.lift (ctx.bv b)
  let out ← circuit a b
  pure (.bool out, none)

def blastConnective (ctx : BlastContext) (circuit : GateId → GateId → GateM GateId) (a b : TermId) :
    GateM Blasted := do
  let a ← Grow.lift (ctx.bool a)
  let b ← Grow.lift (ctx.bool b)
  let out ← circuit a b
  pure (.bool out, none)

def bvConstValue (query : Query) (id : TermId) : Result (Option (Nat × List UInt8)) := do
  match (← query.arena.node id).kind with
  | .bvConst width bytes => pure (some (width, bytes))
  | _ => pure none

/-- The loop that counts the bits that are set; it breaks off at the third. -/
def countOnes (bytes : List UInt8) : (bits : List Nat) → (ones : Nat) → Nat
  | [], ones => ones
  | bit :: rest, ones =>
    if constBit bytes bit then
      if 2 < ones + 1 then ones + 1 else countOnes bytes rest (ones + 1)
    else countOnes bytes rest ones

def useConstantMultiplier (bytes : List UInt8) (width : Nat) : Bool :=
  countOnes bytes (List.range width) 0 ≤ 2 || constIsAllOnes bytes width

/-- A constant factor, on either side, may have the smaller circuit; the gates of the constant
itself are only asked for where it has not. -/
def blastMul (query : Query) (ctx : BlastContext) (a b : TermId) : GateM Blasted := do
  match ← Grow.lift (bvConstValue query a) with
  | some (_, bytes) =>
    let b ← Grow.lift (ctx.bv b)
    if useConstantMultiplier bytes b.length then
      let out ← mulConst b bytes
      pure (.bv out, none)
    else
      let a ← Grow.lift (ctx.bv a)
      let out ← mul a b
      pure (.bv out, none)
  | none =>
    match ← Grow.lift (bvConstValue query b) with
    | some (_, bytes) =>
      let a ← Grow.lift (ctx.bv a)
      if useConstantMultiplier bytes a.length then
        let out ← mulConst a bytes
        pure (.bv out, none)
      else
        let b ← Grow.lift (ctx.bv b)
        let out ← mul a b
        pure (.bv out, none)
    | none => blastBinary ctx mul a b

/-- The cases are looked at from the last to the first. -/
def blastCases (ctx : BlastContext) (cases : List (TermId × TermId)) (default : Bits) :
    GateM Bits :=
  cases.reverse.foldlM (fun result case => do
    let selector ← Grow.lift (ctx.bool case.1)
    let value ← Grow.lift (ctx.bv case.2)
    muxBits selector value result) default

/-- `bytes[(bit / 8) as usize]` for every bit, the first of which may be past the end. -/
def constBits (width : Nat) (bytes : List UInt8) : GateM Bits :=
  Grow.lift (if divCeil8 width ≤ bytes.length then ok (constantGates width bytes) else panic)

def blastKind (query : Query) (ctx : BlastContext) (id : TermId) : NodeKind → GateM Blasted
  | .bvConst width bytes => do
    let bits ← constBits width bytes
    pure (.bv bits, none)
  | .bvVar width name external => do
    let bits ← (List.range width).mapM fun _ => input
    pure (.bv bits, some { term := id, name, external, sort := .bv width, bits })
  | .boolConst value => pure (.bool (constGate value), none)
  | .boolVar name external => do
    let bit ← input
    pure (.bool bit, some { term := id, name, external, sort := .bool, bits := [bit] })
  | .bvNot x => blastUnary ctx bitwiseNot x
  | .bvNeg x => blastUnary ctx neg x
  | .bvAnd a b => blastBinary ctx bvAnd a b
  | .bvOr a b => blastBinary ctx bvOr a b
  | .bvXor a b => blastBinary ctx bvXor a b
  | .bvAdd a b => blastBinary ctx add a b
  | .bvSub a b => blastBinary ctx sub a b
  | .bvMul a b => blastMul query ctx a b
  | .bvUDiv a b => blastBinary ctx (fun a b => do
      let divided ← udivUrem a b
      pure divided.1) a b
  | .bvURem a b => blastBinary ctx (fun a b => do
      let divided ← udivUrem a b
      pure divided.2) a b
  | .bvSDiv a b => blastBinary ctx sdiv a b
  | .bvSRem a b => blastBinary ctx srem a b
  | .bvSMod a b => blastBinary ctx smod a b
  | .bvShl a b => blastBinary ctx shl a b
  | .bvLShr a b => blastBinary ctx lshr a b
  | .bvAShr a b => blastBinary ctx ashr a b
  | .bvExtract child high low => blastUnary ctx (fun child => extract child high low) child
  | .bvConcat high low => blastBinary ctx (fun high low => pure (concat high low)) high low
  | .bvZeroExtend child extra => blastUnary ctx (fun child => pure (zext child extra)) child
  | .bvSignExtend child extra => blastUnary ctx (fun child => sext child extra) child
  | .bvRepeat child count => blastUnary ctx (fun child => pure (repeated child count)) child
  | .bvRotateLeft child amount => blastUnary ctx (fun child => rotateLeft child amount) child
  | .bvRotateRight child amount => blastUnary ctx (fun child => rotateRight child amount) child
  | .bvIte cond thenValue elseValue => do
    let cond ← Grow.lift (ctx.bool cond)
    blastBinary ctx (muxBits cond) thenValue elseValue
  | .bvSelect cases default => blastUnary ctx (blastCases ctx cases) default
  | .boolNot x => do
    let child ← Grow.lift (ctx.bool x)
    let out ← GateArena.not child
    pure (.bool out, none)
  | .boolAnd a b => blastConnective ctx and a b
  | .boolOr a b => blastConnective ctx or a b
  | .boolImplies a b => blastConnective ctx implies a b
  | .boolEq a b => blastConnective ctx xnor a b
  | .boolIte cond thenValue elseValue => do
    let c ← Grow.lift (ctx.bool cond)
    blastConnective ctx (mux c) thenValue elseValue
  | .bvEq a b => blastCompare ctx eqBits a b
  | .bvUlt a b => blastCompare ctx ult a b
  | .bvUle a b => blastCompare ctx ule a b
  | .bvSlt a b => blastCompare ctx slt a b
  | .bvSle a b => blastCompare ctx sle a b
  | .uAddOverflow a b => blastCompare ctx uaddOverflow a b
  | .sAddOverflow a b => blastCompare ctx saddOverflow a b
  | .uSubOverflow a b => blastCompare ctx usubOverflow a b
  | .sSubOverflow a b => blastCompare ctx ssubOverflow a b
  | .uMulOverflow a b => blastCompare ctx umulOverflow a b
  | .sMulOverflow a b => blastCompare ctx smulOverflow a b
  | .negOverflow x => blastTest ctx negOverflow x
  | .sDivOverflow a b => blastCompare ctx sdivOverflow a b

/-! ## All nodes -/

/-- `matches!(node.kind, NodeKind::BvVar { .. } | NodeKind::BoolVar { .. })`. -/
def isVar : NodeKind → Bool
  | .bvVar .. | .boolVar .. => true
  | _ => false

/-- One round of the loop over the nodes. -/
def blastNode (query : Query) (deadline cancellation : Option Bool) (reachable : List Bool)
    (ctx : BlastContext) (row : Node × Nat) : GateM BlastContext := do
  let (node, index) := row
  if index % 1024 = 0 then Grow.lift (checkLimits deadline cancellation)
  let includeForModel := query.wantModel && isVar node.kind
  let reached ← Grow.lift (expect reachable[index]?)
  if !reached && !includeForModel then pure ctx
  else
    let (value, declared) ← blastKind query ctx index node.kind
    pure { values := ctx.values.set index (some value)
           vars := ctx.vars ++ declared.toList }

def blastAll (query : Query) (deadline cancellation : Option Bool) :
    GateM (GateId × List BlastedVariable) := do
  let reachable ← Grow.lift (reachableTerms query deadline cancellation)
  let ctx ← query.arena.nodes.zipIdx.foldlM (blastNode query deadline cancellation reachable)
    { values := List.replicate query.arena.nodes.length none, vars := [] }
  let assertionBits ← Grow.lift (query.assertionsAndAssumptions.mapM ctx.bool)
  let assertion ← andMany assertionBits
  pure (assertion, ctx.vars)

end Blast

def blastQueryWithLimits (query : Query) (deadline cancellation : Option Bool) :
    Result BlastResult :=
  match (Blast.blastAll query deadline cancellation).run GateArena.new with
  | (.ok (assertion, vars), gates) => ok { gates, assertion, vars }
  | (.err e, _) => .err e
  | (.panic, _) => .panic

def blastQueryWithDeadline (query : Query) (deadline : Option Bool) : Result BlastResult :=
  blastQueryWithLimits query deadline none

def blastQuery (query : Query) : Result BlastResult := blastQueryWithDeadline query none

end Qfbv
end SmtServer
