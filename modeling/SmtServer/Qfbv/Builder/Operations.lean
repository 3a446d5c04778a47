import SmtServer.Qfbv.Builder.Compare
import SmtServer.Qfbv.Check

/-!
# `builder.rs` — the `Builder`, and what may be asked of it

A `Builder` owns an arena and what will be asked about its terms: the assertions, with the scopes
that `push` opened, the assumptions and the objective. An operation is either one of the methods
that make a term (`TermOp`) or one of those that use terms (`BuilderOp`), and its arguments are
whatever the caller passes: an id may be of the wrong sort, or of no term at all.

For every method that makes a term there is the sort that SMT-LIB gives the result — none when the
arguments do not fit — and its value (`TermOp.sortOf`, `TermOp.sem`). They say nothing about how the
term is built, and they are what the rewriting is measured against.
-/

namespace SmtServer
namespace Qfbv

open Lib
open Lib.Smt (Value)

/-! ## Terms -/

/-- The methods that take one vector. -/
inductive UnaryOp where
  | bvNot
  | bvNeg
  deriving DecidableEq

/-- The methods that take two vectors of one width, and make another. -/
inductive BinaryOp where
  | bvAnd
  | bvOr
  | bvXor
  | bvAdd
  | bvSub
  | bvMul
  | bvUdiv
  | bvUrem
  | bvSdiv
  | bvSrem
  | bvSmod
  | bvShl
  | bvLshr
  | bvAshr
  deriving DecidableEq

/-- The methods that compare two vectors of one width. -/
inductive Relation where
  | bvEq
  | bvNe
  | bvUlt
  | bvUle
  | bvUgt
  | bvUge
  | bvSlt
  | bvSle
  | bvSgt
  | bvSge
  deriving DecidableEq

/-- The overflow predicates of two vectors of one width. -/
inductive OverflowOp where
  | uaddOvf
  | saddOvf
  | usubOvf
  | ssubOvf
  | umulOvf
  | smulOvf
  | sdivOvf
  deriving DecidableEq

/-- The methods that take two Bools. -/
inductive Connective where
  | boolAnd
  | boolOr
  | boolImplies
  | boolEq
  | boolXor
  deriving DecidableEq

/-- The methods that make a term, with their arguments. -/
inductive TermOp where
  | bvVarExternal (name : String) (width : Nat) (external : Option Nat)
  | boolVarExternal (name : String) (external : Option Nat)
  | boolConst (value : Bool)
  | bvConst (value : UInt64) (width : Nat)
  | bvConstBytes (bytes : List UInt8) (width : Nat)
  | unary (op : UnaryOp) (x : TermId)
  | binary (op : BinaryOp) (a b : TermId)
  | relation (op : Relation) (a b : TermId)
  | overflow (op : OverflowOp) (a b : TermId)
  | negOvf (x : TermId)
  | bvExtract (child : TermId) (high low : Nat)
  | bvConcat (high low : TermId)
  | bvZext (child : TermId) (extra : Nat)
  | bvSext (child : TermId) (extra : Nat)
  | bvRepeat (child : TermId) (count : Nat)
  | bvRotateLeft (child : TermId) (amount : Nat)
  | bvRotateRight (child : TermId) (amount : Nat)
  | bvIte (cond thenValue elseValue : TermId)
  | bvSelect (cases : List (TermId × TermId)) (default : TermId)
  | boolNot (x : TermId)
  | connective (op : Connective) (a b : TermId)
  | boolIte (cond thenValue elseValue : TermId)

def UnaryOp.build : UnaryOp → TermId → ArenaM TermId
  | bvNot => Builder.bvNot
  | bvNeg => Builder.bvNeg

def BinaryOp.build : BinaryOp → TermId → TermId → ArenaM TermId
  | bvAnd => Builder.bvAnd
  | bvOr => Builder.bvOr
  | bvXor => Builder.bvXor
  | bvAdd => Builder.bvAdd
  | bvSub => Builder.bvSub
  | bvMul => Builder.bvMul
  | bvUdiv => Builder.bvUdiv
  | bvUrem => Builder.bvUrem
  | bvSdiv => Builder.bvSdiv
  | bvSrem => Builder.bvSrem
  | bvSmod => Builder.bvSmod
  | bvShl => Builder.bvShl
  | bvLshr => Builder.bvLshr
  | bvAshr => Builder.bvAshr

def Relation.build : Relation → TermId → TermId → ArenaM TermId
  | bvEq => Builder.bvEq
  | bvNe => Builder.bvNe
  | bvUlt => Builder.bvUlt
  | bvUle => Builder.bvUle
  | bvUgt => Builder.bvUgt
  | bvUge => Builder.bvUge
  | bvSlt => Builder.bvSlt
  | bvSle => Builder.bvSle
  | bvSgt => Builder.bvSgt
  | bvSge => Builder.bvSge

def OverflowOp.build : OverflowOp → TermId → TermId → ArenaM TermId
  | uaddOvf => Builder.uaddOvf
  | saddOvf => Builder.saddOvf
  | usubOvf => Builder.usubOvf
  | ssubOvf => Builder.ssubOvf
  | umulOvf => Builder.umulOvf
  | smulOvf => Builder.smulOvf
  | sdivOvf => Builder.sdivOvf

def Connective.build : Connective → TermId → TermId → ArenaM TermId
  | boolAnd => Builder.boolAnd
  | boolOr => Builder.boolOr
  | boolImplies => Builder.boolImplies
  | boolEq => Builder.boolEq
  | boolXor => Builder.boolXor

/-- The method, called. -/
def TermOp.build : TermOp → ArenaM TermId
  | bvVarExternal name width external => Builder.bvVarExternal name width external
  | boolVarExternal name external => Builder.boolVarExternal name external
  | boolConst value => Builder.boolConst value
  | bvConst value width => Builder.bvConst value width
  | bvConstBytes bytes width => Builder.bvConstBytes bytes width
  | unary op x => op.build x
  | binary op a b => op.build a b
  | relation op a b => op.build a b
  | overflow op a b => op.build a b
  | negOvf x => Builder.negOvf x
  | bvExtract child high low => Builder.bvExtract child high low
  | bvConcat high low => Builder.bvConcat high low
  | bvZext child extra => Builder.bvZext child extra
  | bvSext child extra => Builder.bvSext child extra
  | bvRepeat child count => Builder.bvRepeat child count
  | bvRotateLeft child amount => Builder.bvRotateLeft child amount
  | bvRotateRight child amount => Builder.bvRotateRight child amount
  | bvIte cond thenValue elseValue => Builder.bvIte cond thenValue elseValue
  | bvSelect cases default => Builder.bvSelect cases default
  | boolNot x => Builder.boolNot x
  | connective op a b => op.build a b
  | boolIte cond thenValue elseValue => Builder.boolIte cond thenValue elseValue

/-! ## What SMT-LIB says of them -/

/-- The sort of vectors of this width, where there is one. -/
def vectorSort (width : Nat) : Option TermSort :=
  if 1 ≤ width ∧ width ≤ maxBvWidth then some (.bv width) else none

/-- The width that two vectors have in common. -/
def sameWidth? (a b : Option TermSort) : Option Nat :=
  (bvWidth? a).bind fun w => if b = some (.bv w) then some w else none

/-- The sort of the result, and none where the arguments do not fit. -/
def TermOp.sortOf (srt : TermId → Option TermSort) : TermOp → Option TermSort
  | bvVarExternal _ width _ | bvConst _ width => vectorSort width
  | bvConstBytes bytes width => if bytes.length = divCeil8 width then vectorSort width else none
  | boolVarExternal _ _ | boolConst _ => some .bool
  | unary _ x | bvRotateLeft x _ | bvRotateRight x _ => (bvWidth? (srt x)).map .bv
  | binary _ a b => (sameWidth? (srt a) (srt b)).map .bv
  | relation _ a b | overflow _ a b => (sameWidth? (srt a) (srt b)).map fun _ => .bool
  | negOvf x => (bvWidth? (srt x)).map fun _ => .bool
  | bvExtract child high low => (bvWidth? (srt child)).bind fun w =>
      if low ≤ high ∧ high < w then some (.bv (high - low + 1)) else none
  | bvConcat high low => (bvWidth? (srt high)).bind fun hw => (bvWidth? (srt low)).bind fun lw =>
      vectorSort (hw + lw)
  | bvZext child extra | bvSext child extra => (bvWidth? (srt child)).bind fun w =>
      vectorSort (w + extra)
  | bvRepeat child count => (bvWidth? (srt child)).bind fun w => vectorSort (w * count)
  | bvIte cond x y => if srt cond = some .bool then (sameWidth? (srt x) (srt y)).map .bv else none
  | bvSelect cases default => (bvWidth? (srt default)).bind fun w =>
      if ∀ p ∈ cases, srt p.1 = some .bool ∧ srt p.2 = some (.bv w) then some (.bv w) else none
  | boolNot x => if srt x = some .bool then some .bool else none
  | connective _ a b => if srt a = some .bool ∧ srt b = some .bool then some .bool else none
  | boolIte cond x y =>
      if srt cond = some .bool ∧ srt x = some .bool ∧ srt y = some .bool then some .bool else none

def UnaryOp.sem : UnaryOp → Value → Value
  | bvNot => Smt.bvnot
  | bvNeg => Smt.bvneg

def BinaryOp.sem : BinaryOp → Value → Value → Value
  | bvAnd => Smt.bvand
  | bvOr => Smt.bvor
  | bvXor => Smt.bvxor
  | bvAdd => Smt.bvadd
  | bvSub => Smt.bvsub
  | bvMul => Smt.bvmul
  | bvUdiv => Smt.bvudiv
  | bvUrem => Smt.bvurem
  | bvSdiv => Smt.bvsdiv
  | bvSrem => Smt.bvsrem
  | bvSmod => Smt.bvsmod
  | bvShl => Smt.bvshl
  | bvLshr => Smt.bvlshr
  | bvAshr => Smt.bvashr

def Relation.sem : Relation → Value → Value → Value
  | bvEq, x, y => Smt.bveq x y
  | bvNe, x, y => Smt.not (Smt.bveq x y)
  | bvUlt, x, y => Smt.bvult x y
  | bvUle, x, y => Smt.bvule x y
  | bvUgt, x, y => Smt.bvult y x
  | bvUge, x, y => Smt.bvule y x
  | bvSlt, x, y => Smt.bvslt x y
  | bvSle, x, y => Smt.bvsle x y
  | bvSgt, x, y => Smt.bvslt y x
  | bvSge, x, y => Smt.bvsle y x

def OverflowOp.sem : OverflowOp → Value → Value → Value
  | uaddOvf => Smt.bvuaddo
  | saddOvf => Smt.bvsaddo
  | usubOvf => Smt.bvusubo
  | ssubOvf => Smt.bvssubo
  | umulOvf => Smt.bvumulo
  | smulOvf => Smt.bvsmulo
  | sdivOvf => Smt.bvsdivo

def Connective.sem : Connective → Value → Value → Value
  | boolAnd, x, y => Smt.and x y
  | boolOr, x, y => Smt.or x y
  | boolImplies, x, y => Smt.implies x y
  | boolEq, x, y => Smt.iff x y
  | boolXor, x, y => Smt.not (Smt.iff x y)

/-- The value of the result `id`, given the values of the terms it is made of. -/
def TermOp.sem (ρ : Env) (id : TermId) (look : TermId → Value) : TermOp → Value
  | bvVarExternal _ width _ => .bv width (.ofNat width (ρ.bv id))
  | boolVarExternal _ _ => .bool (ρ.bool id)
  | boolConst value => .bool value
  | bvConst value width => .bv width (.ofNat width value.toNat)
  | bvConstBytes bytes width => .bv width (.ofNat width (leNat bytes))
  | unary op x => op.sem (look x)
  | binary op a b => op.sem (look a) (look b)
  | relation op a b => op.sem (look a) (look b)
  | overflow op a b => op.sem (look a) (look b)
  | negOvf x => Smt.bvnego (look x)
  | bvExtract child high low => Smt.extract high low (look child)
  | bvConcat high low => Smt.concat (look high) (look low)
  | bvZext child extra => Smt.zeroExtend extra (look child)
  | bvSext child extra => Smt.signExtend extra (look child)
  | bvRepeat child count => Smt.repeated count (look child)
  | bvRotateLeft child amount => Smt.rotateLeft amount (look child)
  | bvRotateRight child amount => Smt.rotateRight amount (look child)
  | bvIte cond x y => Smt.ite (look cond) (look x) (look y)
  | bvSelect cases default =>
      Smt.select (cases.map fun (c, v) => (look c, look v)) (look default)
  | boolNot x => Smt.not (look x)
  | connective op a b => op.sem (look a) (look b)
  | boolIte cond x y => Smt.ite (look cond) (look x) (look y)

/-- The variables that a call makes are among those of `V`. -/
def TermOp.VarsIn (V : NodeKind → Prop) : TermOp → Prop
  | bvVarExternal name width external => V (.bvVar width name external)
  | boolVarExternal name external => V (.boolVar name external)
  | _ => True

/-! ## The builder -/

structure Builder where
  arena : Arena
  assertions : List Assertion
  assumptions : List TermId
  command : Command
  target : Option TermId
  signed : Bool
  wantModel : Bool
  wantCore : Bool
  getValues : List String
  scopes : List Nat

namespace Builder

def new : Builder where
  arena := .empty
  assertions := []
  assumptions := []
  command := .solve
  target := none
  signed := false
  wantModel := false
  wantCore := false
  getValues := []
  scopes := []

def finish (b : Builder) : Result Query := do
  .ensure (b.command = .minimize ∨ b.command = .maximize → b.target.isSome)
    (.invalid "query target" "MINIMIZE/MAXIMIZE require a target")
  return {
    arena := b.arena
    assertions := b.assertions
    assumptions := b.assumptions
    command := b.command
    target := b.target
    signed := b.signed
    wantModel := b.wantModel
    wantCore := b.wantCore
    getValues := b.getValues }

/-- `check?; …; Ok(())`, where what follows the check is `b'`. -/
def after (b : Builder) (check : Result Unit) (b' : Builder) : Result Unit × Builder :=
  match check with
  | .ok () => (.ok (), b')
  | .err e => (.err e, b)
  | .panic => (.panic, b)

def setWantModel (b : Builder) (wantModel : Bool) : Builder := { b with wantModel }

def setWantCore (b : Builder) (wantCore : Bool) : Builder := { b with wantCore }

def addGetValue (b : Builder) (name : String) : Builder :=
  { b with wantModel := true, getValues := b.getValues ++ [name] }

def setCommand (b : Builder) (command : Command) : Builder := { b with command }

def setOptimization (b : Builder) (command : Command) (target : TermId) (signed : Bool) :
    Result Unit × Builder :=
  b.after
    (do
      .ensure (command = .minimize ∨ command = .maximize)
        (.invalid "optimization command" "expected Minimize or Maximize")
      let _ ← b.arena.expectBv target "optimization target")
    { b with command, target := some target, signed }

def push (b : Builder) : Builder := { b with scopes := b.scopes ++ [b.assertions.length] }

def pop (b : Builder) : Result Unit × Builder :=
  match b.scopes.getLast? with
  | some len =>
    (.ok (), { b with scopes := b.scopes.dropLast, assertions := b.assertions.take len })
  | none => (.err (.invalid "scope" "pop without matching push"), b)

def assert (b : Builder) (root : TermId) : Result Unit × Builder :=
  b.after (b.arena.expectBool root "assertion")
    { b with assertions := b.assertions ++ [⟨root, none⟩] }

def assertNamed (b : Builder) (name : String) (root : TermId) : Result Unit × Builder :=
  b.after (b.arena.expectBool root "named assertion")
    { b with assertions := b.assertions ++ [⟨root, some name⟩] }

def assume (b : Builder) (root : TermId) : Result Unit × Builder :=
  b.after (b.arena.expectBool root "assumption") { b with assumptions := b.assumptions ++ [root] }

/-- A method that makes a term, called on the builder. -/
def make (b : Builder) (m : ArenaM TermId) : Result TermId × Builder :=
  ((m.run b.arena).1, { b with arena := (m.run b.arena).2 })

end Builder

/-- What a caller may do with a builder. -/
inductive BuilderOp where
  | term (op : TermOp)
  | setWantModel (wantModel : Bool)
  | setWantCore (wantCore : Bool)
  | addGetValue (name : String)
  | setCommand (command : Command)
  | setOptimization (command : Command) (target : TermId) (signed : Bool)
  | push
  | pop
  | assert (root : TermId)
  | assertNamed (name : String) (root : TermId)
  | assume (root : TermId)

/-- One call; the id it returns is one that the caller may use later, like any other number. -/
def BuilderOp.run (b : Builder) : BuilderOp → Result Unit × Builder
  | term op => ((b.make op.build).1 >>= fun _ => pure (), (b.make op.build).2)
  | setWantModel wantModel => (.ok (), b.setWantModel wantModel)
  | setWantCore wantCore => (.ok (), b.setWantCore wantCore)
  | addGetValue name => (.ok (), b.addGetValue name)
  | setCommand command => (.ok (), b.setCommand command)
  | setOptimization command target signed => b.setOptimization command target signed
  | push => (.ok (), b.push)
  | pop => b.pop
  | assert root => b.assert root
  | assertNamed name root => b.assertNamed name root
  | assume root => b.assume root

namespace Builder

/-- The builder after a sequence of calls; one that fails does not end the sequence. -/
def runs (b : Builder) (ops : List BuilderOp) : Builder := ops.foldl (fun b op => (op.run b).2) b

/-- The builders that there are. -/
def Reachable (b : Builder) : Prop := ∃ ops, b = new.runs ops

end Builder
end Qfbv
end SmtServer
