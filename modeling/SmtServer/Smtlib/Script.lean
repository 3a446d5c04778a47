import SmtServer.Smtlib.Lower

/-!
# `smt-qfbv-smtlib` — lowering scripts

`ScriptLowerer` goes through the commands once. It keeps names and flags of its own; assertions,
assumptions and scopes are the sink's. A `check-sat` sets a flag, a `check-sat-assuming` sets it
too and leaves its assumptions in the sink, and `exit` is one of the commands that do nothing.

The lowerer is only read after a script that was accepted, so a command that fails returns no
state.
-/

namespace SmtServer
namespace Smtlib

open Lib Outcome
open Wire (debugStr)

inductive AcceptedLogics where
  | qfBvOnly
  | qfBvOrAll
  deriving Repr, DecidableEq

inductive IncrementalPolicy where
  | rejectPushPop
  | simulatePushPop
  deriving Repr, DecidableEq

/-- `GetValuePolicy` has one value and is left out. -/
structure FrontendOptions where
  acceptedLogics : AcceptedLogics
  incrementalPolicy : IncrementalPolicy
  requireCheckSat : Bool
  maxMacroExpansionDepth : Nat
  deriving Repr, DecidableEq

def FrontendOptions.serverText : FrontendOptions where
  acceptedLogics := .qfBvOnly
  incrementalPolicy := .rejectPushPop
  requireCheckSat := true
  maxMacroExpansionDepth := 64

def FrontendOptions.standalone : FrontendOptions where
  acceptedLogics := .qfBvOrAll
  incrementalPolicy := .simulatePushPop
  requireCheckSat := true
  maxMacroExpansionDepth := 64

structure LoweredScript where
  wantModel : Bool
  wantCore : Bool
  getValues : List String
  deriving Repr, DecidableEq

/-- `ScriptLowerer`, without the sink. -/
structure ScriptLowerer (N : Type) where
  tables : Tables N
  declaredSymbols : NameMap SmtSort
  wantModel : Bool
  wantCore : Bool
  getValues : List String
  sawCheckSat : Bool

def ScriptLowerer.new {N : Type} : ScriptLowerer N := ⟨⟨[], []⟩, [], false, false, [], false⟩

/-- `self.env.insert(name, binding)`. -/
def ScriptLowerer.bind {N : Type} (st : ScriptLowerer N) (name : String) (e : LoweredExpr N) :
    ScriptLowerer N :=
  { st with tables := { st.tables with env := (name, e) :: st.tables.env } }

section

variable {S N : Type} [Preorder S] (sink : Sink S N) (options : FrontendOptions)

/-- `expr_with_locals` in no local scope. -/
def topExpr (st : ScriptLowerer N) (e : SExpr) : Term S N :=
  exprWithLocals sink st.tables options.maxMacroExpansionDepth e []

def setLogic (st : ScriptLowerer N) : List SExpr → LowerM S (ScriptLowerer N)
  | [_, logic] => do
    let logic ← Grow.lift (atom logic)
    let accepted :=
      match options.acceptedLogics with
      | .qfBvOnly => logic == "QF_BV"
      | .qfBvOrAll => logic == "QF_BV" || logic == "ALL"
    if accepted then pure st
    else invalid "set-logic" s!"unsupported logic {debugStr logic}"
  | _ => wrongLen 2 "set-logic"

def commandLevel (list : List SExpr) (context : String) : Result Nat :=
  match list with
  | [_] => ok 1
  | [_, level] => parseU32Atom level context
  | _ => err (.invalid context "expected optional level")

/-- `for _ in 0..levels { sink_result(op)?; }`. -/
def repeatOp (op : SinkM S Unit) : Nat → LowerM S Unit
  | 0 => pure ()
  | levels + 1 => do
    sinkResult op
    repeatOp op levels

/-- `push_command` and `pop_command`. -/
def scopeCommand (op : SinkM S Unit) (name : String) (st : ScriptLowerer N) (list : List SExpr) :
    LowerM S (ScriptLowerer N) := do
  let levels ← Grow.lift (commandLevel list name)
  match options.incrementalPolicy with
  | .rejectPushPop =>
    invalid "SMT-LIB incremental command" s!"{name} is not supported on this frontend"
  | .simulatePushPop => do
    repeatOp op levels
    return st

def pushCommand : ScriptLowerer N → List SExpr → LowerM S (ScriptLowerer N) :=
  scopeCommand options sink.push "push"

def popCommand : ScriptLowerer N → List SExpr → LowerM S (ScriptLowerer N) :=
  scopeCommand options sink.pop "pop"

/-- `declare_const` on its name and sort. -/
def declareNamed (st : ScriptLowerer N) (name sort : SExpr) : LowerM S (ScriptLowerer N) := do
  let name ← Grow.lift (atom name)
  let sort ← Grow.lift (parseSort sort)
  let node ← match sort with
    | .bool => sinkResult (sink.boolVar name)
    | .bv width => sinkResult (sink.bvVar name width)
  return { st.bind name ⟨node, sort⟩ with declaredSymbols := (name, sort) :: st.declaredSymbols }

def declareConst (st : ScriptLowerer N) : List SExpr → LowerM S (ScriptLowerer N)
  | [_, name, sort] => declareNamed sink st name sort
  | _ => wrongLen 3 "declare-const"

def declareFun (st : ScriptLowerer N) : List SExpr → LowerM S (ScriptLowerer N)
  | [_, name, .list [], sort] => declareNamed sink st name sort
  | [_, _, _, _] => Grow.fail (.unsupported "only 0-arity declare-fun is supported")
  | _ => wrongLen 4 "declare-fun"

/-- `define_const` on its name, sort and term. -/
def defineNamed (st : ScriptLowerer N) (name sort term : SExpr) : LowerM S (ScriptLowerer N) := do
  let name ← Grow.lift (atom name)
  let declared ← Grow.lift (parseSort sort)
  let binding ← topExpr sink options st term
  lowerSort binding.sort declared "define-const"
  return st.bind name binding

def defineConst (st : ScriptLowerer N) : List SExpr → LowerM S (ScriptLowerer N)
  | [_, name, sort, term] => defineNamed sink options st name sort term
  | _ => wrongLen 4 "define-const"

def defineFun (st : ScriptLowerer N) : List SExpr → LowerM S (ScriptLowerer N)
  | [_, name, params, sort, body] => do
    let text ← Grow.lift (atom name)
    let params ← Grow.lift (parseFunctionParams params)
    if params = [] then defineNamed sink options st name sort body
    else
      let result ← Grow.lift (parseSort sort)
      return { st with tables := { st.tables with
        functions := (text, ⟨params, result, body⟩) :: st.tables.functions } }
  | _ => wrongLen 5 "define-fun"

/-- The term of an assertion and the name it is given. -/
def assertParts (e : SExpr) : Result (SExpr × Option String) := do
  match ← namedAnnotation e with
  | some (inner, name) => pure (inner, some name)
  | none => pure (e, none)

def assertCommand (st : ScriptLowerer N) : List SExpr → LowerM S (ScriptLowerer N)
  | [_, e] => do
    let (term, name) ← Grow.lift (assertParts e)
    let binding ← topExpr sink options st term
    lowerSort binding.sort .bool "assert"
    sinkResult (sink.assert binding.node name)
    return st
  | _ => wrongLen 2 "assert"

/-- The loop of `check_sat_assuming`. -/
def assumeAll (st : ScriptLowerer N) : List SExpr → LowerM S Unit
  | [] => pure ()
  | item :: items => do
    let binding ← topExpr sink options st item
    lowerSort binding.sort .bool "check-sat-assuming"
    sinkResult (sink.assume binding.node)
    assumeAll st items

def checkSatAssuming (st : ScriptLowerer N) : List SExpr → LowerM S (ScriptLowerer N)
  | [_, .list items] => do
    assumeAll sink options st items
    return { st with sawCheckSat := true }
  | [_, .atom _] => invalid "check-sat-assuming" "expected assumption list"
  | _ => wrongLen 2 "check-sat-assuming"

/-- One round of `get_value_command`: the symbol's value is asked for, and that it equals itself is
asserted. -/
def getValueStep (st : ScriptLowerer N) : SExpr → LowerM S (ScriptLowerer N)
  | .atom name => do
    if (st.declaredSymbols.lookup name).isNone then
      invalid "get-value" s!"unknown declared symbol {debugStr name}"
    else
      let binding ← Grow.lift (ofOption (st.tables.env.lookup name)
        (.invalid "get-value" s!"undefined symbol {debugStr name}"))
      let tautology ← equalityNode sink "get-value" binding binding
      sinkResult (sink.assert tautology none)
      return { st with getValues := st.getValues ++ [name] }
  | .list _ => Grow.fail (.unsupported "get-value currently supports declared symbols")

def getValueCommand (st : ScriptLowerer N) : List SExpr → LowerM S (ScriptLowerer N)
  | [_, .list terms] => terms.foldlM (getValueStep sink) { st with wantModel := true }
  | [_, .atom _] => invalid "get-value" "expected term list"
  | _ => wrongLen 2 "get-value"

/-- A command that sets a flag. -/
def flagCommand (name : String) (st : ScriptLowerer N) (list : List SExpr) :
    LowerM S (ScriptLowerer N) :=
  if list.length = 1 then pure st else wrongLen 1 name

/-- The command that starts with `cmd`. -/
def namedCommand (cmd : String) (st : ScriptLowerer N) (list : List SExpr) :
    LowerM S (ScriptLowerer N) :=
  match cmd with
  | "set-logic" => setLogic options st list
  | "set-option" | "set-info" | "echo" | "exit" => pure st
  | "push" => pushCommand sink options st list
  | "pop" => popCommand sink options st list
  | "reset" | "reset-assertions" =>
    Grow.fail (.unsupported s!"command {cmd} is not supported")
  | "declare-const" => declareConst sink st list
  | "declare-fun" => declareFun sink st list
  | "define-const" => defineConst sink options st list
  | "define-fun" => defineFun sink options st list
  | "assert" => assertCommand sink options st list
  | "check-sat" => flagCommand "check-sat" { st with sawCheckSat := true } list
  | "check-sat-assuming" => checkSatAssuming sink options st list
  | "get-model" => flagCommand "get-model" { st with wantModel := true } list
  | "get-value" => getValueCommand sink st list
  | "get-unsat-core" => flagCommand "get-unsat-core" { st with wantCore := true } list
  | other => Grow.fail (.unsupported s!"SMT-LIB command {other}")

/-- One top-level expression; an empty list is skipped. -/
def command (st : ScriptLowerer N) : SExpr → LowerM S (ScriptLowerer N)
  | .atom text => invalid "SMT-LIB command" s!"top-level atom {debugStr text}"
  | .list [] => pure st
  | .list (head :: args) => do
    let cmd ← Grow.lift (atom head)
    namedCommand sink options cmd st (head :: args)

def runCommands (st : ScriptLowerer N) (exprs : List SExpr) : LowerM S (ScriptLowerer N) :=
  exprs.foldlM (command sink options) st

/-- `lower_script`, on the expressions of the script. -/
def lowerScript (exprs : List SExpr) : LowerM S LoweredScript := do
  let st ← runCommands sink options .new exprs
  if options.requireCheckSat ∧ ¬ st.sawCheckSat then
    invalid "SMT-LIB script" "script does not contain check-sat"
  else
    return ⟨st.wantModel, st.wantCore, st.getValues⟩

end

end Smtlib
end SmtServer
