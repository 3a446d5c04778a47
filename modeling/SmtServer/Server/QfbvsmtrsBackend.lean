import SmtServer.Qfbv.FromWire
import SmtServer.Qfbv.Shortcuts.Engine
import SmtServer.Server.Backend

/-!
# `qfbvsmtrs_backend.rs` — the solver of the repository as a backend

A request becomes a query, the solver is asked, and its answer is put into the blocks of the wire
format. Whatever goes wrong on the way is an `unknown` with a text; only a thread that cannot be
started, and an optimum that does not fit its block, are errors.

A model comes back by name. Its entries are collected under name, sort and width, and every variable
node of the request whose key is among them gets an entry, also nodes that the solver never saw as
variables of their own.

The clock and the token are what the solver reads of them (`Config`): whether the deadline has
passed, and whether the token is cancelled.
-/

namespace SmtServer
namespace Server
namespace QfbvsmtrsBackend

open Lib Outcome Wire
open Qfbv (Config SolveResult queryFromWire scalarToWire)
open Qfbv.Solver (solve)
open Qfbv.Sat (ForeignSolvers)
open Qfbv.Shortcuts (trySolve)

/-! ## Models -/

def valueSort (value : ScalarValue) : WireSort := if value.width = 0 then .bool else .bv

abbrev Values := List (ModelBlock.Symbol × ScalarValue)

/-- One round of the loop over the entries of a model. -/
def insertValue (values : Values) (entry : Qfbv.ModelEntry) : Result Values := do
  let value ← scalarToWire entry.value
  let key : ModelBlock.Symbol := (entry.name, valueSort value, value.width)
  match values.lookup key with
  | some existing =>
    ensure (existing = value)
      (.invalid "qfbvsmtrs model" s!"inconsistent values for symbol {debugStr entry.name}")
  | none => pure ()
  pure ((key, value) :: values)

/-- What a variable node is called; other nodes are skipped. -/
def nodeSymbol (expr : ExprView) (node : RawNode) : Result (Option ModelBlock.Symbol) :=
  match Tag.tryFrom node.tag with
  | some .bvVar => do
    let name ← expr.blobStr node.blobRef "BV variable"
    pure (some (name, .bv, node.width))
  | some .boolVar => do
    let name ← expr.blobStr node.blobRef "Bool variable"
    pure (some (name, .bool, 0))
  | _ => pure none

/-- One round of the loop over the nodes. -/
def nodeEntry (expr : ExprView) (values : Values) (index : Nat) : Result (Option ModelEntry) := do
  let node ← expr.node index
  match ← nodeSymbol expr node with
  | none => pure none
  | some key =>
    match values.lookup key with
    | none => pure none
    | some value =>
      let nodeRef ← NodeRef.new key.2.1 (UInt32.ofNat index)
      pure (some ⟨nodeRef, value⟩)

def modelToWireForRequest (model : Qfbv.Model) (request : BinaryRequest) : Result ModelBlock := do
  let values ← model.entries.foldlM insertValue []
  let expr ← request.expressionView
  let entries ← (List.range expr.header.nodeCount.toNat).mapM (nodeEntry expr values)
  pure ⟨entries.filterMap id⟩

/-! ## Answers -/

/-- `budget_ms` sets a deadline, which has passed or not, unless it is 0. A request that can be
stopped is not given to a crate that might not listen. -/
def workerConfig (request : BinaryRequest) (passed : Bool) (cancellation : Option Bool) : Config :=
  let budget := if request.envelope.budgetMs = 0 then none else some passed
  { satBackend := if budget.isSome || cancellation.isSome then .dpll else .splr
    budget
    shortcutMode := .enabled
    cancellationToken := cancellation }

def satResult (result : SolveResult) (model : Option ModelBlock) : Result QueryResult :=
  match result.optimum with
  | some optimum => do
    let optimum ← scalarToWire optimum
    pure (.ofSatOptimization ⟨optimum, model⟩)
  | none => pure (.ofSat model)

/-- The `match` over the status. -/
def answer (request : BinaryRequest) (result : SolveResult) : Result QueryResult :=
  match result.status with
  | .sat =>
    match result.model with
    | some model =>
      match modelToWireForRequest model request with
      | .ok block => satResult result (some block)
      | .err e => pure (.ofUnknown s!"qfbvsmtrs model: {e.display}")
      | .panic => .panic
    | none => satResult result none
  | .unsat => pure (.ofUnsat (result.core.map fun names => ⟨names⟩))
  | .unknown => pure (.ofUnknown (result.message.getD "qfbvsmtrs returned unknown"))
  | .simplified => pure (.ofUnknown "qfbvsmtrs returned SIMPLIFIED for a solve request")

def solveOnWorker (foreign : ForeignSolvers) (request : BinaryRequest) (passed : Bool)
    (cancellation : Option Bool) : Result QueryResult :=
  match queryFromWire request with
  | .ok query =>
    match solve foreign (workerConfig request passed cancellation) trySolve query with
    | .ok result => answer request result
    | .err e => pure (.ofUnknown s!"qfbvsmtrs: {e.display}")
    | .panic => .panic
  | .err e => pure (.ofUnknown s!"qfbvsmtrs: {e.display}")
  | .panic => .panic

/-- A panic ends the thread and not the server. -/
def joinWorker (worker : Result QueryResult) : Result QueryResult :=
  match worker with
  | .panic => pure (.ofUnknown "qfbvsmtrs worker panicked")
  | result => result

/-- `spawn_worker` and `join_worker`; `spawned` is the error of a thread that does not start. -/
def runWorker (foreign : ForeignSolvers) (spawned : Except String Unit) (request : BinaryRequest)
    (passed : Bool) (cancellation : Option Bool) : Result QueryResult :=
  match spawned with
  | .error text => .err (.invalid "qfbvsmtrs worker" text)
  | .ok () => joinWorker (solveOnWorker foreign request passed cancellation)

/-- The one command that is answered at once. -/
def simplified (request : BinaryRequest) : Result QueryResult := do
  let targetNode ← ofOption request.targetRef (.invalid "simplify request" "missing target_node")
  pure (.ofSimplified ⟨request.expression, targetNode⟩)

def handle (foreign : ForeignSolvers) (spawned : Except String Unit) (passed : Bool)
    (request : BinaryRequest) : Result QueryResult :=
  match request.envelope.command with
  | .simplify => simplified request
  | .solve | .minimize | .maximize => runWorker foreign spawned request passed none

/-- `before`: the context is cancelled when the request arrives. `during`: it is cancelled while
the worker runs, which is passed on to the solver. -/
def handleWithContext (foreign : ForeignSolvers) (spawned : Except String Unit) (passed : Bool)
    (before during : Bool) (request : BinaryRequest) : Result QueryResult :=
  if before then pure (.ofUnknown "qfbvsmtrs request cancelled before start")
  else
    match request.envelope.command with
    | .simplify => simplified request
    | .solve | .minimize | .maximize => runWorker foreign spawned request passed (some during)

/-- The backend as the rest of the server sees it. -/
def backend (foreign : ForeignSolvers) (spawned : Except String Unit) (passed : Bool) : Backend where
  name := "qfbvsmtrs"
  supportsQfbvsmtrsTextFallback := true
  handle := handle foreign spawned passed

end QfbvsmtrsBackend
end Server
end SmtServer
