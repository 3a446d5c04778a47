import SmtServer.Server.Backend

/-!
# `protocol.rs` — from a backend's result to a response

Each command has a handler that turns the result of a backend into a response. A status or a
block that does not fit the request becomes an `ERROR` response under the request's id; what the
encoders refuse, and a missing block, is returned as an error and answered further out.

The main result compares the two copies of the artifact checks: what `is_conclusive_for` accepts
and what these handlers answer.
-/

namespace SmtServer
namespace Server

open Lib Outcome Wire

namespace Protocol

def validateModel (request : BinaryRequest) (model : ModelBlock) : Result Unit :=
  checkModel request model

def validateUnsatCore (request : BinaryRequest) (core : UnsatCoreBlock) : Result Unit :=
  checkCore request core

def validateSimplify (request : BinaryRequest) (simplify : SimplifyBlock) : Result Unit :=
  checkSimplify (.invalid "simplify response" "missing target node") request simplify

/-- Here a model that is present is always looked at. -/
def validateOptimization (request : BinaryRequest) (optimization : OptimizationValueBlock) :
    Result Unit := do
  let expr ← checkOptimum request optimization
  match optimization.model with
  | some model => model.validateAgainstExpr expr
  | none => pure ()

/-- `if let Err(err) = check { return BinaryResponse::error(..) }`. -/
def orErrorResponse (requestId : UInt32) (what : String) (check : Result Unit)
    (rest : Result BinaryResponse) : Result BinaryResponse :=
  match check with
  | .ok _ => rest
  | .err e => BinaryResponse.error requestId s!"invalid backend {what}: {e.display}"
  | .panic => .panic

def unknownResponse (requestId : UInt32) (message : Option String) : Result BinaryResponse :=
  match message.filter (· ≠ "") with
  | some message =>
    BinaryResponse.new requestId .unknown ResponseFlags.hasMessage (utf8 message)
  | none => BinaryResponse.new requestId .unknown 0 []

def solveResponse (request : BinaryRequest) (result : QueryResult) : Result BinaryResponse :=
  let requestId := request.envelope.requestId
  match result.status with
  | .sat =>
    if wantModel request then
      match result.model with
      | some model => orErrorResponse requestId "model" (validateModel request model) do
        BinaryResponse.new requestId .sat ResponseFlags.hasModel (← model.encode)
      | none => BinaryResponse.error requestId "SAT backend omitted requested model"
    else BinaryResponse.new requestId .sat 0 []
  | .unsat =>
    if wantCore request then
      match result.core with
      | some core => orErrorResponse requestId "unsat core" (validateUnsatCore request core) do
        BinaryResponse.new requestId .unsat ResponseFlags.hasCore (← core.encode)
      | none => BinaryResponse.error requestId "UNSAT backend omitted requested core"
    else BinaryResponse.new requestId .unsat 0 []
  | .unknown => unknownResponse requestId result.message
  | .simplified => BinaryResponse.error requestId "SOLVE backend returned SIMPLIFIED"

def simplifyResponse (request : BinaryRequest) (result : QueryResult) : Result BinaryResponse :=
  let requestId := request.envelope.requestId
  match result.status with
  | .simplified => do
    let simplify ← ofOption result.simplify
      (.invalid "simplify response" "SIMPLIFIED result without simplify block")
    orErrorResponse requestId "simplify block" (validateSimplify request simplify) do
      BinaryResponse.new requestId .simplified ResponseFlags.hasExpr (← simplify.encode)
  | .unknown => unknownResponse requestId result.message
  | .sat | .unsat => BinaryResponse.error requestId "SIMPLIFY backend returned SAT/UNSAT"

/-- The block that is sent: without the model nobody asked for. -/
def dropModel (request : BinaryRequest) (optimization : OptimizationValueBlock) :
    OptimizationValueBlock :=
  if wantModel request then optimization else { optimization with model := none }

def valueFlags (optimization : OptimizationValueBlock) : UInt8 :=
  if optimization.model.isSome then ResponseFlags.hasValue ||| ResponseFlags.hasModel
  else ResponseFlags.hasValue

def optimizeResponse (request : BinaryRequest) (result : QueryResult) : Result BinaryResponse :=
  let requestId := request.envelope.requestId
  match result.status with
  | .sat => do
    let optimization ← ofOption result.optimization
      (.invalid "optimization response" "SAT result without optimum block")
    if wantModel request = true ∧ optimization.model = none then
      BinaryResponse.error requestId "optimization backend omitted requested model"
    else
      let optimization := dropModel request optimization
      orErrorResponse requestId "optimization block" (validateOptimization request optimization) do
        BinaryResponse.new requestId .sat (valueFlags optimization) (← optimization.encode)
  | .unsat => BinaryResponse.new requestId .unsat 0 []
  | .unknown => unknownResponse requestId result.message
  | .simplified => BinaryResponse.error requestId "optimization backend returned SIMPLIFIED"

def responseFromQueryResult (request : BinaryRequest) (result : QueryResult) :
    Result BinaryResponse :=
  match request.envelope.command with
  | .solve => solveResponse request result
  | .simplify => simplifyResponse request result
  | .minimize | .maximize => optimizeResponse request result

def handleBinaryRequest (request : BinaryRequest) (backend : Backend) : Result BinaryResponse :=
  match backend.handle request with
  | .ok result => responseFromQueryResult request result
  | .err e => BinaryResponse.error request.envelope.requestId e.display
  | .panic => .panic

def handleBinaryFrame (framePayload : List UInt8) (backend : Backend) : Result BinaryResponse :=
  if isBinaryRequestPayload framePayload then
    match BinaryRequest.parse framePayload with
    | .ok request => handleBinaryRequest request backend
    | .err e => BinaryResponse.error 0 e.display
    | .panic => .panic
  else BinaryResponse.error 0 "frame payload is not a binary SMTQ request"

end Protocol
end Server
end SmtServer
