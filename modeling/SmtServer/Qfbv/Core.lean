import SmtServer.Qfbv.Blast
import SmtServer.Qfbv.Sat
import SmtServer.Qfbv.Solver

/-!
# `sat.rs`, `model.rs`, `solver.rs` — the trusted path

A query is blasted, the gates are encoded as clauses, a SAT solver is asked, and what it answers is
read back: values of the gates become a model of the variables.

Two of the three SAT solvers are crates of others. What they answer is a parameter here
(`ForeignSolvers`), with the code around them as it is. None of the three is believed when it says
`Sat`: its assignment is checked against the clauses. `Unsat` is taken from any of them.

A budget is a deadline that has passed or not, as everywhere.
-/

namespace SmtServer
namespace Qfbv

open Lib Outcome
open Lib.Dimacs (Clause)

inductive SatBackendKind where
  | splr
  | varisat
  | dpll
  deriving Repr, DecidableEq

inductive ShortcutMode where
  | enabled
  | disabled
  | validateSatWitnesses
  | audit
  deriving Repr, DecidableEq

/-- `budget`: whether the deadline it sets has passed. `cancellationToken`: whether it is
cancelled. -/
structure Config where
  satBackend : SatBackendKind
  budget : Option Bool
  shortcutMode : ShortcutMode
  cancellationToken : Option Bool

def Config.isCancelled (self : Config) : Bool := self.cancellationToken = some true

namespace Sat

/-! ## The solvers of other crates -/

/-- What `splr` ends in. The three errors that mean a contradiction count as `unsat`, whether they
come from building the solver or from running it. -/
inductive SplrAnswer where
  | sat (model : List Int)
  | unsat
  | timeOut
  | error (text : String)
  | panicked

/-- The literals of a model of `varisat` are indices with a sign. -/
inductive VarisatAnswer where
  | sat (model : Option (List (Nat × Bool)))
  | unsat
  | error (text : String)

structure ForeignSolvers where
  splr : List Clause → SplrAnswer
  varisat : (numVars : Nat) → List Clause → (assumptions : List Int) → VarisatAnswer

def solveWithVarisat (foreign : ForeignSolvers) (numVars : Nat) (clauses : List Clause)
    (assumptions : List Int) (deadline : Option Bool) : SatResult :=
  if deadline.isSome then .unknown "varisat backend does not support deadlines"
  else
    match foreign.varisat numVars clauses assumptions with
    | .sat model =>
      .sat ((model.getD []).foldl (fun (assignment : List Bool) (index, positive) =>
        if index < assignment.length then assignment.set index positive else assignment)
        (List.replicate numVars false))
    | .unsat => .unsat
    | .error text => .unknown s!"varisat error: {text}"

/-- The assumptions are handed over as clauses of one literal. -/
def solveWithSplr (foreign : ForeignSolvers) (numVars : Nat) (clauses : List Clause)
    (assumptions : List Int) (deadline : Option Bool) : SatResult :=
  if deadline = some true then .unknown "budget exhausted"
  else
    match foreign.splr (clauses ++ assumptions.map fun assumption => [assumption]) with
    | .sat model =>
      .sat (model.foldl (fun (assignment : List Bool) lit =>
        if 1 ≤ lit.natAbs ∧ lit.natAbs ≤ numVars then
          assignment.set (lit.natAbs - 1) (decide (0 < lit))
        else assignment) (List.replicate numVars false))
    | .unsat => .unsat
    | .timeOut => .unknown "budget exhausted"
    | .error text => .unknown s!"splr error: {text}"
    | .panicked => .unknown "splr backend panicked"

/-! ## Asking, and checking the answer -/

def litIsSatisfied (assignment : List Bool) (lit : Int) : Bool :=
  let var := lit.natAbs
  if var = 0 ∨ assignment.length < var then false
  else
    let value := assignment.getD (var - 1) false
    if 0 < lit then value else !value

def satAssignmentSatisfies (clauses : List Clause) (assumptions : List Int)
    (assignment : List Bool) : Bool :=
  assumptions.all (litIsSatisfied assignment) &&
    clauses.all fun clause => clause.any (litIsSatisfied assignment)

/-- The recursion of `DpllSolver` gets a round for every variable and two more. -/
def askBackend (foreign : ForeignSolvers) (backend : SatBackendKind) (numVars : Nat)
    (clauses : List Clause) (assumptions : List Int) (deadline cancellation : Option Bool) :
    Result SatResult :=
  match backend with
  | .splr => pure (solveWithSplr foreign numVars clauses assumptions deadline)
  | .varisat => pure (solveWithVarisat foreign numVars clauses assumptions deadline)
  | .dpll => do
    let solver ← DpllSolver.new numVars clauses deadline cancellation
    solver.solve (numVars + 2) assumptions

def solveCnfWithCancellation (foreign : ForeignSolvers) (backend : SatBackendKind) (numVars : Nat)
    (clauses : List Clause) (assumptions : List Int) (deadline cancellation : Option Bool) :
    Result SatResult :=
  if cancellation = some true then pure (.unknown "cancelled")
  else if deadline = some true then pure (.unknown "budget exhausted")
  else do
    let result ← askBackend foreign backend numVars clauses assumptions deadline cancellation
    match result with
    | .sat assignment =>
      if !satAssignmentSatisfies clauses assumptions assignment then
        pure (.unknown "SAT backend returned invalid assignment")
      else pure result
    | _ => pure result

end Sat

open Sat

/-! ## Models -/

def gateValue (assignment : List Bool) (gate : GateId) : Result Bool :=
  .ofOption assignment[gate]?
    (.internal s!"missing SAT assignment for gate {gate} ({assignment.length} values)")

/-- The loop that sets the bits of a vector. -/
def modelBits (assignment : List Bool) (bits : Bits) (bytes : List UInt8) : Result (List UInt8) :=
  bits.zipIdx.foldlM (fun bytes (gate, bit) => do
    if ← gateValue assignment gate then
      let _ ← expect bytes[bit / 8]?
      pure (Bytes.setBit bytes bit)
    else pure bytes) bytes

def modelValue (assignment : List Bool) (blasted : BlastedVariable) : Result ScalarValue := do
  match blasted.sort with
  | .bool =>
    let gate ← expect blasted.bits[0]?
    let value ← gateValue assignment gate
    pure (.bool value)
  | .bv width =>
    let len ← bytesForWidth width
    let bytes ← modelBits assignment blasted.bits (List.replicate len 0)
    pure (.bv width (maskUnusedHighBits bytes width))

def buildModel (vars : List BlastedVariable) (assignment : List Bool) : Result Model := do
  let entries ← vars.mapM fun v => do
    let value ← modelValue assignment v
    pure { term := v.term, name := v.name, external := v.external, value : ModelEntry }
  pure { entries }

/-! ## The solver -/

namespace Solver

variable (foreign : ForeignSolvers) (config : Config)

def limitUnknown : SolveResult :=
  if config.isCancelled then .unknown "cancelled" else .unknown "budget exhausted"

/-- `Error::Timeout` is an answer. -/
def orLimit {α : Type} (x : Result α) (f : α → Result SolveResult) : Result SolveResult :=
  match x with
  | .ok a => f a
  | .err .timeout => pure (limitUnknown config)
  | .err e => .err e
  | .panic => .panic

def solveCoreOnceWithDeadline (query : Query) (wantModel : Bool) (deadline : Option Bool) :
    Result SolveResult :=
  if config.isCancelled then pure (.unknown "cancelled")
  else if deadline = some true then pure (.unknown "budget exhausted")
  else
    let cancellation := config.cancellationToken
    orLimit config (blastQueryWithLimits query deadline cancellation) fun blasted =>
      orLimit config (Cnf.encodeWithLimits blasted.gates blasted.assertion deadline cancellation)
        fun cnf => do
          match ← solveCnfWithCancellation foreign config.satBackend cnf.numVars cnf.clauses []
            deadline cancellation with
          | .sat assignment =>
            if wantModel then
              let model ← buildModel blasted.vars assignment
              pure (.sat (some model))
            else pure (.sat none)
          | .unsat => pure .unsat
          | .unknown message => pure (.unknown message)

/-- What a shortcut answers, and the pass that found it. -/
structure ShortcutHit where
  passName : String
  result : SolveResult

/-- `solve_once_with_deadline`, with the shortcuts it tries first. -/
def solveOnceWithDeadline (trySolve : Query → Bool → Config → Result (Option ShortcutHit))
    (query : Query) (wantModel : Bool) (deadline : Option Bool) : Result SolveResult :=
  if config.isCancelled then pure (.unknown "cancelled")
  else
    match query.command with
    | .simplify => pure .simplified
    | .minimize | .maximize => .err (.internal "solve_once called with optimization command")
    | .solve =>
      if deadline = some true then pure (.unknown "budget exhausted")
      else do
        match ← trySolve query wantModel config with
        | none => solveCoreOnceWithDeadline foreign config query wantModel deadline
        | some hit =>
          if config.isCancelled then pure (.unknown "cancelled")
          else if config.shortcutMode = .audit then
            let core ← solveCoreOnceWithDeadline foreign config query wantModel deadline
            if core.status ≠ .unknown ∧ core.status ≠ hit.result.status then
              pure (.unknown (s!"shortcut audit disagreement in {hit.passName}: " ++
                s!"shortcut={hit.result.status.debug}, core={core.status.debug}"))
            else pure hit.result
          else pure hit.result

def solve (trySolve : Query → Bool → Config → Result (Option ShortcutHit)) (query : Query) :
    Result SolveResult :=
  let deadline := config.budget
  let solveOnce : SolveOnce := fun query wantModel =>
    solveOnceWithDeadline foreign config trySolve query wantModel deadline
  if config.isCancelled then pure (.unknown "cancelled")
  else if query.command = .minimize ∨ query.command = .maximize then optimize solveOnce query
  else do
    let result ← solveOnce query query.wantModel
    if result.status = .unsat ∧ query.wantCore then
      orLimit config (extractNamedCore solveOnce query) fun core =>
        pure { result with core := some core }
    else pure result

end Solver
end Qfbv
end SmtServer
