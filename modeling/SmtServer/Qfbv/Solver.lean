import SmtServer.Qfbv.Query

/-!
# `solver.rs` — optimisation and unsat cores

The two drivers that call a solver over and over on variants of one query. The solver they call,
`solve_once_with_deadline`, is a parameter: both are about what they make of its answers. There
is no deadline and no cancellation here, so the two checks of the clock are not in the loops.
-/

namespace SmtServer
namespace Qfbv

open Lib Outcome

inductive SolveStatus where
  | sat
  | unsat
  | unknown
  | simplified
  deriving Repr, DecidableEq

/-- `{:?}`. -/
def SolveStatus.debug : SolveStatus → String
  | .sat => "Sat"
  | .unsat => "Unsat"
  | .unknown => "Unknown"
  | .simplified => "Simplified"

structure SolveResult where
  status : SolveStatus
  model : Option Model
  core : Option (List String)
  optimum : Option ScalarValue
  message : Option String
  deriving DecidableEq

namespace SolveResult

def sat (model : Option Model) : SolveResult := ⟨.sat, model, none, none, none⟩
def unsat : SolveResult := ⟨.unsat, none, none, none, none⟩
def satOptimization (optimum : ScalarValue) (model : Option Model) : SolveResult :=
  ⟨.sat, model, none, some optimum, none⟩
def unknown (message : String) : SolveResult := ⟨.unknown, none, none, none, some message⟩
def simplified : SolveResult := ⟨.simplified, none, none, none, none⟩

end SolveResult

/-- `solve_once_with_deadline`: a query, and whether a model is wanted. -/
abbrev SolveOnce := Query → Bool → Result SolveResult

namespace Solver

variable (solveOnce : SolveOnce)

/-! ## Optimisation -/

/-- The term `assert_target_bit` asserts. -/
def targetBitTerm (target : TermId) (bit : Nat) (value : Bool) : ArenaM TermId := do
  let extracted ← Arena.add (.bvExtract target bit bit) (.bv 1)
  let constant ← Arena.add (.bvConst 1 [if value then 1 else 0]) (.bv 1)
  Arena.add (.bvEq extracted constant) .bool

def assertTargetBit (query : Query) (target : TermId) (bit : Nat) (value : Bool) :
    Result Query :=
  match (targetBitTerm target bit value).run query.arena with
  | (.ok eq, arena) =>
    ok { query with arena, assertions := query.assertions ++ [⟨eq, none⟩] }
  | (.err e, _) => err e
  | (.panic, _) => Outcome.panic

/-- `bytes[bit / 8] |= 1 << (bit % 8)`; the index is in range for a bit of the width the bytes
were made for. -/
def setBit (bytes : List UInt8) (bit : Nat) : List UInt8 :=
  bytes.modify (bit / 8) (· ||| 1 <<< UInt8.ofNat (bit % 8))

/-- Which value of a bit the search tries first. -/
def preferOne (signed minimize signBit : Bool) : Bool :=
  match signed, minimize, signBit with
  | false, true, _ => false
  | false, false, _ => true
  | true, true, true => true
  | true, true, false => false
  | true, false, true => false
  | true, false, false => true

/-- How the bit loop goes on: with the query and the bits fixed so far, or with an early
return. -/
inductive Hunt where
  | go (fixed : Query) (optimum : List UInt8)
  | done (result : SolveResult)

/-- What a round makes of the answer to its trial. -/
def settleBit (target : TermId) (bit : Nat) (prefer : Bool) (fixed trial : Query)
    (optimum : List UInt8) (status : SolveStatus) : Result Hunt :=
  match status with
  | .sat => ok (.go trial (if prefer then setBit optimum bit else optimum))
  | .unsat => do
    let fixed ← assertTargetBit fixed target bit !prefer
    ok (.go fixed (if prefer then optimum else setBit optimum bit))
  | .unknown => ok (.done (.unknown "optimization bit query unknown"))
  | .simplified => ok (.done (.unknown "optimization bit query returned SIMPLIFIED"))

/-- One round of the bit loop. -/
def huntBit (query : Query) (target : TermId) (width bit : Nat) (fixed : Query)
    (optimum : List UInt8) : Result Hunt := do
  let prefer := preferOne query.signed (query.command = .minimize) (bit = width - 1)
  let trial ← assertTargetBit fixed target bit prefer
  let answer ← solveOnce trial false
  settleBit target bit prefer fixed trial optimum answer.status

/-- `for bit in (0..width).rev()`, with `bits` rounds to go. -/
def huntBits (query : Query) (target : TermId) (width : Nat) :
    (bits : Nat) → Query → List UInt8 → Result Hunt
  | 0, fixed, optimum => ok (.go fixed optimum)
  | bit + 1, fixed, optimum => do
    match ← huntBit solveOnce query target width bit fixed optimum with
    | .go fixed optimum => huntBits query target width bit fixed optimum
    | .done result => ok (.done result)

/-- The model of the last query, where one is wanted. -/
def finalModel (query fixed : Query) (optimum : ScalarValue) : Result SolveResult :=
  if query.wantModel then do
    let answer ← solveOnce fixed true
    if answer.status = .sat then ok (.satOptimization optimum answer.model)
    else ok (.unknown
      s!"optimization final model query returned {answer.status.debug}")
  else ok (.satOptimization optimum none)

def optimizeFrom (query : Query) (target : TermId) (width : Nat) (fixed : Query) :
    Result SolveResult := do
  match ← huntBits solveOnce query target width width fixed (List.replicate (divCeil8 width) 0) with
  | .go fixed optimum => finalModel solveOnce query fixed (.bv width optimum)
  | .done result => ok result

/-- What `optimize` makes of the answer to the query without its objective. -/
def optimizeBase (query : Query) (target : TermId) (width : Nat) (fixed : Query)
    (status : SolveStatus) : Result SolveResult :=
  match status with
  | .sat => optimizeFrom solveOnce query target width fixed
  | .unsat => ok .unsat
  | .unknown => ok (.unknown "optimization base query unknown")
  | .simplified => ok (.unknown "optimization base query returned SIMPLIFIED")

/-- The width of the objective. -/
def targetWidth : TermSort → Result Nat
  | .bv width => ok width
  | .bool => err (.invalid "optimization" "target is not BV")

def optimize (query : Query) : Result SolveResult := do
  let target ← ofOption query.target (.invalid "optimization" "missing target")
  let sort ← query.arena.sort target
  let width ← targetWidth sort
  let fixed : Query := { query with
    command := .solve, wantModel := false, wantCore := false, target := none }
  let answer ← solveOnce fixed false
  optimizeBase solveOnce query target width fixed answer.status

/-! ## Unsat cores -/

def queryWithNamedSubset (query : Query) (active : List Nat) : Query :=
  { query with
    assertions := (query.assertions.zipIdx.filter fun (a, index) =>
      a.name.isNone || active.contains index).map (·.1)
    wantModel := false
    wantCore := false }

/-- The `while` loop of `extract_named_core`. A round drops a candidate or steps past it, so the
number of candidates at the start bounds the rounds. -/
def shrinkCore (query : Query) : (rounds : Nat) → (active : List Nat) → (pos : Nat) →
    Result (List Nat)
  | rounds, active, pos =>
    match active[pos]? with
    | none => ok active
    | some candidate =>
      match rounds with
      | 0 => Outcome.panic
      | rounds + 1 => do
        let trialActive := active.filter (· ≠ candidate)
        let answer ← solveOnce (queryWithNamedSubset query trialActive) false
        if answer.status = .unsat then shrinkCore query rounds trialActive pos
        else shrinkCore query rounds active (pos + 1)

/-- The indices of the named assertions. -/
def namedIndices (query : Query) : List Nat :=
  query.assertions.zipIdx.filterMap fun (a, index) => a.name.map fun _ => index

/-- The names behind some indices. -/
def namesAt (query : Query) (active : List Nat) : List String :=
  active.filterMap fun index => query.assertions[index]?.bind (·.name)

def extractNamedCore (query : Query) : Result (List String) := do
  let named := namedIndices query
  let active ← shrinkCore solveOnce query named.length named 0
  forM active fun index => do
    let _ ← expect query.assertions[index]?
    pure ()
  pure (namesAt query active)

end Solver
end Qfbv
end SmtServer
