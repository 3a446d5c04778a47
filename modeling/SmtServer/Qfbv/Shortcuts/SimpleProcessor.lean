import SmtServer.Qfbv.Shortcuts.Adder
import SmtServer.Qfbv.Shortcuts.Popcount

/-!
# `simple_processor.rs` — processors that pack their operands

A query may describe several small processors that decode one opcode into operands and a function
bit, pack them into a word in an order of their own, take the word apart again and add or combine
what they find. The pass knows the processors by the names of their variables and looks for each of
their definitions among the conjuncts.

The names are the user's, so what is found there is sorted into roles first (`variableRole`). The
positions at which a processor packs its function bit come from its number.
-/

namespace SmtServer
namespace Qfbv

open Lib Outcome

namespace Shortcuts

/-! ## Names -/

def stripPrefix (name start : String) : Option (List Char) := name.toList.dropPrefix? start.toList

/-- `str::parse::<usize>`: an optional plus, then at least one digit, and no overflow. -/
def parseUsize (text : List Char) : Option Nat :=
  let digits := if text.head? = some '+' then text.tail else text
  if digits = [] ∨ ¬digits.all Char.isDigit then none
  else some (digits.foldl (fun n digit => 10 * n + (digit.toNat - '0'.toNat)) 0)
    |>.filter (· < 2 ^ 64)

def parseDecimalSuffix (name start : String) : Option Nat := do
  let value ← parseUsize (← stripPrefix name start)
  if value > 0 then some value else none

def parseTwoIndexName (name start : String) : Option (Nat × Nat) := do
  let rest ← stripPrefix name start
  let (left, separated) := rest.span (· ≠ '_')
  let right ← separated.tail?
  let left ← parseUsize left
  let right ← parseUsize right
  if left > 0 ∧ right > 0 then some (left, right) else none

/-- What a variable is to its processor. -/
inductive ProcessorRole where
  | mode
  | out
  | func
  | decode
  | decFunc
  | deciFunc
  | ops (operand : Nat)
  | oprs (operand : Nat)

/-- What a variable is to the pass. -/
inductive VariableRole where
  | opcode
  | operator (index : Nat)
  | processor (index : Nat) (role : ProcessorRole)

/-- The tests that `collect_simple_processor_vars` makes of a variable, in their order. A name that
is known keeps its variable from the tests that follow, also where the width is wrong. -/
def variableRole (width : Nat) (name : String) : Option VariableRole :=
  if name = "opcode" ∧ width = 8 then some .opcode
  else if let some index := parseDecimalSuffix name "operator" then some (.operator index)
  else if let some processor := parseDecimalSuffix name "mode_" then
    if width = 1 then some (.processor processor .mode) else none
  else if let some processor := parseDecimalSuffix name "out_" then some (.processor processor .out)
  else if let some processor := parseDecimalSuffix name "func_" then
    if width = 1 then some (.processor processor .func) else none
  else if let some processor := parseDecimalSuffix name "decode_" then
    some (.processor processor .decode)
  else if let some processor := parseDecimalSuffix name "dec_func_" then
    if width = 1 then some (.processor processor .decFunc) else none
  else if let some processor := parseDecimalSuffix name "deci_func_" then
    if width = 1 then some (.processor processor .deciFunc) else none
  else if let some (operand, processor) := parseTwoIndexName name "opr" then
    some (.processor processor (.oprs operand))
  else if let some (operand, processor) := parseTwoIndexName name "op" then
    some (.processor processor (.ops operand))
  else none

/-! ## Processors -/

/-- `insert`. -/
def insertTerm (index : Nat) (term : TermId) (map : List (Nat × TermId)) : List (Nat × TermId) :=
  Table.alter index (fun _ => term) map

structure SimpleProcessorVars where
  mode : Option TermId
  out : Option TermId
  func : Option TermId
  decode : Option TermId
  decFunc : Option TermId
  deciFunc : Option TermId
  ops : List (Nat × TermId)
  oprs : List (Nat × TermId)

def SimpleProcessorVars.default : SimpleProcessorVars := ⟨none, none, none, none, none, none, [], []⟩

def SimpleProcessorVars.set (vars : SimpleProcessorVars) (term : TermId) :
    ProcessorRole → SimpleProcessorVars
  | .mode => { vars with mode := some term }
  | .out => { vars with out := some term }
  | .func => { vars with func := some term }
  | .decode => { vars with decode := some term }
  | .decFunc => { vars with decFunc := some term }
  | .deciFunc => { vars with deciFunc := some term }
  | .ops operand => { vars with ops := insertTerm operand term vars.ops }
  | .oprs operand => { vars with oprs := insertTerm operand term vars.oprs }

structure SimpleProcessor where
  index : Nat
  mode : TermId
  out : TermId
  func : TermId
  decode : TermId
  decFunc : TermId
  deciFunc : TermId
  ops : List TermId
  oprs : List TermId

/-- What the loop over the nodes has found. -/
structure ProcessorTables where
  opcode : Option TermId
  operators : List (Nat × TermId)
  processors : List (Nat × SimpleProcessorVars)

def ProcessorTables.set (tables : ProcessorTables) (term : TermId) : VariableRole → ProcessorTables
  | .opcode => { tables with opcode := some term }
  | .operator operator => { tables with operators := insertTerm operator term tables.operators }
  | .processor processor role =>
    { tables with
      processors := Table.alter processor (fun vars => (vars.getD .default).set term role)
        tables.processors }

def roleOf : NodeKind → Option VariableRole
  | .bvVar width name _ => variableRole width name
  | _ => none

def processorTables (s : Arena) : ProcessorTables :=
  s.nodes.zipIdx.foldl (fun tables (node, term) =>
    match roleOf node.kind with
    | some role => tables.set term role
    | none => tables) ⟨none, [], []⟩

def contiguousTerms (map : List (Nat × TermId)) : List TermId :=
  if map.zipIdx.all fun ((index, _), expectedIndex) => index = expectedIndex + 1 then
    map.map (·.2)
  else []

/-- `matches!(sort(term), Ok(Sort::Bv(width)) if width == word_width)`. -/
def hasWidth (s : Arena) (width : Nat) (term : TermId) : Bool := s.sort term = ok (.bv width)

/-- The tests of a processor up to the width of its packed word. -/
def processorOfVars (s : Arena) (operators : List TermId) (wordWidth index : Nat)
    (vars : SimpleProcessorVars) : Result (Option SimpleProcessor) := do
  match vars.mode, vars.out, vars.func, vars.decode, vars.decFunc, vars.deciFunc with
  | some mode, some out, some func, some decode, some decFunc, some deciFunc =>
    let ops := contiguousTerms vars.ops
    let oprs := contiguousTerms vars.oprs
    if ops.length ≠ operators.length ∨ oprs.length ≠ operators.length then return none
    if (← s.sort mode) ≠ .bv 1 then return none
    if (← s.sort func) ≠ .bv 1 then return none
    if (← s.sort decFunc) ≠ .bv 1 then return none
    if (← s.sort deciFunc) ≠ .bv 1 then return none
    if (← s.sort out) ≠ .bv wordWidth then return none
    return some ⟨index, mode, out, func, decode, decFunc, deciFunc, ops, oprs⟩
  | _, _, _, _, _, _ => return none

/-- The tests that follow. The width is computed in `u32`, and `operators.len()` is cast to it. -/
def completeProcessor (s : Arena) (operators : List TermId) (wordWidth index : Nat)
    (vars : SimpleProcessorVars) : Result (Option SimpleProcessor) := do
  let some processor ← processorOfVars s operators wordWidth index vars | return none
  let packed ← s.sort processor.decode
  let width ← addU 32 (← mulU 32 wordWidth (operators.length % 2 ^ 32)) 1
  if packed ≠ .bv width then return none
  if (processor.ops ++ processor.oprs).all (hasWidth s wordWidth) then return some processor
  else return none

/-- The loop over the processors, which are numbered from one. -/
def completeProcessors (s : Arena) (operators : List TermId) (wordWidth : Nat) :
    (expectedIndex : Nat) → List (Nat × SimpleProcessorVars) → Result (Option (List SimpleProcessor))
  | _, [] => return some []
  | expectedIndex, (index, vars) :: rest => do
    if index ≠ expectedIndex + 1 then return none
    let some processor ← completeProcessor s operators wordWidth index vars | return none
    let some complete ← completeProcessors s operators wordWidth (expectedIndex + 1) rest
      | return none
    return some (processor :: complete)

structure SimpleProcessorCollection where
  opcode : TermId
  operators : List TermId
  processors : List SimpleProcessor

def collectSimpleProcessorVars (s : Arena) : Result (Option SimpleProcessorCollection) := do
  let tables := processorTables s
  let some opcode := tables.opcode | return none
  match contiguousTerms tables.operators with
  | [] => return none
  | first :: others =>
    let operators := first :: others
    let .bv wordWidth ← s.sort first | return none
    if !operators.all (hasWidth s wordWidth) then return none
    let some complete ← completeProcessors s operators wordWidth 0 tables.processors | return none
    if complete = [] then return none
    return some ⟨opcode, operators, complete⟩

/-! ## Equations -/

def matchesBvEqPair (s : Arena) (term a b : TermId) : Result Bool := do
  return (← bvEqPair s term).any fun (x, y) => sameUnorderedPair x y a b

def matchesBvEqConst (s : Arena) (term var : TermId) (value : UInt64) (width : Nat) :
    Result Bool := do
  let some (a, b) ← bvEqPair s term | return false
  (pure (a == var) <&&> isBvConstU64 s b width value) <||>
    (pure (b == var) <&&> isBvConstU64 s a width value)

def matchesExtract (s : Arena) (term child : TermId) (high low : Nat) : Result Bool := do
  return (← kind s term).bvExtract? == some (child, high, low)

def matchesBvEqExtract (s : Arena) (term target child : TermId) (high low : Nat) :
    Result Bool := do
  let some (a, b) ← bvEqPair s term | return false
  (pure (a == target) <&&> matchesExtract s b child high low) <||>
    (pure (b == target) <&&> matchesExtract s a child high low)

def matchesModeZero (s : Arena) (term mode : TermId) : Result Bool :=
  matchesBvEqConst s term mode 0 1

def hasBvEqLeaf (s : Arena) (leaves : List TermId) (a b : TermId) : Result Bool :=
  leaves.anyM fun leaf => matchesBvEqPair s leaf a b

/-! ## The query that is asked -/

def orderedIndexPair (a b : Nat) : Nat × Nat := if a ≤ b then (a, b) else (b, a)

def simpleProcessorIndexByMode (processors : List SimpleProcessor) (term : TermId) : Option Nat :=
  processors.findSome? fun processor => if processor.mode = term then some processor.index else none

def simpleProcessorIndexByOut (processors : List SimpleProcessor) (term : TermId) : Option Nat :=
  processors.findSome? fun processor => if processor.out = term then some processor.index else none

/-- The numbers of the processors that two terms belong to. -/
def indexPair (index : TermId → Option Nat) (p : BvPair) : Option (Nat × Nat) := do
  return (← index p.1, ← index p.2)

/-- `NodeKind::BoolNot(child)` of an equation. -/
def bvDiseqPair (s : Arena) (term : TermId) : Result (Option BvPair) := do
  let .boolNot child ← kind s term | return none
  bvEqPair s child

def simpleProcessorModePair (s : Arena) (term : TermId) (processors : List SimpleProcessor) :
    Result (Option (Nat × Nat)) := do
  let some p ← bvEqPair s term | return none
  match indexPair (simpleProcessorIndexByMode processors) p with
  | some (left, right) => return if left ≠ right then some (orderedIndexPair left right) else none
  | none => return none

def simpleProcessorOutDisequalityPair (s : Arena) (term : TermId)
    (processors : List SimpleProcessor) : Result (Option (Nat × Nat)) := do
  let some p ← bvDiseqPair s term | return none
  match indexPair (simpleProcessorIndexByOut processors) p with
  | some (left, right) => return if left ≠ right then some (orderedIndexPair left right) else none
  | none => return none

/-- A round of the loop over the parts of a disjunct, with the pairs of modes and of outputs. -/
def badDisjunctStep (s : Arena) (processors : List SimpleProcessor)
    (pairs : Option (Nat × Nat) × Option (Nat × Nat)) (part : TermId) :
    Result (Option (Nat × Nat) × Option (Nat × Nat)) := do
  match ← bvEqPair s part with
  | some p =>
    match indexPair (simpleProcessorIndexByMode processors) p with
    | some (left, right) => return (some (orderedIndexPair left right), pairs.2)
    | none => return pairs
  | none =>
    let some p ← bvDiseqPair s part | return pairs
    match indexPair (simpleProcessorIndexByOut processors) p with
    | some (left, right) => return (pairs.1, some (orderedIndexPair left right))
    | none => return pairs

def simpleProcessorBadDisjunct (s : Arena) (term : TermId) (processors : List SimpleProcessor) :
    Result (Option (Nat × Nat)) := do
  let parts ← collectBoolAndConjuncts s term
  if parts.length ≠ 2 then return none
  match ← parts.foldlM (badDisjunctStep s processors) (none, none) with
  | (some modePair, some outPair) =>
    return if modePair = outPair ∧ modePair.1 ≠ modePair.2 then some modePair else none
  | _ => return none

/-- The loop over the conjuncts, with the pairs that were asserted so far. -/
def finalDisjunctionLoop (s : Arena) (processors : List SimpleProcessor) :
    (leaves : List TermId) → (modePairs outPairs : List (Nat × Nat)) → Result Bool
  | [], modePairs, outPairs => return modePairs.any (outPairs.contains ·)
  | leaf :: leaves, modePairs, outPairs => do
    let disjuncts ← collectBoolOrLeaves s leaf
    let matchedAll ← disjuncts.allM fun disjunct => do
      return (← simpleProcessorBadDisjunct s disjunct processors).isSome
    if disjuncts ≠ [] ∧ matchedAll then return true
    let modePair ← simpleProcessorModePair s leaf processors
    let outPair ← simpleProcessorOutDisequalityPair s leaf processors
    finalDisjunctionLoop s processors leaves (modePairs ++ modePair.toList)
      (outPairs ++ outPair.toList)

def hasSimpleProcessorFinalDisjunction (s : Arena) (leaves : List TermId)
    (processors : List SimpleProcessor) : Result Bool :=
  finalDisjunctionLoop s processors leaves [] []

/-! ## The definitions of a processor -/

/-- A round of the loop of `branch_matches_processor_decode` over the operands. -/
def operandIsDecoded (s : Arena) (parts operators : List TermId) (wordWidth : Nat)
    (operandsAreOne : Bool) (opr : TermId) (index : Nat) : Result Bool := do
  if operandsAreOne then
    parts.anyM fun part => (matchesBvEqConst s part opr 1 wordWidth).unwrapOr false
  else
    let operator ← expect operators[index]?
    parts.anyM fun part => (matchesBvEqPair s part opr operator).unwrapOr false

def branchMatchesProcessorDecode (s : Arena) (branch bit : TermId) (bitValue : Bool)
    (processor : SimpleProcessor) (operators : List TermId) (operandsAreOne : Bool) :
    Result Bool := do
  let parts ← collectBoolAndConjuncts s branch
  if parts.length ≠ operators.length then return false
  let found ← parts.anyM fun part =>
    (matchesBvEqConst s part bit bitValue.toUInt64 1).unwrapOr false
  if !found then return false
  let wordWidth ← s.expectBv (← expect operators[0]?) "simple processor operator"
  (processor.oprs.zipIdx.drop 1).allM fun (opr, index) =>
    operandIsDecoded s parts operators wordWidth operandsAreOne opr index

def matchesSimpleProcessorDecoder (s : Arena) (term : TermId) (processor : SimpleProcessor)
    (opcode : TermId) (operators : List TermId) (inverse : Bool) : Result Bool := do
  let .boolIte cond136 branch136 rest137 ← kind s term | return false
  if !(← matchesBvEqConst s cond136 opcode 136 8) then return false
  let .boolIte cond137 branch137 rest138 ← kind s rest137 | return false
  if !(← matchesBvEqConst s cond137 opcode 137 8) then return false
  let .boolIte cond138 branch138 branchDefault ← kind s rest138 | return false
  if !(← matchesBvEqConst s cond138 opcode 138 8) then return false
  let bit := if inverse then processor.deciFunc else processor.decFunc
  branchMatchesProcessorDecode s branch136 bit true processor operators false <&&>
    branchMatchesProcessorDecode s branch137 bit false processor operators false <&&>
    branchMatchesProcessorDecode s branch138 bit true processor operators true <&&>
    branchMatchesProcessorDecode s branchDefault bit false processor operators true

def hasSimpleProcessorDecoder (s : Arena) (leaves : List TermId) (processor : SimpleProcessor)
    (opcode : TermId) (operators : List TermId) (inverse : Bool) : Result Bool :=
  leaves.anyM fun leaf => matchesSimpleProcessorDecoder s leaf processor opcode operators inverse

def simpleProcessorNormalFields (processor : SimpleProcessor) : Result (List TermId) := do
  let split ← subU processor.index 1
  let first ← slice processor.oprs 0 split
  let second ← slice processor.oprs split processor.oprs.length
  return first ++ processor.decFunc :: second

def simpleProcessorReverseFields (processor : SimpleProcessor) : Result (List TermId) := do
  let split ← addU 64 (← subU processor.oprs.length processor.index) 1
  let second ← slice processor.oprs split processor.oprs.length
  let first ← slice processor.oprs 0 split
  return second.reverse ++ processor.deciFunc :: first.reverse

def collectConcatFields (s : Arena) (term : TermId) : Result (List TermId) :=
  collect (·.bvConcat?) s (term + 1) term

def matchesEqToConcat (s : Arena) (term target : TermId) (expectedFields : List TermId) :
    Result Bool := do
  let some (a, b) ← bvEqPair s term | return false
  let some expr := if a = target then some b else if b = target then some a else none
    | return false
  return (← collectConcatFields s expr) = expectedFields

def matchesSimpleProcessorPackDefinition (s : Arena) (term : TermId)
    (processor : SimpleProcessor) : Result Bool := do
  let .boolIte cond thenValue elseValue ← kind s term | return false
  matchesModeZero s cond processor.mode <&&>
    (do matchesEqToConcat s thenValue processor.decode (← simpleProcessorNormalFields processor)) <&&>
    (do matchesEqToConcat s elseValue processor.decode (← simpleProcessorReverseFields processor))

def hasSimpleProcessorPackDefinition (s : Arena) (leaves : List TermId)
    (processor : SimpleProcessor) : Result Bool :=
  leaves.anyM fun leaf => matchesSimpleProcessorPackDefinition s leaf processor

/-- The loop of `field_slices`, which starts with nothing above it. -/
def fieldSlicesLoop (s : Arena) : (nextHigh : Nat) → (fields : List TermId) →
    (slices : List (TermId × Nat × Nat)) → Result (List (TermId × Nat × Nat))
  | nextHigh, [], slices => return if nextHigh ≠ 0 then [] else slices
  | nextHigh, field :: fields, slices => do
    let width ← s.expectBv field "simple processor packed field"
    if width > nextHigh then return []
    let high ← subU nextHigh 1
    let low ← subU nextHigh width
    fieldSlicesLoop s low fields (slices ++ [(field, high, low)])

def fieldSlices (s : Arena) (packed : TermId) (fields : List TermId) :
    Result (List (TermId × Nat × Nat)) := do
  let nextHigh ← s.expectBv packed "simple processor packed value"
  fieldSlicesLoop s nextHigh fields []

/-- The variable that a field is unpacked to. -/
def unpackTarget (processor : SimpleProcessor) (funcField field : TermId) :
    Result (Option TermId) := do
  if field = funcField then return some processor.func
  match processor.oprs.findIdx? (· == field) with
  | some index => return some (← expect processor.ops[index]?)
  | none => return none

def branchMatchesProcessorUnpack (s : Arena) (branch : TermId) (processor : SimpleProcessor)
    (fields : List TermId) (funcField : TermId) : Result Bool := do
  let parts ← collectBoolAndConjuncts s branch
  if parts.length ≠ fields.length then return false
  let slices ← fieldSlices s processor.decode fields
  slices.allM fun (field, high, low) => do
    let some target ← unpackTarget processor funcField field | return false
    parts.anyM fun part =>
      (matchesBvEqExtract s part target processor.decode high low).unwrapOr false

def matchesSimpleProcessorUnpackDefinition (s : Arena) (term : TermId)
    (processor : SimpleProcessor) : Result Bool := do
  let .boolIte cond thenValue elseValue ← kind s term | return false
  matchesModeZero s cond processor.mode <&&>
    (do branchMatchesProcessorUnpack s thenValue processor
          (← simpleProcessorNormalFields processor) processor.decFunc) <&&>
    (do branchMatchesProcessorUnpack s elseValue processor
          (← simpleProcessorReverseFields processor) processor.deciFunc)

def hasSimpleProcessorUnpackDefinition (s : Arena) (leaves : List TermId)
    (processor : SimpleProcessor) : Result Bool :=
  leaves.anyM fun leaf => matchesSimpleProcessorUnpackDefinition s leaf processor

inductive SimpleProcessorOp where
  | add
  | or

def SimpleProcessorOp.split : SimpleProcessorOp → NodeKind → Option (TermId × TermId)
  | .add => (·.bvAdd?)
  | .or => (·.bvOr?)

def collectSimpleProcessorOpTerms (s : Arena) (term : TermId) (op : SimpleProcessorOp) :
    Result (List TermId) :=
  collect op.split s (term + 1) term

def matchesOutputExpression (s : Arena) (term : TermId) (processor : SimpleProcessor)
    (op : SimpleProcessorOp) : Result Bool := do
  let some (a, b) ← bvEqPair s term | return false
  let some expr := if a = processor.out then some b else if b = processor.out then some a else none
    | return false
  let actual ← collectSimpleProcessorOpTerms s expr op
  return actual.insertionSort (· ≤ ·) = processor.ops.insertionSort (· ≤ ·)

def matchesSimpleProcessorOutputDefinition (s : Arena) (term : TermId)
    (processor : SimpleProcessor) : Result Bool := do
  let .boolIte cond thenValue elseValue ← kind s term | return false
  matchesBvEqConst s cond processor.func 1 1 <&&>
    matchesOutputExpression s thenValue processor .add <&&>
    matchesOutputExpression s elseValue processor .or

def hasSimpleProcessorOutputDefinition (s : Arena) (leaves : List TermId)
    (processor : SimpleProcessor) : Result Bool :=
  leaves.anyM fun leaf => matchesSimpleProcessorOutputDefinition s leaf processor

/-! ## The pass -/

/-- The tests of a processor before those that read its number. -/
def processorDecodes (s : Arena) (leaves : List TermId) (opcode : TermId)
    (operators : List TermId) (processor : SimpleProcessor) : Result Bool := do
  let opr ← expect processor.oprs[0]?
  let operator ← expect operators[0]?
  hasBvEqLeaf s leaves opr operator <&&>
    hasSimpleProcessorDecoder s leaves processor opcode operators false <&&>
    hasSimpleProcessorDecoder s leaves processor opcode operators true

/-- The body of the loop over the processors. -/
def processorMatches (s : Arena) (leaves : List TermId) (opcode : TermId)
    (operators : List TermId) (processor : SimpleProcessor) : Result Bool :=
  processorDecodes s leaves opcode operators processor <&&>
    hasSimpleProcessorPackDefinition s leaves processor <&&>
    hasSimpleProcessorUnpackDefinition s leaves processor <&&>
    hasSimpleProcessorOutputDefinition s leaves processor

def hasSimpleProcessorEquivalenceContradiction (q : Query) : Result Bool := do
  if q.assumptions ≠ [] ∨ q.arena.nodes.length > 200000 then return false
  let some found ← collectSimpleProcessorVars q.arena | return false
  if found.processors.length < 2 ∨ found.operators.length < 2 then return false
  let leaves ← conjuncts q
  if !(← hasSimpleProcessorFinalDisjunction q.arena leaves found.processors) then return false
  found.processors.allM (processorMatches q.arena leaves found.opcode found.operators)

end Shortcuts
end Qfbv
end SmtServer
