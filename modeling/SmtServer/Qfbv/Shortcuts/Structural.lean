import SmtServer.Qfbv.Shortcuts.Matching

/-!
# `structural.rs` — terms of one shape

An asserted equation defines a variable, and so does a choice between two conjunctions that both
define it. The pass writes every term as a signature: the operator and the signatures of its
operands, where a defined variable has the signature of its definition and any other variable stands
for its class. Signatures are numbered, and two terms with one number have one value.

Definitions may run in circles. A term that is met again while its signature is being made, or that
lies too deep, stands for itself, like a variable without a definition; what is made on the way is
kept for later (`memo`) all the same.
-/

namespace SmtServer
namespace Qfbv

open Lib Outcome

namespace NodeKind

/-- `matches!(kind, NodeKind::BoolVar { .. })`. -/
def isBoolVar : NodeKind → Bool
  | .boolVar .. => true
  | _ => false

end NodeKind

namespace Shortcuts

inductive BvDefinition where
  | term (term : TermId)
  | ite (cond : TermId) (thenValue elseValue : BvDefinition)

/-- The place of a signature in the interner. -/
abbrev SigId := Nat

inductive StructuralSigOp where
  | bvNot
  | bvNeg
  | bvAnd
  | bvOr
  | bvXor
  | bvAdd
  | bvSub
  | bvMul
  | bvUDiv
  | bvURem
  | bvSDiv
  | bvSRem
  | bvSMod
  | bvShl
  | bvLShr
  | bvAShr
  | bvExtract (high low : Nat)
  | bvConcat
  | bvZeroExtend (extra : Nat)
  | bvSignExtend (extra : Nat)
  | bvRepeat (count : Nat)
  | bvRotateLeft (amount : Nat)
  | bvRotateRight (amount : Nat)
  | bvIte
  | bvSelect
  | boolNot
  | boolAnd
  | boolOr
  | boolImplies
  | boolEq
  | boolIte
  | bvEq
  | bvUlt
  | bvUle
  | bvSlt
  | bvSle
  | uAddOverflow
  | sAddOverflow
  | uSubOverflow
  | sSubOverflow
  | uMulOverflow
  | sMulOverflow
  | negOverflow
  | sDivOverflow
  deriving DecidableEq

inductive StructuralSigNode where
  | constBool (value : Bool)
  | constBv (width : Nat) (bytes : List UInt8)
  | freeVar (sort : TermSort) (term : TermId)
  | op (op : StructuralSigOp) (children : List SigId)
  deriving DecidableEq

/-- `structural_sig`'s state: the union-find, the interner, whose map from nodes to ids is the place
of a node in the list, and the memo. -/
structure SigState where
  union : TermUnion
  nodes : List StructuralSigNode
  memo : TermMap SigId

/-! ## Definitions -/

def bvVarTerm (s : Arena) (term : TermId) : Result Bool := do
  return (← kind s term).isBvVar

def boolVarTerm (s : Arena) (term : TermId) : Result Bool := do
  return (← kind s term).isBoolVar

def bvDefinitionIsBareVar (s : Arena) : BvDefinition → Result Bool
  | .term term => bvVarTerm s term
  | .ite .. => return false

/-- `out.entry(var).or_insert(definition)`. -/
def orInsert {α : Type} (out : TermMap α) (var : TermId) (definition : α) : TermMap α :=
  match out.lookup var with
  | some _ => out
  | none => out.insert var definition

def recordStructuralDefinition (s : Arena) (var : TermId) (definition : BvDefinition)
    (definitions : TermMap (Option BvDefinition)) : Result (TermMap (Option BvDefinition)) := do
  if !(← bvVarTerm s var) then return definitions
  if ← bvDefinitionIsBareVar s definition then return definitions
  return orInsert definitions var (some definition)

/-- The loop that joins what both branches of a choice define. -/
def mergeAssignments (cond : TermId) (thenAssignments elseAssignments out : TermMap BvDefinition) :
    TermMap BvDefinition :=
  thenAssignments.entries.foldl (fun out e =>
    match elseAssignments.lookup e.1 with
    | some elseDefinition => orInsert out e.1 (.ite cond e.2 elseDefinition)
    | none => out) out

/-- Children come first, so a term has no more rounds in it than its id. -/
def collectImpliedBvAssignments (s : Arena) :
    (rounds : Nat) → (term : TermId) → TermMap BvDefinition → Result (TermMap BvDefinition)
  | 0, _, _ => .panic
  | rounds + 1, term, out => do
    match ← kind s term with
    | .bvEq a b =>
      if (← bvVarTerm s a) && !(← bvVarTerm s b) then return orInsert out a (.term b)
      if (← bvVarTerm s b) && !(← bvVarTerm s a) then return orInsert out b (.term a)
      return out
    | .boolAnd a b =>
      collectImpliedBvAssignments s rounds b (← collectImpliedBvAssignments s rounds a out)
    | .boolIte cond thenValue elseValue =>
      let thenAssignments ← collectImpliedBvAssignments s rounds thenValue ∅
      let elseAssignments ← collectImpliedBvAssignments s rounds elseValue ∅
      return mergeAssignments cond thenAssignments elseAssignments out
    | _ => return out

abbrev StructuralDefinitions := TermMap (Option BvDefinition) × TermUnion

/-- The body of the arm for `BvEq`. -/
def collectEquation (s : Arena) (a b : TermId) (out : StructuralDefinitions) :
    Result StructuralDefinitions := do
  if (← bvVarTerm s a) && (← bvVarTerm s b) then return (out.1, ← out.2.union a b)
  let definitions ← recordStructuralDefinition s a (.term b) out.1
  let definitions ← recordStructuralDefinition s b (.term a) definitions
  return (definitions, out.2)

/-- `collect_structural_definitions` on a conjunct. -/
def collectStructuralDefinitions (s : Arena) (leaf : TermId) (out : StructuralDefinitions) :
    Result StructuralDefinitions := do
  match ← kind s leaf with
  | .bvEq a b => collectEquation s a b out
  | .boolEq a b =>
    if (← boolVarTerm s a) && (← boolVarTerm s b) then return (out.1, ← out.2.union a b)
    else return out
  | .boolIte .. =>
    let assignments ← collectImpliedBvAssignments s (leaf + 1) leaf ∅
    let definitions ← assignments.entries.foldlM (fun definitions e =>
      recordStructuralDefinition s e.1 e.2 definitions) out.1
    return (definitions, out.2)
  | _ => return out

/-- The loop over the assertions, as far as definitions go. -/
def structuralDefinitions (q : Query) : Result StructuralDefinitions :=
  forAllConjuncts q (collectStructuralDefinitions q.arena) (∅, .default)

/-- `definitions.into_iter().filter_map(..)`. -/
def keptDefinitions (definitions : TermMap (Option BvDefinition)) : Result (TermMap BvDefinition) :=
  Table.collect (fun _ definition => return definition) definitions

/-! ## Signatures -/

/-- The arms of `structural_sig`: what a node of a kind is written as. -/
inductive SigShape where
  /-- A variable that may have a definition. -/
  | bvVar
  | boolVar
  | const (node : StructuralSigNode)
  /-- The operands are sorted by their ids where the operator commutes. -/
  | op (op : StructuralSigOp) (children : List TermId) (commutative : Bool)

def sigShape : NodeKind → SigShape
  | .bvVar .. => .bvVar
  | .boolVar .. => .boolVar
  | .bvConst width bytes => .const (.constBv width bytes)
  | .boolConst value => .const (.constBool value)
  | .bvNot child => .op .bvNot [child] false
  | .bvNeg child => .op .bvNeg [child] false
  | .bvAnd a b => .op .bvAnd [a, b] true
  | .bvOr a b => .op .bvOr [a, b] true
  | .bvXor a b => .op .bvXor [a, b] true
  | .bvAdd a b => .op .bvAdd [a, b] true
  | .bvSub a b => .op .bvSub [a, b] false
  | .bvMul a b => .op .bvMul [a, b] true
  | .bvUDiv a b => .op .bvUDiv [a, b] false
  | .bvURem a b => .op .bvURem [a, b] false
  | .bvSDiv a b => .op .bvSDiv [a, b] false
  | .bvSRem a b => .op .bvSRem [a, b] false
  | .bvSMod a b => .op .bvSMod [a, b] false
  | .bvShl a b => .op .bvShl [a, b] false
  | .bvLShr a b => .op .bvLShr [a, b] false
  | .bvAShr a b => .op .bvAShr [a, b] false
  | .bvExtract child high low => .op (.bvExtract high low) [child] false
  | .bvConcat a b => .op .bvConcat [a, b] false
  | .bvZeroExtend child extra => .op (.bvZeroExtend extra) [child] false
  | .bvSignExtend child extra => .op (.bvSignExtend extra) [child] false
  | .bvRepeat child count => .op (.bvRepeat count) [child] false
  | .bvRotateLeft child amount => .op (.bvRotateLeft amount) [child] false
  | .bvRotateRight child amount => .op (.bvRotateRight amount) [child] false
  | .bvIte cond thenValue elseValue => .op .bvIte [cond, thenValue, elseValue] false
  | .bvSelect cases default =>
    .op .bvSelect (cases.flatMap (fun (selector, value) => [selector, value]) ++ [default]) false
  | .boolNot child => .op .boolNot [child] false
  | .boolAnd a b => .op .boolAnd [a, b] true
  | .boolOr a b => .op .boolOr [a, b] true
  | .boolImplies a b => .op .boolImplies [a, b] false
  | .boolEq a b => .op .boolEq [a, b] true
  | .boolIte cond thenValue elseValue => .op .boolIte [cond, thenValue, elseValue] false
  | .bvEq a b => .op .bvEq [a, b] true
  | .bvUlt a b => .op .bvUlt [a, b] false
  | .bvUle a b => .op .bvUle [a, b] false
  | .bvSlt a b => .op .bvSlt [a, b] false
  | .bvSle a b => .op .bvSle [a, b] false
  | .uAddOverflow a b => .op .uAddOverflow [a, b] true
  | .sAddOverflow a b => .op .sAddOverflow [a, b] true
  | .uSubOverflow a b => .op .uSubOverflow [a, b] false
  | .sSubOverflow a b => .op .sSubOverflow [a, b] false
  | .uMulOverflow a b => .op .uMulOverflow [a, b] true
  | .sMulOverflow a b => .op .sMulOverflow [a, b] true
  | .negOverflow child => .op .negOverflow [child] false
  | .sDivOverflow a b => .op .sDivOverflow [a, b] false

def maxSigNodes : Nat := 250000

/-- `StructuralSigInterner::intern`. -/
def internSig (node : StructuralSigNode) (st : SigState) : Option SigId × SigState :=
  match st.nodes.idxOf? node with
  | some id => (some id, st)
  | none =>
    if maxSigNodes ≤ st.nodes.length then (none, st)
    else (some st.nodes.length, { st with nodes := st.nodes ++ [node] })

def structuralFreeVarSig (s : Arena) (term : TermId) (st : SigState) :
    Result (Option SigId × SigState) := do
  let sort ← s.sort term
  let (root, union) ← st.union.find term
  return internSig (.freeVar sort root) { st with union }

/-- A call of `structural_sig`. -/
abbrev SigCall := TermId → SigState → Result (Option SigId × SigState)

/-- The signatures of the operands, if each has one. -/
def childSigs (recurse : SigCall) : List TermId → SigState → Result (Option (List SigId) × SigState)
  | [], st => return (some [], st)
  | child :: rest, st => do
    let (sig, st) ← recurse child st
    match sig with
    | none => return (none, st)
    | some id =>
      let (ids, st) ← childSigs recurse rest st
      return (ids.map (id :: ·), st)

/-- `structural_op_sig`, and with `commutative` `structural_binary_sig`. -/
def structuralOpSig (recurse : SigCall) (op : StructuralSigOp) (children : List TermId)
    (commutative : Bool) (st : SigState) : Result (Option SigId × SigState) := do
  let (ids, st) ← childSigs recurse children st
  match ids with
  | none => return (none, st)
  | some ids =>
    return internSig (.op op (if commutative then ids.insertionSort (· ≤ ·) else ids)) st

def structuralDefinitionSig (recurse : SigCall) :
    BvDefinition → SigState → Result (Option SigId × SigState)
  | .term term, st => recurse term st
  | .ite cond thenValue elseValue, st => do
    let (condId, st) ← recurse cond st
    let some condId := condId | return (none, st)
    let (thenId, st) ← structuralDefinitionSig recurse thenValue st
    let some thenId := thenId | return (none, st)
    let (elseId, st) ← structuralDefinitionSig recurse elseValue st
    let some elseId := elseId | return (none, st)
    return internSig (.op .bvIte [condId, thenId, elseId]) st

/-- The match of `structural_sig`. -/
def structuralShapeSig (s : Arena) (definitions : TermMap BvDefinition) (recurse : SigCall)
    (term : TermId) (st : SigState) : SigShape → Result (Option SigId × SigState)
  | .bvVar =>
    match definitions.lookup term with
    | some definition => structuralDefinitionSig recurse definition st
    | none => structuralFreeVarSig s term st
  | .boolVar => structuralFreeVarSig s term st
  | .const node => return internSig node st
  | .op op children commutative => structuralOpSig recurse op children commutative st

/-- `if let Some(id) = result { memo.insert(term, id); }`. -/
def remember (term : TermId) (result : Option SigId) (st : SigState) : SigState :=
  match result with
  | some id => { st with memo := st.memo.insert term id }
  | none => st

/-- The stack grows with every call and is looked at before the next, so that `258` rounds are
enough. -/
def structuralSig (s : Arena) (definitions : TermMap BvDefinition) :
    (rounds : Nat) → (stack : List TermId) → SigCall
  | 0, _, _, _ => .panic
  | rounds + 1, stack, term, st =>
    match st.memo.lookup term with
    | some id => return (some id, st)
    | none =>
      if 256 < stack.length ∨ term ∈ stack then structuralFreeVarSig s term st
      else do
        let shape := sigShape (← kind s term)
        let (result, st) ← structuralShapeSig s definitions
          (structuralSig s definitions rounds (term :: stack)) term st shape
        return (result, remember term result st)

/-- `structural_sig` with an empty stack. -/
def structuralSigOf (s : Arena) (definitions : TermMap BvDefinition) : SigCall :=
  structuralSig s definitions 258 []

/-! ## The pass -/

/-- The loop over the disequalities. -/
def anySameSig (sig : SigCall) : List BvPair → SigState → Result Bool
  | [], _ => return false
  | (a, b) :: rest, st => do
    let (left, st) ← sig a st
    match left with
    | none => anySameSig sig rest st
    | some left =>
      let (right, st) ← sig b st
      match right with
      | none => anySameSig sig rest st
      | some right => if left = right then return true else anySameSig sig rest st

def hasStructuralDefinitionContradiction (q : Query) : Result Bool := do
  if q.assumptions ≠ [] ∨ 300000 < q.arena.nodes.length then return false
  let (definitions, union) ← structuralDefinitions q
  let (_, disequalities) ← bvEqualitiesAndDisequalities q
  if definitions.entries = [] ∨ disequalities = [] then return false
  let definitions ← keptDefinitions definitions
  anySameSig (structuralSigOf q.arena definitions) disequalities ⟨union, [], ∅⟩

end Shortcuts
end Qfbv
end SmtServer
