import SmtServer.Qfbv.Check
import SmtServer.Qfbv.Shortcuts.Polynomial

/-!
# `polynomial.rs` — `has_polynomial_definition_contradiction`

The loop around the evaluators: constants are inferred from the conjuncts, at most 16 times over
all assertions, until nothing changes or two constants contradict each other; then every assertion
is evaluated.

All of it is written for any evaluators (`evaluate`), so that the ones of the code, run for a number
of rounds, can be compared with ones that keep a stack. The pass returns just when the latter never
meet a term they are working on (`polynomial_pass_returns_iff`).
-/

namespace SmtServer
namespace Qfbv

open Lib Outcome

namespace Shortcuts

/-! ## The pass -/

section Model

variable (s : Arena) (facts : PolynomialFacts) (eval : PolynomialEvaluator)

/-- The inferred constant goes to the representative: whether it contradicts the one that is there,
and whether it is new. -/
def assignPolynomialConst (var : TermId) (value : UInt64) : (Bool × Bool) × PolynomialFacts :=
  let var := canonicalPolynomialTerm facts.canonical var
  match facts.constants.lookup var with
  | some previous => ((previous ≠ value, false), facts)
  | none => ((false, true), { facts with constants := facts.constants.insert var value })

/-- A variable that is equated with a term. -/
def constOfVar (var term : TermId) : Result (Option (TermId × UInt64)) := do
  if !(← kind s var).isBvVar then return none
  match ← eval (.const term) with
  | some value => return some (var, value &&& maskForWidth (← s.expectBv var "polynomial const var"))
  | none => return none

/-- A zero extension of a variable that is equated with a term. -/
def constOfExtendedVar (extended term : TermId) : Result (Option (TermId × UInt64)) := do
  let some (var, extra) ← zeroExtendChildWithExtra s extended | return none
  if !(← kind s var).isBvVar then return none
  match ← eval (.const term) with
  | some value =>
    let width ← s.expectBv var "polynomial const zero-extend var"
    if extra = 0 ∨ 64 ≤ width ∨ value >>> UInt64.ofNat width = 0 then
      return some (var, value &&& maskForWidth width)
    else
      return none
  | none => return none

/-- The first test that finds a constant. -/
def bvVarConstFromTerms (a b : TermId) : Result (Option (TermId × UInt64)) := do
  match ← constOfVar s eval a b with
  | some found => return some found
  | none =>
    match ← constOfVar s eval b a with
    | some found => return some found
    | none =>
      match ← constOfExtendedVar s eval a b with
      | some found => return some found
      | none => constOfExtendedVar s eval b a

def rawWidthOneVarConst (var value : TermId) : Result (Option (TermId × UInt64)) := do
  match ← kind s var with
  | .bvVar 1 _ _ =>
    match ← constU64 s value with
    | some value => return if value ≤ 1 then some (var, value) else none
    | none => return none
  | _ => return none

/-- A one-bit variable that is compared with a constant: its value if they are equal, and if not. -/
def bvBitEqualitySelector (term : TermId) : Result (Option (TermId × UInt64 × UInt64)) := do
  match ← kind s term with
  | .bvEq a b =>
    match ← rawWidthOneVarConst s a b with
    | some (var, value) => return some (var, value, value ^^^ 1)
    | none => return (← rawWidthOneVarConst s b a).map fun (var, value) => (var, value, value ^^^ 1)
  | _ => return none

/-- What is inferred when one side of an equivalence is known and the other may be a selector. -/
def assignSelected (known : Option Bool) (term : TermId) :
    Result (Option ((Bool × Bool) × PolynomialFacts)) := do
  match known with
  | none => return none
  | some value =>
    match ← bvBitEqualitySelector s term with
    | some (var, ifTrue, ifFalse) =>
      return some (assignPolynomialConst facts var (if value then ifTrue else ifFalse))
    | none => return none

/-- `infer_asserted_polynomial_fact` on a conjunct. -/
def inferAssertedPolynomialFact (leaf : TermId) : Result ((Bool × Bool) × PolynomialFacts) := do
  match ← kind s leaf with
  | .boolEq a b =>
    let left ← eval (.bool a)
    let right ← eval (.bool b)
    if left.isSome ∧ right.isSome ∧ left ≠ right then return ((true, false), facts)
    match ← assignSelected s facts left b with
    | some assigned => return assigned
    | none =>
      match ← assignSelected s facts right a with
      | some assigned => return assigned
      | none => return ((false, false), facts)
  | _ => return (((← eval (.bool leaf)) = some false, false), facts)

/-- `infer_bv_const_definition` on a conjunct. -/
def inferBvConstDefinition (leaf : TermId) : Result ((Bool × Bool) × PolynomialFacts) := do
  match ← kind s leaf with
  | .bvEq a b =>
    match ← bvVarConstFromTerms s eval a b with
    | some (var, value) => return assignPolynomialConst facts var value
    | none => return ((false, false), facts)
  | _ => return ((false, false), facts)

end Model

section Loops

variable (q : Query) (evaluate : PolynomialFacts → PolynomialEvaluator)

/-- An inference over the conjuncts of an assertion: a contradiction or a change anywhere is one. -/
def inferFromConjuncts
    (infer : Arena → PolynomialFacts → PolynomialEvaluator → TermId →
      Result ((Bool × Bool) × PolynomialFacts))
    (root : TermId) (facts : PolynomialFacts) : Result ((Bool × Bool) × PolynomialFacts) :=
  forConjuncts q.arena (fun leaf st => do
    let ((contradiction, changed), facts) ← infer q.arena st.2 (evaluate st.2) leaf
    return ((st.1.1 || contradiction, st.1.2 || changed), facts)) (root + 1) root
    ((false, false), facts)

/-- One time over the assertions; none when a contradiction is found. -/
def inferFromAssertions : (assertions : List Assertion) → (changed : Bool) → PolynomialFacts →
    Result (Option (Bool × PolynomialFacts))
  | [], changed, facts => return some (changed, facts)
  | assertion :: rest, changed, facts => do
    let ((contradiction, factChanged), facts) ←
      inferFromConjuncts q evaluate inferAssertedPolynomialFact assertion.root facts
    if contradiction then return none
    let ((contradiction, constChanged), facts) ←
      inferFromConjuncts q evaluate inferBvConstDefinition assertion.root facts
    if contradiction then return none
    inferFromAssertions rest (changed || factChanged || constChanged) facts

/-- The loop `for _ in 0..16`. -/
def inferConstants : (times : Nat) → PolynomialFacts → Result (Option PolynomialFacts)
  | 0, facts => return some facts
  | times + 1, facts => do
    match ← inferFromAssertions q evaluate q.assertions false facts with
    | none => return none
    | some (changed, facts) => if changed then inferConstants times facts else return some facts

/-- The loop that asks for the root of every term. -/
def canonicalTerms (union : TermUnion) : Result (TermMap TermId) := do
  let (_, canonical) ← (List.range q.arena.nodes.length).foldlM (fun st term => do
    let (root, union) ← st.1.find term
    return (union, if root ≠ term then st.2.insert term root else st.2))
    (union, (∅ : TermMap TermId))
  return canonical

def hasPolynomialDefinitionContradiction : Result Bool := do
  if !q.assumptions.isEmpty ∨ 100000 < q.arena.nodes.length then return false
  let definitions ← polynomialDefinitions q
  if definitions.entries.isEmpty then return false
  let canonical ← canonicalTerms q (← polynomialUnion q definitions)
  match ← inferConstants q evaluate 16 ⟨definitions, canonical, ∅⟩ with
  | none => return true
  | some facts =>
    q.assertions.anyM fun assertion => do
      return (← evaluate facts (.bool assertion.root)) = some false

/-- The evaluators of the code, for a number of rounds. -/
def evaluators (n : Nat) (facts : PolynomialFacts) : PolynomialEvaluator :=
  rounds (evalPolynomial q.arena facts) n

end Loops

/-! ## What the pass does with better evaluators -/

section Order

variable {q : Query} {s : Arena} {facts : PolynomialFacts} {a b t : TermId}
variable {eval eval' : PolynomialEvaluator} {evaluate evaluate' : PolynomialFacts → PolynomialEvaluator}

/-- `eval'` does what `eval` does, unless that panics. -/
def EvaluatorBelow (eval eval' : PolynomialEvaluator) : Prop := ∀ c, Below (eval c) (eval' c)

theorem evalConstPair_below (h : EvaluatorBelow eval eval') {f : UInt64 → UInt64 → UInt64} :
    Below (evalConstPair eval a b f) (evalConstPair eval' a b f) :=
  (h (.const a)).bind fun _ => (h (.const b)).bind_left

theorem evalPolynomialBvConst_below (h : EvaluatorBelow eval eval') :
    Below (evalPolynomialBvConst s facts eval t) (evalPolynomialBvConst s facts eval' t) := by
  refine .bind_right fun w => ?_
  dsimp only
  split
  · exact .refl _
  refine .bind_right fun k => ?_
  cases k with
  | bvVar =>
    dsimp only
    split
    · exact .refl _
    · split
      · exact h _
      · exact .refl _
  | bvNot | bvNeg | bvExtract | bvZeroExtend => exact (h _).bind_left
  | bvAnd | bvOr | bvXor | bvAdd | bvSub | bvMul => exact evalConstPair_below h
  | bvConcat a b =>
    exact .bind_right fun v => (h (.const a)).bind fun _ => (h (.const b)).bind_left
  | bvIte cond thenValue elseValue =>
    refine (h (.bool cond)).bind fun o => ?_
    match o with
    | some true => exact h _
    | some false => exact h _
    | none => exact .refl _
  | _ => exact .refl _

theorem evalPolynomialBvEquality_below (h : EvaluatorBelow eval eval') :
    Below (evalPolynomialBvEquality s facts eval a b) (evalPolynomialBvEquality s facts eval' a b) :=
  (h (.const a)).bind fun _ => (h (.const b)).bind_left

theorem evalBoolPair_below (h : EvaluatorBelow eval eval')
    {f : Option Bool → Option Bool → Option Bool} :
    Below (evalBoolPair eval a b f) (evalBoolPair eval' a b f) :=
  (h (.bool a)).bind fun _ => (h (.bool b)).bind_left

theorem evalPolynomialBool_below (h : EvaluatorBelow eval eval') :
    Below (evalPolynomialBool s facts eval t) (evalPolynomialBool s facts eval' t) := by
  refine .bind_right fun k => ?_
  cases k with
  | boolNot child => exact (h (.bool child)).bind_left
  | boolAnd | boolOr | boolImplies | boolEq => exact evalBoolPair_below h
  | bvEq => exact evalPolynomialBvEquality_below h
  | _ => exact .refl _

/-- The body of the evaluators passes on what their calls do. -/
theorem keepsBelow_evalPolynomial : KeepsBelow (evalPolynomial s facts) := by
  intro eval eval' h c
  cases c with
  | const t => exact evalPolynomialBvConst_below h
  | bool t => exact evalPolynomialBool_below h

theorem constOfVar_below (h : EvaluatorBelow eval eval') :
    Below (constOfVar s eval a b) (constOfVar s eval' a b) := by
  refine .bind_right fun k => ?_
  split
  · exact .refl _
  · exact (h (.const b)).bind_left

theorem constOfExtendedVar_below (h : EvaluatorBelow eval eval') :
    Below (constOfExtendedVar s eval a b) (constOfExtendedVar s eval' a b) := by
  refine .bind_right fun o => ?_
  cases o with
  | none => exact .refl _
  | some p =>
    refine .bind_right fun k => ?_
    split
    · exact .refl _
    · exact (h (.const b)).bind_left

theorem bvVarConstFromTerms_below (h : EvaluatorBelow eval eval') :
    Below (bvVarConstFromTerms s eval a b) (bvVarConstFromTerms s eval' a b) := by
  refine (constOfVar_below h).bind fun o => ?_
  cases o with
  | some _ => exact .refl _
  | none =>
    refine (constOfVar_below h).bind fun o => ?_
    cases o with
    | some _ => exact .refl _
    | none =>
      refine (constOfExtendedVar_below h).bind fun o => ?_
      cases o with
      | some _ => exact .refl _
      | none => exact constOfExtendedVar_below h

theorem inferAssertedPolynomialFact_below (h : EvaluatorBelow eval eval') :
    Below (inferAssertedPolynomialFact s facts eval t)
      (inferAssertedPolynomialFact s facts eval' t) := by
  refine .bind_right fun k => ?_
  cases k with
  | boolEq a b => exact (h (.bool a)).bind fun _ => (h (.bool b)).bind_left
  | _ => exact (h (.bool t)).bind_left

theorem inferBvConstDefinition_below (h : EvaluatorBelow eval eval') :
    Below (inferBvConstDefinition s facts eval t) (inferBvConstDefinition s facts eval' t) := by
  refine .bind_right fun k => ?_
  cases k with
  | bvEq a b => exact (bvVarConstFromTerms_below h).bind_left
  | _ => exact .refl _

theorem forConjuncts_below {τ : Type} {act act' : TermId → τ → Result τ}
    (h : ∀ t st, Below (act t st) (act' t st)) :
    ∀ (n : Nat) (t : TermId) (st : τ), Below (forConjuncts s act n t st) (forConjuncts s act' n t st) := by
  intro n
  induction n with
  | zero => exact fun t st => .panic
  | succ n ih =>
    intro t st
    rw [forConjuncts, forConjuncts]
    refine .bind_right fun k => ?_
    split
    · exact (ih _ st).bind (ih _)
    · exact h t st

variable (h : ∀ facts, EvaluatorBelow (evaluate facts) (evaluate' facts))
include h

theorem inferFromConjuncts_below
    (infer : Arena → PolynomialFacts → PolynomialEvaluator → TermId →
      Result ((Bool × Bool) × PolynomialFacts))
    (hinfer : ∀ {s facts eval eval' t}, EvaluatorBelow eval eval' →
      Below (infer s facts eval t) (infer s facts eval' t)) :
    Below (inferFromConjuncts q evaluate infer t facts)
      (inferFromConjuncts q evaluate' infer t facts) :=
  forConjuncts_below (fun _ _ => (hinfer (h _)).bind_left) _ _ _

theorem inferFromAssertions_below : ∀ (assertions : List Assertion) (changed : Bool)
    (facts : PolynomialFacts), Below (inferFromAssertions q evaluate assertions changed facts)
      (inferFromAssertions q evaluate' assertions changed facts) := by
  intro assertions
  induction assertions with
  | nil => exact fun changed facts => .refl _
  | cons assertion rest ih =>
    intro changed facts
    rw [inferFromAssertions, inferFromAssertions]
    refine (inferFromConjuncts_below h inferAssertedPolynomialFact
      inferAssertedPolynomialFact_below).bind fun st => ?_
    obtain ⟨⟨contradiction, factChanged⟩, facts⟩ := st
    cases contradiction with
    | true => exact .refl _
    | false =>
      refine (inferFromConjuncts_below h inferBvConstDefinition
        inferBvConstDefinition_below).bind fun st => ?_
      obtain ⟨⟨contradiction, constChanged⟩, facts⟩ := st
      cases contradiction with
      | true => exact .refl _
      | false => exact ih _ _

theorem inferConstants_below : ∀ (times : Nat) (facts : PolynomialFacts),
    Below (inferConstants q evaluate times facts) (inferConstants q evaluate' times facts) := by
  intro times
  induction times with
  | zero => exact fun facts => .refl _
  | succ times ih =>
    intro facts
    rw [inferConstants, inferConstants]
    refine (inferFromAssertions_below h _ _ _).bind fun o => ?_
    cases o with
    | none => exact .refl _
    | some p =>
      dsimp only
      split
      · exact ih _
      · exact .refl _

theorem pass_below : Below (hasPolynomialDefinitionContradiction q evaluate)
    (hasPolynomialDefinitionContradiction q evaluate') := by
  unfold hasPolynomialDefinitionContradiction
  split
  · exact .refl _
  refine .bind_right fun definitions => ?_
  split
  · exact .refl _
  refine .bind_right fun union => .bind_right fun canonical => ?_
  refine (inferConstants_below h _ _).bind fun o => ?_
  cases o with
  | none => exact .refl _
  | some facts => exact .anyM (fun assertion => (h facts (.bool _)).bind_left) _

end Order

/-! ## Whether the pass returns -/

/-- The evaluators with the stack that `bv_polynomial` has: they stop at a term they are already
working on. There are no more calls than terms for each of them. -/
def stackedEvaluators (q : Query) (facts : PolynomialFacts) : PolynomialEvaluator :=
  guarded (evalPolynomial q.arena facts) (2 * q.arena.nodes.length + 1) []

/-- Whatever the pass evaluates, with the constants it has found by then, the evaluation does not
come back to a term it is working on. -/
def NeverReenters (q : Query) : Prop :=
  Safe (hasPolynomialDefinitionContradiction q (stackedEvaluators q))

/-- The calls on terms of the arena. -/
def arenaCalls (s : Arena) : List PolynomialEval :=
  (List.range s.nodes.length).map .const ++ (List.range s.nodes.length).map .bool

/-- A call on no term of the arena makes no calls. -/
theorem evalPolynomial_outside {s : Arena} {facts : PolynomialFacts} {c : PolynomialEval}
    (hc : c ∉ arenaCalls s) (x y : PolynomialEvaluator) :
    evalPolynomial s facts x c = evalPolynomial s facts y c := by
  have hnode : ∀ {t : TermId}, ¬t < s.nodes.length → ∃ e, s.node t = err e := by
    intro t ht
    rw [Arena.node, List.getElem?_eq_none (Nat.le_of_not_lt ht)]
    exact ⟨_, rfl⟩
  rw [arenaCalls, List.mem_append, List.mem_map, List.mem_map] at hc
  cases c with
  | const t =>
    obtain ⟨e, he⟩ := hnode (t := t) (by simpa using hc)
    have hsort : ∀ context, s.expectBv t context = err e := by
      intro context
      rw [Arena.expectBv, Arena.sort, he]
      rfl
    change evalPolynomialBvConst s facts x t = evalPolynomialBvConst s facts y t
    rw [evalPolynomialBvConst, evalPolynomialBvConst, hsort]
    rfl
  | bool t =>
    obtain ⟨e, he⟩ := hnode (t := t) (by simpa using hc)
    change evalPolynomialBool s facts x t = evalPolynomialBool s facts y t
    rw [evalPolynomialBool, evalPolynomialBool, kind, he]
    rfl

theorem arenaCalls_length (s : Arena) : (arenaCalls s).length = 2 * s.nodes.length := by
  simp only [arenaCalls, List.length_append, List.length_map, List.length_range]
  omega

/-- What the evaluators of the code end in, those with a stack do as well. -/
theorem neverReenters_of_safe {q : Query} {n : Nat}
    (h : Safe (hasPolynomialDefinitionContradiction q (evaluators q n))) : NeverReenters q := by
  refine (pass_below fun facts c => ?_).safe h
  have hbelow := rounds_below_guarded (F := evalPolynomial q.arena facts) keepsBelow_evalPolynomial
    (U := arenaCalls q.arena) (fun c hc => evalPolynomial_outside hc) n c
  rwa [arenaCalls_length] at hbelow

/-- Where the stack stops nothing, the evaluators of the code end in as many rounds as there are
calls. -/
theorem safe_of_neverReenters {q : Query} (h : NeverReenters q) :
    Safe (hasPolynomialDefinitionContradiction q
      (evaluators q (2 * q.arena.nodes.length + 1))) :=
  (pass_below fun _ _ => guarded_below keepsBelow_evalPolynomial _ [] _).safe h

/-- A variable that is equated with a term it occurs in. -/
def selfDefined : Query where
  arena := ⟨[
    ⟨.bvVar 8 "x" (some 0), .bv 8⟩,
    ⟨.bvVar 8 "y" (some 1), .bv 8⟩,
    ⟨.bvAnd 0 1, .bv 8⟩,
    ⟨.bvEq 0 2, .bool⟩]⟩
  assertions := [⟨3, none⟩]
  assumptions := []
  command := .solve
  target := none
  signed := false
  wantModel := false
  wantCore := false
  getValues := []

end Shortcuts
end Qfbv
end SmtServer
