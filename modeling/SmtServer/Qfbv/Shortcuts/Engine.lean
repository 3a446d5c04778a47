import SmtServer.Qfbv.Core
import SmtServer.Qfbv.Shortcuts.AffineByte
import SmtServer.Qfbv.Shortcuts.Arithmetic
import SmtServer.Qfbv.Shortcuts.Adder
import SmtServer.Qfbv.Shortcuts.Brummayer
import SmtServer.Qfbv.Shortcuts.Comparators
import SmtServer.Qfbv.Shortcuts.Congruence
import SmtServer.Qfbv.Shortcuts.Extensional
import SmtServer.Qfbv.Shortcuts.FavaroMba
import SmtServer.Qfbv.Shortcuts.Lfsr
import SmtServer.Qfbv.Shortcuts.OverflowGuards
import SmtServer.Qfbv.Shortcuts.PolynomialPass
import SmtServer.Qfbv.Shortcuts.Popcount
import SmtServer.Qfbv.Shortcuts.Shifters
import SmtServer.Qfbv.Shortcuts.SimpleProcessor
import SmtServer.Qfbv.Shortcuts.Structural
import SmtServer.Qfbv.Shortcuts.Successor
import SmtServer.Qfbv.Shortcuts.Witnesses

/-!
# `engine.rs` — trying the shortcuts

The passes that look for a contradiction are tried in order, then those that look for a witness. The
first that finds something answers the query: `Unsat`, or `Sat` without a model. Nothing is tried
when shortcuts are disabled, and no witness is looked for when a model is wanted.

The polynomial pass gets as many rounds for each of its evaluations as can be needed; it panics
where the code would never return.
-/

namespace SmtServer
namespace Qfbv
namespace Shortcuts

open Lib Outcome
open Solver (ShortcutHit)

structure ShortcutContext where
  wantModel : Bool
  wantCore : Bool
  varisatBudgeted : Bool
  validateSatWitnesses : Bool

structure UnsatPass where
  name : String
  run : Query → Result Bool

structure SatPass where
  name : String
  run : Query → ShortcutContext → Result Bool

def unsatPasses : List UnsatPass := [
  ⟨"direct_equality_disequality", hasDirectEqualityDisequalityContradiction⟩,
  ⟨"polynomial_definition", fun query => hasPolynomialDefinitionContradiction query
    (evaluators query (2 * query.arena.nodes.length + 1))⟩,
  ⟨"structural_definition", hasStructuralDefinitionContradiction⟩,
  ⟨"unsigned_successor", hasUnsignedSuccessorContradiction⟩,
  ⟨"shift_one_add", hasShiftOneAddContradiction⟩,
  ⟨"distinct_power_of_two_sum", hasDistinctPowerOfTwoSumContradiction⟩,
  ⟨"unsigned_multiplication_overflow_guard", hasUnsignedMultiplicationOverflowGuardContradiction⟩,
  ⟨"signed_division_multiply_overflow_guard", hasSignedDivisionMultiplyOverflowGuardContradiction⟩,
  ⟨"simple_processor_equivalence", hasSimpleProcessorEquivalenceContradiction⟩,
  ⟨"extensional_candidate", hasExtensionalCandidateContradiction⟩,
  ⟨"synchronized_lfsr", hasSynchronizedLfsrContradiction⟩,
  ⟨"log_slicing_shift", hasLogSlicingShiftContradiction⟩,
  ⟨"log_slicing_comparison", hasLogSlicingComparisonContradiction⟩,
  ⟨"log_slicing_adder", hasLogSlicingAdderContradiction⟩,
  ⟨"urem_remainder_fixed_point", hasUremRemainderFixedPointContradiction⟩,
  ⟨"favaro_mba_mul", hasFavaroMbaMulContradiction⟩,
  ⟨"yurichev_popcount", hasYurichevPopcountContradiction⟩,
  ⟨"brummayer_popcount", hasBrummayerPopcountContradiction⟩]

def unsignedSuccessorWraparoundSatPass (query : Query) (context : ShortcutContext) : Result Bool :=
  if context.wantModel then pure false
  else hasUnsignedSuccessorWraparoundWitness query context.validateSatWitnesses

/-- The test that the other witness passes begin with. -/
def withoutArtifacts (witness : Query → Result Bool) (query : Query) (context : ShortcutContext) :
    Result Bool :=
  if context.wantModel || context.wantCore || context.varisatBudgeted then pure false
  else witness query

def linearSliceSatPass : Query → ShortcutContext → Result Bool :=
  withoutArtifacts hasLinearSliceSatWitness

def affineByteSatPass : Query → ShortcutContext → Result Bool :=
  withoutArtifacts hasAffineByteSatWitness

def smallExplicitAssignmentSatPass : Query → ShortcutContext → Result Bool :=
  withoutArtifacts hasSmallExplicitAssignmentWitness

def constantAssignmentSatPass : Query → ShortcutContext → Result Bool :=
  withoutArtifacts hasConstantAssignmentWitness

def satPasses : List SatPass := [
  ⟨"unsigned_successor_wraparound", unsignedSuccessorWraparoundSatPass⟩,
  ⟨"linear_slice", linearSliceSatPass⟩,
  ⟨"affine_byte", affineByteSatPass⟩,
  ⟨"small_explicit_assignment", smallExplicitAssignmentSatPass⟩,
  ⟨"constant_assignment", constantAssignmentSatPass⟩]

/-- A loop over passes: the name of the first that finds something, and `none` also when the token
is cancelled. -/
def firstHit {α : Type} (config : Config) (name : α → String) (run : α → Result Bool) :
    List α → Result (Option String)
  | [] => pure none
  | pass :: rest => do
    if config.isCancelled then pure none
    else if ← run pass then pure (some (name pass))
    else firstHit config name run rest

/-- A cancelled loop ends the function, and so does the second loop, at once: its first round sees
the same token. -/
def trySolve (query : Query) (wantModel : Bool) (config : Config) : Result (Option ShortcutHit) := do
  if config.shortcutMode = .disabled then pure none
  else
    match ← firstHit config UnsatPass.name (fun pass => pass.run query) unsatPasses with
    | some passName => pure (some ⟨passName, .unsat⟩)
    | none =>
      let context : ShortcutContext := {
        wantModel
        wantCore := query.wantCore
        varisatBudgeted := decide (config.satBackend = .varisat) && config.budget.isSome
        validateSatWitnesses := decide (config.shortcutMode = .validateSatWitnesses) }
      let hit ← firstHit config SatPass.name (fun pass => pass.run query context) satPasses
      pure (hit.map fun passName => ⟨passName, .sat none⟩)

/-! ## What a hit is -/

variable {q : Query} {wantModel : Bool} {config : Config} {hit : ShortcutHit}

theorem trySolve_disabled (h : config.shortcutMode = .disabled) :
    trySolve q wantModel config = ok none := if_pos h

theorem firstHit_head {α : Type} {name : α → String} {run : α → Result Bool} {pass : α}
    {rest : List α} (hcancel : ¬config.isCancelled = true) (h : run pass = ok true) :
    firstHit config name run (pass :: rest) = ok (some (name pass)) := by
  rw [firstHit, if_neg hcancel, h]
  rfl

/-- The loop names a pass that found something. -/
theorem of_firstHit {α : Type} {name : α → String} {run : α → Result Bool} {passes : List α}
    {found : String} (h : firstHit config name run passes = ok (some found)) :
    ∃ pass ∈ passes, found = name pass ∧ run pass = ok true := by
  induction passes with
  | nil => cases h
  | cons pass rest ih =>
    rw [firstHit] at h
    split at h
    · cases h
    · obtain ⟨b, hrun, h⟩ := bind_eq_ok.mp h
      cases b with
      | true => exact ⟨pass, .head _, (Option.some.inj (Outcome.ok.inj h)).symm, hrun⟩
      | false =>
        obtain ⟨pass', hmem, hfound⟩ := ih h
        exact ⟨pass', .tail _ hmem, hfound⟩

/-- No witness is looked for when a model is wanted. -/
theorem wantModel_of_satPass {pass : SatPass} (hmem : pass ∈ satPasses) {context : ShortcutContext}
    (h : pass.run q context = ok true) : context.wantModel = false := by
  have hguard : ∀ {c : Bool} {x : Result Bool}, (if c then pure false else x) = ok true →
      c = false := by
    intro c x h
    cases c with
    | true => cases h
    | false => rfl
  simp only [satPasses, List.mem_cons, List.not_mem_nil, or_false] at hmem
  obtain rfl | rfl | rfl | rfl | rfl := hmem
  · exact hguard h
  all_goals
    have h := hguard h
    simp only [Bool.or_eq_false_iff] at h
    exact h.1.1

/-- **The two kinds of answers.** A hit is `Unsat`, from a pass that looks for contradictions, or
`Sat` without a model, from one that looks for witnesses, where no model is wanted. -/
theorem of_trySolve (h : trySolve q wantModel config = ok (some hit)) :
    hit.result = .unsat ∨ (hit.result = .sat none ∧ wantModel = false) := by
  rw [trySolve] at h
  split at h
  · cases h
  · obtain ⟨o, -, h⟩ := bind_eq_ok.mp h
    cases o with
    | some passName =>
      obtain rfl := Option.some.inj (Outcome.ok.inj h)
      exact .inl rfl
    | none =>
      obtain ⟨o, hsat, h⟩ := bind_eq_ok.mp h
      cases o with
      | none => cases h
      | some passName =>
        obtain rfl := Option.some.inj (Outcome.ok.inj h)
        obtain ⟨pass, hmem, -, hrun⟩ := of_firstHit hsat
        exact .inr ⟨rfl, wantModel_of_satPass hmem hrun⟩

end Shortcuts
end Qfbv
end SmtServer
