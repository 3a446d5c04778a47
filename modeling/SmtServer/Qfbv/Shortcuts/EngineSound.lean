import SmtServer.Qfbv.SolveSound
import SmtServer.Qfbv.Shortcuts.AffineByteSound
import SmtServer.Qfbv.Shortcuts.ShiftersSound
import SmtServer.Qfbv.Shortcuts.SimpleProcessorSound
import SmtServer.Qfbv.Shortcuts.StructuralSound

/-!
# Which shortcuts are right

Twelve of the eighteen passes that look for contradictions, and three of the five that look for
witnesses, are right about every well-formed query. A hit of one of them can be believed
(`hit_is_right`). The others are listed by name (`unsoundPasses`), and each of them is wrong about
some query (`sound_iff_not_listed`).
-/

namespace SmtServer
namespace Qfbv
namespace Shortcuts

open Lib Outcome
open Solver (ShortcutHit)

variable {q : Query} {wantModel : Bool} {config : Config} {hit : ShortcutHit}

/-- A pass that finds a contradiction is right about it. -/
def UnsatPass.Sound (pass : UnsatPass) : Prop :=
  ∀ q : Query, q.WellFormed → pass.run q = ok true → ¬∃ ρ, Asserted q ρ

/-- A pass that finds a witness is right about it. -/
def SatPass.Sound (pass : SatPass) : Prop :=
  ∀ q : Query, ∀ context, q.WellFormed → pass.run q context = ok true → q.Satisfiable

theorem not_satisfiable_of_asserted (h : ¬∃ ρ, Asserted q ρ) : ¬q.Satisfiable := by
  rintro ⟨ρ, hρ⟩
  exact h ⟨ρ, fun a ha => hρ a.root (Query.mem_roots.mpr (.inl ⟨a, ha, rfl⟩))⟩

/-! ## Contradictions -/

theorem structuralDefinition_unsat (hq : q.WellFormed)
    (h : hasStructuralDefinitionContradiction q = ok true) : ¬∃ ρ, Asserted q ρ := by
  obtain ⟨-, h⟩ := of_if h
  obtain ⟨out, hrun, h⟩ := bind_eq_ok.mp h
  have hout := (structuralDefinitions_answers hq).of_eq hrun
  obtain ⟨pairs, hcollect, h⟩ := bind_eq_ok.mp h
  have hpairs := (bvEqualitiesAndDisequalities_answers hq).of_eq hcollect
  obtain ⟨-, h⟩ := of_if h
  obtain ⟨definitions, hkept, h⟩ := bind_eq_ok.mp h
  have hdefinitions := (keptDefinitions_answers hout).of_eq hkept
  exact (anySameSig_answers (structuralSig_signs hq.arena hdefinitions 258 [] (by decide)
    (by decide)) hpairs.2 (sound_start hout)).of_eq h rfl

theorem extensionalCandidate_unsat (hq : q.WellFormed)
    (h : hasExtensionalCandidateContradiction q = ok true) : ¬∃ ρ, Asserted q ρ := by
  obtain ⟨sets, hrun, h⟩ := bind_eq_ok.mp h
  have hsets := (forbiddenSets_answers hq).of_eq hrun
  obtain ⟨-, h⟩ := of_if h
  rintro ⟨ρ, hρ⟩
  obtain ⟨a, ha, hfound⟩ := exists_of_anyM h
  have hroot := hq.roots a.root (Query.mem_roots.mpr (.inl ⟨a, ha, rfl⟩))
  obtain ⟨set, hset, hholds⟩ := (hasContradictoryCandidateDisjunction_answers hq.arena sets _ _
    (Nat.lt_succ_self _) hroot).of_eq hfound rfl ρ (hρ a ha)
  obtain ⟨f, hf, hnot⟩ := hsets set hset ρ hρ
  exact hnot (hholds f hf)

theorem logSlicingAdder_unsat (hq : q.WellFormed)
    (h : hasLogSlicingAdderContradiction q = ok true) : ¬∃ ρ, Asserted q ρ := by
  obtain ⟨pairs, hcollect, h⟩ := bind_eq_ok.mp h
  obtain ⟨heq, hne⟩ := (bvEqualitiesAndDisequalities_answers hq).of_eq hcollect
  obtain ⟨adders, hadders, h⟩ := bind_eq_ok.mp h
  obtain ⟨p, hp, h⟩ := exists_of_anyM h
  exact adderContradicts_true hq.arena (collectLogSlicingAdders_eq hq.arena heq hadders) hne
    (heq p hp) h

theorem favaroMbaMul_unsat (hq : q.WellFormed) (h : hasFavaroMbaMulContradiction q = ok true) :
    ¬∃ ρ, Asserted q ρ := by
  rintro ⟨ρ, hρ⟩
  obtain ⟨-, h⟩ := of_if h
  obtain ⟨leaves, hleaves, h⟩ := bind_eq_ok.mp h
  have htrue := (((conjuncts_answers hq).of_eq hleaves).2 ρ).mp hρ
  obtain ⟨leaf, hleaf, h⟩ := exists_of_anyM h
  obtain ⟨eq, hk, h⟩ := let_boolNot h
  obtain ⟨a, b, hpair, h⟩ := let_pair h
  have hkeq := bvEqPair_eq.mp hpair
  obtain ⟨w, ha, hb⟩ := hq.arena.bvEq_sort hkeq
  refine (Arena.isTrue_boolNot hq.arena hk).mp (htrue leaf hleaf)
    ((Arena.isTrue_bvEq hq.arena hkeq).mpr ?_)
  rcases true_of_or h with h | h
  · exact favaroMbaMatches_true hq.arena ha hb h ρ
  · exact (favaroMbaMatches_true hq.arena hb ha h ρ).symm

/-- All processors that match compute the same. -/
theorem processors_agree (hq : q.WellFormed) (hlen : q.arena.nodes.length ≤ 200000) {found leaves}
    (hfound : collectSimpleProcessorVars q.arena = ok (some found)) (hleaves : conjuncts q = ok leaves)
    (hne : found.operators ≠ [])
    (hall : found.processors.allM (processorMatches q.arena leaves found.opcode found.operators) =
      ok true) {ρ : Env} (hρ : Asserted q ρ) :
    ∃ w x, ∀ p ∈ found.processors, q.arena.IsBv p.out w ∧ q.arena.bv ρ p.out w = x := by
  obtain ⟨w, hknown⟩ := collectSimpleProcessorVars_eq hq.arena (by omega) hfound
  obtain ⟨hsorts, htrue⟩ := (conjuncts_answers hq).of_eq hleaves
  refine ⟨w, processorResult (q.arena.bv ρ found.opcode 8)
    (found.operators.map (q.arena.bv ρ · w)), fun p hp => ⟨(hknown.processors p hp).out, ?_⟩⟩
  obtain ⟨i, hi⟩ := List.getElem?_of_mem hp
  exact out_of_matches hq.arena (hknown.processors p hp) hne rfl hknown.operators hsorts
    (by rw [hknown.index i p hi]; omega) hknown.operators_length (forall_of_allM hall p hp)
    ((htrue ρ).mp hρ)

theorem simpleProcessorEquivalence_unsat (hq : q.WellFormed)
    (h : hasSimpleProcessorEquivalenceContradiction q = ok true) : ¬∃ ρ, Asserted q ρ := by
  rintro ⟨ρ, hρ⟩
  obtain ⟨hguard, h⟩ := of_if h
  obtain ⟨o, hfound, h⟩ := bind_eq_ok.mp h
  cases o with
  | none => cases h
  | some found =>
    obtain ⟨hcount, h⟩ := of_if h
    obtain ⟨leaves, hleaves, h⟩ := bind_eq_ok.mp h
    obtain ⟨hfinal, hall⟩ := of_unless h
    obtain ⟨hsorts, htrue⟩ := (conjuncts_answers hq).of_eq hleaves
    have hne : found.operators ≠ [] := by
      intro hnil
      simp [hnil] at hcount
    obtain ⟨w, x, hout⟩ := processors_agree hq (by omega) hfound hleaves hne hall hρ
    obtain ⟨p, hp, p', hp', v, hv, -, hdiffer⟩ := (finalDisjunctionLoop_answers hq.arena
      (fun ρ => ∀ leaf ∈ leaves, q.arena.IsTrue ρ leaf) hsorts (fun leaf hleaf ρ h => h leaf hleaf)
      (fun h => absurd rfl h)).of_eq hfinal rfl ρ ((htrue ρ).mp hρ)
    obtain rfl := (hout p hp).1.inj hv
    exact hdiffer ((hout p hp).2.trans (hout p' hp').2.symm)

/-- `let Some(a) = o else { return Ok(d) }`. -/
theorem let_some {β : Type} {o : Option TermId} {f : TermId → Result β} {d r : β}
    (h : (do let some a := o | return d
             f a) = ok r) [hne : Apart d r] : ∃ a, o = some a ∧ f a = ok r := by
  cases o with
  | none => exact absurd (Outcome.ok.inj h) hne.ne
  | some a => exact ⟨a, rfl, h⟩

/-- Both words count the bits of one input, so they cannot differ. -/
theorem yurichevPopcount_unsat (hq : q.WellFormed)
    (h : hasYurichevPopcountContradiction q = ok true) : ¬∃ ρ, Asserted q ρ := by
  rintro ⟨ρ, hρ⟩
  obtain ⟨-, h⟩ := of_if h
  obtain ⟨x, hx, h⟩ := let_some h
  obtain ⟨naiveOut, hnaiveOut, h⟩ := let_some h
  obtain ⟨kernOut, hkernOut, h⟩ := let_some h
  obtain ⟨⟨equalities, disequalities⟩, hcollect, h⟩ := bind_eq_ok.mp h
  obtain ⟨heq, hne⟩ := (bvEqualitiesAndDisequalities_answers hq).of_eq hcollect
  obtain ⟨kernX0, hkernX0, h⟩ := let_some h
  obtain ⟨hsame, h⟩ := of_unless h
  obtain ⟨hany, h⟩ := of_if h
  obtain ⟨naiveExpr, hnaiveExpr, h⟩ := let_some h
  obtain ⟨hnaive, h⟩ := of_unless h
  split at h
  case h_2 => cases h
  rename_i chain hchain
  obtain ⟨hsteps, h⟩ := of_unless h
  obtain ⟨kernExpr, hkernExpr, h⟩ := let_some h
  have hs := hq.arena
  have hx64 := bvVarByName_some hs hx
  have hnaive64 := bvVarByName_some hs hnaiveOut
  have hinput : q.arena.bv ρ x 64 = q.arena.bv ρ kernX0 64 :=
    (((((equivalentUnderEqualities_answers _ _ _).of_eq hsame).mp rfl).equalBv hs heq
      hx64).of_width hx64).2 ρ hρ
  have hdiffer : q.arena.bv ρ naiveOut 64 ≠ q.arena.bv ρ kernOut 64 :=
    ((distinct_of_any hne (by simpa using hany)).of_width hnaive64).2 ρ hρ
  obtain ⟨hsortsN, hdefN⟩ := (equalityPartner_some heq hnaiveExpr).of_width hnaive64
  obtain ⟨hsortsK, hdefK⟩ :=
    (equalityPartner_some heq hkernExpr).of_width (bvVarByName_some hs hkernOut)
  obtain ⟨hsorts, hlen, first, hfirst, hname⟩ := chain_of_names hs hchain
  obtain rfl : kernX0 = first := Option.some.inj (hkernX0.symm.trans hname)
  refine hdiffer ?_
  calc q.arena.bv ρ naiveOut 64 = q.arena.bv ρ naiveExpr 64 := hdefN ρ hρ
    _ = (q.arena.bv ρ x 64).cpop := matchesNaivePopcount_true hs hsortsN (Nat.le_refl 64) hnaive ρ
    _ = (q.arena.bv ρ kernX0 64).cpop := by rw [hinput]
    _ = q.arena.bv ρ kernExpr 64 := (matchesKernighanPopcount_true hq heq hlen (Nat.le_refl 64)
        hsorts (fun i hi => forall_of_allM hsteps i (List.mem_range.mpr hi)) hsortsK h hρ hfirst).symm
    _ = q.arena.bv ρ kernOut 64 := (hdefK ρ hρ).symm

/-! ## Witnesses -/

/-- The test before a witness is looked for. -/
theorem of_withoutArtifacts {witness : Query → Result Bool} {context : ShortcutContext}
    (h : withoutArtifacts witness q context = ok true) : witness q = ok true := by
  rw [withoutArtifacts] at h
  split at h
  · cases h
  · exact h

/-! ## The engine -/

/-- The passes that are wrong about some query. -/
def unsoundPasses : List String := [
  "polynomial_definition", "signed_division_multiply_overflow_guard", "synchronized_lfsr",
  "log_slicing_shift", "log_slicing_comparison", "brummayer_popcount",
  "unsigned_successor_wraparound", "affine_byte"]

theorem unsatPass_sound {pass : UnsatPass} (hmem : pass ∈ unsatPasses)
    (hname : pass.name ∉ unsoundPasses) : pass.Sound := by
  simp only [unsatPasses, List.mem_cons, List.not_mem_nil, or_false] at hmem
  rcases hmem with rfl | rfl | rfl | rfl | rfl | rfl | rfl | rfl | rfl | rfl | rfl | rfl | rfl | rfl |
    rfl | rfl | rfl | rfl
  · exact fun q hq h => (hasDirectContradiction_answers hq).of_eq h rfl
  · exact absurd (by decide) hname
  · exact fun q hq h => structuralDefinition_unsat hq h
  · exact fun q hq h => not_exists.mpr (unsigned_successor_contradiction_unsat hq h)
  · exact fun q hq h => not_exists.mpr (shift_one_add_contradiction_unsat hq h)
  · exact fun q hq h => not_exists.mpr (distinct_power_of_two_sum_contradiction_unsat hq h)
  · exact fun q hq h => not_exists.mpr (unsigned_guard_contradiction_unsat hq h)
  · exact absurd (by decide) hname
  · exact fun q hq h => simpleProcessorEquivalence_unsat hq h
  · exact fun q hq h => extensionalCandidate_unsat hq h
  · exact absurd (by decide) hname
  · exact absurd (by decide) hname
  · exact absurd (by decide) hname
  · exact fun q hq h => logSlicingAdder_unsat hq h
  · exact fun q hq h => (hasUremContradiction_answers hq).of_eq h rfl
  · exact fun q hq h => favaroMbaMul_unsat hq h
  · exact fun q hq h => yurichevPopcount_unsat hq h
  · exact absurd (by decide) hname

theorem satPass_sound {pass : SatPass} (hmem : pass ∈ satPasses) (hname : pass.name ∉ unsoundPasses) :
    pass.Sound := by
  simp only [satPasses, List.mem_cons, List.not_mem_nil, or_false] at hmem
  rcases hmem with rfl | rfl | rfl | rfl | rfl
  · exact absurd (by decide) hname
  · exact fun q context hq h => holds_of_validated hq (hasLinearSliceSatWitnessBy_validated hq.arena)
      (of_withoutArtifacts h)
  · exact absurd (by decide) hname
  · exact fun q context hq h => holds_of_validated hq hasSmallExplicitAssignmentWitnessBy_validated
      (of_withoutArtifacts h)
  · exact fun q context hq h => holds_of_constantAssignment hq (of_withoutArtifacts h)

/-- A hit comes from a pass. -/
theorem pass_of_trySolve (h : trySolve q wantModel config = ok (some hit)) :
    (∃ pass ∈ unsatPasses, hit = ⟨pass.name, .unsat⟩ ∧ pass.run q = ok true) ∨
      ∃ pass ∈ satPasses, ∃ context, hit = ⟨pass.name, .sat none⟩ ∧ pass.run q context = ok true := by
  obtain ⟨-, h⟩ := of_if h
  obtain ⟨o, hunsat, h⟩ := bind_eq_ok.mp h
  cases o with
  | some passName =>
    obtain ⟨pass, hmem, rfl, hrun⟩ := of_firstHit hunsat
    exact .inl ⟨pass, hmem, (Option.some.inj (Outcome.ok.inj h)).symm, hrun⟩
  | none =>
    obtain ⟨o, hsat, h⟩ := bind_eq_ok.mp h
    cases o with
    | none => cases h
    | some passName =>
      obtain ⟨pass, hmem, rfl, hrun⟩ := of_firstHit hsat
      exact .inr ⟨pass, hmem, _, (Option.some.inj (Outcome.ok.inj h)).symm, hrun⟩

/-- Hits can be believed, whatever the configuration, if they are not from one of the passes that
are known to be wrong: the query is then unsatisfiable, or satisfiable, as the hit says. -/
theorem hit_is_right (hq : q.WellFormed) (h : trySolve q wantModel config = ok (some hit))
    (hname : hit.passName ∉ unsoundPasses) :
    (hit.result = .unsat ∧ ¬q.Satisfiable) ∨ (hit.result = .sat none ∧ q.Satisfiable) := by
  rcases pass_of_trySolve h with ⟨pass, hmem, rfl, hrun⟩ | ⟨pass, hmem, context, rfl, hrun⟩
  · exact .inl ⟨rfl, not_satisfiable_of_asserted (unsatPass_sound hmem hname q hq hrun)⟩
  · exact .inr ⟨rfl, satPass_sound hmem hname q context hq hrun⟩

/-! ## The passes that are wrong -/

/-- A query that is said to hold, and holds for no assignment. -/
theorem not_sound_of_unsat {pass : SatPass} (context : ShortcutContext) (hq : q.WellFormed)
    (hrun : pass.run q context = ok true) (hρ : ∀ ρ, ¬Asserted q ρ) : ¬pass.Sound :=
  fun h => not_satisfiable_of_asserted (not_exists.mpr hρ) (h q context hq hrun)

/-- `y = -x` and `-x ≠ (2 ^ 64 - 1) * x`, which is so where `x` is 1. -/
def wideDisequality : Query where
  arena := ⟨[
    ⟨.bvVar 65 "x" (some 0), .bv 65⟩,
    ⟨.bvConst 65 [255, 255, 255, 255, 255, 255, 255, 255, 0], .bv 65⟩,
    ⟨.bvNeg 0, .bv 65⟩,
    ⟨.bvMul 0 1, .bv 65⟩,
    ⟨.bvVar 65 "y" (some 1), .bv 65⟩,
    ⟨.bvEq 4 2, .bool⟩,
    ⟨.bvEq 2 3, .bool⟩,
    ⟨.boolNot 6, .bool⟩]⟩
  assertions := [⟨5, none⟩, ⟨7, none⟩]
  assumptions := []
  command := .solve
  target := none
  signed := false
  wantModel := false
  wantCore := false
  getValues := []

/-- A query that the pass of this name calls contradictory, and an assignment that it holds for. -/
def misjudged : String → Query × Env
  | "polynomial_definition" =>
    (wideDisequality, ⟨fun t => if t = 4 then 2 ^ 65 - 1 else 1, fun _ => false⟩)
  | "signed_division_multiply_overflow_guard" =>
    (guardedQuotient 23, ⟨fun t => if t = 0 then 128 else 255, fun _ => true⟩)
  | "synchronized_lfsr" => (lfsrDoubleTap, ⟨fun t => if t = 2 then 2 else 0, fun _ => false⟩)
  | "log_slicing_shift" =>
    (writtenShift 0, ⟨fun t =>
      if t = 0 ∨ t = 1 ∨ t = 24 then 1 else if t = 2 ∨ t = 30 ∨ t = 31 then 2 else 0,
      fun _ => false⟩)
  | "log_slicing_comparison" =>
    (lowBitsComparison 3,
      ⟨fun t => if t = 0 then 4 else if t = 1 ∨ t = 5 ∨ t = 23 then 1 else 0, fun _ => false⟩)
  | _ => (comparedPopcounts 1 2 2, ⟨fun _ => 0, fun _ => false⟩)

theorem misjudges : ∀ pass ∈ unsatPasses, pass.name ∈ unsoundPasses →
    (misjudged pass.name).1.arena.WellSorted ∧
    (∀ t ∈ (misjudged pass.name).1.assertionsAndAssumptions,
      (misjudged pass.name).1.arena.sortAt t = some .bool) ∧
    pass.run (misjudged pass.name).1 = ok true ∧
    ∀ a ∈ (misjudged pass.name).1.assertions,
      (misjudged pass.name).1.arena.IsTrue (misjudged pass.name).2 a.root := by
  decide

theorem unsatPass_not_sound {pass : UnsatPass} (hmem : pass ∈ unsatPasses)
    (hname : pass.name ∈ unsoundPasses) : ¬pass.Sound := by
  intro hsound
  obtain ⟨hsorted, hroots, hrun, hholds⟩ := misjudges pass hmem hname
  exact hsound _ (Query.wellFormed_of_check hsorted hroots) hrun ⟨_, hholds⟩

/-- The sum would have to be 0, and lies between 5 and 20. -/
theorem narrowAffine_unsat (ρ : Env) : ¬Asserted narrowAffine ρ := by
  intro hρ
  have hs := narrowAffine_wellFormed.arena
  have hx := Arena.IsBv.num_lt (t := 0) (w := 4) (ρ := ρ) hs rfl
  have heq := (Arena.value_eq_iff_num hs (a := 3) (b := 4) (w := 8) rfl rfl).mp
    ((Arena.isTrue_bvEq hs rfl).mp (hρ ⟨5, none⟩ (.head _)))
  have hext : narrowAffine.arena.num ρ 1 = narrowAffine.arena.num ρ 0 :=
    Arena.num_bvZeroExtend hs rfl
  have hfive : narrowAffine.arena.num ρ 2 = 5 :=
    (show _ = leNat [5] from Arena.num_bvConst hs rfl).trans rfl
  have hzero : narrowAffine.arena.num ρ 4 = 0 :=
    (show _ = leNat [0] from Arena.num_bvConst hs rfl).trans rfl
  rw [Arena.num_bvAdd hs (t := 3) (a := 1) (b := 2) (w := 8) rfl rfl, hext, hfive, hzero] at heq
  omega

theorem satPass_not_sound {pass : SatPass} (hmem : pass ∈ satPasses)
    (hname : pass.name ∈ unsoundPasses) : ¬pass.Sound := by
  simp only [satPasses, List.mem_cons, List.not_mem_nil, or_false] at hmem
  rcases hmem with rfl | rfl | rfl | rfl | rfl
  · exact not_sound_of_unsat ⟨false, false, false, false⟩ boundedWraparound_wellFormed
      (show hasUnsignedSuccessorWraparoundWitness boundedWraparound false = ok true by
        decide) boundedWraparound_unsat
  · exact absurd hname (by decide)
  · exact not_sound_of_unsat ⟨false, false, false, false⟩ narrowAffine_wellFormed
      (show hasAffineByteSatWitness narrowAffine = ok true by decide +kernel) narrowAffine_unsat
  · exact absurd hname (by decide)
  · exact absurd hname (by decide)

/-- **Which passes can be believed**: all but those listed, and each of these is wrong about some
query. -/
theorem sound_iff_not_listed :
    (∀ pass ∈ unsatPasses, pass.Sound ↔ pass.name ∉ unsoundPasses) ∧
      ∀ pass ∈ satPasses, pass.Sound ↔ pass.name ∉ unsoundPasses :=
  ⟨fun _ hmem => ⟨fun hsound hname => unsatPass_not_sound hmem hname hsound, unsatPass_sound hmem⟩,
    fun _ hmem => ⟨fun hsound hname => satPass_not_sound hmem hname hsound, satPass_sound hmem⟩⟩

end Shortcuts
end Qfbv
end SmtServer
