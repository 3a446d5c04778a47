import SmtServer.Qfbv.Core
import SmtServer.Qfbv.Tseitin

/-!
# What the SAT solvers answer

None of the solvers is believed when it says `Sat`, so a model is right whoever found it. `Unsat` is
right if `DpllSolver` says it, and assumed to be right of the two other crates
(`ForeignSolvers.Sound`). With the clauses of `encode` this says what an answer means for the gates:
the values of a model are the values of the gates on inputs that make the output true
(`Cnf.Encodes`).
-/

namespace SmtServer
namespace Qfbv

open Lib Outcome
open Lib.Dimacs (Clause)
/-! ## The SAT solvers -/

namespace Sat

open DpllSolver (valuation RightFor)

variable {clauses : List Clause} {assumptions : List Int} {values : List Bool} {lit : Int}
  {numVars : Nat} {deadline cancellation : Option Bool} {foreign : ForeignSolvers}
  {backend : SatBackendKind}

/-- The answer `Unsat` of a crate is right. -/
structure ForeignSolvers.Sound (foreign : ForeignSolvers) : Prop where
  splr : ∀ clauses, foreign.splr clauses = .unsat → ∀ v, ¬Dimacs.Models v clauses
  varisat : ∀ numVars clauses assumptions, foreign.varisat numVars clauses assumptions = .unsat →
    ∀ v, ¬(Dimacs.Models v clauses ∧ ∀ lit ∈ assumptions, Dimacs.litHolds v lit = true)

theorem litIsSatisfied_eq (h0 : lit ≠ 0) (hle : lit.natAbs ≤ values.length) :
    litIsSatisfied values lit = Dimacs.litHolds (valuation values) lit := by
  rw [litIsSatisfied, if_neg (by omega)]
  rfl

theorem holds_of_litIsSatisfied (h : litIsSatisfied values lit = true) :
    Dimacs.litHolds (valuation values) lit = true := by
  rw [litIsSatisfied] at h
  split at h
  · cases h
  · exact h

/-- **The check of an answer is right**, for any clauses. -/
theorem holds_of_satisfies (h : satAssignmentSatisfies clauses assumptions values = true) :
    Dimacs.Models (valuation values) clauses ∧
      ∀ lit ∈ assumptions, Dimacs.litHolds (valuation values) lit = true := by
  rw [satAssignmentSatisfies, Bool.and_eq_true, List.all_eq_true, List.all_eq_true] at h
  refine ⟨fun clause hc => ?_, fun lit hl => holds_of_litIsSatisfied (h.1 lit hl)⟩
  obtain ⟨lit, hl, hsat⟩ := List.any_eq_true.mp (h.2 clause hc)
  exact ⟨lit, hl, holds_of_litIsSatisfied hsat⟩

/-- On clauses over its variables it refuses no model. -/
theorem satisfies_of_holds
    (hc : ∀ clause ∈ clauses, ∀ lit ∈ clause, lit ≠ 0 ∧ lit.natAbs ≤ values.length)
    (ha : ∀ lit ∈ assumptions, lit ≠ 0 ∧ lit.natAbs ≤ values.length)
    (hm : Dimacs.Models (valuation values) clauses)
    (hl : ∀ lit ∈ assumptions, Dimacs.litHolds (valuation values) lit = true) :
    satAssignmentSatisfies clauses assumptions values = true := by
  rw [satAssignmentSatisfies, Bool.and_eq_true, List.all_eq_true, List.all_eq_true]
  refine ⟨fun lit h => ?_, fun clause h => ?_⟩
  · rw [litIsSatisfied_eq (ha lit h).1 (ha lit h).2]
    exact hl lit h
  · obtain ⟨lit, hlit, hholds⟩ := hm clause h
    refine List.any_eq_true.mpr ⟨lit, hlit, ?_⟩
    rw [litIsSatisfied_eq (hc clause h lit hlit).1 (hc clause h lit hlit).2]
    exact hholds

/-- What is true of an answer: `Sat` comes with a model of every variable, `Unsat` is right when
the crates are, and the solver of the program itself always decides. -/
def Trusted (foreign : ForeignSolvers) (backend : SatBackendKind) (numVars : Nat)
    (clauses : List Clause) (assumptions : List Int) : SatResult → Prop
  | .sat values => values.length = numVars ∧ Dimacs.Models (valuation values) clauses ∧
      ∀ lit ∈ assumptions, Dimacs.litHolds (valuation values) lit = true
  | .unsat => foreign.Sound ∨ backend = .dpll →
      ∀ v, ¬(Dimacs.Models v clauses ∧ ∀ lit ∈ assumptions, Dimacs.litHolds v lit = true)
  | .unknown _ => backend ≠ .dpll

theorem length_foldl_set {α : Type} {f : List Bool → α → List Bool}
    (hf : ∀ bs a, (f bs a).length = bs.length) (xs : List α) (bs : List Bool) :
    (xs.foldl f bs).length = bs.length := by
  induction xs generalizing bs with
  | nil => rfl
  | cons x xs ih => rw [List.foldl_cons, ih, hf]

/-- An answer as it comes from the solver: of a `Sat` only the number of values is known. -/
def Raw (foreign : ForeignSolvers) (numVars : Nat) (clauses : List Clause) (assumptions : List Int) :
    SatResult → Prop
  | .sat values => values.length = numVars
  | .unsat => foreign.Sound →
      ∀ v, ¬(Dimacs.Models v clauses ∧ ∀ lit ∈ assumptions, Dimacs.litHolds v lit = true)
  | .unknown _ => True

theorem solveWithSplr_raw : Raw foreign numVars clauses assumptions
    (solveWithSplr foreign numVars clauses assumptions deadline) := by
  rw [solveWithSplr]
  split
  · trivial
  · cases h : foreign.splr (clauses ++ assumptions.map fun assumption => [assumption]) with
    | sat model =>
      refine (length_foldl_set (fun bs lit => ?_) model _).trans List.length_replicate
      split <;> simp
    | unsat =>
      intro hsound v ⟨hm, hl⟩
      refine hsound.splr _ h v (Dimacs.models_append.mpr ⟨hm, fun clause hc => ?_⟩)
      obtain ⟨lit, hlit, rfl⟩ := List.mem_map.mp hc
      exact ⟨lit, List.mem_singleton.mpr rfl, hl lit hlit⟩
    | timeOut => trivial
    | error text => trivial
    | panicked => trivial

theorem solveWithVarisat_raw : Raw foreign numVars clauses assumptions
    (solveWithVarisat foreign numVars clauses assumptions deadline) := by
  rw [solveWithVarisat]
  split
  · trivial
  · cases h : foreign.varisat numVars clauses assumptions with
    | sat model =>
      refine (length_foldl_set (fun bs lit => ?_) _ _).trans List.length_replicate
      obtain ⟨index, positive⟩ := lit
      dsimp only
      split <;> simp
    | unsat => exact fun hsound => hsound.varisat numVars clauses assumptions h
    | error text => trivial

/-! ### The solver of the program

Its parts are known to be exact; a deadline that has not passed and a token that is not cancelled
are read, and nothing comes of it. -/

theorem DpllSolver.new_eq (numVars : Nat) (clauses : List Clause)
    (deadline cancellation : Option Bool) :
    DpllSolver.new numVars clauses deadline cancellation =
      DpllSolver.new numVars clauses none none >>= fun solver =>
        pure { solver with deadline, cancellation } := by
  rw [DpllSolver.new, DpllSolver.new, bind_assoc]
  rfl

theorem checkDeadline_eq {solver : DpllSolver} :
    solver.checkDeadline = Cnf.checkLimits solver.deadline solver.cancellation := rfl

/-- The values of a model that the search found, whatever it leaves at index 0. -/
theorem rightFor_of_model {self : DpllSolver} {model : Dimacs.Partial} (hs : self.Ready)
    (ha : ∀ lit ∈ assumptions, lit ≠ 0) (hlength : values.length = self.numVars)
    (hval : ∀ i b, 1 ≤ i → model[i]? = some (some b) → valuation values i = b)
    (hmodel : ∀ v, Dimacs.Extends v model → Dimacs.Models v self.clauses ∧
      ∀ lit ∈ assumptions, Dimacs.litHolds v lit = true) :
    RightFor self.numVars self.clauses assumptions (.sat values) := by
  let v : Nat → Bool := fun i =>
    if i = 0 then (model.getD 0 none).getD false else valuation values i
  have hv : Dimacs.Extends v model := by
    intro i b hi
    obtain rfl | hpos := Nat.eq_zero_or_pos i
    · simp [v, List.getD_eq_getElem?_getD, hi]
    · simp only [v, if_neg hpos.ne']
      exact hval i b hpos hi
  have heq : ∀ lit : Int, lit ≠ 0 → v lit.natAbs = valuation values lit.natAbs :=
    fun lit hne => if_neg (Int.natAbs_ne_zero.mpr hne)
  obtain ⟨hm, hl⟩ := hmodel v hv
  refine ⟨hlength, (Dimacs.models_congr fun c hc lit hlit => ?_).mp hm, fun lit hlit => ?_⟩
  · exact heq lit (hs.clauses_le c hc lit hlit).1
  · rw [Dimacs.litHolds, ← heq lit (ha lit hlit)]
    exact hl lit hlit

theorem solve_answers {self : DpllSolver} (hs : self.Ready)
    (ha : ∀ lit ∈ assumptions, lit ≠ 0 ∧ lit.natAbs ≤ self.numVars) :
    Answers (self.solve (self.numVars + 2) assumptions)
      (RightFor self.numVars self.clauses assumptions) := by
  rw [DpllSolver.solve]
  refine (DpllSolver.assume_answers fun lit hl =>
    ⟨(ha lit hl).1, Nat.lt_succ_of_le (ha lit hl).2⟩).bind fun r hr => ?_
  cases r with
  | none => exact answers_ok fun v hv => hr v hv.2
  | some assignment =>
    obtain ⟨hlen, hext⟩ := hr
    have hcount : assignment.count none < self.numVars + 2 :=
      Nat.lt_succ_of_le (List.count_le_length.trans_eq hlen)
    obtain ⟨r, hsearch, hr⟩ := DpllSolver.search_answers hs hlen hcount
    dsimp only
    rw [hsearch]
    cases r with
    | none => exact answers_ok fun v hv => hr v ((hext v).mpr hv.2) hv.1
    | some model =>
      refine (DpllSolver.values_answers hr.1).bind fun values hvalues => answers_ok ?_
      refine rightFor_of_model hs (fun lit hl => (ha lit hl).1) hvalues.1 hvalues.2 fun v hv => ?_
      obtain ⟨hassigned, hm⟩ := hr.2 v hv
      exact ⟨hm, (hext v).mp hassigned⟩

theorem dpll_answers (hlimits : Cnf.checkLimits deadline cancellation = ok ())
    (hc : ∀ clause ∈ clauses, ∀ lit ∈ clause, lit ≠ 0 ∧ lit.natAbs ≤ numVars)
    (ha : ∀ lit ∈ assumptions, lit ≠ 0 ∧ lit.natAbs ≤ numVars) :
    Answers (askBackend foreign .dpll numVars clauses assumptions deadline cancellation)
      (RightFor numVars clauses assumptions) := by
  obtain ⟨solver, hnew, hs, rfl, rfl⟩ := DpllSolver.new_answers hc
  rw [askBackend, DpllSolver.new_eq, hnew]
  have hs' : DpllSolver.Ready { solver with deadline, cancellation } :=
    ⟨hlimits, hs.scores_length, hs.clauses_le⟩
  exact solve_answers hs' ha

/-- The end of `solveCnfWithCancellation`: a model is believed when it has been checked. -/
def validated (clauses : List Clause) (assumptions : List Int) (result : SatResult) :
    Result SatResult :=
  match result with
  | .sat assignment =>
    if !satAssignmentSatisfies clauses assumptions assignment then
      pure (.unknown "SAT backend returned invalid assignment")
    else pure result
  | _ => pure result

/-- **The answers of any backend can be trusted**, as far as its own code goes. -/
theorem solveCnf_answers (hlimits : Cnf.checkLimits deadline cancellation = ok ())
    (hc : ∀ clause ∈ clauses, ∀ lit ∈ clause, lit ≠ 0 ∧ lit.natAbs ≤ numVars)
    (ha : ∀ lit ∈ assumptions, lit ≠ 0 ∧ lit.natAbs ≤ numVars) :
    Answers (solveCnfWithCancellation foreign backend numVars clauses assumptions deadline
      cancellation) (Trusted foreign backend numVars clauses assumptions) := by
  have hcancel : cancellation ≠ some true := by
    rintro rfl
    cases hlimits
  have hdeadline : deadline ≠ some true := by
    rintro rfl
    rw [Cnf.checkLimits, if_neg hcancel] at hlimits
    cases hlimits
  rw [solveCnfWithCancellation, if_neg hcancel, if_neg hdeadline]
  have hcheck : ∀ r, Raw foreign numVars clauses assumptions r → backend ≠ .dpll →
      Answers (validated clauses assumptions r)
        (Trusted foreign backend numVars clauses assumptions) := by
    intro r hr hforeign
    cases r with
    | unsat => exact answers_ok fun hsound => hr (hsound.resolve_right hforeign)
    | unknown => exact answers_ok hforeign
    | sat values =>
      unfold validated
      dsimp only
      cases h : satAssignmentSatisfies clauses assumptions values with
      | false => exact answers_ok hforeign
      | true => exact answers_ok ⟨hr, holds_of_satisfies h⟩
  cases backend with
  | splr => exact hcheck _ solveWithSplr_raw (by decide)
  | varisat => exact hcheck _ solveWithVarisat_raw (by decide)
  | dpll =>
    refine (dpll_answers hlimits hc ha).bind fun r hr => ?_
    cases r with
    | unsat => exact answers_ok fun _ => hr
    | unknown => exact hr.elim
    | sat values =>
      have hok := satisfies_of_holds (fun c h l hl => hr.1 ▸ hc c h l hl)
        (fun l hl => hr.1 ▸ ha l hl) hr.2.1 hr.2.2
      dsimp only
      rw [hok]
      exact answers_ok hr

end Sat

/-! ## The clauses of a small arena -/

namespace Cnf

variable {s : GateArena} {output : GateId} {deadline cancellation : Option Bool}

theorem encodeWithLimits_eq (hlimits : checkLimits deadline cancellation = ok ()) :
    encodeWithLimits s output deadline cancellation = encodeWithLimits s output none none := by
  have hgate : encodeGate deadline cancellation = encodeGate none none := by
    funext clauses gate index
    rw [encodeGate, encodeGate, hlimits]
    rfl
  rw [encodeWithLimits, encodeWithLimits, encodeGates, encodeGates, hgate]

/-- The clauses are about the gates, and their models are the values of the gates where the output
is true. -/
structure Encodes (s : GateArena) (output : GateId) (cnf : Cnf) : Prop where
  numVars_eq : cnf.numVars = s.gates.length
  inRange : ∀ clause ∈ cnf.clauses, ∀ lit ∈ clause, lit ≠ 0 ∧ lit.natAbs ≤ s.gates.length
  values : ∀ values : List Bool, Dimacs.Models (Sat.DpllSolver.valuation values) cnf.clauses →
    ∃ inputs, s.value inputs output = true ∧
      ∀ g < s.gates.length, values.getD g false = s.value inputs g
  models : ∀ inputs, s.value inputs output = true → ∃ v, Dimacs.Models v cnf.clauses

theorem inRange_encoding (hs : s.Inv) (hlt : output < s.gates.length) :
    ∀ clause ∈ (definitions s.gates).flatMap kept ++ [[litOf output]],
      ∀ lit ∈ clause, lit ≠ 0 ∧ lit.natAbs ≤ s.gates.length := by
  intro clause hc lit hl
  rcases List.mem_append.mp hc with hc | hc
  · obtain ⟨raw, hraw, hkept⟩ := List.mem_flatMap.mp hc
    obtain ⟨p, hp, hdef⟩ := List.mem_flatMap.mp hraw
    have hget := List.mem_zipIdx_iff_getElem?.mp hp
    have hmem : lit ∈ raw := by
      rw [kept] at hkept
      split at hkept
      · cases hkept
      · rw [List.mem_singleton.mp hkept] at hl
        exact mem_normal.mp hl
    have hlit := isLit_of_mem (hs.ordered _ _ hget) hdef lit hmem
    exact ⟨hlit.ne_zero, hlit.natAbs_le.trans (List.getElem?_eq_some_iff.mp hget).1⟩
  · obtain rfl : lit = litOf output := by simpa [List.mem_singleton.mp hc] using hl
    rw [natAbs_litOf]
    exact ⟨by rw [litOf]; omega, hlt⟩

theorem encodes (hs : s.Inv) (hlt : output < s.gates.length) (hsmall : s.gates.length < 2 ^ 31)
    (hlimits : checkLimits deadline cancellation = ok ()) :
    Answers (encodeWithLimits s output deadline cancellation) (Encodes s output) := by
  have hnumbers : Small s := fun row gate hget =>
    .inr (Nat.lt_of_le_of_lt (List.getElem?_eq_some_iff.mp hget).1 hsmall)
  have hout : output + 1 < 2 ^ 31 := Nat.lt_of_le_of_lt hlt hsmall
  obtain ⟨cnf, hcnf, hexact⟩ := exact_of_small hs hlt hnumbers hout
  have hclauses := encode_eq hs hnumbers hout
  obtain rfl := Outcome.ok.inj (hcnf.symm.trans hclauses)
  have hrange := inRange_encoding hs hlt
  have hrun : encodeWithLimits s output deadline cancellation = ok ⟨s.gates.length,
      (definitions s.gates).flatMap kept ++ [[litOf output]]⟩ := by
    rw [encodeWithLimits_eq hlimits]
    rw [encode] at hclauses
    split at hclauses
    · rename_i henc
      rw [henc]
      exact hclauses
    · cases hclauses
    · cases hclauses
  refine ⟨_, hrun, rfl, hrange, fun values hm => ?_, fun inputs htrue => ?_⟩
  · let a : Assignment s := fun row => values.getD row false
    have hvars : Dimacs.Models a.vars ((definitions s.gates).flatMap kept ++ [[litOf output]]) := by
      refine (Dimacs.models_congr fun clause hc lit hl => ?_).mp hm
      obtain ⟨h0, hle⟩ := hrange clause hc lit hl
      have hpos : 0 < lit.natAbs := Int.natAbs_pos.mpr h0
      rw [Assignment.vars, dif_pos ⟨hpos, by omega⟩]
      rfl
    obtain ⟨inputs, hagrees⟩ := exists_agrees hs a
    have hdefs : Dimacs.Models a.vars
        ((definitions s.gates).flatMap kept ++ [[litOf output]]).dropLast := by
      rw [List.dropLast_concat]
      exact (Dimacs.models_append.mp hvars).1
    refine ⟨inputs, (hexact.output_iff inputs a hagrees hdefs).mp hvars, fun g hg => ?_⟩
    exact congrFun (hexact.value inputs a hagrees hdefs) ⟨g, hg⟩
  · obtain ⟨a, hm⟩ := hexact.sat.mpr ⟨inputs, htrue⟩
    exact ⟨a.vars, hm⟩

end Cnf
end Qfbv
end SmtServer
