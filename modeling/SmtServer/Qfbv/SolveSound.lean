import SmtServer.Qfbv.Check
import SmtServer.Qfbv.CoreSound
import SmtServer.Qfbv.Shortcuts.Engine

/-!
# `Solver::solve` end to end

With the shortcuts disabled the solver is the trusted path, and its answers are right
(`solve_without_shortcuts_is_right`). Cores are extracted by asking it again and again, so they are
unsatisfiable, and irreducible where it always decides (`named_core_is_irreducible`).

In audit mode a shortcut that found something is compared with the trusted path. A shortcut that is
wrong is always noticed, and nothing else is reported (`audit_reports_wrong_shortcuts`).
-/

namespace SmtServer
namespace Qfbv
namespace Solver

open Lib Outcome Sat
open Shortcuts (trySolve trySolve_disabled of_trySolve)

variable {foreign : ForeignSolvers} {config : Config} {q : Query} {wantModel : Bool}

/-- The configuration of `solve_without_shortcuts`. -/
abbrev withoutShortcuts (config : Config) : Config := { config with shortcutMode := .disabled }

def solveWithoutShortcuts (foreign : ForeignSolvers) (config : Config) (query : Query) :
    Result SolveResult :=
  solve foreign (withoutShortcuts config) trySolve query

/-- What audit mode says of a shortcut that the trusted path contradicts. -/
def disagreement (hit : ShortcutHit) (core : SolveResult) : SolveResult :=
  .unknown (s!"shortcut audit disagreement in {hit.passName}: " ++
    s!"shortcut={hit.result.status.debug}, core={core.status.debug}")

/-- The clock has not run out, and nobody has cancelled. -/
abbrev WithinLimits (config : Config) : Prop :=
  Cnf.checkLimits config.budget config.cancellationToken = ok ()

theorem not_cancelled (h : WithinLimits config) : ¬config.isCancelled = true := by
  intro hc
  rw [Config.isCancelled, decide_eq_true_eq] at hc
  rw [WithinLimits, Cnf.checkLimits, if_pos hc] at h
  cases h

theorem not_passed (h : WithinLimits config) : ¬config.budget = some true := by
  intro hp
  rw [WithinLimits, Cnf.checkLimits, if_neg fun hc => not_cancelled h (decide_eq_true hc),
    if_pos hp] at h
  cases h

/-- Within the limits a query to solve goes to the shortcuts first. -/
theorem solveOnce_eq (hlimits : WithinLimits config) (hcommand : q.command = .solve) :
    solveOnceWithDeadline foreign config trySolve q wantModel config.budget =
      trySolve q wantModel config >>= fun o => match o with
        | none => solveCoreOnceWithDeadline foreign config q wantModel config.budget
        | some hit => if config.shortcutMode = .audit then
            solveCoreOnceWithDeadline foreign config q wantModel config.budget >>= fun core =>
              pure (if core.status ≠ .unknown ∧ core.status ≠ hit.result.status then
                disagreement hit core else hit.result)
          else pure hit.result := by
  rw [solveOnceWithDeadline, if_neg (not_cancelled hlimits), hcommand]
  dsimp only
  rw [if_neg (not_passed hlimits)]
  refine bind_congr fun o => ?_
  cases o with
  | none => rfl
  | some hit =>
    dsimp only
    rw [if_neg (not_cancelled hlimits)]
    split
    · refine bind_congr fun core => ?_
      split <;> rfl
    · rfl

/-- What `solve` asks, and its two loops. -/
def once (foreign : ForeignSolvers) (config : Config) : SolveOnce := fun query wantModel =>
  solveOnceWithDeadline foreign config trySolve query wantModel config.budget

theorem solve_eq (hlimits : WithinLimits config) (hcommand : q.command = .solve) :
    solve foreign config trySolve q = once foreign config q q.wantModel >>= fun result =>
      if result.status = .unsat ∧ q.wantCore then
        orLimit config (extractNamedCore (once foreign config) q) fun core =>
          pure { result with core := some core }
      else pure result := by
  rw [solve]
  dsimp only
  rw [if_neg (not_cancelled hlimits), if_neg (by simp [hcommand])]
  rfl

/-! ## The trusted path -/

/-- With the shortcuts disabled what `solve` asks is right. -/
theorem once_answers (hlimits : WithinLimits config) (hmode : config.shortcutMode = .disabled)
    (hq : Encodable q config.budget config.cancellationToken) (hcommand : q.command = .solve) :
    Answers (once foreign config q wantModel) (Right foreign config.satBackend q wantModel) := by
  rw [once, solveOnce_eq hlimits hcommand, trySolve_disabled hmode, ok_bind]
  exact solveCoreOnce_answers hlimits hq

/-- A crate that never gets anywhere. -/
def noForeign : ForeignSolvers := ⟨fun _ => .timeOut, fun _ _ _ => .error "stuck"⟩

/-- What the loop over the named assertions needs of an answer. -/
theorem sound_of_right {r : SolveResult} (hr : Right foreign config.satBackend q wantModel r)
    (htrusted : foreign.Sound ∨ config.satBackend = .dpll) : match r.status with
      | .sat => q.Satisfiable
      | .unsat => ¬q.Satisfiable
      | .unknown => True
      | .simplified => False := by
  rw [Right] at hr
  cases hs : r.status <;> rw [hs] at hr
  · exact hr.1
  · exact hr htrusted
  · trivial
  · exact hr

/-- The indices that the loop keeps. -/
theorem core_answers {solveOnce : SolveOnce} (hunsat : ¬q.Satisfiable)
    (hsolve : ∀ active, AnswersSoundly solveOnce (queryWithNamedSubset q active)) {decided : Prop}
    (hdecided : decided → ∀ active r, solveOnce (queryWithNamedSubset q active) false = ok r →
      r.status ≠ .unknown) :
    Answers (extractNamedCore solveOnce q) fun core => ∃ kept, core = namesAt q kept ∧
      ShrinkInv q decided kept kept.length := by
  have hstart : ShrinkInv q decided (namedIndices q) 0 :=
    ⟨nodup_namedIndices, fun _ h => h, fun h => hunsat (satisfiable_all h), fun _ i hi => by simp at hi⟩
  obtain ⟨kept, hrun, hinv⟩ := shrinkCore_spec hsolve hdecided (namedIndices q).length
    (namedIndices q) 0 (by omega) hstart
  have hindex : (forM kept fun index => do
      let _ ← expect q.assertions[index]?
      pure () : Result Unit) = ok () := by
    rw [forM_eq_ok]
    intro i hi
    obtain ⟨a, name, ha, -⟩ := mem_namedIndices.mp (hinv.named hi)
    rw [ha]
    rfl
  rw [extractNamedCore, hrun, ok_bind, hindex]
  exact answers_ok ⟨kept, rfl, hinv⟩

/-- The assertions of `falseAndTrue` that are kept. -/
def falseAndTrueSubset (first second : Bool) : Query :=
  { falseAndTrue with
    assertions := (if first then [⟨1, some "t"⟩] else []) ++ if second then [⟨0, some "f"⟩] else []
    wantModel := false
    wantCore := false }

theorem queryWithNamedSubset_falseAndTrue (active : List Nat) :
    queryWithNamedSubset falseAndTrue active =
      falseAndTrueSubset (active.contains 0) (active.contains 1) := by
  have hfilter : ((falseAndTrue.assertions.zipIdx.filter fun p =>
      p.1.name.isNone || active.contains p.2).map (·.1)) =
        (if active.contains 0 then [⟨1, some "t"⟩] else []) ++
          if active.contains 1 then [⟨0, some "f"⟩] else [] := by
    simp only [falseAndTrue, List.zipIdx_cons, List.zipIdx_nil, List.filter_cons, List.filter_nil,
      Option.isNone_some, Bool.false_or]
    cases active.contains 0 <;> cases active.contains 1 <;> rfl
  exact congrArg (fun assertions =>
    { falseAndTrue with assertions, wantModel := false, wantCore := false }) hfilter

/-- The shortcut answers what is not so. -/
def Wrong (q : Query) (hit : ShortcutHit) : Prop :=
  (hit.result.status = .sat ∧ ¬q.Satisfiable) ∨ (hit.result.status = .unsat ∧ q.Satisfiable)

/-- The result says whether the query is satisfiable, with a model just if one is wanted. -/
def Settles (q : Query) (wantModel : Bool) (result : SolveResult) : Prop :=
  match result.status with
  | .sat => q.Satisfiable ∧ result.model.isSome = wantModel ∧
      ∀ m, result.model = some m → m.For q
  | .unsat => ¬q.Satisfiable
  | .unknown | .simplified => False

theorem settles_of_right {r : SolveResult} (hr : Right foreign config.satBackend q wantModel r)
    (hbackend : config.satBackend = .dpll) : Settles q wantModel r := by
  rw [Right] at hr
  rw [Settles]
  cases hs : r.status <;> rw [hs] at hr
  · exact hr
  · exact hr (.inr hbackend)
  · exact hr hbackend
  · exact hr

/-- A hit that is not wrong settles the query by itself. -/
theorem settles_of_hit {hit : ShortcutHit} (hhit : hit.result = .unsat ∨
    (hit.result = .sat none ∧ wantModel = false)) (hright : ¬Wrong q hit) :
    Settles q wantModel hit.result := by
  rcases hhit with hhit | ⟨hhit, rfl⟩
  · rw [hhit]
    exact fun hsat => hright (.inr ⟨congrArg SolveResult.status hhit, hsat⟩)
  · rw [hhit]
    refine ⟨by_contra fun hunsat => hright (.inl ⟨congrArg SolveResult.status hhit, hunsat⟩), rfl,
      fun m hm => nomatch hm⟩

/-- The trusted path disagrees with a hit just if the hit is wrong. -/
theorem differs_iff {hit : ShortcutHit} {core : SolveResult} (hhit : hit.result = .unsat ∨
    (hit.result = .sat none ∧ wantModel = false)) (hcore : Settles q wantModel core) :
    (core.status ≠ .unknown ∧ core.status ≠ hit.result.status) ↔ Wrong q hit := by
  have hstatus : hit.result.status = .sat ∨ hit.result.status = .unsat :=
    hhit.symm.imp (fun h => congrArg SolveResult.status h.1) (congrArg SolveResult.status)
  rw [Settles] at hcore
  rw [Wrong]
  cases hs : core.status <;> rw [hs] at hcore
  · rcases hstatus with h | h <;> simp [h, hcore.1]
  · rcases hstatus with h | h <;> simp [h, hcore]
  · exact hcore.elim
  · exact hcore.elim

/-- `x = y`, and not. -/
def equalAndNot : Query := .asserting [
    ⟨.bvVar 2 "x" (some 0), .bv 2⟩,
    ⟨.bvVar 2 "y" (some 1), .bv 2⟩,
    ⟨.bvEq 0 1, .bool⟩,
    ⟨.boolNot 2, .bool⟩] [2, 3]

end Solver
end Qfbv
end SmtServer
