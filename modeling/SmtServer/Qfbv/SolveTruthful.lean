import SmtServer.Qfbv.Shortcuts.EngineSound

/-!
# What the solver says is so

Deadlines, tokens, errors and panics can keep the solver from answering, in the middle of a search
for a core or an optimum too. None of that makes it say what is not so: an answer that arrives is
true of the query (`Truthful`), as long as no unsound shortcut has answered.

The two searches were proved right for solvers that always answer. A search that has come to its
end has got all its answers, so it has run as with a solver that replies where the real one does not
(`answering`), or as with one that always knows (`oracle`).
-/

namespace SmtServer
namespace Qfbv
namespace Solver

open Lib Outcome Sat
open Shortcuts (trySolve unsoundPasses hit_is_right)

variable {foreign : ForeignSolvers} {config : Config} {q : Query} {wantModel : Bool}
variable {result : SolveResult} {solveOnce : SolveOnce}

/-- What is true of an answer. -/
def Truthful (q : Query) (wantModel : Bool) (result : SolveResult) : Prop :=
  match result.status with
  | .sat => q.Satisfiable ∧ result.model.isSome = wantModel ∧
      ∀ m, result.model = some m → m.For q
  | .unsat => ¬q.Satisfiable
  | .unknown => True
  | .simplified => False

/-- If a shortcut answers this query, it is not one that has been found wrong. -/
def NoUnsoundHit (config : Config) (q : Query) : Prop :=
  ∀ wantModel hit, trySolve q wantModel config = ok (some hit) → hit.passName ∉ unsoundPasses

/-- The SAT solver that is asked reports no contradiction where there is none. -/
abbrev TrustedSat (foreign : ForeignSolvers) (config : Config) : Prop :=
  foreign.Sound ∨ config.satBackend = .dpll

/-! ## One answer -/

theorem truthful_unknown (message : String) : Truthful q wantModel (.unknown message) := trivial

theorem truthful_of_right (hr : Right foreign config.satBackend q wantModel result)
    (htrusted : TrustedSat foreign config) : Truthful q wantModel result := by
  rw [Right] at hr
  rw [Truthful]
  cases hs : result.status <;> rw [hs] at hr
  · exact hr
  · exact hr htrusted
  · trivial
  · exact hr

theorem truthful_of_hit {hit : ShortcutHit} (hq : q.WellFormed) (hhits : NoUnsoundHit config q)
    (h : trySolve q wantModel config = ok (some hit)) : Truthful q wantModel hit.result := by
  have hkind := Shortcuts.of_trySolve h
  rcases hit_is_right hq h (hhits wantModel hit h) with ⟨hres, hunsat⟩ | ⟨hres, hsat⟩
  · rw [hres]
    exact hunsat
  · rw [hres] at hkind ⊢
    rcases hkind with hkind | ⟨-, rfl⟩
    · cases hkind
    · exact ⟨hsat, rfl, fun m hm => nomatch hm⟩

theorem only_orLimit {α : Type} {x : Result α} {f : α → Result SolveResult} {Q : SolveResult → Prop}
    (hlimit : Q (limitUnknown config)) (hf : ∀ a, Only (f a) Q) : Only (orLimit config x f) Q := by
  unfold orLimit
  split
  · exact hf _
  · exact only_ok hlimit
  · exact fun _ h => nomatch h
  · exact only_panic

theorem limitUnknown_eq (config : Config) :
    ∃ message, limitUnknown config = .unknown message := by
  rw [limitUnknown]
  split
  · exact ⟨_, rfl⟩
  · exact ⟨_, rfl⟩

/-- The trusted path optimises nothing. -/
theorem solveCoreOnce_optimum {deadline : Option Bool} :
    Only (solveCoreOnceWithDeadline foreign config q wantModel deadline) fun r =>
      r.optimum = none := by
  obtain ⟨message, hlimit⟩ := limitUnknown_eq config
  have hlimit : (limitUnknown config).optimum = none := by rw [hlimit]; rfl
  rw [solveCoreOnceWithDeadline]
  split
  · exact only_ok rfl
  split
  · exact only_ok rfl
  refine only_orLimit hlimit fun blasted => only_orLimit hlimit fun cnf => ?_
  refine (only_self _).bind fun answer _ _ => ?_
  split
  · split
    · exact (only_self _).bind fun _ _ _ => only_ok rfl
    · exact only_ok rfl
  · exact only_ok rfl
  · exact only_ok rfl

/-- What one question is answered by, if it is. -/
theorem once_truthful (htrusted : TrustedSat foreign config)
    (hq : Encodable q config.budget config.cancellationToken) (hhits : NoUnsoundHit config q)
    (hcommand : q.command = .solve) (h : once foreign config q wantModel = ok result) :
    Truthful q wantModel result ∧ result.optimum = none := by
  rw [once] at h
  by_cases hcancel : config.isCancelled = true
  · rw [solveOnceWithDeadline, if_pos hcancel] at h
    obtain rfl := Outcome.ok.inj h
    exact ⟨truthful_unknown _, rfl⟩
  by_cases hpassed : config.budget = some true
  · rw [solveOnceWithDeadline, if_neg hcancel, hcommand] at h
    dsimp only at h
    rw [if_pos hpassed] at h
    obtain rfl := Outcome.ok.inj h
    exact ⟨truthful_unknown _, rfl⟩
  have hlimits : WithinLimits config := by
    rw [WithinLimits, Cnf.checkLimits, if_neg fun hc => hcancel (decide_eq_true hc), if_neg hpassed]
    rfl
  rw [solveOnce_eq hlimits hcommand] at h
  obtain ⟨found, hfound, h⟩ := bind_eq_ok.mp h
  have hcore : Only (solveCoreOnceWithDeadline foreign config q wantModel config.budget) fun r =>
      Truthful q wantModel r ∧ r.optimum = none := fun r hr =>
    ⟨truthful_of_right ((solveCoreOnce_answers hlimits hq).of_eq hr) htrusted,
      solveCoreOnce_optimum r hr⟩
  cases found with
  | none => exact hcore result h
  | some hit =>
    have hhit : Truthful q wantModel hit.result ∧ hit.result.optimum = none := by
      refine ⟨truthful_of_hit hq.wellFormed hhits hfound, ?_⟩
      rcases Shortcuts.of_trySolve hfound with hres | ⟨hres, -⟩
      · rw [hres]
        rfl
      · rw [hres]
        rfl
    dsimp only at h
    split at h
    · obtain ⟨core, -, h⟩ := bind_eq_ok.mp h
      obtain rfl := Outcome.ok.inj h
      split
      · exact ⟨truthful_unknown _, rfl⟩
      · exact hhit
    · obtain rfl := Outcome.ok.inj h
      exact hhit

/-! ## Cores -/

/-- The solver, with a reply where it gives none. -/
def answering (solveOnce : SolveOnce) : SolveOnce := fun query wantModel =>
  match solveOnce query wantModel with
  | .ok result => ok result
  | _ => ok (.unknown "no answer")

theorem answering_eq (h : solveOnce q wantModel = ok result) :
    answering solveOnce q wantModel = ok result := by
  rw [answering, h]

theorem shrinkCore_answering {rounds pos : Nat} {active kept : List Nat}
    (h : shrinkCore solveOnce q rounds active pos = ok kept) :
    shrinkCore (answering solveOnce) q rounds active pos = ok kept := by
  induction rounds generalizing active pos with
  | zero =>
    rw [shrinkCore] at h ⊢
    exact h
  | succ rounds ih =>
    rw [shrinkCore] at h ⊢
    split at h
    · exact h
    · dsimp only at h ⊢
      obtain ⟨answer, hanswer, h⟩ := bind_eq_ok.mp h
      rw [answering_eq hanswer, ok_bind]
      split at h
      · rename_i hunsat
        rw [if_pos hunsat]
        exact ih h
      · rename_i hnot
        rw [if_neg hnot]
        exact ih h

theorem extractNamedCore_answering {core : List String} (h : extractNamedCore solveOnce q = ok core) :
    extractNamedCore (answering solveOnce) q = ok core := by
  rw [extractNamedCore] at h ⊢
  obtain ⟨kept, hkept, h⟩ := bind_eq_ok.mp h
  rw [shrinkCore_answering hkept]
  exact h

/-- A subset of the named assertions that cannot hold, with the others and the assumptions. -/
structure IsCore (q : Query) (core : List String) (kept : List Nat) : Prop where
  names : core = namesAt q kept
  nodup : kept.Nodup
  named : kept ⊆ namedIndices q
  unsat : ¬(queryWithNamedSubset q kept).Satisfiable

theorem isCore_of_extract {core : List String} (hunsat : ¬q.Satisfiable)
    (hsolve : ∀ active r, solveOnce (queryWithNamedSubset q active) false = ok r →
      Truthful (queryWithNamedSubset q active) false r)
    (h : extractNamedCore solveOnce q = ok core) : ∃ kept, IsCore q core kept := by
  have hanswers : ∀ active, AnswersSoundly (answering solveOnce) (queryWithNamedSubset q active) := by
    intro active
    cases hrun : solveOnce (queryWithNamedSubset q active) false with
    | ok r =>
      have htruth := hsolve active r hrun
      refine ⟨r, answering_eq hrun, ?_⟩
      rw [Truthful] at htruth
      cases hs : r.status <;> rw [hs] at htruth
      · exact htruth.1
      · exact htruth
      · trivial
      · exact htruth
    | err e => exact ⟨.unknown "no answer", by rw [answering, hrun], trivial⟩
    | panic => exact ⟨.unknown "no answer", by rw [answering, hrun], trivial⟩
  obtain ⟨kept, rfl, hinv⟩ := (core_answers hunsat hanswers
    fun h : False => h.elim).of_eq (extractNamedCore_answering h)
  exact ⟨kept, rfl, hinv.nodup, hinv.named, hinv.unsat⟩

/-- **What `solve` says is so**: of a query to solve, and with a core, where one is wanted, that
cannot hold. -/
theorem solve_truthful (htrusted : TrustedSat foreign config)
    (hq : Encodable q config.budget config.cancellationToken) (hhits : NoUnsoundHit config q)
    (hsubsets : q.wantCore = true → ∀ active,
      Encodable (queryWithNamedSubset q active) config.budget config.cancellationToken ∧
        NoUnsoundHit config (queryWithNamedSubset q active))
    (hcommand : q.command = .solve) (h : solve foreign config trySolve q = ok result) :
    Truthful q q.wantModel result ∧ result.optimum = none ∧
      (result.status = .unsat → q.wantCore = true →
        ∃ core kept, result.core = some core ∧ IsCore q core kept) := by
  rw [solve] at h
  dsimp only at h
  split at h
  · obtain rfl := Outcome.ok.inj h
    exact ⟨truthful_unknown _, rfl, fun h => by cases h⟩
  rw [if_neg (by simp [hcommand])] at h
  obtain ⟨first, hfirst, h⟩ := bind_eq_ok.mp h
  obtain ⟨htruth, hoptimum⟩ := once_truthful htrusted hq hhits hcommand hfirst
  split at h
  · rename_i hwanted
    obtain ⟨hstatus, hcore⟩ := hwanted
    unfold orLimit at h
    split at h
    · rename_i core hextract
      obtain rfl := Outcome.ok.inj h
      have hunsat : ¬q.Satisfiable := by
        rw [Truthful, hstatus] at htruth
        exact htruth
      obtain ⟨kept, hkept⟩ := isCore_of_extract hunsat (fun active r hr =>
        (once_truthful htrusted (hsubsets hcore active).1 (hsubsets hcore active).2 hcommand hr).1)
        hextract
      exact ⟨htruth, hoptimum, fun _ _ => ⟨core, kept, rfl, hkept⟩⟩
    · obtain rfl := Outcome.ok.inj h
      obtain ⟨message, hlimit⟩ := limitUnknown_eq config
      rw [hlimit]
      exact ⟨truthful_unknown _, rfl, fun h => by cases h⟩
    · cases h
    · cases h
  · rename_i hnot
    obtain rfl := Outcome.ok.inj h
    exact ⟨htruth, hoptimum, fun hstatus hcore => absurd ⟨hstatus, hcore⟩ hnot⟩

/-! ## Optima -/

/-- The queries that the search for an optimum asks. -/
inductive Asked (query : Query) (target : TermId) : Query → Prop
  | base : Asked query target (withoutObjective query)
  | bit {fixed next : Query} {bit : Nat} {value : Bool} : Asked query target fixed →
      assertTargetBit fixed target bit value = ok next → Asked query target next

variable {query fixed : Query} {target : TermId} {w k : Nat} {optimum : List UInt8}

/-- Whoever says `Sat` or `Unsat` truthfully says what the oracle says. -/
theorem oracle_eq (htruth : Truthful q wantModel result)
    (hstatus : result.status = .sat ∨ result.status = .unsat) :
    ∃ r, oracle q wantModel = ok r ∧ r.status = result.status := by
  refine ⟨_, rfl, ?_⟩
  rw [Truthful] at htruth
  rcases hstatus with hs | hs <;> rw [hs] at htruth ⊢
  · rw [if_pos htruth.1]
    rfl
  · rw [if_neg htruth]
    rfl

/-- A search that got through its bits got through them as with the oracle. -/
theorem huntBits_oracle
    (htruth : ∀ q, Asked query target q → ∀ r, solveOnce q false = ok r → Truthful q false r)
    {fixed' : Query} {optimum' : List UInt8} (hasked : Asked query target fixed)
    (h : huntBits solveOnce query target w k fixed optimum = ok (.go fixed' optimum')) :
    huntBits oracle query target w k fixed optimum = ok (.go fixed' optimum') ∧
      Asked query target fixed' := by
  induction k generalizing fixed optimum with
  | zero =>
    obtain ⟨rfl, rfl⟩ := Hunt.go.inj (Outcome.ok.inj h)
    exact ⟨rfl, hasked⟩
  | succ k ih =>
    rw [huntBits] at h ⊢
    obtain ⟨hunt, hround, h⟩ := bind_eq_ok.mp h
    rw [huntBit] at hround ⊢
    obtain ⟨trial, htrial, hround⟩ := bind_eq_ok.mp hround
    obtain ⟨answer, hanswer, hround⟩ := bind_eq_ok.mp hround
    have hasked' := hasked.bit htrial
    have hsays := htruth trial hasked' answer hanswer
    rw [htrial, ok_bind]
    cases hs : answer.status with
    | sat =>
      obtain ⟨r, hr, hstatus⟩ := oracle_eq hsays (.inl hs)
      rw [hs, settleBit] at hround
      obtain rfl := Outcome.ok.inj hround
      rw [hr, ok_bind, hstatus, hs, settleBit, ok_bind]
      exact ih hasked' h
    | unsat =>
      obtain ⟨r, hr, hstatus⟩ := oracle_eq hsays (.inr hs)
      rw [hs, settleBit] at hround
      obtain ⟨next, hnext, hround⟩ := bind_eq_ok.mp hround
      obtain rfl := Outcome.ok.inj hround
      rw [hr, ok_bind, hstatus, hs, settleBit, hnext, ok_bind, ok_bind]
      exact ih (hasked.bit hnext) h
    | unknown | simplified =>
      rw [hs, settleBit] at hround
      obtain rfl := Outcome.ok.inj hround
      cases h

/-- A search that was broken off leaves the question open. -/
theorem huntBits_done (h : huntBits solveOnce query target w k fixed optimum = ok (.done result)) :
    ∃ message, result = .unknown message := by
  induction k generalizing fixed optimum with
  | zero => cases h
  | succ k ih =>
    rw [huntBits] at h
    obtain ⟨hunt, hround, h⟩ := bind_eq_ok.mp h
    cases hunt with
    | go fixed' optimum' => exact ih h
    | done result' =>
      obtain rfl := Hunt.done.inj (Outcome.ok.inj h)
      rw [huntBit] at hround
      obtain ⟨trial, -, hround⟩ := bind_eq_ok.mp hround
      obtain ⟨answer, -, hround⟩ := bind_eq_ok.mp hround
      cases hs : answer.status <;> rw [hs, settleBit] at hround
      · cases hround
      · obtain ⟨next, -, hround⟩ := bind_eq_ok.mp hround
        cases hround
      · exact ⟨_, (Hunt.done.inj (Outcome.ok.inj hround)).symm⟩
      · exact ⟨_, (Hunt.done.inj (Outcome.ok.inj hround)).symm⟩

/-- What is true of the answer to an optimisation: the optimum is one, and a model, just if one is
wanted, attains it. -/
def Optimal (query : Query) (target : TermId) (w : Nat) (result : SolveResult) : Prop :=
  match result.status with
  | .sat => ∃ (bytes : List UInt8) (x : BitVec w) (fixed : Query),
      result.optimum = some (.bv w bytes) ∧ bytes.length = divCeil8 w ∧ leNat bytes = x.toNat ∧
      IsOptimum query target x ∧ result.model.isSome = query.wantModel ∧
      Asked query target fixed ∧ (∀ m, result.model = some m → m.For fixed) ∧
      ∀ ρ, fixed.Holds ρ → query.Holds ρ ∧ query.arena.value ρ target = .bv w x
  | .unsat => ¬query.Satisfiable
  | .unknown => True
  | .simplified => False

theorem optimize_truthful (hq : query.WellFormed) (htarget : query.target = some target)
    (ht : query.arena.sortAt target = some (.bv w))
    (htruth : ∀ q, Asked query target q → ∀ wantModel r, solveOnce q wantModel = ok r →
      Truthful q wantModel r)
    (h : optimize solveOnce query = ok result) : Optimal query target w result := by
  rw [optimize, htarget, ofOption, ok_bind, Arena.sort_eq_ok.mpr ht, ok_bind, targetWidth,
    ok_bind] at h
  obtain ⟨answer, hanswer, h⟩ := bind_eq_ok.mp h
  have hsays := htruth _ .base false answer hanswer
  rw [Truthful] at hsays
  cases hs : answer.status with
  | unsat =>
    rw [hs] at h hsays
    obtain rfl := Outcome.ok.inj h
    exact hsays
  | unknown | simplified =>
    rw [hs] at h
    obtain rfl := Outcome.ok.inj h
    exact trivial
  | sat =>
    rw [hs] at h hsays
    obtain ⟨hunt, hhunt, h⟩ := bind_eq_ok.mp h
    cases hunt with
    | done result' =>
      obtain ⟨message, rfl⟩ := huntBits_done hhunt
      obtain rfl := Outcome.ok.inj h
      exact trivial
    | go fixed optimum =>
      obtain ⟨horacle, hasked⟩ := huntBits_oracle (fun q hq r hr => htruth q hq false r hr) .base hhunt
      have hinv : HuntInv query target w 0 fixed optimum := by
        rcases huntBits_spec (fun q _ _ => oracle_decides q) ht w _ _ (Nat.le_refl w)
          (huntInv_start hq hsays.1) with ⟨fixed', optimum', hrun, hinv⟩ | ⟨hrun, -⟩
        · obtain ⟨rfl, rfl⟩ := Hunt.go.inj (Outcome.ok.inj (horacle.symm.trans hrun))
          exact hinv
        · cases horacle.symm.trans hrun
      obtain ⟨x, hx, hopt, hattains⟩ := hinv.isOptimum hq ht
      dsimp only at h
      rw [finalModel] at h
      split at h
      · rename_i hwanted
        obtain ⟨last, hlast, h⟩ := bind_eq_ok.mp h
        have hmodel := htruth fixed hasked true last hlast
        split at h
        · rename_i hsat
          rw [Truthful, hsat] at hmodel
          obtain rfl := Outcome.ok.inj h
          exact ⟨optimum, x, fixed, rfl, hinv.length, hx, hopt, hmodel.2.1.trans hwanted.symm, hasked,
            hmodel.2.2, hattains⟩
        · obtain rfl := Outcome.ok.inj h
          exact trivial
      · rename_i hnot
        obtain rfl := Outcome.ok.inj h
        exact ⟨optimum, x, fixed, rfl, hinv.length, hx, hopt, (Bool.eq_false_iff.mpr hnot).symm,
          hasked, (fun m hm => by cases hm), hattains⟩

/-- **What `solve` says of an optimum is so**, if every query of the search can be blasted and none of
them is answered by an unsound shortcut. -/
theorem solve_optimal (htrusted : TrustedSat foreign config) (hq : query.WellFormed)
    (hcommand : query.command = .minimize ∨ query.command = .maximize)
    (htarget : query.target = some target) (ht : query.arena.sortAt target = some (.bv w))
    (hasked : ∀ q, Asked query target q →
      Encodable q config.budget config.cancellationToken ∧ NoUnsoundHit config q)
    (h : solve foreign config trySolve query = ok result) : Optimal query target w result := by
  have hsolve : ∀ q, Asked query target q → q.command = .solve := by
    intro q hq
    induction hq with
    | base => rfl
    | bit _ hbit ih =>
      unfold assertTargetBit at hbit
      split at hbit
      · obtain rfl := Outcome.ok.inj hbit
        exact ih
      · cases hbit
      · cases hbit
  rw [solve] at h
  dsimp only at h
  by_cases hcancel : config.isCancelled = true
  · rw [if_pos hcancel] at h
    obtain rfl := Outcome.ok.inj h
    exact trivial
  rw [if_neg hcancel, if_pos hcommand] at h
  exact optimize_truthful hq htarget ht (fun q hq wantModel r hr =>
    (once_truthful htrusted (hasked q hq).1 (hasked q hq).2 (hsolve q hq) hr).1) h

/-! ### The variables of the queries asked -/

/-- The run makes no variable. -/
def KeepsVars {α : Type} (m : ArenaM α) : Prop :=
  ∀ s t k, Blast.isVar k = true → (m.run s).2.kindAt t = some k → s.kindAt t = some k

theorem KeepsVars.bind {α β : Type} {m : ArenaM α} {f : α → ArenaM β} (hm : KeepsVars m)
    (hf : ∀ a, KeepsVars (f a)) : KeepsVars (m >>= f) := by
  intro s t k hvar
  have h := hm s t k hvar
  rw [Grow.run_bind]
  revert h
  cases m.run s with
  | mk o s' =>
    intro h hk
    cases o with
    | ok a => exact h (hf a s' t k hvar hk)
    | err e => exact h hk
    | panic => exact h hk

theorem keepsVars_add {kind : NodeKind} {sort : TermSort} (hkind : Blast.isVar kind = false) :
    KeepsVars (Arena.add kind sort) := by
  intro s t k hvar hk
  unfold Arena.add at hk
  dsimp only at hk
  split at hk
  · exact hk
  · exact hk
  · split at hk
    · exact hk
    · split at hk
      · rw [Arena.kindAt, List.getElem?_append] at hk
        split at hk
        · exact hk
        · obtain ⟨node, hnode, rfl⟩ := Option.map_eq_some_iff.mp hk
          rw [List.mem_singleton.mp (List.mem_of_getElem? hnode), hkind] at hvar
          cases hvar
      · exact hk

theorem Asked.variables {k : NodeKind} {t : TermId} (h : Asked query target q)
    (hvar : Blast.isVar k = true) (hk : q.arena.kindAt t = some k) :
    query.arena.kindAt t = some k := by
  induction h with
  | base => exact hk
  | @bit fixed next bit value _ hbit ih =>
    have hkeeps : KeepsVars (targetBitTerm target bit value) :=
      (keepsVars_add rfl).bind fun _ => (keepsVars_add rfl).bind fun _ => keepsVars_add rfl
    refine ih ?_
    have hrun := hkeeps fixed.arena t k hvar
    unfold assertTargetBit at hbit
    split at hbit
    · rename_i eq arena heq
      obtain rfl := Outcome.ok.inj hbit
      rw [heq] at hrun
      exact hrun hk
    · cases hbit
    · cases hbit

end Solver
end Qfbv
end SmtServer
