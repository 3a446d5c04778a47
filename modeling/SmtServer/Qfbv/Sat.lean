import SmtServer.Lib.Dimacs
import SmtServer.Qfbv.Ir

/-!
# `sat.rs` — the internal solver

`DpllSolver` decides a list of clauses: it propagates units until nothing changes, and where that
leaves a clause open it tries both values of a variable. A literal is an `i32`; only its absolute
value and its sign are looked at, so an integer is exact here, and every index the solver uses is
checked, as in the source.

`unit_propagate` repeats a pass and `search` calls itself; here both take a number of rounds, and
running out of them is a **panic**. What is proved (`dpll_is_exact`) is that with a round for each
entry of the assignment, and one more, it never comes to that. The measure is the number of open
variables: a pass that changes anything closes one, and so does a branch.

Time does not pass in the model: a token is cancelled or not, a deadline has passed or not, for
the whole of a run. Without either, nothing is read.
-/

namespace SmtServer
namespace Qfbv
namespace Sat

open Lib Outcome
open Lib.Dimacs (Clause Partial)

inductive SatResult where
  /-- The values of the variables `1, 2, …`. -/
  | sat (values : List Bool)
  | unsat
  | unknown (reason : String)
  deriving Repr, DecidableEq

/-- `cancellation`: whether the token is cancelled. `deadline`: whether it has passed. -/
structure DpllSolver where
  numVars : Nat
  clauses : List Clause
  scores : List Nat
  deadline : Option Bool
  cancellation : Option Bool

/-- `assign_lit`; `none` is `Err(())`. -/
def assignLit (assignment : Partial) (lit : Int) : Result (Option Partial) := do
  let value : Bool := decide (0 < lit)
  match ← expect assignment[lit.natAbs]? with
  | some existing => if existing ≠ value then pure none else pure (some assignment)
  | none => pure (some (assignment.set lit.natAbs (some value)))

def litValue (assignment : Partial) (lit : Int) : Result (Option Bool) := do
  let value ← expect assignment[lit.natAbs]?
  pure (value.map fun value => if 0 < lit then value else !value)

/-- What the inner loop of `unit_propagate` leaves: it was broken off at a true literal, or it
counted the open ones and kept the last. -/
inductive Scan where
  | satisfied
  | open (unassigned : Nat) (last : Int)

def scan (assignment : Partial) : Clause → Nat → Int → Result Scan
  | [], unassigned, last => pure (.open unassigned last)
  | lit :: rest, unassigned, last => do
    match ← litValue assignment lit with
    | some true => pure .satisfied
    | some false => scan assignment rest unassigned last
    | none => scan assignment rest (unassigned + 1) lit

/-- One round of the loop over the clauses: the assignment, and whether it changed; `none` where
`unit_propagate` returns `Ok(false)`. -/
def propagateClause (assignment : Partial) (clause : Clause) : Result (Option (Partial × Bool)) := do
  match ← scan assignment clause 0 0 with
  | .satisfied => pure (some (assignment, false))
  | .open unassigned last =>
    if unassigned = 0 then pure none
    else if unassigned = 1 then
      match ← assignLit assignment last with
      | none => pure none
      | some assignment => pure (some (assignment, true))
    else pure (some (assignment, false))

/-- The loop over the clauses. -/
def propagatePass : List Clause → Partial → Bool → Result (Option (Partial × Bool))
  | [], assignment, changed => pure (some (assignment, changed))
  | clause :: rest, assignment, changed => do
    match ← propagateClause assignment clause with
    | none => pure none
    | some (assignment, unit) => propagatePass rest assignment (changed || unit)

namespace DpllSolver

/-- `new_with_cancellation`. -/
def new (numVars : Nat) (clauses : List Clause) (deadline cancellation : Option Bool) :
    Result DpllSolver := do
  let scores ← clauses.flatten.foldlM (fun (scores : List Nat) (lit : Int) => do
    let score ← expect scores[lit.natAbs]?
    pure (scores.set lit.natAbs (score + 1))) (List.replicate (numVars + 1) 0)
  pure { numVars, clauses, scores, deadline, cancellation }

def checkDeadline (self : DpllSolver) : Result Unit :=
  if self.cancellation = some true then .err .timeout
  else if self.deadline = some true then .err .timeout
  else pure ()

/-- The `&mut` assignment is the result; `none` is `Ok(false)`. -/
def unitPropagate (self : DpllSolver) : Nat → Partial → Result (Option Partial)
  | 0, _ => .panic
  | rounds + 1, assignment => do
    self.checkDeadline
    match ← propagatePass self.clauses assignment false with
    | none => pure none
    | some (assignment, changed) =>
      if changed then self.unitPropagate rounds assignment else pure (some assignment)

def allClausesSatisfied (self : DpllSolver) (assignment : Partial) : Result Bool :=
  self.clauses.allM fun clause => clause.anyM fun lit => do
    return (← litValue assignment lit) = some true

/-- `max_by_key` evaluates the key once for each element and keeps the last maximum. -/
def chooseVar (self : DpllSolver) (assignment : Partial) : Result (Option Nat) := do
  let best ← (List.range' 1 self.numVars).foldlM (fun (best : Option (Nat × Nat)) var => do
    match ← expect assignment[var]? with
    | some _ => pure best
    | none =>
      let score ← expect self.scores[var]?
      match best with
      | some (_, high) => pure (if high ≤ score then some (var, score) else best)
      | none => pure (some (var, score))) none
  pure (best.map Prod.fst)

def search (self : DpllSolver) : Nat → Partial → Result (Option Partial)
  | 0, _ => .panic
  | rounds + 1, assignment => do
    self.checkDeadline
    match ← self.unitPropagate (rounds + 1) assignment with
    | none => pure none
    | some assignment =>
      if ← self.allClausesSatisfied assignment then
        pure (some assignment)
      else
        match ← self.chooseVar assignment with
        | none => pure (some assignment)
        | some var =>
          match ← self.search rounds (assignment.set var (some true)) with
          | some model => pure (some model)
          | none => self.search rounds (assignment.set var (some false))

def solve (self : DpllSolver) (rounds : Nat) (assumptions : List Int) : Result SatResult := do
  let assumed ← assumptions.foldlM (fun (assignment : Option Partial) lit =>
    match assignment with
    | none => pure none
    | some assignment => assignLit assignment lit) (some (List.replicate (self.numVars + 1) none))
  match assumed with
  | none => pure .unsat
  | some assignment =>
    match self.search rounds assignment with
    | .ok (some model) => do
      let values ← (List.range' 1 self.numVars).mapM fun var => do
        let value ← (expect model[var]? : Result (Option Bool))
        pure (value.getD false)
      pure (.sat values)
    | .ok none => pure .unsat
    | .err .timeout =>
      if self.cancellation = some true then pure (.unknown "cancelled")
      else pure (.unknown "budget exhausted")
    | .err error => pure (.unknown error.display)
    | .panic => .panic

end DpllSolver

/-! ## One clause

Where every literal's variable is one of the assignment's, nothing is out of range, and reading a
literal is `Dimacs.litValue`. -/

/-- The literals name variables of the assignment. -/
def InRange (assignment : Partial) (clause : List Int) : Prop :=
  ∀ lit ∈ clause, lit ≠ 0 ∧ lit.natAbs < assignment.length

variable {assignment next : Partial} {clause : Clause} {clauses : List Clause} {lit : Int}
  {v : Nat → Bool} {n : Nat}

theorem litValue_eq (h : lit.natAbs < assignment.length) :
    litValue assignment lit = ok (Dimacs.litValue assignment lit) := by
  rw [litValue, List.getElem?_eq_getElem h, expect_some, ok_bind, Dimacs.litValue,
    List.getD_eq_getElem _ _ h]
  rfl

theorem extends_assign {lit : Int} (hne : lit ≠ 0)
    (hopen : assignment[lit.natAbs]? = some none) :
    Dimacs.Extends v (assignment.set lit.natAbs (some (decide (0 < lit)))) ↔
      Dimacs.Extends v assignment ∧ Dimacs.litHolds v lit = true := by
  rw [Dimacs.extends_set hopen, Dimacs.litHolds]
  rcases Int.lt_or_gt_of_ne hne with hneg | hpos
  · simp [show ¬ 0 < lit by omega]
  · simp [hpos]

/-- **One assignment.** `assign_lit` cuts the valuations to those that make the literal true, and
fails only where there is none. -/
theorem assignLit_answers (hne : lit ≠ 0) (h : lit.natAbs < assignment.length) :
    Answers (assignLit assignment lit) fun r => match r with
      | none => ∀ v, Dimacs.Extends v assignment → Dimacs.litHolds v lit = false
      | some next => next.length = assignment.length ∧
          (∀ v, Dimacs.Extends v next ↔
            Dimacs.Extends v assignment ∧ Dimacs.litHolds v lit = true) ∧
          (Dimacs.litValue assignment lit = none → next.count none < assignment.count none) ∧
          (next.count none ≤ assignment.count none) := by
  have hget : assignment[lit.natAbs]? = some assignment[lit.natAbs] :=
    List.getElem?_eq_getElem h
  rw [assignLit, hget, expect_some, ok_bind]
  cases hval : assignment[lit.natAbs] with
  | none =>
    rw [hval] at hget
    refine answers_ok ⟨by simp, fun v => extends_assign hne hget, ?_, ?_⟩
    · exact fun _ => Dimacs.count_set_lt hget
    · exact (Dimacs.count_set_lt hget).le
  | some existing =>
    have hlit : Dimacs.litValue assignment lit =
        some (if 0 < lit then existing else !existing) := by
      rw [Dimacs.litValue, List.getD_eq_getElem _ _ h, hval]
      rfl
    by_cases hsame : existing = decide (0 < lit)
    · subst hsame
      have htrue : Dimacs.litValue assignment lit = some true := by
        rw [hlit]
        rcases Int.lt_or_gt_of_ne hne with hneg | hpos
        · simp [show ¬ 0 < lit by omega]
        · simp [hpos]
      simp only [ne_eq, not_true_eq_false, if_false]
      refine answers_ok ⟨rfl, fun v => ?_, ?_, le_refl _⟩
      · exact ⟨fun hv => ⟨hv, Dimacs.litHolds_of_value hv htrue⟩, And.left⟩
      · simp [htrue]
    · have hfalse : Dimacs.litValue assignment lit = some false := by
        rw [hlit]
        rcases Int.lt_or_gt_of_ne hne with hneg | hpos
        · simpa [show ¬ 0 < lit by omega] using hsame
        · simpa [hpos] using hsame
      simp only [ne_eq, hsame, not_false_eq_true, if_true]
      exact answers_ok fun v hv => Dimacs.litHolds_of_value hv hfalse

/-- What a scan has found of a clause, `seen` literals of which were false or open before. -/
def Scan.Of (assignment : Partial) (clause : Clause) : Scan → Prop
  | .satisfied => ∃ lit ∈ clause, Dimacs.litValue assignment lit = some true
  | .open unassigned last =>
    unassigned = (clause.filter fun lit => Dimacs.litValue assignment lit = none).length ∧
      (∀ lit ∈ clause, Dimacs.litValue assignment lit ≠ some true) ∧
      (0 < unassigned → last ∈ clause ∧ Dimacs.litValue assignment last = none)

theorem scan_answers {seen : Clause} {unassigned : Nat} {last : Int}
    (h : InRange assignment clause) (hseen : Scan.Of assignment seen (.open unassigned last)) :
    Answers (scan assignment clause unassigned last) (Scan.Of assignment (seen ++ clause)) := by
  induction clause generalizing seen unassigned last with
  | nil =>
    rw [List.append_nil]
    exact answers_ok hseen
  | cons lit rest ih =>
    obtain ⟨hn, hfalse, hlast⟩ := hseen
    have hrest : InRange assignment rest := fun l hl => h l (by simp [hl])
    rw [scan, litValue_eq (h lit (by simp)).2, ok_bind,
      show seen ++ lit :: rest = (seen ++ [lit]) ++ rest by simp]
    cases hval : Dimacs.litValue assignment lit with
    | none =>
      refine ih hrest ⟨?_, ?_, fun _ => ⟨by simp, hval⟩⟩
      · simp [List.filter_append, hval, hn]
      · intro l hl
        rcases List.mem_append.mp hl with hl | hl
        · exact hfalse l hl
        · simp [List.mem_singleton.mp hl, hval]
    | some value =>
      cases value with
      | true => exact answers_ok ⟨lit, by simp, hval⟩
      | false =>
        refine ih hrest ⟨?_, ?_, fun hpos => ?_⟩
        · simp [List.filter_append, hval, hn]
        · intro l hl
          rcases List.mem_append.mp hl with hl | hl
          · exact hfalse l hl
          · simp [List.mem_singleton.mp hl, hval]
        · exact ⟨List.mem_append_left _ (hlast hpos).1, (hlast hpos).2⟩

/-- Neither false nor a unit: one literal is true, or two places of the clause are open. -/
def Idle (assignment : Partial) (clause : Clause) : Prop :=
  (∃ lit ∈ clause, Dimacs.litValue assignment lit = some true) ∨
    2 ≤ (clause.filter fun lit => Dimacs.litValue assignment lit = none).length

/-- Where no variable is open, an idle clause has a true literal. -/
theorem Idle.satisfied (hidle : Idle assignment clause) (hr : InRange assignment clause)
    (hall : ∀ lit ∈ clause, assignment[lit.natAbs]? ≠ some none) :
    ∃ lit ∈ clause, Dimacs.litValue assignment lit = some true := by
  refine hidle.resolve_right fun htwo => ?_
  obtain ⟨lit, hlit⟩ := List.exists_mem_of_length_pos (Nat.lt_of_lt_of_le Nat.two_pos htwo)
  obtain ⟨hmem, hopen⟩ := List.mem_filter.mp hlit
  exact hall lit hmem ((Dimacs.litValue_eq_none (hr lit hmem).2).mp (by simpa using hopen))

/-- What a step of the propagation may do to an assignment, for the sake of `clauses`. -/
structure Narrows (assignment next : Partial) (clauses : List Clause) : Prop where
  length_eq : next.length = assignment.length
  extends_of : ∀ v, Dimacs.Extends v next → Dimacs.Extends v assignment
  keeps : ∀ v, Dimacs.Extends v assignment → Dimacs.Models v clauses → Dimacs.Extends v next
  count_le : next.count none ≤ assignment.count none

theorem Narrows.refl : Narrows assignment assignment clauses :=
  ⟨rfl, fun _ h => h, fun _ h _ => h, le_refl _⟩

theorem holds_value (hv : Dimacs.Extends v assignment) (hc : Dimacs.Holds v clause)
    (hnot : ∀ lit ∈ clause, Dimacs.litValue assignment lit ≠ some true) :
    ∃ lit ∈ clause, Dimacs.litValue assignment lit = none ∧ Dimacs.litHolds v lit = true := by
  obtain ⟨lit, hmem, hlit⟩ := hc
  cases hval : Dimacs.litValue assignment lit with
  | none => exact ⟨lit, hmem, hval, hlit⟩
  | some b =>
    have := Dimacs.litHolds_of_value hv hval
    rw [hlit] at this
    exact absurd (this ▸ hval) (hnot lit hmem)

theorem propagateClause_answers (h : InRange assignment clause) :
    Answers (propagateClause assignment clause) fun r => match r with
      | none => ∀ v, Dimacs.Extends v assignment → ¬ Dimacs.Holds v clause
      | some (next, unit) => Narrows assignment next [clause] ∧
          (unit = true → next.count none < assignment.count none) ∧
          (unit = false → next = assignment ∧ Idle assignment clause) := by
  rw [propagateClause]
  have hstart : Scan.Of assignment [] (.open 0 0) := ⟨rfl, by simp, by simp⟩
  have hscan := scan_answers h hstart
  rw [List.nil_append] at hscan
  refine hscan.bind fun r hr => ?_
  cases r with
  | satisfied => exact answers_ok ⟨.refl, by simp, fun _ => ⟨rfl, .inl hr⟩⟩
  | «open» unassigned last =>
    obtain ⟨hn, hfalse, hlast⟩ := hr
    dsimp only
    by_cases h0 : unassigned = 0
    · rw [if_pos h0]
      refine answers_ok fun v hv hc => ?_
      obtain ⟨lit, hmem, hval, -⟩ := holds_value hv hc hfalse
      have : lit ∈ clause.filter fun lit => Dimacs.litValue assignment lit = none := by
        simp [hmem, hval]
      have := List.length_pos_of_mem this
      omega
    · rw [if_neg h0]
      obtain ⟨hmem, hopen⟩ := hlast (by omega)
      by_cases h1 : unassigned = 1
      · rw [if_pos h1]
        -- the one open literal is the only one that can make the clause true
        have honly : ∀ v, Dimacs.Extends v assignment → Dimacs.Holds v clause →
            Dimacs.litHolds v last = true := by
          intro v hv hc
          obtain ⟨lit, hlmem, hval, hlit⟩ := holds_value hv hc hfalse
          obtain ⟨one, hone⟩ := List.length_eq_one_iff.mp (hn.symm.trans h1)
          have hin : ∀ l ∈ clause, Dimacs.litValue assignment l = none → l = one := by
            intro l hl hlv
            rw [← List.mem_singleton, ← hone]
            simp [hl, hlv]
          rwa [hin last hmem hopen, ← hin lit hlmem hval]
        obtain ⟨hne, hlt⟩ := h last hmem
        refine (assignLit_answers hne hlt).bind fun r hr => ?_
        cases r with
        | none =>
          refine answers_ok fun v hv hc => ?_
          have := honly v hv hc
          rw [hr v hv] at this
          cases this
        | some next =>
          obtain ⟨hlen, hext, hlt', hle⟩ := hr
          refine answers_ok ⟨⟨hlen, fun v hv => ((hext v).mp hv).1, ?_, hle⟩,
            fun _ => hlt' hopen, by simp⟩
          intro v hv hm
          exact (hext v).mpr ⟨hv, honly v hv (hm clause (by simp))⟩
      · rw [if_neg h1]
        exact answers_ok ⟨.refl, by simp, fun _ => ⟨rfl, .inr (by omega)⟩⟩

/-! ## Unit propagation -/

theorem InRange.of_length (h : InRange assignment clause) (hlen : next.length = assignment.length) :
    InRange next clause :=
  fun lit hmem => ⟨(h lit hmem).1, hlen ▸ (h lit hmem).2⟩

theorem Narrows.cons {third : Partial} (h : Narrows assignment next [clause])
    (h' : Narrows next third clauses) : Narrows assignment third (clause :: clauses) where
  length_eq := h'.length_eq.trans h.length_eq
  extends_of v hv := h.extends_of v (h'.extends_of v hv)
  keeps v hv hm := by
    obtain ⟨hc, hcs⟩ := Dimacs.models_cons.mp hm
    exact h'.keeps v (h.keeps v hv (by simpa using hc)) hcs
  count_le := h'.count_le.trans h.count_le

theorem Narrows.trans {third : Partial} (h : Narrows assignment next clauses)
    (h' : Narrows next third clauses) : Narrows assignment third clauses where
  length_eq := h'.length_eq.trans h.length_eq
  extends_of v hv := h.extends_of v (h'.extends_of v hv)
  keeps v hv hm := h'.keeps v (h.keeps v hv hm) hm
  count_le := h'.count_le.trans h.count_le

/-- One pass: a conflict only where no valuation is left, else the same valuations; and a pass
that changed nothing leaves every clause idle. -/
theorem propagatePass_answers (changed : Bool) (h : ∀ clause ∈ clauses, InRange assignment clause) :
    Answers (propagatePass clauses assignment changed) fun r => match r with
      | none => ∀ v, Dimacs.Extends v assignment → ¬ Dimacs.Models v clauses
      | some (next, changed') => Narrows assignment next clauses ∧
          (changed' = true → changed = false → next.count none < assignment.count none) ∧
          (changed' = false →
            changed = false ∧ next = assignment ∧ ∀ clause ∈ clauses, Idle assignment clause) := by
  induction clauses generalizing assignment changed with
  | nil => exact answers_ok ⟨.refl, fun h h' => by simp [h'] at h, fun h => ⟨h, rfl, by simp⟩⟩
  | cons clause rest ih =>
    rw [propagatePass]
    refine (propagateClause_answers (h clause (by simp))).bind fun r hr => ?_
    cases r with
    | none =>
      refine answers_ok fun v hv hm => ?_
      exact hr v hv (Dimacs.models_cons.mp hm).1
    | some p =>
      obtain ⟨next, unit⟩ := p
      obtain ⟨hnarrow, hunit, hidle⟩ := hr
      have hrest : ∀ c ∈ rest, InRange next c :=
        fun c hc => (h c (by simp [hc])).of_length hnarrow.length_eq
      refine (ih (changed || unit) hrest).mono fun r hr => ?_
      cases r with
      | none =>
        intro v hv hm
        obtain ⟨hc, hcs⟩ := Dimacs.models_cons.mp hm
        exact hr v (hnarrow.keeps v hv (by simpa using hc)) hcs
      | some p =>
        obtain ⟨third, changed'⟩ := p
        obtain ⟨hnarrow', hchanged, hidle'⟩ := hr
        refine ⟨hnarrow.cons hnarrow', fun htrue hfalse => ?_, fun hfalse => ?_⟩
        · subst hfalse
          cases unit with
          | true => exact lt_of_le_of_lt hnarrow'.count_le (hunit rfl)
          | false =>
            obtain ⟨rfl, -⟩ := hidle rfl
            exact hchanged htrue rfl
        · obtain ⟨hsame, rfl, hall⟩ := hidle' hfalse
          obtain ⟨hchanged, hunit⟩ := Bool.or_eq_false_iff.mp hsame
          obtain ⟨rfl, hc⟩ := hidle hunit
          exact ⟨hchanged, rfl, List.forall_mem_cons.mpr ⟨hc, hall⟩⟩

namespace DpllSolver

variable {self : DpllSolver} {rounds : Nat}

/-- No deadline and no token, and clauses and scores that fit the number of variables. -/
structure Ready (solver : DpllSolver) : Prop where
  check : solver.checkDeadline = ok ()
  scores_length : solver.scores.length = solver.numVars + 1
  clauses_le : ∀ clause ∈ solver.clauses, ∀ lit ∈ clause, lit ≠ 0 ∧ lit.natAbs ≤ solver.numVars

theorem Ready.inRange (hs : self.Ready) (hlen : assignment.length = self.numVars + 1) :
    ∀ clause ∈ self.clauses, InRange assignment clause := by
  intro clause hc lit hl
  obtain ⟨hne, hle⟩ := hs.clauses_le clause hc lit hl
  exact ⟨hne, by omega⟩

/-- **Unit propagation loses no model.** It ends, in a round for each open variable and one more;
it reports a conflict only where no valuation is left, and otherwise keeps all of them and leaves
every clause idle. -/
theorem unitPropagate_answers (hs : self.Ready) (hlen : assignment.length = self.numVars + 1)
    (hrounds : assignment.count none < rounds) :
    Answers (self.unitPropagate rounds assignment) fun r => match r with
      | none => ∀ v, Dimacs.Extends v assignment → ¬ Dimacs.Models v self.clauses
      | some next => Narrows assignment next self.clauses ∧
          ∀ clause ∈ self.clauses, Idle next clause := by
  induction rounds generalizing assignment with
  | zero => omega
  | succ rounds ih =>
    rw [unitPropagate, hs.check, ok_bind]
    refine (propagatePass_answers false (hs.inRange hlen)).bind fun r hr => ?_
    cases r with
    | none => exact answers_ok hr
    | some p =>
      obtain ⟨next, changed⟩ := p
      obtain ⟨hnarrow, hchanged, hidle⟩ := hr
      cases changed with
      | false =>
        obtain ⟨-, rfl, hall⟩ := hidle rfl
        exact answers_ok ⟨hnarrow, hall⟩
      | true =>
        have hlt := hchanged rfl rfl
        refine (ih (hnarrow.length_eq.trans hlen) (by omega)).mono fun r hr => ?_
        cases r with
        | none => exact fun v hv hm => hr v (hnarrow.keeps v hv hm) hm
        | some third => exact ⟨hnarrow.trans hr.1, hr.2⟩

/-! ## The search -/

theorem allClausesSatisfied_answers (hs : self.Ready)
    (hlen : assignment.length = self.numVars + 1) :
    Answers (self.allClausesSatisfied assignment) fun all => all = true →
      ∀ clause ∈ self.clauses, ∃ lit ∈ clause, Dimacs.litValue assignment lit = some true := by
  refine answers_allM fun clause hc => ?_
  refine answers_anyM fun lit hl => ?_
  rw [litValue_eq (hs.inRange hlen clause hc lit hl).2, ok_bind]
  exact answers_ok (by simp)

theorem chooseVar_answers (hs : self.Ready) (hlen : assignment.length = self.numVars + 1) :
    Answers (self.chooseVar assignment) fun r => match r with
      | none => ∀ var, 1 ≤ var → var ≤ self.numVars → assignment[var]? ≠ some none
      | some var => assignment[var]? = some none := by
  rw [chooseVar]
  refine (answers_foldlM (fun (done : List Nat) best => match best with
    | none => ∀ var ∈ done, assignment[var]? ≠ some none
    | some (var, _) => assignment[var]? = some none) (by simp) ?_).bind fun best hbest => ?_
  · intro var hvar done best hbest
    have hle : var < self.numVars + 1 := by
      have := (List.mem_range'_1.mp hvar).2
      omega
    obtain ⟨value, hvalue⟩ : ∃ value, assignment[var]? = some value :=
      ⟨_, List.getElem?_eq_getElem (hlen ▸ hle)⟩
    obtain ⟨score, hscore⟩ : ∃ score, self.scores[var]? = some score :=
      ⟨_, List.getElem?_eq_getElem (hs.scores_length ▸ hle)⟩
    rw [hvalue, expect_some, ok_bind]
    cases value with
    | some value =>
      refine answers_ok ?_
      cases best with
      | some best => exact hbest
      | none =>
        intro i hi
        rcases List.mem_append.mp hi with hi | hi
        · exact hbest i hi
        · rw [List.mem_singleton.mp hi, hvalue]
          simp
    | none =>
      rw [hscore, expect_some]
      cases best with
      | none => exact answers_ok hvalue
      | some best =>
        obtain ⟨choice, high⟩ := best
        by_cases hle : high ≤ score
        · simp only [ok_bind, if_pos hle]
          exact answers_ok hvalue
        · simp only [ok_bind, if_neg hle]
          exact answers_ok hbest
  · cases best with
    | none =>
      refine answers_ok fun var h1 hle => hbest var ?_
      rw [List.mem_range'_1]
      omega
    | some best => exact answers_ok hbest

/-- **The search is exact.** With more rounds than there are open variables it ends. A result makes
every clause true under every valuation that agrees with it; without a result no valuation that
agrees with the assignment makes every clause true. -/
theorem search_answers (hs : self.Ready) (hlen : assignment.length = self.numVars + 1)
    (hrounds : assignment.count none < rounds) :
    Answers (self.search rounds assignment) fun r => match r with
      | none => ∀ v, Dimacs.Extends v assignment → ¬ Dimacs.Models v self.clauses
      | some model => model.length = self.numVars + 1 ∧
          ∀ v, Dimacs.Extends v model → Dimacs.Extends v assignment ∧
            Dimacs.Models v self.clauses := by
  induction rounds generalizing assignment with
  | zero => omega
  | succ rounds ih =>
    rw [search, hs.check, ok_bind]
    refine (unitPropagate_answers hs hlen hrounds).bind fun r hr => ?_
    cases r with
    | none => exact answers_ok hr
    | some next =>
      obtain ⟨hnarrow, hidle⟩ := hr
      have hlen' : next.length = self.numVars + 1 := hnarrow.length_eq.trans hlen
      have hmodel : (∀ clause ∈ self.clauses,
          ∃ lit ∈ clause, Dimacs.litValue next lit = some true) →
          next.length = self.numVars + 1 ∧ ∀ v, Dimacs.Extends v next →
            Dimacs.Extends v assignment ∧ Dimacs.Models v self.clauses := by
        intro hall
        refine ⟨hlen', fun v hv => ⟨hnarrow.extends_of v hv, fun clause hc => ?_⟩⟩
        obtain ⟨lit, hmem, hval⟩ := hall clause hc
        exact ⟨lit, hmem, Dimacs.litHolds_of_value hv hval⟩
      refine (allClausesSatisfied_answers hs hlen').bind fun all hall => ?_
      cases all with
      | true => exact answers_ok (hmodel (hall rfl))
      | false =>
        refine (chooseVar_answers hs hlen').bind fun r hr => ?_
        cases r with
        | none =>
          -- no variable is open, so the clauses, all idle, are all satisfied
          refine answers_ok (hmodel fun clause hc => ?_)
          refine (hidle clause hc).satisfied (hs.inRange hlen' clause hc) fun lit hl => ?_
          obtain ⟨hne, hle⟩ := hs.clauses_le clause hc lit hl
          exact hr _ (by omega) hle
        | some var =>
          have hbranch : ∀ value, Answers (self.search rounds (next.set var (some value)))
              fun r => match r with
                | none => ∀ v, Dimacs.Extends v next → v var = value →
                    ¬ Dimacs.Models v self.clauses
                | some model => model.length = self.numVars + 1 ∧
                    ∀ v, Dimacs.Extends v model → Dimacs.Extends v assignment ∧
                      Dimacs.Models v self.clauses := by
            intro value
            have hlt := Dimacs.count_set_lt (b := value) hr
            have hle := hnarrow.count_le
            refine (ih (by simpa using hlen') (by omega)).mono fun r hr' => ?_
            cases r with
            | none => exact fun v hv hval => hr' v ((Dimacs.extends_set hr).mpr ⟨hv, hval⟩)
            | some model =>
              refine ⟨hr'.1, fun v hv => ?_⟩
              obtain ⟨hext, hm⟩ := hr'.2 v hv
              exact ⟨hnarrow.extends_of v ((Dimacs.extends_set hr).mp hext).1, hm⟩
          refine (hbranch true).bind fun r htrue => ?_
          cases r with
          | some model => exact answers_ok htrue
          | none =>
            refine (hbranch false).mono fun r hfalse => ?_
            cases r with
            | some model => exact hfalse
            | none =>
              intro v hv hm
              have hv' := hnarrow.keeps v hv hm
              cases hval : v var with
              | true => exact htrue v hv' hval hm
              | false => exact hfalse v hv' hval hm

/-! ## The solver -/

/-- The values that `solve` returns, as a valuation of the variables `1, 2, …`. -/
def valuation (values : List Bool) (var : Nat) : Bool := values.getD (var - 1) false

theorem new_answers {numVars : Nat}
    (hc : ∀ clause ∈ clauses, ∀ lit ∈ clause, lit ≠ 0 ∧ lit.natAbs ≤ numVars) :
    Answers (new numVars clauses none none) fun solver =>
      solver.Ready ∧ solver.numVars = numVars ∧ solver.clauses = clauses := by
  rw [new]
  refine (answers_foldlM (fun _ (scores : List Nat) => scores.length = numVars + 1)
    (by simp) ?_).bind fun scores hscores => ?_
  · intro lit hlit _ scores hscores
    obtain ⟨clause, hmem, hl⟩ := List.mem_flatten.mp hlit
    have hle := (hc clause hmem lit hl).2
    rw [List.getElem?_eq_getElem (by omega), expect_some]
    exact answers_ok (by simpa using hscores)
  · exact answers_ok ⟨⟨rfl, hscores, hc⟩, rfl, rfl⟩

/-- After the assumptions `done`: the assignment stands for the valuations that make them true, or
there are none. -/
def Assumed (size : Nat) (done : List Int) : Option Partial → Prop
  | none => ∀ v, ¬ ∀ lit ∈ done, Dimacs.litHolds v lit = true
  | some assignment => assignment.length = size ∧
      ∀ v, Dimacs.Extends v assignment ↔ ∀ lit ∈ done, Dimacs.litHolds v lit = true

theorem assume_answers {assumptions : List Int} {size : Nat}
    (ha : ∀ lit ∈ assumptions, lit ≠ 0 ∧ lit.natAbs < size) :
    Answers (assumptions.foldlM (fun (assignment : Option Partial) lit => match assignment with
      | none => pure none
      | some assignment => assignLit assignment lit) (some (List.replicate size none)) :
        Result (Option Partial)) (Assumed size assumptions) := by
  refine answers_foldlM (Assumed size)
    ⟨by simp, fun v => by simp [Dimacs.extends_replicate]⟩ ?_
  intro lit hlit done r hr
  have hsnoc : ∀ v, (∀ l ∈ done ++ [lit], Dimacs.litHolds v l = true) ↔
      (∀ l ∈ done, Dimacs.litHolds v l = true) ∧ Dimacs.litHolds v lit = true := by
    simp [or_imp, forall_and]
  cases r with
  | none => exact answers_ok fun v hv => hr v ((hsnoc v).mp hv).1
  | some assignment =>
    obtain ⟨hlen, hext⟩ := hr
    obtain ⟨hne, hlt⟩ := ha lit hlit
    refine (assignLit_answers hne (hlen ▸ hlt)).mono fun r hr => ?_
    cases r with
    | none =>
      intro v hv
      obtain ⟨hdone, hl⟩ := (hsnoc v).mp hv
      rw [hr v ((hext v).mpr hdone)] at hl
      cases hl
    | some next =>
      obtain ⟨hlen', hext', -⟩ := hr
      refine ⟨hlen'.trans hlen, fun v => ?_⟩
      rw [hext', hext, hsnoc]

/-- A model of the search, completed with false, is a valuation that agrees with it. -/
theorem values_answers {model : Partial} {numVars : Nat} (hlen : model.length = numVars + 1) :
    Answers ((List.range' 1 numVars).mapM fun var => do
      let value ← (expect model[var]? : Result (Option Bool))
      pure (value.getD false)) fun values => values.length = numVars ∧
        ∀ i b, 1 ≤ i → model[i]? = some (some b) → valuation values i = b := by
  have hread : ∀ var ∈ List.range' 1 numVars, Answers (do
      let value ← (expect model[var]? : Result (Option Bool))
      pure (value.getD false)) fun b => b = (model.getD var none).getD false := by
    intro var hvar
    have hlt : var < model.length := by
      have := (List.mem_range'_1.mp hvar).2
      omega
    rw [List.getElem?_eq_getElem hlt, expect_some, List.getD_eq_getElem _ _ hlt]
    exact answers_ok rfl
  refine (answers_mapM hread).mono fun values hvalues => ?_
  have hmap : values = (List.range' 1 numVars).map fun var => (model.getD var none).getD false :=
    (List.forall₂_eq_eq_eq ▸ (List.forall₂_map_left_iff.mpr
      (hvalues.imp fun _ _ h => h.symm)) : _ = _).symm
  subst hmap
  refine ⟨by simp, fun i b h1 hi => ?_⟩
  obtain ⟨hlt, hib⟩ := List.getElem?_eq_some_iff.mp hi
  rw [valuation, List.getD_eq_getElem _ _ (by simp; omega)]
  simp [Nat.add_sub_cancel' h1, List.getElem?_eq_getElem hlt, hib]

/-- The answer says what is true of the clauses under the assumptions; `Unknown` says nothing. -/
def RightFor (numVars : Nat) (clauses : List Clause) (assumptions : List Int) : SatResult → Prop
  | .sat values => values.length = numVars ∧ Dimacs.Models (valuation values) clauses ∧
      ∀ lit ∈ assumptions, Dimacs.litHolds (valuation values) lit = true
  | .unsat => ∀ v, ¬ (Dimacs.Models v clauses ∧ ∀ lit ∈ assumptions, Dimacs.litHolds v lit = true)
  | .unknown _ => False

/-- **The solver is exact and ends.** Over any clauses and assumptions on the variables
`1, …, num_vars`, without a deadline or a token, the solver is built and, given a round for each
entry of the assignment and one more, answers. `Sat` comes with values that make every clause and
every assumption true, `Unsat` where no valuation does, and it never answers `Unknown`. -/
theorem dpll_is_exact {numVars : Nat} {assumptions : List Int}
    (hc : ∀ clause ∈ clauses, ∀ lit ∈ clause, lit ≠ 0 ∧ lit.natAbs ≤ numVars)
    (ha : ∀ lit ∈ assumptions, lit ≠ 0 ∧ lit.natAbs ≤ numVars) (hrounds : numVars + 1 < rounds) :
    ∃ solver result, new numVars clauses none none = ok solver ∧
      solver.solve rounds assumptions = ok result ∧
      RightFor numVars clauses assumptions result := by
  obtain ⟨solver, hnew, hs, rfl, rfl⟩ := new_answers hc
  refine ⟨solver, ?_⟩
  suffices h : Answers (solver.solve rounds assumptions)
      (RightFor solver.numVars solver.clauses assumptions) by
    obtain ⟨result, hresult, hprop⟩ := h
    exact ⟨result, hnew, hresult, hprop⟩
  rw [solve]
  refine (assume_answers fun lit hl => ⟨(ha lit hl).1, Nat.lt_succ_of_le (ha lit hl).2⟩).bind
    fun r hr => ?_
  cases r with
  | none => exact answers_ok fun v hv => hr v hv.2
  | some assignment =>
    obtain ⟨hlen, hext⟩ := hr
    have hcount : assignment.count none < rounds := by
      have := List.count_le_length (a := (none : Option Bool)) (l := assignment)
      omega
    obtain ⟨r, hsearch, hr⟩ := search_answers hs hlen hcount
    dsimp only
    rw [hsearch]
    cases r with
    | none => exact answers_ok fun v hv => hr v ((hext v).mpr hv.2) hv.1
    | some model =>
      refine (values_answers hr.1).bind fun values hvalues => answers_ok ?_
      obtain ⟨hlength, hval⟩ := hvalues
      -- index 0 is no variable: a valuation that agrees with the model may differ there
      let v : Nat → Bool := fun i =>
        if i = 0 then (model.getD 0 none).getD false else valuation values i
      have hv : Dimacs.Extends v model := by
        intro i b hi
        obtain rfl | hpos := Nat.eq_zero_or_pos i
        · simp [v, List.getD_eq_getElem?_getD, hi]
        · simp only [v, if_neg hpos.ne']
          exact hval i b hpos hi
      have heq : ∀ lit : Int, lit ≠ 0 → v lit.natAbs = valuation values lit.natAbs :=
        fun lit hne => if_neg (Int.natAbs_ne_zero.mpr hne)
      obtain ⟨hassigned, hmodels⟩ := hr.2 v hv
      refine ⟨hlength, ?_, fun lit hl => ?_⟩
      · exact (Dimacs.models_congr fun c hcm l hl => heq l (hc c hcm l hl).1).mp hmodels
      · have := (hext v).mp hassigned lit hl
        rwa [Dimacs.litHolds, heq lit (ha lit hl).1] at this

theorem dpll_is_exact_two : ∃ solver result,
    new 2 [[1, -2], [2, 2], [1, -1]] none none = ok solver ∧ solver.solve 4 [-1] = ok result ∧
      RightFor 2 [[1, -2], [2, 2], [1, -1]] [-1] result :=
  dpll_is_exact (by decide) (by decide) (by decide)

example : (new 2 [[1, -2], [2, 2], [1, -1]] none none >>= fun solver => solver.solve 4 [-1]) =
    ok .unsat := by decide

end DpllSolver

end Sat
end Qfbv
end SmtServer
