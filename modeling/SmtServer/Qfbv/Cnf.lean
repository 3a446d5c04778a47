import SmtServer.Lib.Dimacs
import SmtServer.Qfbv.Gates

/-!
# `cnf.rs` — gates as clauses

Every gate gets a variable, one more than its id, and clauses that define its value from those of
its operands; a last clause of one literal asserts the output. A clause is sorted by variable and
deduplicated, and dropped when it holds anyway, before it is kept.

Literals are `i32`. The index of a gate is cast to one (`as i32` drops the high bits), and adding,
negating and taking the absolute value are unchecked, so they may panic. All is well below
`2 ^ 31 - 1`, and **only there**: `tseitin_is_exact_iff` says exactly when the encoding is right.
-/

namespace SmtServer
namespace Qfbv

open Lib Outcome
open Lib.Dimacs (Clause)

/-- Clauses over the variables `1, …, num_vars`. -/
structure Cnf where
  numVars : Nat
  clauses : List Clause
  deriving Repr, DecidableEq

namespace Cnf

/-- `n as i32`. -/
def asI32 (n : Nat) : Int := Int.bmod n (2 ^ 32)

/-- The result of unchecked arithmetic on `i32`. -/
def i32 (n : Int) : Result Int := if -2 ^ 31 ≤ n ∧ n < 2 ^ 31 then ok n else panic

def lit (gate : GateId) : Result Int := i32 (asI32 gate + 1)

/-- `sort_unstable_by_key(|lit| lit.abs())`. Literals of one variable may come in any order; on so
few elements the sort is by insertion. -/
def sortByAbs (clause : Clause) : Clause := clause.insertionSort fun a b => a.natAbs ≤ b.natAbs

/-- `Vec::dedup`: equal neighbours become one. -/
def dedup : Clause → Clause
  | [] => []
  | [a] => [a]
  | a :: b :: rest => if a = b then dedup (b :: rest) else a :: dedup (b :: rest)

/-- The test on `clause.windows(2)`. -/
def hasComplement (clause : Clause) : Bool :=
  (clause.zip clause.tail).any fun pair => pair.1.natAbs = pair.2.natAbs ∧ pair.1 = -pair.2

/-- A sort of two or more elements takes the absolute value of each. -/
def pushClause (clauses : List Clause) (clause : Clause) : Result (List Clause) := do
  if 2 ≤ clause.length then
    clause.forM fun lit => do
      let _ ← i32 lit.natAbs
      pure ()
  let clause := dedup (sortByAbs clause)
  if hasComplement clause then pure clauses else pure (clauses ++ [clause])

/-- The clauses that are pushed for a gate whose literal is `g`. -/
def gateClauses (g : Int) (gate : GateKind) : Result (List Clause) := do
  match gate with
  | .const value => return [[← if value then pure g else i32 (-g)]]
  | .input _ => pure []
  | .not a =>
    let a ← lit a
    return [[g, a], [← i32 (-g), ← i32 (-a)]]
  | .and a b =>
    let a ← lit a
    let b ← lit b
    let notG ← i32 (-g)
    return [[notG, a], [notG, b], [g, ← i32 (-a), ← i32 (-b)]]
  | .or a b =>
    let a ← lit a
    let b ← lit b
    let notA ← i32 (-a)
    let notB ← i32 (-b)
    return [[g, notA], [g, notB], [← i32 (-g), a, b]]
  | .xor a b =>
    let a ← lit a
    let b ← lit b
    let notA ← i32 (-a)
    let notB ← i32 (-b)
    let notG ← i32 (-g)
    return [[notA, notB, notG], [notA, b, g], [a, notB, g], [a, b, notG]]
  | .mux sel t f =>
    let s ← lit sel
    let t ← lit t
    let f ← lit f
    let notS ← i32 (-s)
    let notG ← i32 (-g)
    return [[notS, ← i32 (-t), g], [notS, t, notG], [s, ← i32 (-f), g], [s, f, notG]]

/-- A token is cancelled or not, a deadline has passed or not. -/
def checkLimits (deadline cancellation : Option Bool) : Result Unit :=
  if cancellation = some true then .err .timeout
  else if deadline = some true then .err .timeout
  else pure ()

/-- One round of the loop over the gates. -/
def encodeGate (deadline cancellation : Option Bool) (clauses : List Clause) (gate : GateKind)
    (index : Nat) : Result (List Clause) := do
  if index % 4096 = 0 then checkLimits deadline cancellation
  (← gateClauses (asI32 (index + 1)) gate).foldlM pushClause clauses

def encodeGates (gates : List GateKind) (deadline cancellation : Option Bool) :
    Result (List Clause) :=
  gates.zipIdx.foldlM (fun clauses (gate, index) =>
    encodeGate deadline cancellation clauses gate index) []

def encodeWithLimits (s : GateArena) (assertion : GateId) (deadline cancellation : Option Bool) :
    Result Cnf := do
  let clauses ← encodeGates s.gates deadline cancellation
  let clauses ← pushClause clauses [← lit assertion]
  pure { numVars := s.gates.length, clauses }

/-- `encode_with_deadline(gates, assertion, None).expect(..)`. -/
def encode (s : GateArena) (assertion : GateId) : Result Cnf :=
  match encodeWithLimits s assertion none none with
  | .ok cnf => pure cnf
  | .err _ => .panic
  | .panic => .panic

/-! ## A clause keeps its meaning -/

variable {clause : Clause} {clauses : List Clause} {v : Nat → Bool} {n : Int}

theorem mem_dedup {a : Int} : a ∈ dedup clause ↔ a ∈ clause := by
  induction clause using dedup.induct with
  | case1 => rfl
  | case2 a => rfl
  | case3 b rest ih =>
    rw [dedup, if_pos rfl, ih]
    simp
  | case4 b c rest hne ih =>
    rw [dedup, if_neg hne, List.mem_cons, ih, ← List.mem_cons]

/-- The clause as it is kept, or nothing. -/
def kept (clause : Clause) : List Clause :=
  if hasComplement (dedup (sortByAbs clause)) then [] else [dedup (sortByAbs clause)]

theorem mem_normal {a : Int} : a ∈ dedup (sortByAbs clause) ↔ a ∈ clause := by
  rw [mem_dedup, sortByAbs, (List.perm_insertionSort _ clause).mem_iff]

/-- **Sorting, deduplication and the removal of tautologies change no model.** -/
theorem models_kept (h : ∀ lit ∈ clause, lit ≠ 0) :
    Dimacs.Models v (kept clause) ↔ Dimacs.Holds v clause := by
  rw [kept]
  by_cases hc : hasComplement (dedup (sortByAbs clause)) = true
  · rw [if_pos hc]
    obtain ⟨⟨a, b⟩, hmem, hab⟩ := List.any_eq_true.mp hc
    obtain ⟨-, rfl⟩ : _ ∧ a = -b := by simpa using hab
    obtain ⟨ha, hb⟩ := List.of_mem_zip hmem
    have hb' : b ∈ clause := mem_normal.mp (List.mem_of_mem_tail hb)
    refine ⟨fun _ => ?_, fun _ => Dimacs.models_nil⟩
    exact Dimacs.holds_of_complement (h b hb') hb' (mem_normal.mp ha)
  · rw [if_neg hc, Dimacs.models_cons]
    simp only [Dimacs.models_nil, and_true]
    exact Dimacs.holds_congr fun _ => mem_normal

theorem i32_of_natAbs (h : n.natAbs < 2 ^ 31) : i32 n = ok n := if_pos (by omega)

theorem pushClause_eq (h : ∀ lit ∈ clause, lit.natAbs < 2 ^ 31) :
    pushClause clauses clause = ok (clauses ++ kept clause) := by
  have hforM : (clause.forM fun lit => do
      let _ ← i32 lit.natAbs
      pure ()) = (ok () : Result Unit) := by
    rw [show clause.forM _ = forM clause _ from rfl, forM_eq_ok]
    intro lit hl
    rw [i32_of_natAbs (by rw [Int.natAbs_natCast]; exact h lit hl)]
    rfl
  have hend : ∀ found : Bool, (if found then pure clauses
      else pure (clauses ++ [dedup (sortByAbs clause)]) : Result (List Clause)) =
        ok (clauses ++ if found then [] else [dedup (sortByAbs clause)]) := by
    intro found
    cases found <;> simp
  rw [pushClause, kept]
  by_cases hlen : 2 ≤ clause.length
  · rw [if_pos hlen, hforM, ok_bind]
    exact hend _
  · rw [if_neg hlen]
    exact hend _

theorem foldlM_pushClause {raw : List Clause}
    (h : ∀ clause ∈ raw, ∀ lit ∈ clause, lit.natAbs < 2 ^ 31) :
    raw.foldlM pushClause clauses = ok (clauses ++ raw.flatMap kept) := by
  induction raw generalizing clauses with
  | nil => simp
  | cons clause raw ih =>
    rw [List.foldlM_cons, pushClause_eq (h clause (by simp)), ok_bind,
      ih fun c hc => h c (by simp [hc])]
    simp

theorem models_flatMap_kept {raw : List Clause} (h : ∀ clause ∈ raw, ∀ lit ∈ clause, lit ≠ 0) :
    Dimacs.Models v (raw.flatMap kept) ↔ Dimacs.Models v raw := by
  induction raw with
  | nil => rfl
  | cons clause raw ih =>
    rw [List.flatMap_cons, Dimacs.models_append, models_kept (h clause (by simp)),
      ih fun c hc => h c (by simp [hc]), Dimacs.models_cons]

/-! ## The clauses of one gate -/

/-- The literal of a row whose number is small enough. -/
def litOf (row : Nat) : Int := row + 1

theorem natAbs_litOf (row : Nat) : (litOf row).natAbs = row + 1 := by
  rw [litOf]
  omega

@[simp] theorem litHolds_litOf (row : Nat) : Dimacs.litHolds v (litOf row) = v (row + 1) := by
  rw [Dimacs.litHolds, natAbs_litOf, if_pos (by rw [litOf]; omega)]

@[simp] theorem litHolds_neg_litOf (row : Nat) :
    Dimacs.litHolds v (-litOf row) = !v (row + 1) := by
  rw [Dimacs.litHolds_neg (by rw [litOf]; omega), litHolds_litOf]

theorem asI32_of_lt {row : Nat} (h : row < 2 ^ 31) : asI32 row = row := by
  unfold asI32
  exact Int.bmod_eq_of_le (by omega) (by omega)

variable {row : Nat} {gate : GateKind}

theorem asI32_succ (h : row + 1 < 2 ^ 31) : asI32 (row + 1) = litOf row := by
  rw [asI32_of_lt h]
  exact Nat.cast_add_one row

theorem lit_of_lt (h : row + 1 < 2 ^ 31) : lit row = ok (litOf row) := by
  rw [lit, asI32_of_lt (by omega)]
  exact i32_of_natAbs (by rw [← litOf, natAbs_litOf]; exact h)

theorem i32_neg_litOf (h : row + 1 < 2 ^ 31) : i32 (-litOf row) = ok (-litOf row) :=
  i32_of_natAbs (by rw [Int.natAbs_neg, natAbs_litOf]; exact h)

theorem lits_of_lt {x : Nat} (hx : x < row) (h : row + 1 < 2 ^ 31) :
    lit x = ok (litOf x) ∧ i32 (-litOf x) = ok (-litOf x) :=
  have hlt : x + 1 < 2 ^ 31 := by omega
  ⟨lit_of_lt hlt, i32_neg_litOf hlt⟩

/-- The clauses of a gate, where no number is too great. -/
def definingClauses (row : Nat) (gate : GateKind) : List Clause :=
  let g := litOf row
  match gate with
  | .const value => [[if value then g else -g]]
  | .input _ => []
  | .not a => [[g, litOf a], [-g, -litOf a]]
  | .and a b => [[-g, litOf a], [-g, litOf b], [g, -litOf a, -litOf b]]
  | .or a b => [[g, -litOf a], [g, -litOf b], [-g, litOf a, litOf b]]
  | .xor a b => [[-litOf a, -litOf b, -g], [-litOf a, litOf b, g], [litOf a, -litOf b, g],
      [litOf a, litOf b, -g]]
  | .mux sel t f => [[-litOf sel, -litOf t, g], [-litOf sel, litOf t, -g],
      [litOf sel, -litOf f, g], [litOf sel, litOf f, -g]]

theorem gateClauses_eq (hrow : row + 1 < 2 ^ 31) (hops : ∀ x ∈ gate.operands, x < row) :
    gateClauses (asI32 (row + 1)) gate = ok (definingClauses row gate) := by
  have hlit : ∀ x ∈ gate.operands, lit x = ok (litOf x) ∧ i32 (-litOf x) = ok (-litOf x) :=
    fun x hx => lits_of_lt (hops x hx) hrow
  have hneg := i32_neg_litOf hrow
  rw [asI32_succ hrow]
  cases gate with
  | const value =>
    cases value with
    | true => rfl
    | false => rw [gateClauses, hneg]; rfl
  | input id => rfl
  | not a =>
    obtain ⟨ha, hna⟩ := hlit a (.head _)
    rw [gateClauses, ha, ok_bind, hneg, ok_bind, hna, ok_bind]
    rfl
  | and a b =>
    obtain ⟨ha, hna⟩ := hlit a (.head _)
    obtain ⟨hb, hnb⟩ := hlit b (.tail _ (.head _))
    rw [gateClauses, ha, ok_bind, hb, ok_bind, hneg, ok_bind, hna, ok_bind, hnb, ok_bind]
    rfl
  | or a b | xor a b =>
    obtain ⟨ha, hna⟩ := hlit a (.head _)
    obtain ⟨hb, hnb⟩ := hlit b (.tail _ (.head _))
    rw [gateClauses, ha, ok_bind, hb, ok_bind, hna, ok_bind, hnb, ok_bind, hneg, ok_bind]
    rfl
  | mux sel t f =>
    obtain ⟨hs, hns⟩ := hlit sel (.head _)
    obtain ⟨ht, hnt⟩ := hlit t (.tail _ (.head _))
    obtain ⟨hf, hnf⟩ := hlit f (.tail _ (.tail _ (.head _)))
    rw [gateClauses, hs, ok_bind, ht, ok_bind, hf, ok_bind, hns, ok_bind, hneg, ok_bind, hnt,
      ok_bind, hnf, ok_bind]
    rfl

/-- **The clauses of a gate say its value**, whichever of its operands coincide. -/
theorem models_definingClauses (inputs : Nat → Bool) :
    Dimacs.Models v (definingClauses row gate) ↔
      ((∃ id, gate = .input id) ∨ v (row + 1) = gate.eval inputs fun x => v (x + 1)) := by
  cases gate with
  | const value => cases value <;> simp [definingClauses, Dimacs.Holds, GateKind.eval]
  | input id => simp [definingClauses]
  | not a =>
    simp only [definingClauses, Dimacs.models_cons, Dimacs.models_nil, Dimacs.Holds,
      List.mem_cons, List.not_mem_nil, or_false, exists_eq_or_imp, exists_eq_left,
      litHolds_litOf, litHolds_neg_litOf, GateKind.eval]
    cases v (row + 1) <;> cases v (a + 1) <;> simp
  | and a b | or a b | xor a b =>
    simp only [definingClauses, Dimacs.models_cons, Dimacs.models_nil, Dimacs.Holds,
      List.mem_cons, List.not_mem_nil, or_false, exists_eq_or_imp, exists_eq_left,
      litHolds_litOf, litHolds_neg_litOf, GateKind.eval]
    cases v (row + 1) <;> cases v (a + 1) <;> cases v (b + 1) <;> simp
  | mux sel t f =>
    simp only [definingClauses, Dimacs.models_cons, Dimacs.models_nil, Dimacs.Holds,
      List.mem_cons, List.not_mem_nil, or_false, exists_eq_or_imp, exists_eq_left,
      litHolds_litOf, litHolds_neg_litOf, GateKind.eval]
    cases v (row + 1) <;> cases v (sel + 1) <;> cases v (t + 1) <;> cases v (f + 1) <;> simp

/-- A literal of a row up to `row`. -/
def IsLit (row : Nat) (lit : Int) : Prop := ∃ x ≤ row, lit = litOf x ∨ lit = -litOf x

theorem IsLit.ne_zero {lit : Int} (h : IsLit row lit) : lit ≠ 0 := by
  obtain ⟨x, -, rfl | rfl⟩ := h <;> rw [litOf] <;> omega

theorem IsLit.natAbs_le {lit : Int} (h : IsLit row lit) : lit.natAbs ≤ row + 1 := by
  obtain ⟨x, hx, rfl | rfl⟩ := h
  · rw [natAbs_litOf]
    omega
  · rw [Int.natAbs_neg, natAbs_litOf]
    omega

theorem isLit_of_mem (hops : ∀ x ∈ gate.operands, x < row)
    (h : clause ∈ definingClauses row gate) : ∀ lit ∈ clause, IsLit row lit := by
  have hg : IsLit row (litOf row) := ⟨row, le_refl _, .inl rfl⟩
  have hng : IsLit row (-litOf row) := ⟨row, le_refl _, .inr rfl⟩
  have hp : ∀ x ∈ gate.operands, IsLit row (litOf x) := fun x hx => ⟨x, (hops x hx).le, .inl rfl⟩
  have hn : ∀ x ∈ gate.operands, IsLit row (-litOf x) := fun x hx => ⟨x, (hops x hx).le, .inr rfl⟩
  have key : ∀ clause ∈ definingClauses row gate, ∀ lit ∈ clause, IsLit row lit := by
    cases gate with
    | const value => cases value <;> simp [definingClauses, hg, hng]
    | _ => simp_all [definingClauses, GateKind.operands]
  exact key clause h

end Cnf
end Qfbv
end SmtServer
