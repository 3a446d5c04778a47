import SmtServer.Qfbv.Cnf

/-!
# The encoding is exact

A clause set that gives every gate the value its operands prescribe has, for each choice of inputs,
one solution: the table of values (`Dag.value_unique`). So the clauses of `encode` but the last
define the gates, and the last picks the inputs that make the output true (`Cnf.Exact`).

The literal of a row is its number plus one, as an `i32`. From row `2 ^ 31 - 1` on that is another
number: it cannot be computed, or it names an earlier row, negated. Only input gates have no clauses
in which this shows, so the encoding is exact **exactly when** the output and every gate that is not
an input come earlier (`tseitin_is_exact_iff`).
-/

namespace SmtServer
namespace Qfbv
namespace Cnf

open Lib Outcome
open Lib.Dimacs (Clause)

/-- Values for all gates of an arena. -/
abbrev Assignment (s : GateArena) := Fin s.gates.length → Bool

variable {s : GateArena} {output row : Nat} {inputs : Nat → Bool} {gate : GateKind} {id : Nat}
  {v : Nat → Bool} {cnf : Cnf}

/-- The values of the variables `1, 2, …`. -/
def Assignment.vars (a : Assignment s) (var : Nat) : Bool :=
  if h : 0 < var ∧ var - 1 < s.gates.length then a ⟨var - 1, h.2⟩ else false

/-- The input gates have the values that are given. -/
def Assignment.Agrees (a : Assignment s) (inputs : Nat → Bool) : Prop :=
  ∀ row id, s.gates[row.val]? = some (.input id) → a row = inputs id

/-- The value of every gate. -/
def valuesOf (s : GateArena) (inputs : Nat → Bool) : Assignment s := fun row => s.value inputs row

/-- The clauses as they are pushed, before they are sorted, deduplicated and perhaps dropped. -/
def rawClauses (s : GateArena) (output : GateId) : Result (List Clause) := do
  let clauses ← s.gates.zipIdx.mapM fun (gate, index) => gateClauses (asI32 (index + 1)) gate
  return clauses.flatten ++ [[← lit output]]

/-- What an encoding of the arena with this output has to be. The clauses but the last are the
definitions of the gates. -/
structure Exact (s : GateArena) (output : GateId) (cnf : Cnf) : Prop where
  numVars_eq : cnf.numVars = s.gates.length
  /-- Inputs extend to one assignment that satisfies the definitions. -/
  unique : ∀ inputs, ∃! a : Assignment s,
    a.Agrees inputs ∧ Dimacs.Models a.vars cnf.clauses.dropLast
  /-- It gives each gate its value. -/
  value : ∀ inputs (a : Assignment s), a.Agrees inputs →
    Dimacs.Models a.vars cnf.clauses.dropLast → a = valuesOf s inputs
  /-- It satisfies the last clause too just where the output is true. -/
  output_iff : ∀ inputs (a : Assignment s), a.Agrees inputs →
    Dimacs.Models a.vars cnf.clauses.dropLast →
    (Dimacs.Models a.vars cnf.clauses ↔ s.value inputs output = true)
  /-- Hence the encoding is satisfiable just when the output can be made true. -/
  sat : (∃ a : Assignment s, Dimacs.Models a.vars cnf.clauses) ↔
    ∃ inputs, s.value inputs output = true
  /-- What is done to the clauses changes no model. -/
  raw : ∃ raw, rawClauses s output = ok raw ∧
    ∀ v, Dimacs.Models v cnf.clauses ↔ Dimacs.Models v raw

/-- Every gate that is not an input has a number that fits. -/
def Small (s : GateArena) : Prop :=
  ∀ row gate, s.gates[row]? = some gate → (∃ id, gate = .input id) ∨ row + 1 < 2 ^ 31

/-! ## The encoding of a small arena -/

theorem vars_succ (a : Assignment s) (h : row < s.gates.length) : a.vars (row + 1) = a ⟨row, h⟩ :=
  dif_pos ⟨Nat.succ_pos row, h⟩

/-- The definitions of all gates. -/
def definitions (gates : List GateKind) : List Clause :=
  gates.zipIdx.flatMap fun (gate, row) => definingClauses row gate

theorem gateClauses_of_small (hs : s.Inv) (hsmall : Small s) {p : GateKind × Nat}
    (h : p ∈ s.gates.zipIdx) :
    gateClauses (asI32 (p.2 + 1)) p.1 = ok (definingClauses p.2 p.1) := by
  have hget := List.mem_zipIdx_iff_getElem?.mp h
  rcases hsmall _ _ hget with ⟨id, hid⟩ | hlt
  · rw [hid]
    rfl
  · exact gateClauses_eq hlt (hs.ordered _ _ hget)

/-- Every literal of a definition names a row that has a number. -/
theorem isLit_of_definition (hs : s.Inv) (hsmall : Small s) {p : GateKind × Nat}
    (h : p ∈ s.gates.zipIdx) {clause : Clause} (hc : clause ∈ definingClauses p.2 p.1) :
    ∀ lit ∈ clause, lit ≠ 0 ∧ lit.natAbs < 2 ^ 31 := by
  have hget := List.mem_zipIdx_iff_getElem?.mp h
  rcases hsmall _ _ hget with ⟨id, hid⟩ | hlt
  · rw [hid] at hc
    cases hc
  · intro lit hl
    have hlit := isLit_of_mem (hs.ordered _ _ hget) hc lit hl
    exact ⟨hlit.ne_zero, hlit.natAbs_le.trans_lt hlt⟩

theorem encodeGate_eq (clauses : List Clause) (gate : GateKind) (row : Nat) :
    encodeGate none none clauses gate row =
      gateClauses (asI32 (row + 1)) gate >>= fun raw => raw.foldlM pushClause clauses := by
  rw [encodeGate]
  split <;> rfl

theorem encodeGates_eq (hs : s.Inv) (hsmall : Small s) :
    encodeGates s.gates none none = ok ((definitions s.gates).flatMap kept) := by
  have key : ∀ (rows : List (GateKind × Nat)) (clauses : List Clause),
      (∀ p ∈ rows, p ∈ s.gates.zipIdx) →
      rows.foldlM (fun clauses (gate, index) => encodeGate none none clauses gate index) clauses =
        ok (clauses ++ (rows.flatMap fun (gate, row) => definingClauses row gate).flatMap kept) := by
    intro rows
    induction rows with
    | nil => simp
    | cons p rows ih =>
      intro clauses h
      have hp := h p (by simp)
      rw [List.foldlM_cons]
      dsimp only
      rw [encodeGate_eq, gateClauses_of_small hs hsmall hp, ok_bind,
        foldlM_pushClause fun c hc l hl => (isLit_of_definition hs hsmall hp hc l hl).2, ok_bind,
        ih _ fun q hq => h q (by simp [hq])]
      simp [List.flatMap_cons]
  simpa [encodeGates, definitions] using key s.gates.zipIdx [] fun _ h => h

theorem encode_eq (hs : s.Inv) (hsmall : Small s) (hout : output + 1 < 2 ^ 31) :
    encode s output = ok ⟨s.gates.length,
      (definitions s.gates).flatMap kept ++ [[litOf output]]⟩ := by
  have hkept : kept [litOf output] = [[litOf output]] := rfl
  have h : encodeWithLimits s output none none = ok ⟨s.gates.length,
      (definitions s.gates).flatMap kept ++ [[litOf output]]⟩ := by
    rw [encodeWithLimits, encodeGates_eq hs hsmall, ok_bind, lit_of_lt hout, ok_bind,
      pushClause_eq (by simpa [natAbs_litOf] using hout), hkept]
    rfl
  rw [encode, h]
  rfl

theorem definitions_ne_zero (hs : s.Inv) (hsmall : Small s) :
    ∀ clause ∈ definitions s.gates, ∀ lit ∈ clause, lit ≠ 0 := by
  intro clause hc lit hl
  obtain ⟨p, hp, hcp⟩ := List.mem_flatMap.mp hc
  exact (isLit_of_definition hs hsmall hp hcp lit hl).1

theorem models_definitions (inputs : Nat → Bool) (hs : s.Inv) (hsmall : Small s) :
    Dimacs.Models v ((definitions s.gates).flatMap kept) ↔
      ∀ row gate, s.gates[row]? = some gate →
        (∃ id, gate = .input id) ∨ v (row + 1) = gate.eval inputs fun x => v (x + 1) := by
  rw [models_flatMap_kept (definitions_ne_zero hs hsmall)]
  have hmem : Dimacs.Models v (definitions s.gates) ↔
      ∀ p ∈ s.gates.zipIdx, Dimacs.Models v (definingClauses p.2 p.1) := by
    constructor
    · exact fun h p hp clause hc => h clause (List.mem_flatMap.mpr ⟨p, hp, hc⟩)
    · intro h clause hc
      obtain ⟨p, hp, hcp⟩ := List.mem_flatMap.mp hc
      exact h p hp clause hcp
  rw [hmem]
  constructor
  · intro h row gate hget
    exact (models_definingClauses inputs).mp (h (gate, row) (List.mem_zipIdx_iff_getElem?.mpr hget))
  · intro h p hp
    exact (models_definingClauses inputs).mpr (h _ _ (List.mem_zipIdx_iff_getElem?.mp hp))

/-! ## One solution for each choice of inputs -/

theorem valuesOf_agrees (hs : s.Inv) : (valuesOf s inputs).Agrees inputs := by
  intro row id h
  rw [valuesOf, GateArena.value_of_get hs h]
  rfl

theorem vars_valuesOf (h : row < s.gates.length) :
    (valuesOf s inputs).vars (row + 1) = s.value inputs row := vars_succ _ h

theorem valuesOf_models (inputs : Nat → Bool) (hs : s.Inv) (hsmall : Small s) :
    Dimacs.Models (valuesOf s inputs).vars ((definitions s.gates).flatMap kept) := by
  rw [models_definitions inputs hs hsmall]
  intro row gate hget
  have hlt := (List.getElem?_eq_some_iff.mp hget).1
  refine .inr ?_
  rw [vars_valuesOf hlt, GateArena.value_of_get hs hget]
  refine GateKind.eval_congr fun x hx => ?_
  rw [vars_valuesOf (hs.operand_lt hget hx)]

/-- **The definitions have one solution**: the values. -/
theorem eq_valuesOf (hs : s.Inv) (hsmall : Small s) {a : Assignment s} (ha : a.Agrees inputs)
    (hm : Dimacs.Models a.vars ((definitions s.gates).flatMap kept)) : a = valuesOf s inputs := by
  rw [models_definitions inputs hs hsmall] at hm
  have heq : ∀ row gate, s.gates[row]? = some gate →
      a.vars (row + 1) = gate.eval inputs fun x => a.vars (x + 1) := by
    intro row gate hget
    obtain ⟨hlt, -⟩ := List.getElem?_eq_some_iff.mp hget
    rcases hm row gate hget with ⟨id, rfl⟩ | h
    · rw [vars_succ a hlt, ha ⟨row, hlt⟩ id hget]
      rfl
    · exact h
  funext row
  have := Dag.value_unique GateArena.local_eval hs.ordered heq row.isLt (d := false)
  rwa [vars_succ a row.isLt] at this

/-- Any assignment is one of some inputs, for no two gates are the same input. -/
theorem exists_agrees (hs : s.Inv) (a : Assignment s) : ∃ inputs, a.Agrees inputs := by
  classical
  refine ⟨fun id => decide (∃ row, s.gates[row.val]? = some (.input id) ∧ a row = true),
    fun row id h => ?_⟩
  cases ha : a row with
  | true => exact (decide_eq_true ⟨row, h, ha⟩).symm
  | false =>
    refine (decide_eq_false ?_).symm
    rintro ⟨other, hother, htrue⟩
    have : other = row := by
      obtain ⟨h1, e1⟩ := List.getElem?_eq_some_iff.mp hother
      obtain ⟨h2, e2⟩ := List.getElem?_eq_some_iff.mp h
      exact Fin.ext ((List.Nodup.getElem_inj_iff hs.nodup).mp (e1.trans e2.symm))
    rw [this, ha] at htrue
    cases htrue

theorem rawClauses_eq (hs : s.Inv) (hsmall : Small s) (hout : output + 1 < 2 ^ 31) :
    rawClauses s output = ok (definitions s.gates ++ [[litOf output]]) := by
  have hmap : s.gates.zipIdx.mapM (fun (gate, index) => gateClauses (asI32 (index + 1)) gate) =
      ok (s.gates.zipIdx.map fun (gate, row) => definingClauses row gate) :=
    mapM_of_forall fun p hp => gateClauses_of_small hs hsmall hp
  rw [rawClauses, hmap, ok_bind, lit_of_lt hout, ok_bind, definitions, List.flatMap_def]
  rfl

/-- Below the limit the encoding is exact. -/
theorem exact_of_small (hs : s.Inv) (hlt : output < s.gates.length) (hsmall : Small s)
    (hout : output + 1 < 2 ^ 31) : ∃ cnf, encode s output = ok cnf ∧ Exact s output cnf := by
  refine ⟨_, encode_eq hs hsmall hout, ?_⟩
  have hlast : ∀ v, Dimacs.Models v
      ((definitions s.gates).flatMap kept ++ [[litOf output]]) ↔
        Dimacs.Models v ((definitions s.gates).flatMap kept) ∧ v (output + 1) = true := by
    intro v
    simp [Dimacs.Holds]
  have hdef := fun inputs => valuesOf_models inputs hs hsmall
  refine ⟨rfl, fun inputs => ?_, fun inputs a ha hm => ?_, fun inputs a ha hm => ?_, ?_, ?_⟩
  · refine ⟨valuesOf s inputs, ⟨valuesOf_agrees hs, ?_⟩, fun a h => ?_⟩
    · rw [List.dropLast_concat]
      exact hdef inputs
    · obtain ⟨ha, hm⟩ := h
      rw [List.dropLast_concat] at hm
      exact eq_valuesOf hs hsmall ha hm
  · rw [List.dropLast_concat] at hm
    exact eq_valuesOf hs hsmall ha hm
  · rw [List.dropLast_concat] at hm
    rw [hlast, eq_valuesOf hs hsmall ha hm, vars_valuesOf hlt]
    exact and_iff_right (hdef inputs)
  · constructor
    · rintro ⟨a, hm⟩
      obtain ⟨inputs, ha⟩ := exists_agrees hs a
      obtain ⟨hm, hone⟩ := (hlast _).mp hm
      rw [eq_valuesOf hs hsmall ha hm, vars_valuesOf hlt] at hone
      exact ⟨inputs, hone⟩
    · rintro ⟨inputs, hone⟩
      exact ⟨valuesOf s inputs, (hlast _).mpr ⟨hdef inputs, (vars_valuesOf hlt).trans hone⟩⟩
  · refine ⟨_, rawClauses_eq hs hsmall hout, fun v => ?_⟩
    rw [Dimacs.models_append, Dimacs.models_append,
      models_flatMap_kept (definitions_ne_zero hs hsmall)]

/-! ## And nowhere else

An `i32` is at most `2 ^ 31` in absolute value. So a greater variable stands in no clause, and a
gate whose variable it is would be free. -/

theorem only_i32 (n : Int) : Only (i32 n) fun m => m = n ∧ n < 2 ^ 31 ∧ m.natAbs ≤ 2 ^ 31 := by
  rw [i32]
  split
  · rename_i h
    exact only_ok ⟨rfl, h.2, by omega⟩
  · exact only_panic

theorem natAbs_asI32_le (n : Nat) : (asI32 n).natAbs ≤ 2 ^ 31 := by
  unfold asI32
  have h1 : (Int.bmod n (2 ^ 32)) < 2 ^ 31 := by
    have := Int.bmod_lt (x := n) (m := 2 ^ 32) (by omega)
    omega
  have h2 : -2 ^ 31 ≤ Int.bmod n (2 ^ 32) := by
    have := Int.le_bmod (x := n) (m := 2 ^ 32) (by omega)
    omega
  omega

/-- The literals of the clauses are small. -/
def Bounded (clauses : List Clause) : Prop :=
  ∀ clause ∈ clauses, ∀ lit ∈ clause, lit.natAbs ≤ 2 ^ 31

theorem only_i32_le (n : Int) : Only (i32 n) fun m => m.natAbs ≤ 2 ^ 31 :=
  (only_i32 n).mono fun _ h => h.2.2

theorem only_lit_le (x : GateId) : Only (lit x) fun m => m.natAbs ≤ 2 ^ 31 := only_i32_le _

theorem only_gateClauses {g : Int} (hg : g.natAbs ≤ 2 ^ 31) (gate : GateKind) :
    Only (gateClauses g gate) Bounded := by
  cases gate with
  | const value =>
    cases value with
    | true => exact only_ok (by simpa [Bounded] using hg)
    | false => exact (only_i32_le _).bind fun x _ hx => only_ok (by simpa [Bounded] using hx)
  | input id => exact only_ok (by simp [Bounded])
  | not a =>
    refine (only_lit_le a).bind fun a _ ha => ?_
    refine (only_i32_le _).bind fun ng _ hng => ?_
    refine (only_i32_le _).bind fun na _ hna => only_ok ?_
    simp only [Bounded, List.forall_mem_cons, List.not_mem_nil, false_imp_iff, implies_true,
      hg, ha, hng, hna, and_self]
  | and a b | or a b | xor a b =>
    refine (only_lit_le a).bind fun a _ ha => ?_
    refine (only_lit_le b).bind fun b _ hb => ?_
    refine (only_i32_le _).bind fun x _ hx => ?_
    refine (only_i32_le _).bind fun y _ hy => ?_
    refine (only_i32_le _).bind fun z _ hz => only_ok ?_
    simp only [Bounded, List.forall_mem_cons, List.not_mem_nil, false_imp_iff, implies_true,
      hg, ha, hb, hx, hy, hz, and_self]
  | mux sel t f =>
    refine (only_lit_le sel).bind fun s _ hs => ?_
    refine (only_lit_le t).bind fun t _ ht => ?_
    refine (only_lit_le f).bind fun f _ hf => ?_
    refine (only_i32_le _).bind fun x _ hx => ?_
    refine (only_i32_le _).bind fun y _ hy => ?_
    refine (only_i32_le _).bind fun z _ hz => ?_
    refine (only_i32_le _).bind fun w _ hw => only_ok ?_
    simp only [Bounded, List.forall_mem_cons, List.not_mem_nil, false_imp_iff, implies_true,
      hg, hs, ht, hf, hx, hy, hz, hw, and_self]

theorem only_pushClause {clauses : List Clause} {clause : Clause} (hcs : Bounded clauses)
    (hc : ∀ lit ∈ clause, lit.natAbs ≤ 2 ^ 31) : Only (pushClause clauses clause) Bounded := by
  have hend : Only (if hasComplement (dedup (sortByAbs clause)) then pure clauses
      else pure (clauses ++ [dedup (sortByAbs clause)]) : Result (List Clause)) Bounded := by
    split
    · exact only_ok hcs
    · refine only_ok fun c hmem lit hl => ?_
      rcases List.mem_append.mp hmem with hmem | hmem
      · exact hcs c hmem lit hl
      · rw [List.mem_singleton.mp hmem] at hl
        exact hc lit (mem_normal.mp hl)
  rw [pushClause]
  split
  · exact (only_self _).bind fun _ _ _ => hend
  · exact hend

theorem only_encodeGates (gates : List GateKind) : Only (encodeGates gates none none) Bounded := by
  refine only_foldlM (by simp [Bounded]) fun p _ clauses hcs => ?_
  dsimp only
  rw [encodeGate_eq]
  refine (only_gateClauses (natAbs_asI32_le _) p.1).bind fun raw _ hraw => ?_
  exact only_foldlM hcs fun clause hc clauses hcs => only_pushClause hcs (hraw clause hc)

/-- What a successful encoding went through. -/
theorem encode_inv (h : encode s output = ok cnf) : ∃ clauses n,
    encodeGates s.gates none none = ok clauses ∧ lit output = ok n ∧
      cnf.clauses = clauses ++ [[n]] := by
  rw [encode] at h
  split at h
  · rename_i cnf' henc
    obtain rfl := Outcome.ok.inj h
    obtain ⟨clauses, hgates, hrest⟩ := bind_eq_ok.mp henc
    obtain ⟨n, hn, hrest⟩ := bind_eq_ok.mp hrest
    have hpush : pushClause clauses [n] = ok (clauses ++ [[n]]) := rfl
    rw [hpush, ok_bind] at hrest
    exact ⟨clauses, n, hgates, hn, (congrArg Cnf.clauses (Outcome.ok.inj hrest)).symm⟩
  · cases h
  · cases h

/-- The first two gates are the only constants. -/
theorem const_lt (hs : s.Inv) {value : Bool} (h : s.gates[row]? = some (.const value)) :
    row < 2 := by
  obtain ⟨hlt, hrow⟩ := List.getElem?_eq_some_iff.mp h
  obtain ⟨h0, hfalse⟩ := List.getElem?_eq_some_iff.mp hs.false_get
  obtain ⟨h1, htrue⟩ := List.getElem?_eq_some_iff.mp hs.true_get
  cases value with
  | false =>
    have := (List.Nodup.getElem_inj_iff hs.nodup).mp (hrow.trans hfalse.symm)
    omega
  | true =>
    have := (List.Nodup.getElem_inj_iff hs.nodup).mp (hrow.trans htrue.symm)
    omega

/-- A gate that is neither a constant nor an input needs the negation of its literal. -/
theorem neg_of_gateClauses {g : Int} {raw : List Clause} (h : gateClauses g gate = ok raw)
    (hconst : ∀ value, gate ≠ .const value) (hinput : ∀ id, gate ≠ .input id) :
    ∃ n, i32 (-g) = ok n := by
  cases gate with
  | const value => exact absurd rfl (hconst value)
  | input id => exact absurd rfl (hinput id)
  | not a =>
    obtain ⟨_, -, h⟩ := bind_eq_ok.mp h
    obtain ⟨n, hn, -⟩ := bind_eq_ok.mp h
    exact ⟨n, hn⟩
  | and a b =>
    obtain ⟨_, -, h⟩ := bind_eq_ok.mp h
    obtain ⟨_, -, h⟩ := bind_eq_ok.mp h
    obtain ⟨n, hn, -⟩ := bind_eq_ok.mp h
    exact ⟨n, hn⟩
  | or a b | xor a b =>
    obtain ⟨_, -, h⟩ := bind_eq_ok.mp h
    obtain ⟨_, -, h⟩ := bind_eq_ok.mp h
    obtain ⟨_, -, h⟩ := bind_eq_ok.mp h
    obtain ⟨_, -, h⟩ := bind_eq_ok.mp h
    obtain ⟨n, hn, -⟩ := bind_eq_ok.mp h
    exact ⟨n, hn⟩
  | mux sel t f =>
    obtain ⟨_, -, h⟩ := bind_eq_ok.mp h
    obtain ⟨_, -, h⟩ := bind_eq_ok.mp h
    obtain ⟨_, -, h⟩ := bind_eq_ok.mp h
    obtain ⟨_, -, h⟩ := bind_eq_ok.mp h
    obtain ⟨n, hn, -⟩ := bind_eq_ok.mp h
    exact ⟨n, hn⟩

theorem small_of_exact (hs : s.Inv) (henc : encode s output = ok cnf) (h : Exact s output cnf) :
    Small s := by
  intro row gate hget
  by_contra hnot
  obtain ⟨hinput, hge⟩ := not_or.mp hnot
  have hlen := (List.getElem?_eq_some_iff.mp hget).1
  obtain ⟨clauses, n, hgates, -, hclauses⟩ := encode_inv henc
  obtain heq | hgt : row + 1 = 2 ^ 31 ∨ 2 ^ 31 < row + 1 := by omega
  · -- the literal of this row is the least `i32`, which has no negation
    obtain ⟨_, _, hround⟩ := of_foldlM hgates (gate, row)
      (List.mem_zipIdx_iff_getElem?.mpr hget)
    dsimp only at hround
    rw [encodeGate_eq] at hround
    obtain ⟨raw, hraw, -⟩ := bind_eq_ok.mp hround
    have hconst : ∀ value, gate ≠ .const value := by
      rintro value rfl
      have := const_lt hs hget
      omega
    obtain ⟨m, hm⟩ := neg_of_gateClauses hraw hconst fun id hid => hinput ⟨id, hid⟩
    have hmin : asI32 (row + 1) = -2 ^ 31 := by
      rw [heq]
      decide
    have := (only_i32 _ m hm).2.1
    omega
  · -- no clause has its variable, so it is free
    have hbound : Bounded cnf.clauses.dropLast := by
      rw [hclauses, List.dropLast_concat]
      exact only_encodeGates s.gates _ hgates
    obtain ⟨a, ⟨hagrees, hmodels⟩, huniq⟩ := h.unique fun _ => false
    let b : Assignment s := fun i => if i.val = row then !a i else a i
    have hb : b = a := by
      refine huniq b ⟨fun i id hi => ?_, ?_⟩
      · have hne : i.val ≠ row := by
          intro heq
          rw [heq, hget] at hi
          exact hinput ⟨id, Option.some.inj hi⟩
        simp only [b, if_neg hne]
        exact hagrees i id hi
      · refine (Dimacs.models_congr fun clause hc lit hl => ?_).mp hmodels
        have hle := hbound clause hc lit hl
        unfold Assignment.vars
        split
        · rename_i hv
          have hne : lit.natAbs - 1 ≠ row := by omega
          simp only [b, if_neg hne]
        · rfl
    have := congrFun hb ⟨row, hlen⟩
    simp only [b, if_true] at this
    cases ha : a ⟨row, hlen⟩ <;> simp [ha] at this

/-- Earlier gates do not look at a later input. -/
theorem value_update (hs : s.Inv) (hget : s.gates[output]? = some (.input id)) (hrow : row < output)
    (b : Bool) : s.value (Function.update inputs id b) row = s.value inputs row := by
  have hlive : ∀ i gate, s.gates[i]? = some gate → i < output →
      (∀ x ∈ gate.operands, x < output) ∧ ∀ look,
        gate.eval (Function.update inputs id b) look = gate.eval inputs look := by
    intro i gate hi hlt
    refine ⟨fun x hx => (hs.ordered i gate hi x hx).trans hlt, fun look => ?_⟩
    cases gate with
    | input other =>
      have hne : other ≠ id := by
        rintro rfl
        obtain ⟨h1, e1⟩ := List.getElem?_eq_some_iff.mp hi
        obtain ⟨h2, e2⟩ := List.getElem?_eq_some_iff.mp hget
        have := (List.Nodup.getElem_inj_iff hs.nodup).mp (e1.trans e2.symm)
        omega
      exact Function.update_of_ne hne _ _
    | _ => rfl
  exact Dag.value_congr GateArena.local_eval GateArena.local_eval hs.ordered hlive hrow

theorem output_of_exact (hs : s.Inv) (hlt : output < s.gates.length) (hid : output < 2 ^ 32)
    (henc : encode s output = ok cnf) (h : Exact s output cnf) : output + 1 < 2 ^ 31 := by
  by_contra hge
  have hsmall := small_of_exact hs henc h
  obtain ⟨clauses, n, hgates, hn, hclauses⟩ := encode_inv henc
  obtain ⟨id, hget⟩ : ∃ id, s.gates[output]? = some (.input id) := by
    have hrow := List.getElem?_eq_getElem hlt
    rcases hsmall _ _ hrow with ⟨id, hid⟩ | hlt
    · exact ⟨id, hid ▸ hrow⟩
    · exact absurd hlt hge
  obtain ⟨hn, hlit, -⟩ := only_i32 _ n hn
  -- the literal of the output is not positive: it says that an earlier gate, if any, is false
  have hneg : n ≤ 0 ∧ n.natAbs ≤ output := by
    unfold asI32 at hn hlit
    obtain heq | hgt : output + 1 = 2 ^ 31 ∨ 2 ^ 31 < output + 1 := by omega
    · rw [Int.bmod_eq_of_le (by omega) (by omega)] at hlit
      omega
    · have hmod : Int.bmod (output : Int) (2 ^ 32) = output - 2 ^ 32 := by
        rw [Int.bmod_def, Int.emod_eq_of_lt (by omega) (by omega), if_neg (by omega)]
        rfl
      rw [hmod] at hn
      omega
  have hvalue : ∀ b, s.value (Function.update (fun _ => false) id b) output = b := by
    intro b
    rw [GateArena.value_of_get hs hget, GateKind.eval, Function.update_self]
  have hlast : ∀ b, Dimacs.litHolds
      (valuesOf s (Function.update (fun _ => false) id b)).vars n = b := by
    intro b
    obtain ⟨a, ⟨hagrees, hmodels⟩, -⟩ := h.unique (Function.update (fun _ => false) id b)
    have hiff := h.output_iff _ a hagrees hmodels
    rw [hvalue, h.value _ a hagrees hmodels, hclauses, Dimacs.models_append] at hiff
    rw [h.value _ a hagrees hmodels, hclauses, List.dropLast_concat] at hmodels
    rw [Bool.eq_iff_iff, ← hiff]
    simp [hmodels, Dimacs.Holds]
  have hvars : ∀ b, (valuesOf s (Function.update (fun _ => false) id b)).vars n.natAbs =
      (valuesOf s fun _ => false).vars n.natAbs := by
    intro b
    unfold Assignment.vars
    split
    · rename_i hv
      exact value_update hs hget (by simp only; omega) b
    · rfl
  have htrue := hlast true
  have hfalse := hlast false
  rw [Dimacs.litHolds, hvars] at htrue hfalse
  rw [htrue] at hfalse
  cases hfalse

/-- **The encoding is exact just below the limit.** For an arena built by its operations and any of
its gates as output, `encode` returns clauses that are exact — each choice of inputs extends to one
assignment that satisfies all of them but the last, it gives every gate its value, it satisfies the
last one just where the output is true, and neither sorting nor deduplicating nor dropping
tautologies changes a model — if and only if the output and all gates that are not inputs have
numbers below `2 ^ 31 - 1`. -/
theorem tseitin_is_exact_iff (hs : s.Built) (hlt : output < s.gates.length)
    (hid : output < 2 ^ 32) :
    (∃ cnf, encode s output = ok cnf ∧ Exact s output cnf) ↔
      output + 1 < 2 ^ 31 ∧ ∀ row gate, s.gates[row]? = some gate →
        (∃ id, gate = .input id) ∨ row + 1 < 2 ^ 31 := by
  constructor
  · rintro ⟨cnf, henc, h⟩
    exact ⟨output_of_exact hs.inv hlt hid henc h, small_of_exact hs.inv henc h⟩
  · rintro ⟨hout, hsmall⟩
    exact exact_of_small hs.inv hlt hsmall hout

/-- Two inputs and `mux` of the first, the first again and the second. -/
def muxArena : GateArena := ⟨[.const false, .const true, .input 0, .input 1, .mux 2 2 3], 2⟩

theorem muxArena_built : muxArena.Built := by
  have h1 : GateArena.Built ⟨[.const false, .const true, .input 0], 1⟩ :=
    .step .input (g := 2) .new (by simp [GateArena.Op.arguments]) rfl
  have h2 : GateArena.Built ⟨[.const false, .const true, .input 0, .input 1], 2⟩ :=
    .step .input (g := 3) h1 (by simp [GateArena.Op.arguments]) rfl
  exact .step (.mux 2 2 3) (g := 4) h2 (by simp [GateArena.Op.arguments]) rfl

theorem tseitin_is_exact_of_mux :
    (∃ cnf, encode muxArena 4 = ok cnf ∧ Exact muxArena 4 cnf) ↔
      4 + 1 < 2 ^ 31 ∧ ∀ row gate, muxArena.gates[row]? = some gate →
        (∃ id, gate = .input id) ∨ row + 1 < 2 ^ 31 :=
  tseitin_is_exact_iff muxArena_built (by decide) (by decide)

/-- An arena of `n` inputs. -/
def inputsArena (n : Nat) : GateArena :=
  ⟨[.const false, .const true] ++ (List.range n).map .input, n⟩

theorem length_inputsArena (n : Nat) : (inputsArena n).gates.length = n + 2 := by
  simp only [inputsArena, List.length_append, List.length_map, List.length_range, List.length_cons,
    List.length_nil]
  omega

theorem inputsArena_built {n : Nat} (h : n < 2 ^ 32) : (inputsArena n).Built := by
  induction n with
  | zero => exact .new
  | succ n ih =>
    have hb := ih (by omega)
    rcases GateArena.input_run hb.inv with ⟨-, hrun⟩ | ⟨hge, -⟩
    · have : inputsArena (n + 1) = ⟨(inputsArena n).gates ++ [.input n], n + 1⟩ := by
        simp [inputsArena, List.range_succ]
      rw [this]
      exact .step .input hb (by simp [GateArena.Op.arguments]) hrun
    · exact absurd hge (by simp only [inputsArena]; omega)

/-- And the negation of the first input. -/
def negatedArena (n : Nat) : GateArena := ⟨(inputsArena n).gates ++ [.not 2], n⟩

theorem negatedArena_built {n : Nat} (h0 : 0 < n) (h : n < 2 ^ 32) : (negatedArena n).Built := by
  have hget : (inputsArena n).gates[2]? = some (.input 0) := by
    simp [inputsArena, h0]
  have hfind : (inputsArena n).gates.findIdx? (· = GateKind.not 2) = none := by
    rw [List.findIdx?_eq_none_iff]
    simp [inputsArena]
  have hgate : (GateArena.gate 2).run (inputsArena n) = (ok (.input 0), inputsArena n) := by
    rw [GateArena.gate, Grow.run_read, hget]
    rfl
  have hrun : (GateArena.not 2).run (inputsArena n) =
      (ok ((inputsArena n).gates.length % 2 ^ 32), negatedArena n) := by
    rw [GateArena.not, if_neg (by decide), if_neg (by decide), Grow.run_bind_ok hgate]
    simp only [GateArena.addRaw, hfind]
    rfl
  refine .step (.not 2) (inputsArena_built h) ?_ hrun
  simpa [GateArena.Op.arguments, length_inputsArena] using h0

/-- **`2 ^ 31` gates are too many.** The last gate, the negation of the first input, has the least
`i32` for its literal. -/
theorem tseitin_is_not_exact_of_negated :
    (negatedArena (2 ^ 31 - 3)).Built ∧
    2 ^ 31 - 1 < (negatedArena (2 ^ 31 - 3)).gates.length ∧
    ¬ ∃ cnf, encode (negatedArena (2 ^ 31 - 3)) (2 ^ 31 - 1) = ok cnf ∧
      Exact (negatedArena (2 ^ 31 - 3)) (2 ^ 31 - 1) cnf := by
  have hb := negatedArena_built (n := 2 ^ 31 - 3) (by omega) (by omega)
  have hlen : ∀ n, (negatedArena n).gates.length = n + 3 := by
    intro n
    rw [negatedArena, List.length_append, length_inputsArena, List.length_singleton]
  refine ⟨hb, by rw [hlen]; omega, ?_⟩
  rintro ⟨cnf, henc, h⟩
  have hget : ∀ n, (negatedArena n).gates[n + 2]? = some (.not 2) := by
    intro n
    rw [negatedArena, ← length_inputsArena n, List.getElem?_concat_length]
  rcases small_of_exact hb.inv henc h _ _ (hget _) with ⟨id, hid⟩ | hlt
  · cases hid
  · omega

end Cnf
end Qfbv
end SmtServer
