import SmtServer.Qfbv.BlastQuery
import SmtServer.Qfbv.Optimize
import SmtServer.Qfbv.SatAnswers
import SmtServer.Qfbv.UnsatCore

/-!
# The trusted path decides its query

Three facts are put together: the output of the blasted gates can be made true just when the query
is satisfiable (`BlastResult.Sound`), the clauses have the values of the gates for models
(`Cnf.Encodes`), and what the SAT solver answers is true of the clauses (`Sat.Trusted`).

A model is read off the values of the gates. It has an entry for every variable that was blasted,
and whatever an assignment says of the others, the query holds (`Model.For`).
-/

namespace SmtServer
namespace Qfbv

open Lib Outcome
open Lib.Smt (Value)
open Blast GateArena

variable {q : Query} {r : BlastResult} {values : List Bool} {deadline cancellation : Option Bool}
  {w : Nat} {look : GateId → Bool}

/-! ## Models -/

def ScalarValue.sort : ScalarValue → TermSort
  | .bool _ => .bool
  | .bv w _ => .bv w

/-- As many bytes as the width needs, and no bit beyond it. -/
def ScalarValue.Canonical : ScalarValue → Prop
  | .bool _ => True
  | .bv w bytes => bytes.length = divCeil8 w ∧ leNat bytes < 2 ^ w

/-- The bits are those of the value. -/
def ScalarValue.Is (x : ScalarValue) (bs : List Bool) : TermSort → Prop
  | .bool => ∃ b, bs = [b] ∧ x = .bool b
  | .bv w => ∃ bytes, x = .bv w bytes ∧ bytes.length = divCeil8 w ∧ leNat bytes = BitList.toNat bs

/-- The entry is for the variable, with the value its gates have. -/
structure ModelEntry.Of (look : GateId → Bool) (v : BlastedVariable) (e : ModelEntry) : Prop where
  term : e.term = v.term
  name : e.name = v.name
  external : e.external = v.external
  value : e.value.Is (v.bits.map look) v.sort

/-- All of an entry but its value. -/
def ModelEntry.declaration (e : ModelEntry) : Declaration := (e.term, e.name, e.external, e.value.sort)

/-- **What a model is for.** It has one entry for every variable that is wanted, in their order, and
whatever is said of other variables, the query holds. -/
structure Model.For (q : Query) (m : Model) : Prop where
  sorted : m.entries.Pairwise fun a b => a.term < b.term
  covers : ∀ d, d ∈ m.entries.map ModelEntry.declaration ↔ Wanted q d
  canonical : ∀ e ∈ m.entries, e.value.Canonical
  consistent : ∃ ρ : Env, ρ.Completes m
  satisfies : ∀ ρ : Env, ρ.Completes m → q.Holds ρ

theorem leNat_setBit_of_lt {bytes : List UInt8} {k : Nat} (hk : k < 8 * bytes.length)
    (hlt : leNat bytes < 2 ^ k) : leNat (Bytes.setBit bytes k) = leNat bytes + 2 ^ k := by
  refine Nat.eq_of_testBit_eq fun i => ?_
  rw [Bytes.testBit_setBit hk, Nat.add_comm, ← Nat.mul_one (2 ^ k), Nat.two_pow_add_eq_or_of_lt hlt,
    Nat.testBit_or, Nat.mul_one, Nat.testBit_two_pow, Bool.or_comm]

theorem gateValue_eq {g : GateId} {b : Bool} (h : values[g]? = some b) :
    gateValue values g = ok b := by
  rw [gateValue, h]
  rfl

/-- The loop adds the bits to those that are there. -/
theorem modelBits_answers {bits : Bits} {bytes : List UInt8} {k : Nat}
    (hbits : ∀ g ∈ bits, values[g]? = some (look g)) (hle : k + bits.length ≤ 8 * bytes.length)
    (hlt : leNat bytes < 2 ^ k) :
    Answers ((bits.zipIdx k).foldlM (fun bytes (gate, bit) => do
      if ← gateValue values gate then
        let _ ← expect bytes[bit / 8]?
        pure (Bytes.setBit bytes bit)
      else pure bytes) bytes) fun out => out.length = bytes.length ∧
        leNat out = leNat bytes + 2 ^ k * BitList.toNat (bits.map look) := by
  induction bits generalizing bytes k with
  | nil => exact answers_ok ⟨rfl, by simp⟩
  | cons g bits ih =>
    have hg := gateValue_eq (hbits g (.head _))
    have hrest : ∀ g ∈ bits, values[g]? = some (look g) := fun g hg => hbits g (.tail _ hg)
    rw [List.length_cons] at hle
    rw [List.zipIdx_cons, List.foldlM_cons, List.map_cons, BitList.toNat_cons]
    dsimp only
    rw [hg, ok_bind]
    cases look g with
    | false =>
      refine (ih hrest (k := k + 1) (by omega) (hlt.trans (by rw [Nat.pow_succ]; omega))).mono
        fun out hout => ⟨hout.1, hout.2.trans ?_⟩
      rw [Bool.toNat_false, Nat.zero_add, ← Nat.mul_assoc, Nat.pow_succ]
    | true =>
      have hk : k < 8 * bytes.length := by omega
      have hset := leNat_setBit_of_lt hk hlt
      rw [if_pos rfl, List.getElem?_eq_getElem (by omega), expect_some, ok_bind]
      have hnext : k + 1 + bits.length ≤ 8 * (Bytes.setBit bytes k).length := by
        rw [Bytes.length_setBit]
        omega
      refine (ih hrest hnext ?_).mono fun out hout => ⟨?_, hout.2.trans ?_⟩
      · rw [hset, Nat.pow_succ]
        omega
      · exact hout.1.trans (Bytes.length_setBit ..)
      · rw [hset, Bool.toNat_true, Nat.mul_add, ← Nat.mul_assoc, Nat.pow_succ, Nat.mul_one,
          Nat.add_assoc]

theorem sortAt_of_declared {arena : Arena} (ha : arena.Inv) {v : BlastedVariable}
    (hv : Declared arena v) : arena.sortAt v.term = some v.sort := by
  obtain ⟨k, hk, hdecl⟩ := Option.bind_eq_some_iff.mp hv.1
  obtain ⟨σ, ht, hσ⟩ := ha.hasSort hk
  rw [ht]
  have hsort := congrArg (Option.map (·.2.2.2)) hdecl
  cases k with
  | bvVar | boolVar => exact (congrArg some hσ).trans hsort
  | _ => cases hdecl

theorem modelValue_answers {arena : Arena} (ha : arena.Inv) {v : BlastedVariable}
    (hv : Declared arena v) (hbits : ∀ g ∈ v.bits, values[g]? = some (look g)) :
    Answers (modelValue values v) fun x => x.Is (v.bits.map look) v.sort := by
  have hok := ha.sortOk (sortAt_of_declared ha hv)
  have hlen := hv.2
  rw [modelValue]
  cases hsort : v.sort with
  | bool =>
    rw [hsort] at hlen
    obtain ⟨g, hg⟩ := List.length_eq_one_iff.mp hlen
    rw [hg] at hbits ⊢
    dsimp only [List.getElem?_cons_zero, expect_some]
    rw [ok_bind, gateValue_eq (hbits g (.head _)), ok_bind]
    exact answers_ok ⟨_, rfl, rfl⟩
  | bv w =>
    rw [hsort] at hlen hok
    have hlen : v.bits.length = w := hlen
    have hzero : leNat (List.replicate (divCeil8 w) 0) = 0 := Bytes.leNat_zeros w
    dsimp only
    rw [Arena.bytesForWidth_ok hok, ok_bind]
    refine (modelBits_answers (k := 0) hbits ?_ ?_).bind fun bytes h => answers_ok ?_
    · rw [List.length_replicate, hlen]
      unfold divCeil8
      omega
    · rw [hzero]
      exact Nat.one_pos
    · obtain ⟨hl, hvalue⟩ := h
      rw [List.length_replicate] at hl
      rw [hzero, Nat.zero_add, Nat.pow_zero, Nat.one_mul] at hvalue
      have hlt := BitList.toNat_lt (v.bits.map look)
      rw [List.length_map, hlen] at hlt
      refine ⟨_, rfl, (Bytes.length_maskUnusedHighBits ..).trans hl, ?_⟩
      rw [Bytes.leNat_maskUnusedHighBits hl, hvalue, Nat.mod_eq_of_lt hlt]

theorem buildModel_answers {arena : Arena} {vars : List BlastedVariable} (ha : arena.Inv)
    (hvars : ∀ v ∈ vars, Declared arena v)
    (hbits : ∀ g ∈ vars.flatMap (·.bits), values[g]? = some (look g)) :
    Answers (buildModel vars values) fun m =>
      List.Forall₂ (ModelEntry.Of look) vars m.entries := by
  refine (answers_mapM (R := ModelEntry.Of look) fun v hv => ?_).bind fun entries h =>
    answers_ok h
  refine (modelValue_answers ha (hvars v hv) fun g hg => ?_).bind fun x hx =>
    answers_ok ⟨rfl, rfl, rfl, hx⟩
  exact hbits g (List.mem_flatMap.mpr ⟨v, hv, hg⟩)

theorem ScalarValue.Is.sort_eq {x : ScalarValue} {bs : List Bool} {σ : TermSort} (h : x.Is bs σ) :
    x.sort = σ := by
  cases σ with
  | bool =>
    obtain ⟨b, -, rfl⟩ := h
    rfl
  | bv w =>
    obtain ⟨bytes, rfl, -⟩ := h
    rfl

theorem ScalarValue.Is.canonical {x : ScalarValue} {bs : List Bool} {σ : TermSort} (h : x.Is bs σ)
    (hlen : bs.length = sortBits σ) : x.Canonical := by
  cases σ with
  | bool =>
    obtain ⟨b, -, rfl⟩ := h
    trivial
  | bv w =>
    obtain ⟨bytes, rfl, hl, hvalue⟩ := h
    have hlt := BitList.toNat_lt bs
    rw [hlen, ← hvalue] at hlt
    exact ⟨hl, hlt⟩

theorem ModelEntry.Of.declaration_eq {v : BlastedVariable} {e : ModelEntry} (h : e.Of look v) :
    e.declaration = Blast.declaration v := by
  rw [ModelEntry.declaration, Blast.declaration, h.term, h.name, h.external, h.value.sort_eq]

/-- An assignment that agrees with the entry is read from the gates. -/
theorem ModelEntry.Of.valueBits_eq {arena : Arena} (ha : arena.Inv) {v : BlastedVariable}
    {e : ModelEntry} (h : e.Of look v) (hv : Declared arena v) {ρ : Env} (hρ : ρ.Agrees e) :
    valueBits (arena.value ρ v.term) = v.bits.map look := by
  have hvalue := h.value
  rw [Env.Agrees, h.term] at hρ
  refine Blast.valueBits_eq ha hv (List.length_map _) (fun hsort => ?_) fun w hsort => ?_
  · rw [hsort] at hvalue
    obtain ⟨b, hbits, he⟩ := hvalue
    rw [he] at hρ
    rw [hbits]
    exact hρ
  · rw [hsort] at hvalue
    obtain ⟨bytes, he, -, hbytes⟩ := hvalue
    rw [he] at hρ
    rw [← hbytes]
    exact hρ

theorem agrees_envOf {s : GateArena} {inputs : Nat → Bool} {vars : List BlastedVariable}
    (hnodup : (vars.map (·.term)).Nodup) {v : BlastedVariable} (hv : v ∈ vars) {e : ModelEntry}
    (h : e.Of (s.value inputs) v) : (envOf s inputs vars).Agrees e := by
  have hfind := find?_term hnodup hv
  have hvalue := h.value
  rw [Env.Agrees, h.term]
  cases hsort : v.sort with
  | bool =>
    rw [hsort] at hvalue
    obtain ⟨b, hbits, he⟩ := hvalue
    rw [he]
    simp only [envOf, hfind, Option.map_some, Option.getD_some, hbits, List.headD_cons]
  | bv w =>
    rw [hsort] at hvalue
    obtain ⟨bytes, he, -, hbytes⟩ := hvalue
    rw [he]
    simp only [envOf, hfind, Option.map_some, Option.getD_some, hbytes]

/-- The model of inputs that make the output true. -/
theorem BlastResult.Sound.model (h : r.Sound q) (hq : q.WellFormed) {inputs : Nat → Bool}
    (htrue : r.gates.value inputs r.assertion = true) {m : Model}
    (hm : List.Forall₂ (ModelEntry.Of (r.gates.value inputs)) r.vars m.entries) : m.For q := by
  have hof : ∀ e ∈ m.entries, ∃ v ∈ r.vars, e.Of (r.gates.value inputs) v := exists_of_forall₂ hm
  have hvars : ∀ v ∈ r.vars, ∃ e ∈ m.entries, e.Of (r.gates.value inputs) v :=
    exists_of_forall₂ hm.flip
  have hdecl : m.entries.map ModelEntry.declaration = r.vars.map declaration := by
    rw [← List.forall₂_eq_eq_eq, List.forall₂_map_left_iff, List.forall₂_map_right_iff]
    exact hm.flip.imp fun _ _ h => h.declaration_eq
  refine ⟨?_, fun d => ?_, fun e he => ?_, ⟨envOf r.gates inputs r.vars, fun e he => ?_⟩,
    fun ρ hρ => ?_⟩
  · have hsorted := h.sorted
    rw [← hdecl, List.pairwise_map] at hsorted
    exact hsorted
  · rw [hdecl]
    exact h.wanted d
  · obtain ⟨v, hv, hof⟩ := hof e he
    exact hof.value.canonical ((List.length_map _).trans (h.declared v hv).2)
  · obtain ⟨v, hv, hof⟩ := hof e he
    exact agrees_envOf h.nodup hv hof
  · refine (h.assertion inputs ρ fun v hv => ?_).mp htrue
    obtain ⟨e, he, hof⟩ := hvars v hv
    rw [hof.valueBits_eq hq.arena (h.declared v hv) (hρ e he)]
    exact computesAll_self fun g hg => h.inputs.lt_length (List.mem_flatMap.mpr ⟨v, hv, hg⟩)

/-! ## The solver -/

namespace Solver

open Sat

variable {foreign : ForeignSolvers} {config : Config} {wantModel : Bool}

/-- What an answer to a query says, from a solver that asks this backend. -/
def Right (foreign : ForeignSolvers) (backend : SatBackendKind) (q : Query) (wantModel : Bool)
    (result : SolveResult) : Prop :=
  match result.status with
  | .sat => q.Satisfiable ∧ result.model.isSome = wantModel ∧
      ∀ m, result.model = some m → m.For q
  | .unsat => foreign.Sound ∨ backend = .dpll → ¬q.Satisfiable
  | .unknown => backend ≠ .dpll
  | .simplified => False

/-- A query that can be blasted and encoded: its terms are there, and the gates have numbers that
fit. -/
structure Encodable (q : Query) (deadline cancellation : Option Bool) : Prop where
  wellFormed : q.WellFormed
  target : ∀ t ∈ q.target, t < q.arena.nodes.length
  small : (blastedGates q deadline cancellation).gates.length < 2 ^ 31

theorem solveCoreOnce_answers
    (hlimits : Cnf.checkLimits deadline config.cancellationToken = ok ())
    (hq : Encodable q deadline config.cancellationToken) :
    Answers (solveCoreOnceWithDeadline foreign config q wantModel deadline)
      (Right foreign config.satBackend q wantModel) := by
  have hcancel : ¬config.isCancelled = true := by
    intro h
    rw [Config.isCancelled, decide_eq_true_eq] at h
    rw [Cnf.checkLimits, if_pos h] at hlimits
    cases hlimits
  have hdeadline : ¬deadline = some true := by
    rintro rfl
    rw [Cnf.checkLimits] at hlimits
    split at hlimits <;> cases hlimits
  obtain ⟨r, hblast, hgates, hr⟩ :=
    blastQuery_spec hq.wellFormed hq.target hlimits (hq.small.le.trans (by decide))
  have hsmall := hq.small
  rw [← hgates] at hsmall
  obtain ⟨cnf, hencode, hcnf⟩ := Cnf.encodes hr.inv hr.assertion_lt hsmall hlimits
  have hsat := hr.satisfiable_iff hq.wellFormed
  rw [solveCoreOnceWithDeadline, if_neg hcancel, if_neg hdeadline]
  dsimp only
  rw [hblast, orLimit, hencode, orLimit]
  have hsolve : Answers (solveCnfWithCancellation foreign config.satBackend cnf.numVars cnf.clauses
      [] deadline config.cancellationToken) _ := solveCnf_answers hlimits
    (fun c hc l hl => hcnf.numVars_eq ▸ hcnf.inRange c hc l hl) (by simp)
  refine hsolve.bind fun answer h => ?_
  cases answer with
  | unsat =>
    refine answers_ok fun htrusted hsatisfiable => ?_
    obtain ⟨inputs, htrue⟩ := hsat.mpr hsatisfiable
    obtain ⟨v, hv⟩ := hcnf.models inputs htrue
    exact h htrusted v ⟨hv, by simp⟩
  | unknown message => exact answers_ok h
  | sat values =>
    obtain ⟨hlength, hmodels, -⟩ := h
    obtain ⟨inputs, htrue, hvalues⟩ := hcnf.values values hmodels
    have hsatisfiable := hsat.mp ⟨inputs, htrue⟩
    dsimp only
    cases wantModel with
    | false => exact answers_ok ⟨hsatisfiable, rfl, fun m hm => by cases hm⟩
    | true =>
      rw [if_pos rfl]
      have hlook : ∀ g ∈ r.vars.flatMap (·.bits), values[g]? = some (r.gates.value inputs g) := by
        intro g hg
        have hlt := hr.inputs.lt_length hg
        rw [← hvalues g hlt, List.getElem?_eq_getElem (by rwa [hlength, hcnf.numVars_eq]),
          List.getD_eq_getElem]
      refine (buildModel_answers hq.wellFormed.arena hr.declared hlook).bind fun m hm =>
        answers_ok ⟨hsatisfiable, rfl, fun m' hm' => ?_⟩
      obtain rfl := Option.some.inj hm'
      exact hr.model hq.wellFormed htrue hm

end Solver
end Qfbv
end SmtServer
