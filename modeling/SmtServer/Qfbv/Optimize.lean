import SmtServer.Lib.BitHunt
import SmtServer.Qfbv.Solver

/-!
# Optimisation is exact

`optimize` fixes the bits of its target from the top, asking for the preferred value of each bit
first. The argument is the one of `Lib.BitHunt`, over the set of values that the target takes
under satisfying assignments; what is proved here is that a round of the loop is a step of that
hunt: the query it carries holds exactly under the satisfying assignments that agree with the bits
found so far (`HuntInv`), although every trial is a clone with new terms in its arena.

The search adds three terms for each bit, and stops with the arena's error when there are no more
ids.
-/

namespace SmtServer
namespace Qfbv
namespace Solver

open Lib Outcome
open Lib.BitHunt (Agree Settled Next Prefers)
open Lib.Smt (Value)

/-- The solver answers `Sat` or `Unsat`, rightly, and every completion of a model it returns
satisfies the query. -/
def Decides (solveOnce : SolveOnce) (q : Query) : Prop :=
  ∀ wantModel, ∃ r, solveOnce q wantModel = ok r ∧
    ((r.status = .sat ∧ q.Satisfiable) ∨ (r.status = .unsat ∧ ¬q.Satisfiable)) ∧
    ∀ m, r.model = some m → ∀ ρ : Env, ρ.Completes m → q.Holds ρ

/-- The order an optimisation is about: `x` is at least as good as `y`. -/
def Precedes {w : Nat} (signed minimize : Bool) (x y : BitVec w) : Prop :=
  match signed, minimize with
  | false, true => x.toNat ≤ y.toNat
  | false, false => y.toNat ≤ x.toNat
  | true, true => x.toInt ≤ y.toInt
  | true, false => y.toInt ≤ x.toInt

/-- `x` is the best value of the target under the assignments that satisfy the query. -/
structure IsOptimum (query : Query) (target : TermId) {w : Nat} (x : BitVec w) : Prop where
  attained : ∃ ρ, query.Holds ρ ∧ query.arena.value ρ target = .bv w x
  best : ∀ ρ, query.Holds ρ →
    Precedes query.signed (query.command = .minimize) x ((query.arena.value ρ target).toBv w)

/-! ## Asserting a bit -/

theorem bveq_extract {w : Nat} (x : BitVec w) (i : Nat) (b : Bool) :
    Smt.bveq (Smt.extract i i (.bv w x)) (.bv 1 (.ofNat 1 (leNat [if b then 1 else 0]))) =
      .bool (x.getLsbD i == b) := by
  rw [Smt.extract_self, Smt.bveq, Value.rel₂_bv]
  cases x.getLsbD i <;> cases b <;> rfl

variable {s : Arena} {target : TermId} {w bit : Nat} {value : Bool}

/-- The term compares a bit of the target with a constant. -/
theorem targetBitTerm_spec (ht : s.sortAt target = some (.bv w)) (hbit : bit < w) :
    Arena.Spec (targetBitTerm target bit value) s fun t s' => s'.sortAt t = some .bool ∧
      ∀ ρ, s'.value ρ t = .bool (((s.value ρ target).toBv w).getLsbD bit == value) := by
  have hone : Arena.SortOk (.bv 1) := by
    simp [Arena.SortOk, maxBvWidth]
  refine Arena.Spec.bind (Arena.add_spec hone ⟨w, by simp, ht, le_refl _, hbit⟩) ?_
  intro extracted s₁ hle₁ hs₁ hext
  refine Arena.Spec.bind
    (Arena.add_spec hone ⟨rfl, by simp [divCeil8], by cases value <;> decide⟩) ?_
  intro constant s₂ hle₂ hs₂ hconst
  have hext₂ := Arena.nodes_mono hle₂ hext
  have hsort₂ : s₂.sortAt extracted = some (.bv 1) := Arena.sortAt_eq_some.mpr ⟨_, hext₂, rfl⟩
  refine Arena.Spec.mono (Arena.add_spec trivial
    ⟨1, rfl, hsort₂, Arena.sortAt_eq_some.mpr ⟨_, hconst, rfl⟩⟩) ?_
  intro t s₃ hle₃ hs₃ heq
  refine ⟨Arena.sortAt_eq_some.mpr ⟨_, heq, rfl⟩, ?_⟩
  intro ρ
  have htarget : s₃.value ρ target = s.value ρ target :=
    Arena.value_mono (le_trans hle₁ (le_trans hle₂ hle₃)) ht
  have hsort : s₃.sortAt target = some (.bv w) :=
    Arena.sortAt_mono (le_trans hle₁ (le_trans hle₂ hle₃)) ht
  rw [hs₃.value_eq heq]
  show Smt.bveq (s₃.value ρ extracted) (s₃.value ρ constant) = _
  rw [hs₃.value_eq (Arena.nodes_mono hle₃ hext₂), hs₃.value_eq (Arena.nodes_mono hle₃ hconst)]
  show Smt.bveq (Smt.extract bit bit (s₃.value ρ target)) _ = _
  rw [hs₃.value_bv hsort, htarget]
  exact bveq_extract _ bit value

theorem adds_targetBitTerm : Arena.Adds (targetBitTerm target bit value) 3 :=
  Arena.adds_add.bind fun _ => Arena.adds_add.bind fun _ => Arena.adds_add

/-- A query with one more bit of the target fixed, or no more ids. -/
theorem assertTargetBit_cases {q : Query} (hq : q.WellFormed)
    (ht : q.arena.sortAt target = some (.bv w)) (hbit : bit < w) :
    (∃ q', assertTargetBit q target bit value = ok q' ∧ q'.WellFormed ∧ q'.command = q.command ∧
      q.arena ≤ q'.arena ∧ q'.arena.nodes.length ≤ q.arena.nodes.length + 3 ∧
      ∀ ρ, q'.Holds ρ ↔
        q.Holds ρ ∧ ((q.arena.value ρ target).toBv w).getLsbD bit = value) ∨
    (assertTargetBit q target bit value = err Arena.full ∧
      2 ^ 32 ≤ q.arena.nodes.length + 3) := by
  have hadds := @adds_targetBitTerm target bit value q.arena
  rcases (targetBitTerm_spec ht hbit).cases hq.arena with ⟨t, s', hrun, hle, hs', hsort, hvalue⟩ |
      ⟨s', hrun, hlen⟩
  · left
    rw [hrun] at hadds
    refine ⟨{ q with arena := s', assertions := q.assertions ++ [⟨t, none⟩] },
      by rw [assertTargetBit, hrun], ⟨hs', ?_⟩, rfl, hle, hadds, ?_⟩
    · intro u hu
      rw [Query.mem_roots] at hu
      rcases hu with ⟨a, ha, rfl⟩ | hu
      · rcases List.mem_append.mp ha with hold | hnew
        · exact Arena.sortAt_mono hle (hq.roots _ (Query.mem_roots.mpr (.inl ⟨a, hold, rfl⟩)))
        · rw [List.mem_singleton] at hnew
          subst hnew
          exact hsort
      · exact Arena.sortAt_mono hle (hq.roots _ (Query.mem_roots.mpr (.inr hu)))
    · intro ρ
      have hold : ∀ u ∈ q.assertionsAndAssumptions, s'.value ρ u = q.arena.value ρ u :=
        fun u hu => Arena.value_mono hle (hq.roots u hu)
      constructor
      · intro h
        refine ⟨?_, ?_⟩
        · intro u hu
          rw [← hold u hu]
          apply h u
          rw [Query.mem_roots] at hu ⊢
          exact hu.imp_left fun ⟨a, ha, hu⟩ => ⟨a, List.mem_append_left _ ha, hu⟩
        · have hnew := h t (Query.mem_roots.mpr (.inl ⟨⟨t, none⟩, by simp, rfl⟩))
          rw [hvalue ρ] at hnew
          simpa using hnew
      · rintro ⟨h, hb⟩ u hu
        rw [Query.mem_roots] at hu
        rcases hu with ⟨a, ha, rfl⟩ | hu
        · rcases List.mem_append.mp ha with hmem | hnew
          · have hroot : a.root ∈ q.assertionsAndAssumptions :=
              Query.mem_roots.mpr (.inl ⟨a, hmem, rfl⟩)
            show (s'.value ρ a.root).toBool = true
            rw [hold _ hroot]
            exact h _ hroot
          · rw [List.mem_singleton] at hnew
            subst hnew
            show (s'.value ρ t).toBool = true
            rw [hvalue ρ, hb]
            simp
        · have hroot : u ∈ q.assertionsAndAssumptions := Query.mem_roots.mpr (.inr hu)
          show (s'.value ρ u).toBool = true
          rw [hold _ hroot]
          exact h _ hroot
  · right
    rw [hrun, hlen] at hadds
    exact ⟨by rw [assertTargetBit, hrun], hadds⟩

/-! ## The bits found so far -/

theorem testBit_setBit {bytes : List UInt8} {i : Nat} (hi : i / 8 < bytes.length) (j : Nat) :
    (leNat (setBit bytes i)).testBit j = (decide (j = i) || (leNat bytes).testBit j) := by
  have hshift : (1 <<< UInt8.ofNat (i % 8) : UInt8).toNat = 2 ^ (i % 8) := by
    have hlt : i % 8 < 8 := Nat.mod_lt _ (by decide)
    generalize i % 8 = r at hlt
    have key : ∀ r : Fin 8, (1 <<< UInt8.ofNat r.val : UInt8).toNat = 2 ^ r.val := by decide
    exact key ⟨r, hlt⟩
  rw [testBit_leNat, testBit_leNat, setBit, List.getD_eq_getElem?_getD, List.getElem?_modify,
    List.getD_eq_getElem?_getD]
  by_cases hq : i / 8 = j / 8
  · have hj : j / 8 < bytes.length := by omega
    rw [List.getElem?_eq_getElem hj]
    simp only [hq, if_true, Option.map_eq_map, Option.map_some, Option.getD_some, UInt8.toNat_or,
      Nat.testBit_or, hshift, Nat.testBit_two_pow]
    rw [Bool.or_comm]
    congr 1
    rw [decide_eq_decide]
    omega
  · have hne : j ≠ i := by
      rintro rfl
      exact hq rfl
    simp [hq, hne]

theorem next_setBit {bytes : List UInt8} {k : Nat} (hk : k / 8 < bytes.length)
    (hlow : ∀ j, j < k + 1 → (leNat bytes).testBit j = false) (b : Bool) :
    Next k b (leNat bytes) (leNat (if b then setBit bytes k else bytes)) := by
  cases b with
  | false =>
    refine ⟨fun j hj => hlow j (by omega), hlow k (by omega), fun j _ => rfl⟩
  | true =>
    refine ⟨?_, ?_, ?_⟩
    · intro j hj
      rw [if_pos rfl, testBit_setBit hk, hlow j (by omega)]
      simp
      omega
    · rw [if_pos rfl, testBit_setBit hk]
      simp
    · intro j hj
      rw [if_pos rfl, testBit_setBit hk]
      have hne : ¬j = k := by omega
      simp [hne]

@[simp] theorem length_setBit (bytes : List UInt8) (i : Nat) :
    (setBit bytes i).length = bytes.length := by
  simp [setBit]

/-! ## The loop -/

variable {solveOnce : SolveOnce} {query : Query}

/-- The value of the target, as a number. -/
def targetValue (query : Query) (target : TermId) (w : Nat) (ρ : Env) : Nat :=
  ((query.arena.value ρ target).toBv w).toNat

/-- The values that the target takes. -/
def Feasible (query : Query) (target : TermId) (w y : Nat) : Prop :=
  ∃ ρ, query.Holds ρ ∧ targetValue query target w ρ = y

/-- The preference of the search for each bit. -/
def preference (query : Query) (w j : Nat) : Bool :=
  preferOne query.signed (query.command = .minimize) (j = w - 1)

/-- Before the round of bit `k - 1`: the query that is carried holds exactly under the satisfying
assignments that agree with the bits found, and these are the best. -/
structure HuntInv (query : Query) (target : TermId) (w k : Nat) (fixed : Query)
    (optimum : List UInt8) : Prop where
  wf : fixed.WellFormed
  command : fixed.command = .solve
  le : query.arena ≤ fixed.arena
  size : fixed.arena.nodes.length + 3 * k ≤ query.arena.nodes.length + 3 * w
  length : optimum.length = divCeil8 w
  holds : ∀ ρ, fixed.Holds ρ ↔
    query.Holds ρ ∧ Agree k (leNat optimum) (targetValue query target w ρ)
  settled : Settled (Feasible query target w) (preference query w) k (leNat optimum)

variable {k : Nat} {fixed : Query} {optimum : List UInt8}

theorem HuntInv.fixBit (h : HuntInv query target w (k + 1) fixed optimum)
    (ht : query.arena.sortAt target = some (.bv w)) (hk : k < w) (b : Bool) :
    (∃ q', assertTargetBit fixed target k b = ok q' ∧ q'.WellFormed ∧ q'.command = .solve ∧
      query.arena ≤ q'.arena ∧
      q'.arena.nodes.length + 3 * k ≤ query.arena.nodes.length + 3 * w ∧
      ∀ ρ, q'.Holds ρ ↔ query.Holds ρ ∧
        Agree k (leNat (if b then setBit optimum k else optimum)) (targetValue query target w ρ)) ∨
    (assertTargetBit fixed target k b = err Arena.full ∧
      2 ^ 32 ≤ query.arena.nodes.length + 3 * w) := by
  have hsize := h.size
  have hidx : k / 8 < optimum.length := by
    rw [h.length, divCeil8]
    omega
  have hnext := next_setBit hidx h.settled.low b
  rcases assertTargetBit_cases h.wf (Arena.sortAt_mono h.le ht) hk with
    ⟨q', hrun, hwf, hcmd, hle, hlen, hholds⟩ | ⟨hrun, hlen⟩
  · left
    refine ⟨q', hrun, hwf, hcmd.trans h.command, le_trans h.le hle, by omega, ?_⟩
    intro ρ
    have hbit : ((fixed.arena.value ρ target).toBv w).getLsbD k =
        (targetValue query target w ρ).testBit k := by
      rw [Arena.value_mono h.le ht, targetValue, BitVec.testBit_toNat]
    rw [hholds, h.holds, hbit, and_assoc]
    refine and_congr_right fun _ => ?_
    constructor
    · rintro ⟨hagree, hb⟩
      exact (hnext.high.trans hagree).extend (hnext.bit.trans hb.symm)
    · intro hagree
      refine ⟨hnext.high.symm.trans (hagree.mono (Nat.le_succ k)), ?_⟩
      rw [← hagree k (le_refl k), hnext.bit]
  · right
    exact ⟨hrun, by omega⟩

/-- **One round** is a step of the hunt. -/
theorem huntBit_spec (hsolve : ∀ q : Query, q.WellFormed → q.command = .solve → Decides solveOnce q)
    (ht : query.arena.sortAt target = some (.bv w)) (hk : k < w)
    (h : HuntInv query target w (k + 1) fixed optimum) :
    (∃ fixed' optimum', huntBit solveOnce query target w k fixed optimum =
        ok (.go fixed' optimum') ∧ HuntInv query target w k fixed' optimum') ∨
    (huntBit solveOnce query target w k fixed optimum = err Arena.full ∧
      2 ^ 32 ≤ query.arena.nodes.length + 3 * w) := by
  have hidx : k / 8 < optimum.length := by
    rw [h.length, divCeil8]
    omega
  have hlen : ∀ b : Bool, (if b then setBit optimum k else optimum).length = divCeil8 w := by
    intro b
    cases b <;> simp [h.length]
  have hpref : preferOne query.signed (query.command = .minimize) (k = w - 1) =
      preference query w k := rfl
  rw [huntBit, hpref]
  rcases h.fixBit ht hk (preference query w k) with
    ⟨trial, hrun, hwf, hcmd, hle, hsize, hholds⟩ | ⟨hrun, hfull⟩
  · obtain ⟨r, hr, hans, -⟩ := hsolve trial hwf hcmd false
    rw [hrun, ok_bind, hr, ok_bind]
    rcases hans with ⟨hsat, ρ, hρ⟩ | ⟨hunsat, hno⟩
    · -- the preferred value is feasible
      left
      rw [hsat]
      have hnext := next_setBit hidx h.settled.low (preference query w k)
      obtain ⟨hq, hagree⟩ := (hholds ρ).mp hρ
      refine ⟨_, _, rfl, hwf, hcmd, hle, hsize, hlen _, hholds, h.settled.take ?_ hnext⟩
      refine ⟨_, ⟨ρ, hq, rfl⟩, hnext.high.symm.trans (hagree.mono (Nat.le_succ k)), ?_⟩
      rw [← hagree k (le_refl k), hnext.bit]
    · -- it is not, so the other one is the only one left
      rw [hunsat]
      have hnext := next_setBit hidx h.settled.low (!preference query w k)
      have hinfeas : ∀ y, Feasible query target w y → Agree (k + 1) (leNat optimum) y →
          y.testBit k ≠ preference query w k := by
        rintro _ ⟨ρ, hq, rfl⟩ hagree hbit
        have hnext' := next_setBit hidx h.settled.low (preference query w k)
        exact hno ⟨ρ, (hholds ρ).mpr ⟨hq,
          (hnext'.high.trans hagree).extend (hnext'.bit.trans hbit.symm)⟩⟩
      have hsame : (if preference query w k then optimum else setBit optimum k) =
          if !preference query w k then setBit optimum k else optimum := by
        cases preference query w k <;> rfl
      simp only [settleBit, hsame]
      rcases h.fixBit ht hk (!preference query w k) with
        ⟨other, hrun', hwf', hcmd', hle', hsize', hholds'⟩ | ⟨hrun', hfull⟩
      · left
        rw [hrun', ok_bind]
        exact ⟨_, _, rfl, hwf', hcmd', hle', hsize', hlen _, hholds', h.settled.skip hinfeas hnext⟩
      · right
        rw [hrun']
        exact ⟨rfl, hfull⟩
  · right
    rw [hrun]
    exact ⟨rfl, hfull⟩

/-- **The whole loop.** -/
theorem huntBits_spec
    (hsolve : ∀ q : Query, q.WellFormed → q.command = .solve → Decides solveOnce q)
    (ht : query.arena.sortAt target = some (.bv w)) :
    ∀ (k : Nat) (fixed : Query) (optimum : List UInt8), k ≤ w →
      HuntInv query target w k fixed optimum →
      (∃ fixed' optimum', huntBits solveOnce query target w k fixed optimum =
          ok (.go fixed' optimum') ∧ HuntInv query target w 0 fixed' optimum') ∨
      (huntBits solveOnce query target w k fixed optimum = err Arena.full ∧
        2 ^ 32 ≤ query.arena.nodes.length + 3 * w) := by
  intro k
  induction k with
  | zero =>
    intro fixed optimum _ h
    exact .inl ⟨fixed, optimum, rfl, h⟩
  | succ k ih =>
    intro fixed optimum hk h
    rw [huntBits]
    rcases huntBit_spec hsolve ht hk h with ⟨fixed', optimum', hrun, h'⟩ | ⟨hrun, hfull⟩
    · rw [hrun, ok_bind]
      exact ih fixed' optimum' (by omega) h'
    · right
      rw [hrun]
      exact ⟨rfl, hfull⟩

/-! ## The result -/

/-- The preferences of the four objectives are the four numeric orders. -/
theorem precedes_of_prefers {x y : BitVec w}
    (h : Prefers (preference query w) 0 x.toNat y.toNat) :
    Precedes query.signed (query.command = .minimize) x y := by
  unfold Precedes
  split
  · rename_i hs hm
    have hpref : preference query w = fun _ => false := by
      funext j
      simp [preference, hs, hm, preferOne]
    exact Prefers.le (hpref ▸ h)
  · rename_i hs hm
    have hpref : preference query w = fun _ => true := by
      funext j
      simp [preference, hs, hm, preferOne]
    exact Prefers.ge (hpref ▸ h)
  · rename_i hs hm
    have hpref : preference query w = fun j => decide (j = w - 1) := by
      funext j
      by_cases hj : j = w - 1 <;> simp [preference, hs, hm, preferOne, hj]
    exact Prefers.toInt_le (hpref ▸ h)
  · rename_i hs hm
    have hpref : preference query w = fun j => !decide (j = w - 1) := by
      funext j
      by_cases hj : j = w - 1 <;> simp [preference, hs, hm, preferOne, hj]
    exact Prefers.toInt_ge (hpref ▸ h)

/-- The query without its objective. -/
def withoutObjective (query : Query) : Query :=
  { query with command := .solve, wantModel := false, wantCore := false, target := none }

theorem huntInv_start (hq : query.WellFormed) (hsat : query.Satisfiable) :
    HuntInv query target w w (withoutObjective query) (List.replicate (divCeil8 w) 0) := by
  have hzero : leNat (List.replicate (divCeil8 w) 0) = 0 := leNat_replicate_zero _
  have hsmall : ∀ y, Feasible query target w y → y < 2 ^ w := by
    rintro _ ⟨ρ, -, rfl⟩
    exact BitVec.isLt _
  refine ⟨⟨hq.arena, hq.roots⟩, rfl, le_refl _, le_refl _, by simp, ?_, ?_⟩
  · intro ρ
    refine ⟨fun h => ⟨h, ?_⟩, fun h => h.1⟩
    intro j hj
    rw [hzero, Nat.zero_testBit, Nat.testBit_lt_two_pow]
    exact Nat.lt_of_lt_of_le (BitVec.isLt _) (Nat.pow_le_pow_right (by decide) hj)
  · rw [hzero]
    obtain ⟨ρ, hρ⟩ := hsat
    exact BitHunt.settled_start hsmall ⟨_, ρ, hρ, rfl⟩

/-- What the bits found say when all of them are settled. -/
theorem HuntInv.isOptimum (h : HuntInv query target w 0 fixed optimum) (hq : query.WellFormed)
    (ht : query.arena.sortAt target = some (.bv w)) :
    ∃ x : BitVec w, leNat optimum = x.toNat ∧ IsOptimum query target x ∧
      ∀ ρ, fixed.Holds ρ → query.Holds ρ ∧ query.arena.value ρ target = .bv w x := by
  have hvalue : ∀ ρ, query.arena.value ρ target =
      .bv w (BitVec.ofNat w (targetValue query target w ρ)) := by
    intro ρ
    rw [targetValue, BitVec.ofNat_toNat, BitVec.setWidth_eq]
    exact hq.arena.value_bv ht
  obtain ⟨ρ₀, hρ₀, heq₀⟩ := h.settled.mem
  have hx : leNat optimum = (BitVec.ofNat w (leNat optimum)).toNat := by
    rw [BitVec.toNat_ofNat, Nat.mod_eq_of_lt]
    rw [← heq₀]
    exact BitVec.isLt _
  refine ⟨BitVec.ofNat w (leNat optimum), hx, ⟨⟨ρ₀, hρ₀, by rw [hvalue, heq₀]⟩, ?_⟩, ?_⟩
  · intro ρ hρ
    apply precedes_of_prefers
    rw [← hx]
    exact h.settled.best _ ⟨ρ, hρ, rfl⟩
  · intro ρ hρ
    obtain ⟨hquery, hagree⟩ := (h.holds ρ).mp hρ
    exact ⟨hquery, by rw [hvalue, ← hagree.eq]⟩

/-- **Optimisation is exact.** With a solver that decides every query it is given, `optimize`
answers `Unsat` exactly for unsatisfiable queries, and otherwise returns the optimum, with a model
every completion of which attains it — unless the arena has no room for three terms a bit. -/
theorem optimize_exact
    (hsolve : ∀ q : Query, q.WellFormed → q.command = .solve → Decides solveOnce q)
    (hq : query.WellFormed) (htarget : query.target = some target)
    (ht : query.arena.sortAt target = some (.bv w)) :
    (¬query.Satisfiable ∧ optimize solveOnce query = ok .unsat) ∨
    (query.Satisfiable ∧ ∃ (bytes : List UInt8) (x : BitVec w) (model : Option Model),
      optimize solveOnce query = ok (.satOptimization (.bv w bytes) model) ∧
      bytes.length = divCeil8 w ∧ leNat bytes = x.toNat ∧ IsOptimum query target x ∧
      ∀ m, model = some m → ∀ ρ : Env, ρ.Completes m →
        query.Holds ρ ∧ query.arena.value ρ target = .bv w x) ∨
    (optimize solveOnce query = err Arena.full ∧ 2 ^ 32 ≤ query.arena.nodes.length + 3 * w) := by
  have hbase : (withoutObjective query).WellFormed := ⟨hq.arena, hq.roots⟩
  obtain ⟨r, hr, hans, -⟩ := hsolve _ hbase rfl false
  have hrun : optimize solveOnce query =
      optimizeBase solveOnce query target w (withoutObjective query) r.status := by
    rw [optimize, htarget, ofOption, ok_bind, Arena.sort_eq_ok.mpr ht, ok_bind, targetWidth, ok_bind]
    show (solveOnce (withoutObjective query) false >>= _) = _
    rw [hr, ok_bind]
    rfl
  rw [hrun]
  rcases hans with ⟨hstatus, hsat⟩ | ⟨hstatus, hunsat⟩
  · right
    rw [hstatus]
    show (_ ∧ ∃ bytes x model, optimizeFrom solveOnce query target w _ = _ ∧ _) ∨
      (optimizeFrom solveOnce query target w _ = _ ∧ _)
    rw [optimizeFrom]
    rcases huntBits_spec hsolve ht w _ _ (le_refl w) (huntInv_start hq hsat) with
      ⟨fixed, optimum, hhunt, hinv⟩ | ⟨hhunt, hfull⟩
    · left
      obtain ⟨x, hx, hopt, hmodel⟩ := hinv.isOptimum hq ht
      refine ⟨hsat, optimum, x, ?_⟩
      rw [hhunt, ok_bind]
      show ∃ model, finalModel solveOnce query fixed (.bv w optimum) = _ ∧ _
      rw [finalModel]
      split
      · obtain ⟨r', hr', hans', hm'⟩ := hsolve fixed hinv.wf hinv.command true
        obtain ⟨ρ₀, hρ₀, hv₀⟩ := hinv.settled.mem
        have hsat' : fixed.Satisfiable := ⟨ρ₀, (hinv.holds ρ₀).mpr ⟨hρ₀, fun j _ => by rw [hv₀]⟩⟩
        have hstatus' : r'.status = .sat := by
          rcases hans' with ⟨h, -⟩ | ⟨-, h⟩
          · exact h
          · exact absurd hsat' h
        rw [hr', ok_bind, if_pos hstatus']
        refine ⟨r'.model, rfl, hinv.length, hx, hopt, ?_⟩
        intro m hm ρ hρ
        exact hmodel ρ (hm' m hm ρ hρ)
      · exact ⟨none, rfl, hinv.length, hx, hopt, fun m hm => by cases hm⟩
    · right
      rw [hhunt]
      exact ⟨rfl, hfull⟩
  · left
    rw [hstatus]
    exact ⟨hunsat, rfl⟩

/-! ## A solver for examples, and the arena without room -/

open Classical in
/-- The solver that is right by definition, and returns no model. -/
noncomputable def oracle : SolveOnce := fun q _ =>
  ok (if q.Satisfiable then .sat none else .unsat)

theorem oracle_decides (q : Query) : Decides oracle q := by
  intro wantModel
  refine ⟨_, rfl, ?_, ?_⟩
  · by_cases h : q.Satisfiable
    · exact .inl ⟨by rw [if_pos h]; rfl, h⟩
    · exact .inr ⟨by rw [if_neg h]; rfl, h⟩
  · intro m hm
    by_cases h : q.Satisfiable
    · rw [if_pos h] at hm
      cases hm
    · rw [if_neg h] at hm
      cases hm

/-- An arena of `n` variables of one bit. -/
def bitVars (n : Nat) : Arena :=
  ⟨(List.range n).map fun i => ⟨.bvVar 1 "x" (some i), .bv 1⟩⟩

/-- Minimise the first variable, with nothing asserted. -/
def minimizeFirst (n : Nat) : Query where
  arena := bitVars n
  assertions := []
  assumptions := []
  command := .minimize
  target := some 0
  signed := false
  wantModel := true
  wantCore := false
  getValues := []

theorem bitVars_getElem? {n i : Nat} {m : Node} (h : (bitVars n).nodes[i]? = some m) :
    i < n ∧ m = ⟨.bvVar 1 "x" (some i), .bv 1⟩ := by
  have hlt := (List.getElem?_eq_some_iff.mp h).1
  have hlt' : i < n := by simpa [bitVars] using hlt
  refine ⟨hlt', ?_⟩
  rw [bitVars, List.getElem?_map, List.getElem?_range hlt'] at h
  exact (Option.some.inj h).symm

theorem bitVars_inv {n : Nat} (hn : n ≤ 2 ^ 32) : (bitVars n).Inv := by
  refine ⟨?_, ?_, ?_, ?_, by simpa [bitVars] using hn⟩
  · intro i m hm
    obtain ⟨-, rfl⟩ := bitVars_getElem? hm
    intro j hj
    simp [NodeKind.children] at hj
  · intro t m hm
    obtain ⟨-, rfl⟩ := bitVars_getElem? hm
    rfl
  · intro t w ht
    obtain ⟨m, hm, hsort⟩ := Arena.sortAt_eq_some.mp ht
    obtain ⟨-, rfl⟩ := bitVars_getElem? hm
    obtain rfl : w = 1 := by simpa using hsort.symm
    simp [maxBvWidth]
  · refine List.Nodup.map ?_ List.nodup_range
    intro i j hij
    simpa using hij

theorem minimizeFirst_wellFormed {n : Nat} (hn : n ≤ 2 ^ 32) : (minimizeFirst n).WellFormed := by
  refine ⟨bitVars_inv hn, ?_⟩
  intro t ht
  simp [Query.assertionsAndAssumptions, minimizeFirst] at ht

theorem bitVars_sortAt {n : Nat} (hn : 0 < n) : (bitVars n).sortAt 0 = some (.bv 1) := by
  rw [Arena.sortAt_eq_some]
  refine ⟨⟨.bvVar 1 "x" (some 0), .bv 1⟩, ?_, rfl⟩
  rw [bitVars, List.getElem?_map, List.getElem?_range hn]
  rfl

theorem optimize_exact_two :
    (¬(minimizeFirst 2).Satisfiable ∧ optimize oracle (minimizeFirst 2) = ok .unsat) ∨
    ((minimizeFirst 2).Satisfiable ∧ ∃ (bytes : List UInt8) (x : BitVec 1) (model : Option Model),
      optimize oracle (minimizeFirst 2) = ok (.satOptimization (.bv 1 bytes) model) ∧
      bytes.length = divCeil8 1 ∧ leNat bytes = x.toNat ∧ IsOptimum (minimizeFirst 2) 0 x ∧
      ∀ m, model = some m → ∀ ρ : Env, ρ.Completes m →
        (minimizeFirst 2).Holds ρ ∧ (minimizeFirst 2).arena.value ρ 0 = .bv 1 x) ∨
    (optimize oracle (minimizeFirst 2) = err Arena.full ∧
      2 ^ 32 ≤ (minimizeFirst 2).arena.nodes.length + 3 * 1) :=
  optimize_exact (fun q _ _ => oracle_decides q) (minimizeFirst_wellFormed (by decide)) rfl
    (bitVars_sortAt (by decide))

/-- There is no id for a node that is not a variable yet. -/
theorem add_bitVars_full {n : Nat} (hn : 2 ^ 32 ≤ n) (child : TermId) :
    (Arena.add (.bvExtract child 0 0) (.bv 1)).run (bitVars n) = (err Arena.full, bitVars n) := by
  have hok : validateSort (.bv 1) = ok () := by decide
  have hfind : (bitVars n).nodes.findIdx? (· = ⟨.bvExtract child 0 0, .bv 1⟩) = none := by
    rw [List.findIdx?_eq_none_iff]
    intro m hm
    obtain ⟨i, hi⟩ := List.mem_iff_getElem?.mp hm
    obtain ⟨-, rfl⟩ := bitVars_getElem? hi
    simp
  have hlen : ¬(bitVars n).nodes.length < 2 ^ 32 := by
    simp only [bitVars, List.length_map, List.length_range]
    omega
  simp only [Arena.add, hok, hfind, if_neg hlen]

/-- Satisfiable, with a target of one bit and a solver that is always right; but the arena holds
`2 ^ 32` terms, and there is no optimum. -/
theorem optimize_without_ids : (minimizeFirst (2 ^ 32)).WellFormed ∧
    (minimizeFirst (2 ^ 32)).Satisfiable ∧ (∀ q, Decides oracle q) ∧
    optimize oracle (minimizeFirst (2 ^ 32)) = err Arena.full := by
  have hsat : ∀ n, (minimizeFirst n).Satisfiable := by
    intro n
    refine ⟨⟨fun _ => 0, fun _ => false⟩, ?_⟩
    intro t ht
    simp [Query.assertionsAndAssumptions, minimizeFirst] at ht
  have hfull : ∀ n, 2 ^ 32 ≤ n → optimize oracle (minimizeFirst n) = err Arena.full := by
    intro n hn
    have hbase : oracle (withoutObjective (minimizeFirst n)) false = ok (.sat none) := by
      have hs : (withoutObjective (minimizeFirst n)).Satisfiable := hsat n
      rw [oracle, if_pos hs]
    have htrial : assertTargetBit (withoutObjective (minimizeFirst n)) 0 0 false = err Arena.full := by
      have hrun : (targetBitTerm 0 0 false).run (withoutObjective (minimizeFirst n)).arena =
          (err Arena.full, bitVars n) := by
        show (targetBitTerm 0 0 false).run (bitVars n) = _
        rw [targetBitTerm, Grow.run_bind_err (add_bitVars_full hn 0)]
      rw [assertTargetBit, hrun]
    have hhunt : huntBits oracle (minimizeFirst n) 0 1 1 (withoutObjective (minimizeFirst n))
        (List.replicate (divCeil8 1) 0) = err Arena.full := by
      rw [huntBits, huntBit]
      show ((assertTargetBit (withoutObjective (minimizeFirst n)) 0 0 false >>= _) >>= _) = _
      rw [htrial]
      rfl
    rw [optimize]
    show (ofOption (some 0) _ >>= _) = _
    rw [ofOption, ok_bind]
    show ((bitVars n).sort 0 >>= _) = _
    rw [Arena.sort_eq_ok.mpr (bitVars_sortAt (by omega)), ok_bind, targetWidth, ok_bind]
    show (oracle (withoutObjective (minimizeFirst n)) false >>= _) = _
    rw [hbase, ok_bind]
    show optimizeFrom oracle (minimizeFirst n) 0 1 (withoutObjective (minimizeFirst n)) = _
    rw [optimizeFrom, hhunt]
    rfl
  exact ⟨minimizeFirst_wellFormed (le_refl _), hsat _, oracle_decides, hfull _ (le_refl _)⟩

end Solver
end Qfbv
end SmtServer
