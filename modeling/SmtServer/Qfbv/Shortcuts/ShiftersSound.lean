import SmtServer.Qfbv.Shortcuts.Shifters
import Mathlib.Data.Nat.BitIndices

/-!
# `log_slicing.rs` — what a written-out shift says

Stages that lead down to the input shift it by the sum of `2 ^ bit` over those of their bits that
are set in the amount (`Descends.shifts`). Under a mask that is zero where the amount is not less
than the width, this is the shift by the amount, provided the stages have every bit of it that a
smaller amount can set.

The walk does not see to that. It stops as soon as the stage it has come to is the input, whichever
bits it has come past, so that a circuit without some of its stages is taken for the whole shift.
-/

namespace SmtServer
namespace Qfbv

open Lib Outcome

namespace Shortcuts

variable {q : Query} {index : LogSlicingIndex} {equalities : List BvPair} {leaves : List TermId}
  {ρ : Env} {t input amount stage : TermId} {w m n maxBit : Nat} {bits : List Nat}
  {shiftKind : LogShiftKind} {candidate : BvPair}

/-! ## Sums of powers of two -/

theorem sum_map_ite_eq_filter (p : Nat → Bool) (bits : List Nat) :
    (bits.map fun b => if p b then 2 ^ b else 0).sum = ((bits.filter p).map (2 ^ ·)).sum := by
  induction bits with
  | nil => rfl
  | cons b bits ih =>
    rw [List.map_cons, List.sum_cons, ih, List.filter_cons]
    split
    · rw [List.map_cons, List.sum_cons]
    · rw [Nat.zero_add]

/-- The powers for the bits that are set in `n` add up to it. -/
theorem sum_of_set_bits (hnodup : bits.Nodup) (hcovers : ∀ b, n.testBit b = true → b ∈ bits) :
    (bits.map fun b => if n.testBit b then 2 ^ b else 0).sum = n := by
  have hperm : (bits.filter n.testBit).Perm n.bitIndices := by
    refine (List.perm_ext_iff_of_nodup (hnodup.filter _) Nat.bitIndices_nodup).mpr fun b => ?_
    rw [List.mem_filter, Nat.mem_bitIndices]
    exact and_iff_right_of_imp (hcovers b)
  rw [sum_map_ite_eq_filter, (hperm.map _).sum_eq, Nat.sum_map_two_pow_bitIndices]

/-! ## Shifts -/

@[simp]
theorem shiftBy_zero {w : Nat} (y : BitVec w) : shiftBy y 0 shiftKind = y := by
  cases shiftKind <;> simp [shiftBy]

theorem shiftBy_shiftBy {w : Nat} (y : BitVec w) :
    shiftBy (shiftBy y m shiftKind) n shiftKind = shiftBy y (m + n) shiftKind := by
  cases shiftKind with
  | shl => exact (BitVec.shiftLeft_add y m n).symm
  | lShr => exact (BitVec.shiftRight_add y m n).symm
  | aShr => exact BitVec.sshiftRight_add.symm

theorem shiftBy_eq_zero {w : Nat} (y : BitVec w) (hkind : shiftKind ≠ .aShr) (h : w ≤ n) :
    shiftBy y n shiftKind = 0#w := by
  cases shiftKind with
  | shl => exact BitVec.shiftLeft_eq_zero h
  | lShr => exact BitVec.ushiftRight_eq_zero h
  | aShr => exact absurd rfl hkind

/-- By how much stages for these bits shift. -/
def shiftOf (s : Arena) (ρ : Env) (amount : TermId) (bits : List Nat) : Nat :=
  (bits.map fun b => if s.bit ρ amount b then 2 ^ b else 0).sum

section Sound

variable (hs : q.arena.Inv) (hi : index.Sound q) (heq : ∀ p ∈ equalities, EqualBv q p.1 p.2)
  (hinput : q.arena.IsBv input w) (hamount : q.arena.IsBv amount w)
include hs hi hamount

/-- A stage chooses between what comes from below and that, shifted by the power of its bit. -/
theorem IsStage.shifts_by {definition : LogMuxDefinition} {target : TermId} {bit : Nat}
    (h : IsStage q.arena index amount w shiftKind maxBit bit definition)
    (htarget : EqualBv q stage target) (hstage : q.arena.IsBv stage w)
    (hmux : IsMux q target definition.mask definition.thenValue definition.elseValue w)
    (hρ : Asserted q ρ) :
    q.arena.bv ρ stage w = shiftBy (q.arena.bv ρ definition.elseValue w)
      (if q.arena.bit ρ amount bit then 2 ^ bit else 0) shiftKind := by
  have hrepeats := ((repeatedAmountBit_answers hs hi hmux.maskSort hamount).of_eq h.carries bit rfl).2
  have hshift := (matchesShiftBy_answers shiftKind hs hi hmux.thenSort hmux.elseSort
    (Nat.two_pow_pos bit) h.lt_width).of_eq h.shifts rfl ρ hρ
  obtain ⟨htargetBv, hval⟩ := htarget.of_width hstage
  rw [hval ρ hρ]
  refine BitVec.eq_of_getLsbD_eq fun i hlt => ?_
  rw [htargetBv.getLsbD hs, hmux.bits ρ hρ i hlt, hrepeats ρ hρ i hlt, choose]
  split
  · rw [← hmux.thenSort.getLsbD hs, hshift]
  · rw [shiftBy_zero, hmux.elseSort.getLsbD hs]

include heq hinput

/-- **The stages shift the input by the sum of the powers of their bits**, which get smaller on the
way down. -/
theorem Descends.shifts
    (h : Descends q.arena equalities index input amount w shiftKind bits stage maxBit)
    (hstage : q.arena.IsBv stage w) :
    (∀ b ∈ bits, b < maxBit) ∧ bits.Nodup ∧ ∀ ρ, Asserted q ρ →
      q.arena.bv ρ stage w =
        shiftBy (q.arena.bv ρ input w) (shiftOf q.arena ρ amount bits) shiftKind := by
  induction h with
  | input hsame =>
    refine ⟨by simp, List.nodup_nil, fun ρ hρ => ?_⟩
    obtain ⟨-, hval⟩ := ((sameOrEqualIndex_answers hi hstage hinput).of_eq hsame rfl).of_width hstage
    rw [hval ρ hρ, shiftOf, List.map_nil, List.sum_nil, shiftBy_zero]
  | stage htarget hdefinitions hd hisStage _ ih =>
    have hequal := hi.of_aliasesOf hstage htarget
    have hmux := (logMuxDefinitions_answers hs heq (hequal.of_width hstage).1).of_eq hdefinitions _ hd
    obtain ⟨hbelow, hnodup, hbits⟩ := ih hmux.elseSort
    refine ⟨List.forall_mem_cons.mpr ⟨hisStage.lt_maxBit, fun b hb =>
      (hbelow b hb).trans hisStage.lt_maxBit⟩, List.nodup_cons.mpr ⟨fun hb =>
        Nat.lt_irrefl _ (hbelow _ hb), hnodup⟩, fun ρ hρ => ?_⟩
    rw [hisStage.shifts_by hs hi hamount hequal hstage hmux hρ, hbits ρ hρ, shiftBy_shiftBy, shiftOf,
      shiftOf, List.map_cons, List.sum_cons, Nat.add_comm]

/-- The stages have every bit that an amount less than the width can set. -/
def Covers (w : Nat) (bits : List Nat) : Prop := ∀ b, 2 ^ b < w → b ∈ bits

theorem Descends.shifts_amount
    (h : Descends q.arena equalities index input amount w shiftKind bits stage maxBit)
    (hstage : q.arena.IsBv stage w) (hcovers : Covers w bits) (hρ : Asserted q ρ)
    (hlt : q.arena.num ρ amount < w) :
    q.arena.bv ρ stage w =
      shiftBy (q.arena.bv ρ input w) (q.arena.num ρ amount) shiftKind := by
  obtain ⟨-, hnodup, hbits⟩ := h.shifts hs hi heq hinput hamount hstage
  have hset : ∀ b, (q.arena.num ρ amount).testBit b = true → b ∈ bits := fun b hb =>
    hcovers b ((Nat.ge_two_pow_of_testBit hb).trans_lt hlt)
  rw [hbits ρ hρ]
  congr 1
  exact sum_of_set_bits hnodup hset

end Sound

/-! ## Circuits without a missing part -/

/-- The mask leaves out no bit of what it compares, and some stages that lead down to the input have
every bit of the amount that counts. -/
def CandidateWhole (s : Arena) (leaves : List TermId) (equalities : List BvPair)
    (index : LogSlicingIndex) (input amount : TermId) (width : Nat) (shiftKind : LogShiftKind)
    (candidate : BvPair) : Prop :=
  CandidateAccepted s leaves equalities index input amount width shiftKind candidate →
    MaskHalvesWhole s leaves equalities index candidate.1 ∧
    ∃ bits, Descends s equalities index input amount width shiftKind bits candidate.2 64 ∧
      Covers width bits

/-- The candidate that is accepted is whole. -/
def ZeroFallbackWhole (s : Arena) (leaves : List TermId) (equalities : List BvPair)
    (index : LogSlicingIndex) (expr input amount : TermId) (width : Nat)
    (shiftKind : LogShiftKind) : Prop :=
  ∀ candidates, zeroFallbackCandidates s equalities expr = ok candidates →
    UpToHit (CandidateAccepted s leaves equalities index input amount width shiftKind)
      (CandidateWhole s leaves equalities index input amount width shiftKind) candidates

def ShiftWhole (s : Arena) (leaves : List TermId) (equalities : List BvPair)
    (index : LogSlicingIndex) (shift : LogShiftAssertion) (expr : TermId) : Prop :=
  if shift.kind = .aShr then
    ∀ parts, ashrParts s index shift expr = ok (some parts) →
      ZeroFallbackWhole s leaves equalities index parts.1 parts.2.1 shift.amount shift.width .lShr ∧
      ZeroFallbackWhole s leaves equalities index parts.2.2 shift.input shift.amount shift.width .lShr
  else ZeroFallbackWhole s leaves equalities index expr shift.input shift.amount shift.width shift.kind

section Whole

variable (hs : q.arena.Inv) (hi : index.Sound q) (hl : Leaves q leaves)
  (heq : ∀ p ∈ equalities, EqualBv q p.1 p.2)
include hs hi hl heq

theorem CandidateWhole.shifts
    (hwhole : CandidateWhole q.arena leaves equalities index input amount w shiftKind candidate)
    (haccepted : CandidateAccepted q.arena leaves equalities index input amount w shiftKind candidate)
    (hmasked : Masked q t w candidate) (hkind : shiftKind ≠ .aShr) (ht : q.arena.IsBv t w)
    (hinput : q.arena.IsBv input w) (hamount : q.arena.IsBv amount w) (hρ : Asserted q ρ) :
    q.arena.bv ρ t w = shiftBy (q.arena.bv ρ input w) (q.arena.num ρ amount) shiftKind := by
  obtain ⟨hhalves, bits, hbits, hcovers⟩ := hwhole haccepted
  obtain ⟨hmask, hstage, hterm⟩ := hmasked
  have hvalid := (maskRepeatsLt_answers hs hi hl heq hmask hamount).of_eq haccepted.1 rfl hhalves ρ hρ
  refine BitVec.eq_of_getLsbD_eq fun i hlt => ?_
  rw [ht.getLsbD hs, hterm ρ hρ i hlt, hvalid i hlt]
  by_cases hless : q.arena.num ρ amount < w
  · rw [decide_eq_true hless, Bool.true_and, ← hstage.getLsbD hs,
      hbits.shifts_amount hs hi heq hinput hamount hstage hcovers hρ hless]
  · rw [decide_eq_false hless, shiftBy_eq_zero _ hkind (Nat.le_of_not_lt hless), Bool.false_and,
      BitVec.getLsbD_zero]

theorem ZeroFallbackWhole.shifts
    (hwhole : ZeroFallbackWhole q.arena leaves equalities index t input amount w shiftKind)
    (haccepted : ZeroFallbackAccepted q.arena leaves equalities index t input amount w shiftKind)
    (hkind : shiftKind ≠ .aShr) (ht : q.arena.IsBv t w) (hinput : q.arena.IsBv input w)
    (hamount : q.arena.IsBv amount w) (hρ : Asserted q ρ) :
    q.arena.bv ρ t w = shiftBy (q.arena.bv ρ input w) (q.arena.num ρ amount) shiftKind := by
  obtain ⟨candidates, hcandidates, hany⟩ := haccepted
  obtain ⟨c, hc, hcaccepted, hcwhole⟩ := exists_of_upToHit (hwhole candidates hcandidates) hany
  have hmasked := (zeroFallbackCandidates_answers hs heq ht).of_eq hcandidates c hc
  exact hcwhole.shifts hs hi hl heq hcaccepted hmasked hkind ht hinput hamount hρ

/-- A whole circuit is the shift. -/
theorem ShiftWhole.shifts {shift : LogShiftAssertion}
    (hwhole : ShiftWhole q.arena leaves equalities index shift t)
    (haccepted : ShiftAccepted q.arena leaves equalities index shift t)
    (ht : q.arena.IsBv t shift.width) (hinput : q.arena.IsBv shift.input shift.width)
    (hamount : q.arena.IsBv shift.amount shift.width) (hρ : Asserted q ρ) :
    q.arena.bv ρ t shift.width = shiftBy (q.arena.bv ρ shift.input shift.width)
      (q.arena.num ρ shift.amount) shift.kind := by
  rw [ShiftWhole] at hwhole
  rw [ShiftAccepted] at haccepted
  have hlShr : LogShiftKind.lShr ≠ .aShr := by decide
  split at hwhole
  · rename_i hashr
    rw [if_pos hashr] at haccepted
    obtain ⟨parts, hparts, hnegative, hnonnegative⟩ := haccepted
    obtain ⟨hwholeNegative, hwholeNonnegative⟩ := hwhole parts hparts
    have h := (ashrParts_answers hs hi ht hinput).of_eq hparts parts rfl
    rw [h.chosen ρ hρ, hashr, shiftBy,
      hwholeNegative.shifts hs hi hl heq hnegative hlShr h.negative h.notInput hamount hρ,
      hwholeNonnegative.shifts hs hi hl heq hnonnegative hlShr h.nonnegative hinput hamount hρ,
      h.complement ρ, shiftBy, shiftBy]
    split
    · rename_i hmsb
      exact (BitVec.sshiftRight_eq_of_msb_true hmsb).symm
    · rename_i hmsb
      exact (BitVec.sshiftRight_eq_of_msb_false (Bool.eq_false_iff.mpr hmsb)).symm
  · rename_i hkind
    rw [if_neg hkind] at haccepted
    exact hwhole.shifts hs hi hl heq haccepted hkind ht hinput hamount hρ

end Whole

/-! ## The pass -/

/-- The disequality and the shift at which the pass stops: what is accepted there is whole. -/
def ShiftCircuitWhole (q : Query) : Prop :=
  ∀ leaves equalities disequalities shifts index, conjuncts q = ok leaves →
    bvEqualitiesAndDisequalities q = ok (equalities, disequalities) →
    logShiftAssertions q.arena equalities = ok shifts →
    LogSlicingIndex.new q.arena equalities = ok index →
      UpToHit
        (fun p => ∃ shift ∈ shifts, ∃ expr, differingExpr shift p.1 p.2 = some expr ∧
          ShiftAccepted q.arena leaves equalities index shift expr)
        (fun p => UpToHit
          (fun shift => ∃ expr, differingExpr shift p.1 p.2 = some expr ∧
            ShiftAccepted q.arena leaves equalities index shift expr)
          (fun shift => ∀ expr, differingExpr shift p.1 p.2 = some expr →
            ShiftAccepted q.arena leaves equalities index shift expr →
              ShiftWhole q.arena leaves equalities index shift expr) shifts) disequalities

/-- `result = x << amount` at two bits, and a result that is to differ from `stage` under the mask
for `amount < 2`. Stage 30 is asserted to shift `x` by one where bit 0 of the amount is set. -/
def writtenShift (stage : TermId) : Query := .asserting [
    ⟨.bvVar 2 "x" (some 0), .bv 2⟩,
    ⟨.bvVar 2 "amount" (some 1), .bv 2⟩,
    ⟨.bvVar 2 "result" (some 2), .bv 2⟩,
    ⟨.bvShl 0 1, .bv 2⟩,
    ⟨.bvEq 2 3, .bool⟩,
    ⟨.bvConst 2 [2], .bv 2⟩,
    ⟨.bvVar 1 "same" (some 3), .bv 1⟩,
    ⟨.bvConst 1 [1], .bv 1⟩,
    ⟨.bvEq 6 7, .bool⟩,
    ⟨.bvExtract 1 1 1, .bv 1⟩,
    ⟨.bvExtract 5 1 1, .bv 1⟩,
    ⟨.bvEq 9 10, .bool⟩,
    ⟨.boolEq 8 11, .bool⟩,
    ⟨.bvNot 6, .bv 1⟩,
    ⟨.bvExtract 1 0 0, .bv 1⟩,
    ⟨.bvExtract 5 0 0, .bv 1⟩,
    ⟨.bvAnd 6 14, .bv 1⟩,
    ⟨.bvAnd 13 9, .bv 1⟩,
    ⟨.bvOr 16 17, .bv 1⟩,
    ⟨.bvVar 1 "left" (some 4), .bv 1⟩,
    ⟨.bvEq 19 18, .bool⟩,
    ⟨.bvAnd 6 15, .bv 1⟩,
    ⟨.bvAnd 13 10, .bv 1⟩,
    ⟨.bvOr 21 22, .bv 1⟩,
    ⟨.bvVar 1 "right" (some 5), .bv 1⟩,
    ⟨.bvEq 24 23, .bool⟩,
    ⟨.bvNot 19, .bv 1⟩,
    ⟨.bvAnd 26 24, .bv 1⟩,
    ⟨.bvConcat 27 27, .bv 2⟩,
    ⟨.bvConcat 14 14, .bv 2⟩,
    ⟨.bvVar 2 "stage" (some 6), .bv 2⟩,
    ⟨.bvVar 2 "shifted" (some 7), .bv 2⟩,
    ⟨.bvNot 29, .bv 2⟩,
    ⟨.bvAnd 29 31, .bv 2⟩,
    ⟨.bvAnd 32 0, .bv 2⟩,
    ⟨.bvOr 33 34, .bv 2⟩,
    ⟨.bvEq 30 35, .bool⟩,
    ⟨.bvExtract 31 0 0, .bv 1⟩,
    ⟨.bvConst 1 [0], .bv 1⟩,
    ⟨.bvEq 37 38, .bool⟩,
    ⟨.bvExtract 31 1 1, .bv 1⟩,
    ⟨.bvExtract 0 0 0, .bv 1⟩,
    ⟨.bvEq 40 41, .bool⟩,
    ⟨.bvAnd 28 stage, .bv 2⟩,
    ⟨.bvEq 2 43, .bool⟩,
    ⟨.boolNot 44, .bool⟩] [4, 12, 20, 25, 36, 39, 42, 45]

/-- What the pass collects from `writtenShift 30`. -/
def writtenEqualities : List BvPair := [(2, 3), (19, 18), (24, 23), (30, 35), (37, 38), (40, 41)]

def writtenIndex : LogSlicingIndex :=
  ⟨[(2, 3), (3, 2), (19, 18), (18, 19), (24, 23), (23, 24), (30, 35), (35, 30), (37, 38), (38, 37),
    (40, 41), (41, 40)], [((31, 0, 0), 38), ((31, 1, 1), 41), ((0, 0, 0), 40)]⟩

end Shortcuts
end Qfbv
end SmtServer
