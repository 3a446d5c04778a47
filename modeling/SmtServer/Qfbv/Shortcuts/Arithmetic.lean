import SmtServer.Lib.MixedWords
import SmtServer.Qfbv.Shortcuts.OverflowGuards

/-!
# `arithmetic.rs` — sums that would have to be something else

If `x + y` is `2 * x` then `x` and `y` are equal, and two different single bits never add up to a
single bit. The passes find the sum, the other form of it and the disequation that contradicts them
among the conjuncts.
-/

namespace SmtServer
namespace Qfbv

open Lib Outcome

namespace Shortcuts

def isShiftLeftOneOf (s : Arena) (term x : TermId) : Result Bool := do
  match ← kind s term with
  | .bvShl value amount => pure (value == x) <&&> isOneBvConst s amount
  | .bvMul a b =>
    (pure (a == x) <&&> isPowerOfTwoConst s b 1) <||> (pure (b == x) <&&> isPowerOfTwoConst s a 1)
  | _ => return false

def hasShiftOneAddContradiction (q : Query) : Result Bool := do
  let (equalities, disequalities) ← bvEqualitiesAndDisequalities q
  equalities.anyM fun (z1, sum) => do
    let some (x, y) ← bvAddParts q.arena sum | return false
    equalities.anyM fun (z2, shifted) => do
      if z1 ≠ z2 then return false
      if !(← isShiftLeftOneOf q.arena shifted x) then return false
      return disequalities.any fun (a, b) => sameUnorderedPair a b x y

def isMinusOne (s : Arena) (candidate term : TermId) : Result Bool := do
  let .bvSub a b ← kind s candidate | return false
  pure (a == term) <&&> isOneBvConst s b

def isPowerOfTwoMask (s : Arena) (mask term : TermId) : Result Bool := do
  let .bvAnd a b ← kind s mask | return false
  (pure (a == term) <&&> isMinusOne s b term) <||> (pure (b == term) <&&> isMinusOne s a term)

def isPowerOfTwoTest (s : Arena) (a b term zeroTerm : TermId) : Result Bool :=
  ((isZeroBvConst s b).unwrapOr false <&&> (isPowerOfTwoMask s a term).unwrapOr false) <||>
  ((isZeroBvConst s a).unwrapOr false <&&> (isPowerOfTwoMask s b term).unwrapOr false) <||>
  (pure (b == zeroTerm) <&&> (isPowerOfTwoMask s a term).unwrapOr false) <||>
  (pure (a == zeroTerm) <&&> (isPowerOfTwoMask s b term).unwrapOr false)

/-- The zero that a disequation keeps the term away from. -/
def disequalZero (s : Arena) (term a b : TermId) : Result (Option TermId) := do
  if ← pure (a == term) <&&> (isZeroBvConst s b).unwrapOr false then return some b
  if ← pure (b == term) <&&> (isZeroBvConst s a).unwrapOr false then return some a
  return none

def isAssertedNonzeroPowerOfTwo (s : Arena) (term : TermId)
    (equalities disequalities : List BvPair) : Result Bool := do
  let some zeroTerm ← disequalities.findSomeM? fun (a, b) => disequalZero s term a b | return false
  equalities.anyM fun (a, b) => isPowerOfTwoTest s a b term zeroTerm

def hasDistinctPowerOfTwoSumContradiction (q : Query) : Result Bool := do
  let (equalities, disequalities) ← bvEqualitiesAndDisequalities q
  equalities.anyM fun (z, sum) => do
    let some (x, y) ← bvAddParts q.arena sum | return false
    if !disequalities.any (fun (a, b) => sameUnorderedPair a b x y) then return false
    isAssertedNonzeroPowerOfTwo q.arena x equalities disequalities <&&>
      isAssertedNonzeroPowerOfTwo q.arena y equalities disequalities <&&>
      isAssertedNonzeroPowerOfTwo q.arena z equalities disequalities

/-! ## What is matched -/

variable {q : Query} {s : Arena} {ρ : Env} {t x y z a b : TermId} {w : Nat}
  {equalities disequalities : List BvPair}

theorem isShiftLeftOneOf_true (hs : s.Inv) (hw : s.IsBv t w) (h : isShiftLeftOneOf s t x = ok true) :
    s.IsBv x w ∧ s.bv ρ t w = s.bv ρ x w + s.bv ρ x w := by
  have htwo : ∀ {c : TermId}, s.IsBv c w → isPowerOfTwoConst s c 1 = ok true →
      s.bv ρ c w = 2 := fun hc h => bv_eq_ofNat hs hc (isPowerOfTwoConst_true hs h hc ρ)
  obtain ⟨k, hk, h⟩ := bind_eq_ok.mp h
  have hk := kind_eq_ok.mp hk
  split at h
  · obtain ⟨hx, hone⟩ := and_eq_true.mp h
    obtain ⟨hv, ha, heq⟩ := Arena.bv_bvShl (ρ := ρ) hs hk hw
    obtain rfl := beq_iff_eq.mp (Outcome.ok.inj hx)
    have hshift : (1 : BitVec w).toNat = 1 := BitVec.toNat_one (hv.pos hs)
    refine ⟨hv, ?_⟩
    rw [heq, isOneBvConst_true hs ha hone, BitVec.shiftLeft_eq', hshift, MixedWords.shiftLeft_one,
      two_mul]
  · obtain ⟨ha, hb, heq⟩ := Arena.bv_bvMul (ρ := ρ) hs hk hw
    rcases true_of_or h with h | h
    · obtain ⟨hx, hconst⟩ := and_eq_true.mp h
      obtain rfl := beq_iff_eq.mp (Outcome.ok.inj hx)
      exact ⟨ha, by rw [heq, htwo hb hconst, mul_two]⟩
    · obtain ⟨hx, hconst⟩ := and_eq_true.mp h
      obtain rfl := beq_iff_eq.mp (Outcome.ok.inj hx)
      exact ⟨hb, by rw [heq, htwo ha hconst, two_mul]⟩
  · cases h

/-- `x + y` and `2 * x` are different when `x` and `y` are. -/
theorem shift_one_add_contradiction_unsat (hq : q.WellFormed)
    (h : hasShiftOneAddContradiction q = ok true) (ρ : Env) : ¬Asserted q ρ := by
  intro hρ
  have hs := hq.arena
  obtain ⟨⟨equalities, disequalities⟩, hpairs, h⟩ := bind_eq_ok.mp h
  obtain ⟨hequal, hdistinct⟩ := (bvEqualitiesAndDisequalities_answers hq).of_eq hpairs
  obtain ⟨⟨z1, sum⟩, hsum, h⟩ := exists_of_anyM h
  obtain ⟨x, y, hadd, h⟩ := let_pair h
  obtain ⟨⟨z2, shifted⟩, hshifted, h⟩ := exists_of_anyM h
  obtain ⟨hz, h⟩ := of_if h
  obtain ⟨hshift, h⟩ := of_unless h
  have hpair := distinct_of_any hdistinct (Outcome.ok.inj h)
  obtain rfl := not_not.mp hz
  obtain ⟨w, hzw, hsumw, hsum⟩ := hequal _ hsum
  obtain ⟨hshiftw, hshifted⟩ := (hequal _ hshifted).of_width hzw
  obtain ⟨hx, hy, hadd⟩ := Arena.bv_bvAdd (ρ := ρ) hs (bvAddParts_eq.mp hadd) hsumw
  obtain ⟨-, hne⟩ := hpair.of_width hx
  obtain ⟨-, hdouble⟩ := isShiftLeftOneOf_true (ρ := ρ) hs hshiftw hshift
  refine hne ρ hρ (add_left_cancel (a := q.arena.bv ρ x w) ?_)
  rw [← hdouble, ← hshifted ρ hρ, hsum ρ hρ, hadd]

theorem isMinusOne_true (hs : s.Inv) (hw : s.IsBv t w) (h : isMinusOne s t x = ok true) :
    s.bv ρ t w = s.bv ρ x w - 1 := by
  obtain ⟨a, b, hk, h⟩ := let_bvSub h
  obtain ⟨hx, hone⟩ := and_eq_true.mp h
  obtain ⟨ha, hb, heq⟩ := Arena.bv_bvSub (ρ := ρ) hs hk hw
  obtain rfl := beq_iff_eq.mp (Outcome.ok.inj hx)
  rw [heq, isOneBvConst_true hs hb hone]

theorem isPowerOfTwoMask_true (hs : s.Inv) (hw : s.IsBv t w) (h : isPowerOfTwoMask s t x = ok true) :
    s.IsBv x w ∧ s.bv ρ t w = s.bv ρ x w &&& (s.bv ρ x w - 1) := by
  obtain ⟨a, b, hk, h⟩ := let_bvAnd h
  obtain ⟨ha, hb, heq⟩ := Arena.bv_bvAnd (ρ := ρ) hs hk hw
  rcases true_of_or h with h | h
  · obtain ⟨hx, hminus⟩ := and_eq_true.mp h
    obtain rfl := beq_iff_eq.mp (Outcome.ok.inj hx)
    exact ⟨ha, by rw [heq, isMinusOne_true hs hb hminus]⟩
  · obtain ⟨hx, hminus⟩ := and_eq_true.mp h
    obtain rfl := beq_iff_eq.mp (Outcome.ok.inj hx)
    exact ⟨hb, by rw [heq, isMinusOne_true hs ha hminus, BitVec.and_comm]⟩

theorem disequalZero_some (h : disequalZero s t a b = ok (some z)) :
    isZeroBvConst s z = ok true ∧ sameUnorderedPair a b t z = true := by
  obtain ⟨found, hfound, h⟩ := bind_eq_ok.mp h
  cases found with
  | true =>
    cases h
    obtain ⟨ha, hzero⟩ := and_eq_true.mp hfound
    exact ⟨of_unwrapOr hzero, sameUnorderedPair_eq.mpr (.inl ⟨beq_iff_eq.mp (Outcome.ok.inj ha), rfl⟩)⟩
  | false =>
    obtain ⟨found, hfound, h⟩ := bind_eq_ok.mp h
    cases found with
    | true =>
      cases h
      obtain ⟨hb, hzero⟩ := and_eq_true.mp hfound
      exact ⟨of_unwrapOr hzero,
        sameUnorderedPair_eq.mpr (.inr ⟨rfl, beq_iff_eq.mp (Outcome.ok.inj hb)⟩)⟩
    | false => cases h

/-- One side of the equation is a zero, the other the term with its lowest bit cleared. -/
theorem isPowerOfTwoTest_true (h : isPowerOfTwoTest s a b t z = ok true)
    (hz : isZeroBvConst s z = ok true) :
    (isZeroBvConst s b = ok true ∧ isPowerOfTwoMask s a t = ok true) ∨
      (isZeroBvConst s a = ok true ∧ isPowerOfTwoMask s b t = ok true) := by
  rcases true_of_or h with h | h
  · obtain ⟨hzero, hmask⟩ := and_eq_true.mp h
    exact .inl ⟨of_unwrapOr hzero, of_unwrapOr hmask⟩
  rcases true_of_or h with h | h
  · obtain ⟨hzero, hmask⟩ := and_eq_true.mp h
    exact .inr ⟨of_unwrapOr hzero, of_unwrapOr hmask⟩
  rcases true_of_or h with h | h
  · obtain ⟨hb, hmask⟩ := and_eq_true.mp h
    obtain rfl := beq_iff_eq.mp (Outcome.ok.inj hb)
    exact .inl ⟨hz, of_unwrapOr hmask⟩
  · obtain ⟨ha, hmask⟩ := and_eq_true.mp h
    obtain rfl := beq_iff_eq.mp (Outcome.ok.inj ha)
    exact .inr ⟨hz, of_unwrapOr hmask⟩

theorem isAssertedNonzeroPowerOfTwo_true (hs : q.arena.Inv) (hw : q.arena.IsBv t w)
    (hequal : ∀ p ∈ equalities, EqualBv q p.1 p.2)
    (hdistinct : ∀ p ∈ disequalities, DistinctBv q p.1 p.2)
    (h : isAssertedNonzeroPowerOfTwo q.arena t equalities disequalities = ok true)
    (hρ : Asserted q ρ) : (q.arena.bv ρ t w).toNat.isPowerOfTwo := by
  obtain ⟨z, hz, h⟩ := let_term h
  obtain ⟨⟨a, b⟩, hab, hz⟩ := of_findSomeM? hz
  obtain ⟨hzero, hpair⟩ := disequalZero_some hz
  obtain ⟨hzw, hne⟩ := (distinct_of_any hdistinct
    (List.any_eq_true.mpr ⟨_, hab, hpair⟩)).of_width hw
  have hne := hne ρ hρ
  rw [isZeroBvConst_true hs hzw hzero] at hne
  obtain ⟨⟨c, d⟩, hcd, h⟩ := exists_of_anyM h
  obtain ⟨mask, zeroTerm, heq, hzero, hmask⟩ : ∃ mask zeroTerm, EqualBv q mask zeroTerm ∧
      isZeroBvConst q.arena zeroTerm = ok true ∧ isPowerOfTwoMask q.arena mask t = ok true := by
    rcases isPowerOfTwoTest_true h hzero with ⟨hd, hc⟩ | ⟨hc, hd⟩
    · exact ⟨c, d, hequal _ hcd, hd, hc⟩
    · exact ⟨d, c, (hequal _ hcd).symm, hc, hd⟩
  obtain ⟨v, hmaskw, hzerow, heq⟩ := heq
  obtain ⟨ht, hval⟩ := isPowerOfTwoMask_true (ρ := ρ) hs hmaskw hmask
  obtain rfl := hw.inj ht
  refine MixedWords.isPowerOfTwo_of_and_sub_one hne ?_
  rw [← hval, heq ρ hρ, isZeroBvConst_true hs hzerow hzero]

/-- Two different single bits do not add up to a single bit. -/
theorem distinct_power_of_two_sum_contradiction_unsat (hq : q.WellFormed)
    (h : hasDistinctPowerOfTwoSumContradiction q = ok true) (ρ : Env) : ¬Asserted q ρ := by
  intro hρ
  have hs := hq.arena
  obtain ⟨⟨equalities, disequalities⟩, hpairs, h⟩ := bind_eq_ok.mp h
  obtain ⟨hequal, hdistinct⟩ := (bvEqualitiesAndDisequalities_answers hq).of_eq hpairs
  obtain ⟨⟨z, sum⟩, hsum, h⟩ := exists_of_anyM h
  obtain ⟨x, y, hadd, h⟩ := let_pair h
  obtain ⟨hany, h⟩ := of_if h
  obtain ⟨hpx, h⟩ := and_eq_true.mp h
  obtain ⟨hpy, hpz⟩ := and_eq_true.mp h
  obtain ⟨w, hz, hsumw, hsum⟩ := hequal _ hsum
  obtain ⟨hx, hy, hadd⟩ := Arena.bv_bvAdd (ρ := ρ) hs (bvAddParts_eq.mp hadd) hsumw
  obtain ⟨-, hne⟩ := (distinct_of_any hdistinct (by simpa using hany)).of_width hx
  have hbit := fun {t : TermId} (ht : q.arena.IsBv t w) h =>
    isAssertedNonzeroPowerOfTwo_true (t := t) hs ht hequal hdistinct h hρ
  refine MixedWords.not_isPowerOfTwo_add (hbit hx hpx) (hbit hy hpy) (hne ρ hρ) ?_
  rw [← hadd, ← hsum ρ hρ]
  exact hbit hz hpz

/-! ## The arithmetic passes -/

/-- A query that one of the arithmetic passes answers cannot be satisfied. -/
theorem arithmetic_shortcuts_are_sound (hq : q.WellFormed) :
    (hasUnsignedSuccessorContradiction q = ok true → ¬∃ ρ, Asserted q ρ) ∧
    (hasShiftOneAddContradiction q = ok true → ¬∃ ρ, Asserted q ρ) ∧
    (hasDistinctPowerOfTwoSumContradiction q = ok true → ¬∃ ρ, Asserted q ρ) ∧
    (hasUnsignedMultiplicationOverflowGuardContradiction q = ok true → ¬∃ ρ, Asserted q ρ) := by
  simp only [not_exists]
  exact ⟨unsigned_successor_contradiction_unsat hq, shift_one_add_contradiction_unsat hq,
    distinct_power_of_two_sum_contradiction_unsat hq, unsigned_guard_contradiction_unsat hq⟩

/-- Every contradiction at once: `x < y`, `y < x + 1`, `z = x + y`, `z = x << 1`, `x ≠ y`, single
bits `x`, `y` and `z`, and a product that overflows though `y ≤ 255 / x`. -/
def overdone : Query := .asserting [
    ⟨.bvVar 8 "x" (some 0), .bv 8⟩,
    ⟨.bvVar 8 "y" (some 1), .bv 8⟩,
    ⟨.bvVar 8 "z" (some 2), .bv 8⟩,
    ⟨.bvConst 8 [1], .bv 8⟩,
    ⟨.bvConst 8 [0], .bv 8⟩,
    ⟨.bvAdd 0 3, .bv 8⟩,
    ⟨.bvUlt 0 1, .bool⟩,
    ⟨.bvUlt 1 5, .bool⟩,
    ⟨.bvAdd 0 1, .bv 8⟩,
    ⟨.bvEq 2 8, .bool⟩,
    ⟨.bvShl 0 3, .bv 8⟩,
    ⟨.bvEq 2 10, .bool⟩,
    ⟨.bvEq 0 1, .bool⟩,
    ⟨.boolNot 12, .bool⟩,
    ⟨.bvSub 0 3, .bv 8⟩,
    ⟨.bvAnd 0 14, .bv 8⟩,
    ⟨.bvEq 4 15, .bool⟩,
    ⟨.bvEq 0 4, .bool⟩,
    ⟨.boolNot 17, .bool⟩,
    ⟨.bvSub 1 3, .bv 8⟩,
    ⟨.bvAnd 1 19, .bv 8⟩,
    ⟨.bvEq 4 20, .bool⟩,
    ⟨.bvEq 1 4, .bool⟩,
    ⟨.boolNot 22, .bool⟩,
    ⟨.bvSub 2 3, .bv 8⟩,
    ⟨.bvAnd 2 24, .bv 8⟩,
    ⟨.bvEq 4 25, .bool⟩,
    ⟨.bvEq 2 4, .bool⟩,
    ⟨.boolNot 27, .bool⟩,
    ⟨.bvZeroExtend 0 8, .bv 16⟩,
    ⟨.bvZeroExtend 1 8, .bv 16⟩,
    ⟨.bvMul 29 30, .bv 16⟩,
    ⟨.bvExtract 31 15 8, .bv 8⟩,
    ⟨.bvEq 4 32, .bool⟩,
    ⟨.boolNot 33, .bool⟩,
    ⟨.bvConst 8 [255], .bv 8⟩,
    ⟨.bvUDiv 35 0, .bv 8⟩,
    ⟨.bvUle 1 36, .bool⟩] [6, 7, 9, 11, 13, 16, 18, 21, 23, 26, 28, 34, 37]

theorem arithmetic_shortcuts_of_overdone :
    (hasUnsignedSuccessorContradiction overdone = ok true ∧
      hasShiftOneAddContradiction overdone = ok true ∧
      hasDistinctPowerOfTwoSumContradiction overdone = ok true ∧
      hasUnsignedMultiplicationOverflowGuardContradiction overdone = ok true) ∧
    ¬∃ ρ, Asserted overdone ρ := by
  obtain ⟨-, -, -, hunsat⟩ := arithmetic_shortcuts_are_sound (q := overdone)
    (Query.wellFormed_of_check (by decide) (by decide))
  exact ⟨⟨by decide, by decide, by decide, by decide⟩,
    hunsat (by decide)⟩

end Shortcuts
end Qfbv
end SmtServer
