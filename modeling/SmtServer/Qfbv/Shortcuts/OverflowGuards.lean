import SmtServer.Lib.SignedProduct
import SmtServer.Qfbv.Shortcuts.Successor

/-!
# `overflow_guards.rs` — products that were guarded against overflow

A product is computed in twice the width, and the query says that its upper half is not what it
would be without overflow. If it also says that one factor is small enough, it contradicts itself.

Without signs the guard is `y ≤ max / x`, a conjunct. With signs, one factor is a quotient `x / y`,
and the guard is that `x` and `y` are not the least number and minus one. The code looks for that
guard anywhere under conjunctions *and disjunctions*: what it finds need not be true
(`signed_guard_is_sound_iff`).
-/

namespace SmtServer
namespace Qfbv

open Lib Outcome

namespace NodeKind

def bvZeroExtend? : NodeKind → Option (TermId × Nat)
  | .bvZeroExtend child extra => some (child, extra)
  | _ => none

def bvSignExtend? : NodeKind → Option (TermId × Nat)
  | .bvSignExtend child extra => some (child, extra)
  | _ => none

variable {k : NodeKind} {p : TermId × Nat}

theorem bvZeroExtend?_eq : k.bvZeroExtend? = some p ↔ k = .bvZeroExtend p.1 p.2 := by
  cases k <;> simp [bvZeroExtend?, Prod.ext_iff]

theorem bvSignExtend?_eq : k.bvSignExtend? = some p ↔ k = .bvSignExtend p.1 p.2 := by
  cases k <;> simp [bvSignExtend?, Prod.ext_iff]

end NodeKind

namespace Shortcuts

/-- The `*_extend_parts` helpers. -/
def extendParts (split : NodeKind → Option (TermId × Nat)) (s : Arena) (term : TermId) :
    Result (Option (TermId × Nat × Nat)) := do
  match split (← kind s term) with
  | some (child, extra) =>
    let .bv width ← s.sort child | return none
    return some (child, width, extra)
  | none => return none

def zeroExtendParts (s : Arena) (term : TermId) : Result (Option (TermId × Nat × Nat)) :=
  extendParts (·.bvZeroExtend?) s term

def signExtendParts (s : Arena) (term : TermId) : Result (Option (TermId × Nat × Nat)) :=
  extendParts (·.bvSignExtend?) s term

/-! ## Unsigned products -/

def unsignedHighMultiplicationOverflowParts (s : Arena) (term zeroTerm : TermId) :
    Result (Option (TermId × TermId × Nat)) := do
  if !(← isZeroBvConst s zeroTerm) then return none
  let .bvExtract child high low ← kind s term | return none
  let .bvMul a b ← kind s child | return none
  let some (x, xWidth, xExtra) ← zeroExtendParts s a | return none
  let some (y, yWidth, yExtra) ← zeroExtendParts s b | return none
  if xWidth ≠ yWidth ∨ xExtra ≠ xWidth ∨ yExtra ≠ yWidth then return none
  if low ≠ xWidth ∨ high + 1 ≠ xWidth * 2 then return none
  return some (x, y, xWidth)

def isMaxDivBy (s : Arena) (term divisor : TermId) (width : Nat) : Result Bool := do
  let .bvUDiv a b ← kind s term | return false
  pure (b == divisor) <&&> isAllOnesBvConst s a width

def hasUnsignedMultiplicationOverflowGuardContradiction (q : Query) : Result Bool := do
  let (_, disequalities) ← bvEqualitiesAndDisequalities q
  let nonStrict ← forAllConjuncts q (collectUnsignedLessOrEqual q.arena) []
  disequalities.anyM fun (a, b) => do
    let first ← unsignedHighMultiplicationOverflowParts q.arena a b
    let second ← unsignedHighMultiplicationOverflowParts q.arena b a
    match first.or second with
    | none => return false
    | some (x, y, width) => nonStrict.anyM fun (left, right) =>
      (pure (left == y) <&&> isMaxDivBy q.arena right x width) <||>
        (pure (left == x) <&&> isMaxDivBy q.arena right y width)

/-! ## Signed quotients -/

def hasDisequalityWithConst (s : Arena) (disequalities : List BvPair) (term : TermId)
    (predicate : Arena → TermId → Result Bool) : Result Bool :=
  disequalities.anyM fun (a, b) =>
    (pure (a == term) <&&> predicate s b) <||> (pure (b == term) <&&> predicate s a)

def hasBvnotDisequalityToZero (s : Arena) (term : TermId) (disequalities : List BvPair) :
    Result Bool :=
  match s.nodes.findIdx? (·.kind.bvNot? == some term) with
  | some notTerm => hasDisequalityWithConst s disequalities notTerm isZeroBvConst
  | none => return false

def signedDivisionProductPartsFromOperands (s : Arena) (quotientFactor divisorFactor : TermId)
    (high low : Nat) : Result (Option (TermId × TermId × Nat)) := do
  let some (quotient, quotientWidth, quotientExtra) ← signExtendParts s quotientFactor | return none
  let some (divisor, divisorWidth, divisorExtra) ← signExtendParts s divisorFactor | return none
  if quotientWidth ≠ divisorWidth ∨ quotientExtra ≠ quotientWidth ∨ divisorExtra ≠ divisorWidth ∨
      low ≠ quotientWidth - 1 ∨ high + 1 ≠ quotientWidth * 2 then return none
  let .bvSDiv x y ← kind s quotient | return none
  if y ≠ divisor then return none
  return some (x, y, quotientWidth)

def signedDivisionProductHighSliceParts (s : Arena) (term : TermId) :
    Result (Option (TermId × TermId × Nat)) := do
  let .bvExtract child high low ← kind s term | return none
  let .bvMul a b ← kind s child | return none
  match ← signedDivisionProductPartsFromOperands s a b high low with
  | some parts => return some parts
  | none => signedDivisionProductPartsFromOperands s b a high low

/-- The body of `is_eq_to_all_ones` and `is_eq_to_signed_min`. -/
def isEqTo (predicate : Arena → TermId → Nat → Result Bool) (s : Arena) (term value : TermId)
    (width : Nat) : Result Bool := do
  let .bvEq a b ← kind s term | return false
  (pure (a == value) <&&> predicate s b width) <||> (pure (b == value) <&&> predicate s a width)

def isEqToAllOnes (s : Arena) (term value : TermId) (width : Nat) : Result Bool :=
  isEqTo isAllOnesBvConst s term value width

def isEqToSignedMin (s : Arena) (term value : TermId) (width : Nat) : Result Bool :=
  isEqTo isSignedMinBvConst s term value width

def isSignedDivisionOverflowConjunction (s : Arena) (term x y : TermId) (width : Nat) :
    Result Bool := do
  let .boolAnd a b ← kind s term | return false
  (isEqToAllOnes s a y width <&&> isEqToSignedMin s b x width) <||>
    (isEqToAllOnes s b y width <&&> isEqToSignedMin s a x width)

def containsSignedDivisionOverflowGuard (s : Arena) (x y : TermId) (width : Nat) :
    (rounds : Nat) → (term : TermId) → Result Bool
  | 0, _ => .panic
  | rounds + 1, term => do
    match ← kind s term with
    | .boolNot child => isSignedDivisionOverflowConjunction s child x y width
    | .boolAnd a b =>
      containsSignedDivisionOverflowGuard s x y width rounds a <||>
        containsSignedDivisionOverflowGuard s x y width rounds b
    -- A disjunction is searched like a conjunction.
    | .boolOr a b =>
      containsSignedDivisionOverflowGuard s x y width rounds a <||>
        containsSignedDivisionOverflowGuard s x y width rounds b
    | _ => return false

def hasSignedDivisionOverflowGuard (q : Query) (x y : TermId) (width : Nat) : Result Bool :=
  q.assertions.anyM fun assertion =>
    containsSignedDivisionOverflowGuard q.arena x y width (assertion.root + 1) assertion.root

/-- The side of a disequality that is the slice: the other side is zero, and its complement is said
not to be zero either. -/
def signedDivisionHigh (s : Arena) (disequalities : List BvPair) (a b : TermId) :
    Result (Option TermId) := do
  if ← isZeroBvConst s b <&&> hasBvnotDisequalityToZero s a disequalities then return some a
  if ← isZeroBvConst s a <&&> hasBvnotDisequalityToZero s b disequalities then return some b
  return none

def hasSignedDivisionMultiplyOverflowGuardContradiction (q : Query) : Result Bool := do
  let (_, disequalities) ← bvEqualitiesAndDisequalities q
  disequalities.anyM fun (a, b) => do
    let some high ← signedDivisionHigh q.arena disequalities a b | return false
    let some (x, y, width) ← signedDivisionProductHighSliceParts q.arena high | return false
    hasDisequalityWithConst q.arena disequalities y isZeroBvConst <&&>
      hasSignedDivisionOverflowGuard q x y width

/-! ## What is matched -/

variable {q : Query} {s : Arena} {ρ : Env} {t x y z a b c : TermId} {w e : Nat}

theorem extendParts_eq {split : NodeKind → Option (TermId × Nat)}
    (h : extendParts split s t = ok (some (c, w, e))) :
    ∃ k, s.kindAt t = some k ∧ split k = some (c, e) ∧ s.IsBv c w := by
  obtain ⟨k, hk, h⟩ := bind_eq_ok.mp h
  split at h
  · rename_i child extra hsplit
    obtain ⟨v, hv, h⟩ := let_bv h
    cases h
    exact ⟨k, kind_eq_ok.mp hk, hsplit, hv⟩
  · cases h

theorem zeroExtendParts_eq (h : zeroExtendParts s t = ok (some (c, w, e))) :
    s.kindAt t = some (.bvZeroExtend c e) ∧ s.IsBv c w := by
  obtain ⟨k, hk, hsplit, hc⟩ := extendParts_eq h
  rw [NodeKind.bvZeroExtend?_eq.mp hsplit] at hk
  exact ⟨hk, hc⟩

theorem signExtendParts_eq (h : signExtendParts s t = ok (some (c, w, e))) :
    s.kindAt t = some (.bvSignExtend c e) ∧ s.IsBv c w := by
  obtain ⟨k, hk, hsplit, hc⟩ := extendParts_eq h
  rw [NodeKind.bvSignExtend?_eq.mp hsplit] at hk
  exact ⟨hk, hc⟩

/-- The slice is the upper half of a product in twice the width of its factors. -/
theorem unsignedHigh_some (hs : s.Inv)
    (h : unsignedHighMultiplicationOverflowParts s t z = ok (some (x, y, w))) :
    s.IsBv x w ∧ s.IsBv y w ∧ isZeroBvConst s z = ok true ∧
      ∀ ρ, s.num ρ x * s.num ρ y < 2 ^ w → s.num ρ t = 0 := by
  obtain ⟨hzero, h⟩ := of_unless h
  obtain ⟨child, high, low, hkt, h⟩ := let_bvExtract h
  obtain ⟨a, b, hkc, h⟩ := let_bvMul h
  obtain ⟨x', xWidth, xExtra, hx, h⟩ := let_extension h
  obtain ⟨y', yWidth, yExtra, hy, h⟩ := let_extension h
  obtain ⟨hwidths, h⟩ := of_if h
  obtain ⟨hslice, h⟩ := of_if h
  cases h
  simp only [ne_eq, not_or, not_not] at hwidths hslice
  obtain ⟨rfl, rfl, rfl⟩ := hwidths
  obtain ⟨rfl, -⟩ := hslice
  obtain ⟨hkx, hxw⟩ := zeroExtendParts_eq hx
  obtain ⟨hky, hyw⟩ := zeroExtendParts_eq hy
  refine ⟨hxw, hyw, hzero, fun ρ hlt => ?_⟩
  obtain ⟨v, -, hc, -, -⟩ := hs.bvExtract_sort hkt
  have hle := Nat.mod_le (s.num ρ x * s.num ρ y) (2 ^ v)
  rw [Arena.num_bvExtract hs hkt, Arena.num_bvMul hs hkc hc, Arena.num_bvZeroExtend hs hkx,
    Arena.num_bvZeroExtend hs hky, Nat.shiftRight_eq_div_pow,
    Nat.div_eq_of_lt (Nat.lt_of_le_of_lt hle hlt), Nat.zero_mod]

/-- What is at most the greatest number over the divisor keeps its product with the divisor in the
width; a zero divisor does so by itself. -/
theorem isMaxDivBy_true (hs : s.Inv) (hx : s.IsBv x w) (h : isMaxDivBy s t x w = ok true)
    (hle : s.num ρ y ≤ s.num ρ t) : s.num ρ x * s.num ρ y < 2 ^ w := by
  obtain ⟨a, b, hk, h⟩ := let_bvUDiv h
  obtain ⟨hb, hones⟩ := and_eq_true.mp h
  obtain rfl : b = x := by simpa using hb
  obtain ⟨ha, hall⟩ := isAllOnesBvConst_true hs hones
  obtain ⟨σ, hσ, v, rfl, ha', hb'⟩ := hs.hasSort hk
  obtain rfl := ha.inj ha'
  obtain ⟨-, -, hdiv⟩ := Arena.bv_bvUDiv (ρ := ρ) hs hk hσ
  have hpos := Nat.two_pow_pos w
  by_cases h0 : s.num ρ b = 0
  · rw [h0, Nat.zero_mul]
    exact hpos
  · have hne : s.bv ρ b w ≠ 0#w := by
      intro hz
      rw [hx.num_eq hs, hz] at h0
      exact h0 rfl
    rw [Arena.IsBv.num_eq hs hσ, hdiv, hall, BitVec.smtUDiv_eq, if_neg hne, BitVec.toNat_udiv,
      BitVec.toNat_allOnes, ← hx.num_eq hs] at hle
    have hmul := Nat.mul_le_mul_left (s.num ρ b) hle
    have := Nat.mul_div_le (2 ^ w - 1) (s.num ρ b)
    omega

/-- No factor is small enough for the guard and large enough for the slice. -/
theorem unsigned_guard_contradiction_unsat (hq : q.WellFormed)
    (h : hasUnsignedMultiplicationOverflowGuardContradiction q = ok true) (ρ : Env) :
    ¬Asserted q ρ := by
  intro hρ
  have hs := hq.arena
  obtain ⟨⟨equalities, disequalities⟩, hpairs, h⟩ := bind_eq_ok.mp h
  obtain ⟨nonStrict, hnonStrict, h⟩ := bind_eq_ok.mp h
  obtain ⟨-, hdistinct⟩ := (bvEqualitiesAndDisequalities_answers hq).of_eq hpairs
  have hcollected := (collected_answers hq (fun _ _ => rfl)).of_eq hnonStrict
  have hle : ∀ p ∈ nonStrict, q.arena.num ρ p.1 ≤ q.arena.num ρ p.2 := by
    intro p hp
    obtain ⟨leaf, k, hk, hsplit, htrue⟩ := hcollected p hp
    rw [NodeKind.bvUle?_eq.mp hsplit] at hk
    exact (Arena.isTrue_bvUle hs hk).mp (htrue ρ hρ)
  obtain ⟨⟨a, b⟩, hab, h⟩ := exists_of_anyM h
  obtain ⟨first, hfirst, h⟩ := bind_eq_ok.mp h
  obtain ⟨second, hsecond, h⟩ := bind_eq_ok.mp h
  cases hor : first.or second with
  | none =>
    rw [hor] at h
    cases h
  | some parts =>
    obtain ⟨x, y, w⟩ := parts
    rw [hor] at h
    obtain ⟨term, zeroTerm, hne, hparts⟩ : ∃ term zeroTerm, DistinctBv q term zeroTerm ∧
        unsignedHighMultiplicationOverflowParts q.arena term zeroTerm = ok (some (x, y, w)) := by
      rcases Option.or_eq_some_iff.mp hor with rfl | ⟨-, rfl⟩
      · exact ⟨a, b, hdistinct _ hab, hfirst⟩
      · exact ⟨b, a, (hdistinct _ hab).symm, hsecond⟩
    obtain ⟨hx, hy, hzero, hhigh⟩ := unsignedHigh_some hs hparts
    obtain ⟨v, ht, hz, hne⟩ := hne
    have hbig : ¬q.arena.num ρ x * q.arena.num ρ y < 2 ^ w := by
      intro hlt
      refine hne ρ hρ (BitVec.eq_of_toNat_eq ?_)
      rw [← ht.num_eq hs, hhigh ρ hlt, isZeroBvConst_true hs hz hzero]
      rfl
    obtain ⟨⟨left, right⟩, hlr, h⟩ := exists_of_anyM h
    have hle := hle _ hlr
    rcases true_of_or h with h | h
    · obtain ⟨hl, hmax⟩ := and_eq_true.mp h
      obtain rfl : left = y := by simpa using hl
      exact hbig (isMaxDivBy_true hs hx hmax hle)
    · obtain ⟨hl, hmax⟩ := and_eq_true.mp h
      obtain rfl : left = x := by simpa using hl
      rw [Nat.mul_comm] at hbig
      exact hbig (isMaxDivBy_true hs hy hmax hle)

/-! ## The product of a quotient -/

/-- The factors are sign extensions, to twice the width, of a quotient and of its divisor. -/
theorem signedParts_some {high low : Nat}
    (h : signedDivisionProductPartsFromOperands s a b high low = ok (some (x, y, w))) :
    ∃ quotient, s.kindAt a = some (.bvSignExtend quotient w) ∧
      s.kindAt b = some (.bvSignExtend y w) ∧ s.kindAt quotient = some (.bvSDiv x y) ∧
      s.IsBv quotient w ∧ low = w - 1 ∧ high + 1 = w * 2 := by
  obtain ⟨quotient, quotientWidth, quotientExtra, hquotient, h⟩ := let_extension h
  obtain ⟨divisor, divisorWidth, divisorExtra, hdivisor, h⟩ := let_extension h
  obtain ⟨hwidths, h⟩ := of_if h
  obtain ⟨x', y', hk, h⟩ := let_bvSDiv h
  obtain ⟨hy, h⟩ := of_if h
  cases h
  simp only [ne_eq, not_or, not_not] at hwidths hy
  obtain ⟨rfl, rfl, rfl, rfl, hhigh⟩ := hwidths
  obtain ⟨hkq, hqw⟩ := signExtendParts_eq hquotient
  obtain ⟨hkd, -⟩ := signExtendParts_eq hdivisor
  exact ⟨quotient, hkq, hy ▸ hkd, hk, hqw, rfl, hhigh⟩

/-- Without overflow of the quotient all bits of the slice are the same. -/
theorem signedHighSlice_some (hs : s.Inv)
    (h : signedDivisionProductHighSliceParts s t = ok (some (x, y, w))) :
    s.IsBv x w ∧ s.IsBv y w ∧ ∀ ρ v, s.IsBv t v → s.bv ρ y w ≠ 0 →
      (s.bv ρ x w ≠ BitVec.intMin w ∨ s.bv ρ y w ≠ BitVec.allOnes w) →
        s.bv ρ t v = 0 ∨ s.bv ρ t v = BitVec.allOnes v := by
  obtain ⟨child, high, low, hkt, h⟩ := let_bvExtract h
  obtain ⟨a, b, hkc, h⟩ := let_bvMul h
  obtain ⟨p, hp, hparts⟩ : ∃ p ∈ [(a, b), (b, a)],
      signedDivisionProductPartsFromOperands s p.1 p.2 high low = ok (some (x, y, w)) := by
    obtain ⟨o, ho, h⟩ := bind_eq_ok.mp h
    cases o with
    | some parts =>
      cases h
      exact ⟨(a, b), by simp, ho⟩
    | none => exact ⟨(b, a), by simp, h⟩
  obtain ⟨quotient, hkq, hkd, hksdiv, hqw, rfl, hhigh⟩ := signedParts_some hparts
  obtain ⟨hxw, hyw⟩ := hs.binary_sort hksdiv hqw id
  refine ⟨hxw, hyw, fun ρ v ht hy hsafe => ?_⟩
  obtain ⟨u, ht', hc, hle, -⟩ := hs.bvExtract_sort hkt
  obtain rfl := ht.inj ht'
  obtain ⟨hqe, hquotient⟩ := Arena.bv_bvSignExtend (ρ := ρ) hs hkq hqw
  obtain ⟨-, hdivisor⟩ := Arena.bv_bvSignExtend (ρ := ρ) hs hkd hyw
  obtain ⟨hp1, -, hprod⟩ := bv_bvMul_either (ρ := ρ) hs hkc hc hp
  obtain rfl := hp1.inj hqe
  obtain ⟨bit, hbit⟩ := SignedProduct.quotient_mul_bits hy hsafe
  have hbits : ∀ i < high - (w - 1) + 1, s.bit ρ t i = bit := by
    intro i hi
    rw [Arena.bit_bvExtract hs hkt (by omega), ← Arena.IsBv.getLsbD hs hc, hprod, hquotient,
      hdivisor, (Arena.bv_bvSDiv hs hksdiv hqw).2.2]
    exact hbit _ (by omega) (by omega)
  cases bit with
  | false =>
    refine .inl (BitVec.eq_of_getLsbD_eq fun i hi => ?_)
    rw [Arena.IsBv.getLsbD hs ht, hbits i hi]
    exact (BitVec.getLsbD_zero).symm
  | true =>
    refine .inr (BitVec.eq_of_getLsbD_eq fun i hi => ?_)
    rw [Arena.IsBv.getLsbD hs ht, hbits i hi, BitVec.getLsbD_allOnes, decide_eq_true hi]

/-- Some disequation keeps the term away from zero. -/
theorem hasDisequalityWithConst_true {disequalities : List BvPair} (hs : q.arena.Inv)
    (hdistinct : ∀ p ∈ disequalities, DistinctBv q p.1 p.2) (hw : q.arena.IsBv t w)
    (h : hasDisequalityWithConst q.arena disequalities t isZeroBvConst = ok true)
    (hρ : Asserted q ρ) : q.arena.bv ρ t w ≠ 0 := by
  obtain ⟨⟨a, b⟩, hab, h⟩ := exists_of_anyM h
  obtain ⟨z, hne, hzero⟩ : ∃ z, DistinctBv q t z ∧ isZeroBvConst q.arena z = ok true := by
    rcases true_of_or h with h | h
    · obtain ⟨ha, hzero⟩ := and_eq_true.mp h
      obtain rfl := beq_iff_eq.mp (Outcome.ok.inj ha)
      exact ⟨b, hdistinct _ hab, hzero⟩
    · obtain ⟨hb, hzero⟩ := and_eq_true.mp h
      obtain rfl := beq_iff_eq.mp (Outcome.ok.inj hb)
      exact ⟨a, (hdistinct _ hab).symm, hzero⟩
  obtain ⟨hz, hne⟩ := hne.of_width hw
  rw [← isZeroBvConst_true hs hz hzero ρ]
  exact hne ρ hρ

theorem hasBvnotDisequalityToZero_true {disequalities : List BvPair} (hs : q.arena.Inv)
    (hdistinct : ∀ p ∈ disequalities, DistinctBv q p.1 p.2) (hw : q.arena.IsBv t w)
    (h : hasBvnotDisequalityToZero q.arena t disequalities = ok true) (hρ : Asserted q ρ) :
    q.arena.bv ρ t w ≠ BitVec.allOnes w := by
  unfold hasBvnotDisequalityToZero at h
  split at h
  · rename_i notTerm hfind
    obtain ⟨hlt, hnot, -⟩ := List.findIdx?_eq_some_iff_getElem.mp hfind
    rw [beq_iff_eq, NodeKind.bvNot?_eq] at hnot
    have hk : q.arena.kindAt notTerm = some (.bvNot t) := by
      rw [← hnot]
      exact Arena.kindAt_of_node (List.getElem?_eq_getElem hlt)
    obtain ⟨σ, hσ, v, rfl, hc⟩ := hs.hasSort hk
    obtain rfl := hw.inj hc
    have hne := hasDisequalityWithConst_true hs hdistinct hσ h hρ
    rw [(Arena.bv_bvNot hs hk hσ).2] at hne
    intro hones
    rw [hones, BitVec.not_allOnes] at hne
    exact hne rfl
  · cases h

/-! ## The pass returns -/

theorem returns_isZeroBvConst {σ : TermSort} (h : s.sortAt t = some σ) :
    Returns (isZeroBvConst s t) := by
  refine (kind_answers h).returns.bind fun k _ => ?_
  cases k <;> exact returns_ok _

theorem returns_isAllOnesBvConst {σ : TermSort} (h : s.sortAt t = some σ) :
    Returns (isAllOnesBvConst s t w) := by
  refine (kind_answers h).returns.bind fun k _ => ?_
  cases k <;> exact returns_ok _

theorem returns_isSignedMinBvConst {σ : TermSort} (h : s.sortAt t = some σ) :
    Returns (isSignedMinBvConst s t w) := by
  refine (kind_answers h).returns.bind fun k _ => ?_
  cases k <;> exact returns_ok _

theorem returns_hasDisequalityWithConst {disequalities : List BvPair}
    (hdistinct : ∀ p ∈ disequalities, DistinctBv q p.1 p.2) :
    Returns (hasDisequalityWithConst q.arena disequalities t isZeroBvConst) := by
  refine returns_anyM fun p hp => ?_
  obtain ⟨w, ha, hb, -⟩ := hdistinct p hp
  exact ((returns_ok _).and fun _ => returns_isZeroBvConst hb).or
    ((returns_ok _).and fun _ => returns_isZeroBvConst ha)

theorem returns_signedDivisionHigh {disequalities : List BvPair} {p : BvPair}
    (hdistinct : ∀ p ∈ disequalities, DistinctBv q p.1 p.2) (hp : p ∈ disequalities) :
    Answers (signedDivisionHigh q.arena disequalities p.1 p.2) fun o => ∀ high, o = some high →
      high = p.1 ∨ high = p.2 := by
  obtain ⟨w, ha, hb, -⟩ := hdistinct p hp
  have hnot : ∀ t, Returns (hasBvnotDisequalityToZero q.arena t disequalities) := by
    intro t
    unfold hasBvnotDisequalityToZero
    split
    · exact returns_hasDisequalityWithConst hdistinct
    · exact returns_ok _
  unfold signedDivisionHigh
  obtain ⟨first, hfirst⟩ := (returns_isZeroBvConst hb).and fun _ => hnot p.1
  rw [hfirst, ok_bind]
  cases first with
  | true => exact answers_some (.inl rfl)
  | false =>
    obtain ⟨second, hsecond⟩ := (returns_isZeroBvConst ha).and fun _ => hnot p.2
    rw [if_neg Bool.false_ne_true, hsecond, ok_bind]
    cases second with
    | true => exact answers_some (.inr rfl)
    | false => exact answers_none

theorem returns_signExtendParts {σ : TermSort} (hs : s.Inv) (h : s.sortAt t = some σ) :
    Returns (signExtendParts s t) := by
  refine (kind_answers h).returns.bind fun k hk => ?_
  replace hk := kind_eq_ok.mp hk
  cases hsplit : k.bvSignExtend? with
  | none =>
    simp only [hsplit]
    exact returns_ok _
  | some p =>
    rw [NodeKind.bvSignExtend?_eq.mp hsplit] at hk
    obtain ⟨τ, -, v, -, hc⟩ := hs.hasSort hk
    simp only [hsplit, Arena.sort_eq_ok.mpr hc]
    exact returns_ok _

theorem returns_signedParts {σ τ : TermSort} {high low : Nat} (hs : s.Inv)
    (ha : s.sortAt a = some σ) (hb : s.sortAt b = some τ) :
    Returns (signedDivisionProductPartsFromOperands s a b high low) := by
  refine (returns_signExtendParts hs ha).bind fun o ho => ?_
  rcases o with - | ⟨quotient, quotientWidth, quotientExtra⟩
  · exact returns_ok _
  refine (returns_signExtendParts hs hb).bind fun o' _ => ?_
  rcases o' with - | ⟨divisor, divisorWidth, divisorExtra⟩
  · exact returns_ok _
  dsimp only
  split
  · exact returns_ok _
  obtain ⟨-, hquotient⟩ := signExtendParts_eq ho
  refine (kind_answers hquotient).returns.bind fun k _ => ?_
  cases k with
  | bvSDiv x y =>
    dsimp only
    split <;> exact returns_ok _
  | _ => exact returns_ok _

theorem returns_signedHighSlice {σ : TermSort} (hs : s.Inv) (h : s.sortAt t = some σ) :
    Returns (signedDivisionProductHighSliceParts s t) := by
  refine (kind_answers h).returns.bind fun k hk => ?_
  replace hk := kind_eq_ok.mp hk
  cases k with
  | bvExtract child high low =>
    obtain ⟨v, -, hc, -, -⟩ := hs.bvExtract_sort hk
    refine (kind_answers hc).returns.bind fun k' hk' => ?_
    replace hk' := kind_eq_ok.mp hk'
    cases k' with
    | bvMul a b =>
      obtain ⟨ha, hb⟩ := hs.binary_sort hk' hc id
      refine (returns_signedParts hs ha hb).bind fun o _ => ?_
      cases o with
      | some parts => exact returns_ok _
      | none => exact returns_signedParts hs hb ha
    | _ => exact returns_ok _
  | _ => exact returns_ok _

theorem returns_isEqTo (predicate : Arena → TermId → Nat → Result Bool) (hs : s.Inv)
    (hpredicate : ∀ t w σ, s.sortAt t = some σ → Returns (predicate s t w))
    (ht : s.sortAt t = some .bool) : Returns (isEqTo predicate s t x w) := by
  refine (kind_answers ht).returns.bind fun k hk => ?_
  replace hk := kind_eq_ok.mp hk
  cases k with
  | bvEq a b =>
    obtain ⟨v, ha, hb⟩ := hs.bvEq_sort hk
    exact ((returns_ok _).and fun _ => hpredicate _ _ _ hb).or
      ((returns_ok _).and fun _ => hpredicate _ _ _ ha)
  | _ => exact returns_ok _

theorem returns_isSignedDivisionOverflowConjunction (hs : s.Inv) (ht : s.sortAt t = some .bool) :
    Returns (isSignedDivisionOverflowConjunction s t x y w) := by
  refine (kind_answers ht).returns.bind fun k hk => ?_
  replace hk := kind_eq_ok.mp hk
  have hones := fun {c v} => returns_isEqTo (t := c) (x := v) (w := w) isAllOnesBvConst hs
    fun _ _ _ => returns_isAllOnesBvConst
  have hmin := fun {c v} => returns_isEqTo (t := c) (x := v) (w := w) isSignedMinBvConst hs
    fun _ _ _ => returns_isSignedMinBvConst
  cases k with
  | boolAnd a b =>
    obtain ⟨-, ha, hb⟩ := hs.sort_kind hk ht
    exact ((hones ha).and fun _ => hmin hb).or ((hones hb).and fun _ => hmin ha)
  | _ => exact returns_ok _

theorem returns_containsGuard (hs : s.Inv) : ∀ (rounds : Nat) (t : TermId), t < rounds →
    s.sortAt t = some .bool → Returns (containsSignedDivisionOverflowGuard s x y w rounds t) := by
  intro rounds
  induction rounds with
  | zero =>
    intro t ht
    exact absurd ht (Nat.not_lt_zero t)
  | succ rounds ih =>
    intro t ht hsort
    rw [containsSignedDivisionOverflowGuard]
    refine (kind_answers hsort).returns.bind fun k hk => ?_
    replace hk := kind_eq_ok.mp hk
    have hlt := fun {c : TermId} (hc : c ∈ k.children) =>
      Nat.lt_of_lt_of_le (hs.child_lt hk hc) (Nat.lt_succ_iff.mp ht)
    cases k with
    | boolNot child =>
      exact returns_isSignedDivisionOverflowConjunction hs (hs.sort_kind hk hsort).2
    | boolAnd a b =>
      obtain ⟨-, ha, hb⟩ := hs.sort_kind hk hsort
      exact (ih a (hlt (by simp [NodeKind.children])) ha).or
        (ih b (hlt (by simp [NodeKind.children])) hb)
    | boolOr a b =>
      obtain ⟨-, ha, hb⟩ := hs.sort_kind hk hsort
      exact (ih a (hlt (by simp [NodeKind.children])) ha).or
        (ih b (hlt (by simp [NodeKind.children])) hb)
    | _ => exact returns_ok _

theorem returns_hasGuard (hq : q.WellFormed) : Returns (hasSignedDivisionOverflowGuard q x y w) :=
  returns_anyM fun a ha => returns_containsGuard hq.arena _ _ (Nat.lt_succ_self _)
    (hq.roots a.root (Query.mem_roots.mpr (.inl ⟨a, ha, rfl⟩)))

/-! ## When the guard is right -/

/-- The shape that the pass looks for: a slice that is asserted to be neither zero nor all ones, of
the product of `x / y` and `y`, with `y` asserted not to be zero and a guard found. -/
structure SignedGuardFound (q : Query) (x y : TermId) (w : Nat) (equalities disequalities : List BvPair)
    (p : BvPair) (high : TermId) : Prop where
  asserted : bvEqualitiesAndDisequalities q = ok (equalities, disequalities)
  pair : p ∈ disequalities
  slice : signedDivisionHigh q.arena disequalities p.1 p.2 = ok (some high)
  parts : signedDivisionProductHighSliceParts q.arena high = ok (some (x, y, w))
  divisor : hasDisequalityWithConst q.arena disequalities y isZeroBvConst = ok true
  guarded : hasSignedDivisionOverflowGuard q x y w = ok true

theorem signed_guard_iff (hq : q.WellFormed) :
    hasSignedDivisionMultiplyOverflowGuardContradiction q = ok true ↔
      ∃ x y w equalities disequalities p high,
        SignedGuardFound q x y w equalities disequalities p high := by
  have hs := hq.arena
  obtain ⟨⟨equalities, disequalities⟩, hpairs, -, hdistinct⟩ :=
    bvEqualitiesAndDisequalities_answers hq
  unfold hasSignedDivisionMultiplyOverflowGuardContradiction
  rw [hpairs, ok_bind]
  constructor
  · intro h
    obtain ⟨⟨a, b⟩, hab, h⟩ := exists_of_anyM h
    obtain ⟨high, hhigh, h⟩ := let_term h
    obtain ⟨x, y, w, hparts, h⟩ := let_operand h
    obtain ⟨hdivisor, hguard⟩ := and_eq_true.mp h
    exact ⟨x, y, w, equalities, disequalities, (a, b), high, hpairs, hab, hhigh, hparts, hdivisor,
      hguard⟩
  · rintro ⟨x, y, w, equalities', disequalities', ⟨a, b⟩, high, h⟩
    obtain ⟨rfl, rfl⟩ := Prod.mk.inj (Outcome.ok.inj (hpairs.symm.trans h.asserted))
    dsimp only at hdistinct
    refine (anyM_eq_true fun p hp => ?_).mpr ⟨(a, b), h.pair, ?_⟩
    · obtain ⟨v, ha, hb, -⟩ := hdistinct p hp
      obtain ⟨o, ho, hhigh⟩ := returns_signedDivisionHigh hdistinct hp
      obtain ⟨a, b⟩ := p
      dsimp only at ho hhigh ha hb ⊢
      rw [ho, ok_bind]
      cases o with
      | none => exact returns_ok _
      | some high =>
        have hsort : q.arena.IsBv high v := by
          rcases hhigh high rfl with rfl | rfl
          · exact ha
          · exact hb
        dsimp only
        refine (returns_signedHighSlice hs hsort).bind fun parts _ => ?_
        cases parts with
        | none => exact returns_ok _
        | some parts =>
          exact (returns_hasDisequalityWithConst hdistinct).and fun _ => returns_hasGuard hq
    · have hslice := h.slice
      dsimp only at hslice ⊢
      rw [hslice, ok_bind]
      dsimp only
      rw [h.parts, ok_bind]
      exact and_eq_true.mpr ⟨h.divisor, h.guarded⟩

/-- Where the shape is found, the quotient overflows in every assignment that satisfies the
assertions. -/
theorem signedGuard_overflows (hq : q.WellFormed) {equalities disequalities : List BvPair}
    {p : BvPair} {high : TermId} (h : SignedGuardFound q x y w equalities disequalities p high)
    (hρ : Asserted q ρ) :
    q.arena.bv ρ x w = BitVec.intMin w ∧ q.arena.bv ρ y w = BitVec.allOnes w := by
  have hs := hq.arena
  obtain ⟨-, hdistinct⟩ := (bvEqualitiesAndDisequalities_answers hq).of_eq h.asserted
  obtain ⟨hx, hy, hslice⟩ := signedHighSlice_some hs h.parts
  obtain ⟨v, hw, hzero, hones⟩ : ∃ v, q.arena.IsBv high v ∧ q.arena.bv ρ high v ≠ 0 ∧
      q.arena.bv ρ high v ≠ BitVec.allOnes v := by
    obtain ⟨found, hfound, hhigh⟩ := bind_eq_ok.mp h.slice
    cases found with
    | true =>
      cases hhigh
      obtain ⟨hzero, hnot⟩ := and_eq_true.mp hfound
      obtain ⟨v, ha, hb, hne⟩ := hdistinct p h.pair
      refine ⟨v, ha, ?_, hasBvnotDisequalityToZero_true hs hdistinct ha hnot hρ⟩
      rw [← isZeroBvConst_true hs hb hzero ρ]
      exact hne ρ hρ
    | false =>
      obtain ⟨found, hfound, hhigh⟩ := bind_eq_ok.mp hhigh
      cases found with
      | true =>
        cases hhigh
        obtain ⟨hzero, hnot⟩ := and_eq_true.mp hfound
        obtain ⟨v, ha, hb, hne⟩ := (hdistinct p h.pair).symm
        refine ⟨v, ha, ?_, hasBvnotDisequalityToZero_true hs hdistinct ha hnot hρ⟩
        rw [← isZeroBvConst_true hs hb hzero ρ]
        exact hne ρ hρ
      | false => cases hhigh
  have hdivisor := hasDisequalityWithConst_true hs hdistinct hy h.divisor hρ
  by_contra hsafe
  rw [not_and_or] at hsafe
  rcases hslice ρ v hw hdivisor hsafe with h0 | h1
  · exact hzero h0
  · exact hones h1

/-- Wherever the shape is found, the assertions rule out that the quotient overflows. -/
def SignedGuardImplied (q : Query) : Prop :=
  ∀ x y w equalities disequalities p high,
    SignedGuardFound q x y w equalities disequalities p high →
      ∀ ρ, Asserted q ρ →
        ¬(q.arena.bv ρ x w = BitVec.intMin w ∧ q.arena.bv ρ y w = BitVec.allOnes w)

/-- The upper bits of `(x / y) * y`, and a guard against overflow: it stands alone (term 21), or it
is one side of a disjunction (term 23). -/
def guardedQuotient (guard : TermId) : Query := .asserting [
    ⟨.bvVar 8 "x" (some 0), .bv 8⟩,
    ⟨.bvVar 8 "y" (some 1), .bv 8⟩,
    ⟨.bvSDiv 0 1, .bv 8⟩,
    ⟨.bvSignExtend 2 8, .bv 16⟩,
    ⟨.bvSignExtend 1 8, .bv 16⟩,
    ⟨.bvMul 3 4, .bv 16⟩,
    ⟨.bvExtract 5 15 7, .bv 9⟩,
    ⟨.bvConst 9 [0, 0], .bv 9⟩,
    ⟨.bvEq 6 7, .bool⟩,
    ⟨.boolNot 8, .bool⟩,
    ⟨.bvNot 6, .bv 9⟩,
    ⟨.bvEq 7 10, .bool⟩,
    ⟨.boolNot 11, .bool⟩,
    ⟨.bvConst 8 [0], .bv 8⟩,
    ⟨.bvEq 1 13, .bool⟩,
    ⟨.boolNot 14, .bool⟩,
    ⟨.bvConst 8 [255], .bv 8⟩,
    ⟨.bvEq 1 16, .bool⟩,
    ⟨.bvConst 8 [128], .bv 8⟩,
    ⟨.bvEq 0 18, .bool⟩,
    ⟨.boolAnd 17 19, .bool⟩,
    ⟨.boolNot 20, .bool⟩,
    ⟨.boolVar "p" (some 2), .bool⟩,
    ⟨.boolOr 21 22, .bool⟩] [9, 12, 15, guard]

end Shortcuts
end Qfbv
end SmtServer
