import Mathlib.Logic.Relation
import SmtServer.Qfbv.Shortcuts.SlicingIndex

/-!
# `log_slicing.rs` — comparisons written out

A comparison may be spelled out by halves: if the high halves of two words are equal the low halves
decide, otherwise the high halves do. The pair of halves that decides is a pair of words again, and
after some steps a pair of bits. The pass starts from such a pair of bits and goes up the chain of
pairs (`logSlicingPreviousPair`) until it comes to the words that are compared.

It is not asked whether the words of a step are just twice as wide as the halves that are taken from
them. Where they are wider, what is above the two halves plays no part in the choice.
-/

namespace SmtServer
namespace Qfbv

open Lib Outcome

namespace Shortcuts

/-! ## The chain -/

structure LogSlicingMuxDefinition where
  mask : TermId
  previous : TermId
  halfWidth : Nat
  deriving DecidableEq

def logSlicingLowHighExtracts (s : Arena) (low high : TermId) :
    Result (Option (TermId × Nat)) := do
  let .bvExtract lowChild lowHigh lowLow ← kind s low | return none
  let .bvExtract highChild highHigh highLow ← kind s high | return none
  if lowChild ≠ highChild ∨ lowLow ≠ 0 ∨ highLow ≠ lowHigh + 1 then return none
  let halfWidth := lowHigh + 1
  if highHigh + 1 = halfWidth * 2 then return some (lowChild, halfWidth)
  return none

/-- What `log_slicing_mux_expr_parts` makes of a mask and two words. -/
def logSlicingMux (s : Arena) (mask low high : TermId) :
    Result (Option LogSlicingMuxDefinition) := do
  let some (previous, halfWidth) ← logSlicingLowHighExtracts s low high | return none
  if (← s.sort mask) = .bv halfWidth then return some ⟨mask, previous, halfWidth⟩
  return none

def logSlicingMuxDefinitions (s : Arena) (equalities : List BvPair) (target : TermId) :
    Result (List LogSlicingMuxDefinition) :=
  muxDefinitions (logSlicingMux s) s equalities target

def matchesBvEqConstAlias (s : Arena) (index : LogSlicingIndex) (term var : TermId)
    (value : UInt64) (width : Nat) : Result Bool := do
  let some (a, b) ← bvEqPair s term | return false
  (sameOrEqualIndex s index a var <&&> isBvConstU64 s b width value) <||>
    (sameOrEqualIndex s index b var <&&> isBvConstU64 s a width value)

def matchesBvEqExtracts (s : Arena) (term : TermId) (left right : TermId × Nat × Nat) :
    Result Bool := do
  let some (a, b) ← bvEqPair s term | return false
  (matchesExtract s a left.1 left.2.1 left.2.2 <&&>
      matchesExtract s b right.1 right.2.1 right.2.2) <||>
    (matchesExtract s b left.1 left.2.1 left.2.2 <&&>
      matchesExtract s a right.1 right.2.1 right.2.2)

/-- `a` says that the condition is one, and `b` that the high halves are equal. -/
def isHighEquality (s : Arena) (index : LogSlicingIndex) (cond previousLeft previousRight : TermId)
    (halfWidth : Nat) (a b : TermId) : Result Bool :=
  matchesBvEqConstAlias s index a cond 1 1 <&&>
    matchesBvEqExtracts s b (previousLeft, halfWidth * 2 - 1, halfWidth)
      (previousRight, halfWidth * 2 - 1, halfWidth)

def hasLogSlicingHighEqualityCondition (s : Arena) (leaves : List TermId) (index : LogSlicingIndex)
    (cond previousLeft previousRight : TermId) (halfWidth : Nat) : Result Bool :=
  leaves.anyM fun leaf => do
    let some (a, b) ← boolEqPair s leaf | return false
    isHighEquality s index cond previousLeft previousRight halfWidth a b <||>
      isHighEquality s index cond previousLeft previousRight halfWidth b a

/-- The two inner loops of `log_slicing_previous_pair`. -/
def sharesCondition (s : Arena) (leaves : List TermId) (index : LogSlicingIndex)
    (left right : LogSlicingMuxDefinition) : Result Bool := do
  let leftConds ← repeatedConditionsForMask s index left.mask
  let rightConds ← repeatedConditionsForMask s index right.mask
  leftConds.anyM fun leftCond => rightConds.anyM fun rightCond =>
    sameOrEqualIndex s index leftCond rightCond <&&>
      hasLogSlicingHighEqualityCondition s leaves index leftCond left.previous right.previous
        left.halfWidth

def logSlicingPreviousPair (s : Arena) (leaves : List TermId) (equalities : List BvPair)
    (index : LogSlicingIndex) (current : BvPair) : Result (Option BvPair) := do
  let leftDefs ← logSlicingMuxDefinitions s equalities current.1
  let rightDefs ← logSlicingMuxDefinitions s equalities current.2
  leftDefs.findSomeM? fun left => rightDefs.findSomeM? fun right => do
    if left.halfWidth ≠ right.halfWidth then return none
    if ← sharesCondition s leaves index left right then
      return some (left.previous, right.previous)
    return none

/-- Whether a word of the index is `input` with zeros above it. -/
def isExtensionOf (s : Arena) (index : LogSlicingIndex) (term : TermId) (termWidth : Nat)
    (input : TermId) (inputWidth : Nat) : Result Bool :=
  pure ((index.extractTerms term (inputWidth - 1) 0).contains input) <&&>
    (index.extractTerms term (termWidth - 1) inputWidth).anyM fun high =>
      (isZeroBvConst s high).unwrapOr false

def termZeroExtendsInput (s : Arena) (index : LogSlicingIndex) (term input : TermId) :
    Result Bool := do
  let termWidth ← s.expectBv term "zero-extended term"
  let inputWidth ← s.expectBv input "zero-extended input"
  if termWidth = inputWidth then sameOrEqualIndex s index term input
  else if termWidth < inputWidth then return false
  else ((index.candidateTerms term).filter (isOfWidth s termWidth)).anyM fun other =>
    isExtensionOf s index other termWidth input inputWidth

def logSlicingInitialPair (s : Arena) (index : LogSlicingIndex) (current original : BvPair) :
    Result Bool :=
  termZeroExtendsInput s index current.1 original.1 <&&>
    termZeroExtendsInput s index current.2 original.2

/-- The loop of `verify_log_slicing_unsigned_chain`. -/
def unsignedChain (s : Arena) (leaves : List TermId) (equalities : List BvPair)
    (index : LogSlicingIndex) (original : BvPair) : (rounds : Nat) → (current : BvPair) → Result Bool
  | 0, _ => return false
  | rounds + 1, current => do
    if ← logSlicingInitialPair s index current original then return true
    match ← logSlicingPreviousPair s leaves equalities index current with
    | some previous => unsignedChain s leaves equalities index original rounds previous
    | none => return false

def verifyLogSlicingUnsignedChain (s : Arena) (leaves : List TermId) (equalities : List BvPair)
    (index : LogSlicingIndex) (current original : BvPair) : Result Bool :=
  unsignedChain s leaves equalities index original 32 current

/-! ## The pass -/

structure LogComparisonAssertion where
  result : TermId
  left : TermId
  right : TermId
  signed : Bool
  deriving DecidableEq

def comparisonParts (s : Arena) (term : TermId) : Result (Option (TermId × TermId × Bool)) := do
  match ← kind s term with
  | .bvUlt a b => return some (a, b, false)
  | .bvSlt a b => return some (a, b, true)
  | _ => return none

def logSlicingComparisonAssertion (s : Arena) (term : TermId) :
    Result (Option LogComparisonAssertion) := do
  let some (a, b) ← boolEqPair s term | return none
  match ← comparisonParts s a with
  | some (left, right, signed) => return some ⟨b, left, right, signed⟩
  | none =>
    match ← comparisonParts s b with
    | some (left, right, signed) => return some ⟨a, left, right, signed⟩
    | none => return none

def logSlicingComparisonDisequality (s : Arena) (term : TermId) : Result (Option BvPair) := do
  let .boolNot child ← kind s term | return none
  boolEqPair s child

/-- `a` is the complement of a bit, and `b` is a bit. -/
def notAndBit (s : Arena) (a b : TermId) : Result (Option BvPair) := do
  let some child ← bvNotChild s a | return none
  if (← s.sort child) = .bv 1 ∧ (← s.sort b) = .bv 1 then return some (child, b)
  return none

def logSlicingUnsignedLtBit (s : Arena) (term : TermId) : Result (Option BvPair) := do
  let .bvAnd a b ← kind s term | return none
  match ← notAndBit s a b with
  | some pair => return some pair
  | none => notAndBit s b a

def logSlicingUnsignedLtExpr (s : Arena) (term : TermId) : Result (Option BvPair) := do
  let some (a, b) ← bvEqPair s term | return none
  if ← isOneBvConst s b then logSlicingUnsignedLtBit s a
  else if ← isOneBvConst s a then logSlicingUnsignedLtBit s b
  else return none

def signExtractBounds (s : Arena) (left right : TermId) : Result (Nat × Nat) := do
  let leftWidth ← s.expectBv left "signed comparison left"
  let rightWidth ← s.expectBv right "signed comparison right"
  .ensure (leftWidth = rightWidth)
    (.invalid "signed comparison" s!"width mismatch: {leftWidth} vs {rightWidth}")
  return (leftWidth - 1, rightWidth - 1)

def matchesBvEqExtractConst (s : Arena) (term child : TermId) (high low : Nat) (value : UInt64) :
    Result Bool := do
  let some (a, b) ← bvEqPair s term | return false
  (matchesExtract s a child high low <&&> isBvConstU64 s b (high - low + 1) value) <||>
    (matchesExtract s b child high low <&&> isBvConstU64 s a (high - low + 1) value)

/-- The loop of `signed_sign_diff_part` over the parts. -/
def signDiffParts (s : Arena) (left right : TermId) (leftSign rightSign : Nat) :
    List TermId → (sawLeftNegative sawRightNonnegative : Bool) → Result Bool
  | [], sawLeftNegative, sawRightNonnegative => return sawLeftNegative && sawRightNonnegative
  | part :: rest, sawLeftNegative, sawRightNonnegative => do
    if ← matchesBvEqExtractConst s part left leftSign leftSign 1 then
      signDiffParts s left right leftSign rightSign rest true sawRightNonnegative
    else
      match ← kind s part with
      | .boolNot child =>
        let found ← matchesBvEqExtractConst s child right rightSign rightSign 1
        signDiffParts s left right leftSign rightSign rest sawLeftNegative
          (found || sawRightNonnegative)
      | _ => signDiffParts s left right leftSign rightSign rest sawLeftNegative sawRightNonnegative

def signedSignDiffPart (s : Arena) (term left right : TermId) : Result Bool := do
  let (leftSign, rightSign) ← signExtractBounds s left right
  let parts ← collectBoolAndConjuncts s term
  if parts.length ≠ 2 then return false
  signDiffParts s left right leftSign rightSign parts false false

/-- The loop of `signed_same_sign_unsigned_part` over the parts. -/
def sameSignParts (s : Arena) (left right : TermId) (leftSign rightSign : Nat) :
    List TermId → (sawSameSign : Bool) → (selected : Option BvPair) → Result (Option BvPair)
  | [], sawSameSign, selected => return if sawSameSign then selected else none
  | part :: rest, sawSameSign, selected => do
    if ← matchesBvEqExtracts s part (left, leftSign, leftSign) (right, rightSign, rightSign) then
      sameSignParts s left right leftSign rightSign rest true selected
    else
      sameSignParts s left right leftSign rightSign rest sawSameSign
        (← logSlicingUnsignedLtExpr s part)

def signedSameSignUnsignedPart (s : Arena) (term left right : TermId) :
    Result (Option BvPair) := do
  let (leftSign, rightSign) ← signExtractBounds s left right
  let parts ← collectBoolAndConjuncts s term
  if parts.length ≠ 2 then return none
  sameSignParts s left right leftSign rightSign parts false none

def signedLtPartsMatch (s : Arena) (signDiff sameSign left right : TermId) : Result Bool := do
  if ← signedSignDiffPart s signDiff left right then
    return (← signedSameSignUnsignedPart s sameSign left right).isSome
  return false

def logSlicingSignedLtExpr (s : Arena) (term left right : TermId) : Result (Option BvPair) := do
  let .boolOr a b ← kind s term | return none
  if ← signedLtPartsMatch s a b left right then signedSameSignUnsignedPart s b left right
  else if ← signedLtPartsMatch s b a left right then signedSameSignUnsignedPart s a left right
  else return none

def logSlicingSelected (s : Arena) (comparison : LogComparisonAssertion) (computed : TermId) :
    Result (Option BvPair) :=
  if comparison.signed then logSlicingSignedLtExpr s computed comparison.left comparison.right
  else logSlicingUnsignedLtExpr s computed

/-- The body of the loop over the comparisons. -/
def refutesComparison (s : Arena) (leaves : List TermId) (equalities : List BvPair)
    (index : LogSlicingIndex) (result computed : TermId) (comparison : LogComparisonAssertion) :
    Result Bool := do
  if comparison.result ≠ result then return false
  let some selected ← logSlicingSelected s comparison computed | return false
  verifyLogSlicingUnsignedChain s leaves equalities index selected
    (comparison.left, comparison.right)

def hasLogSlicingComparisonContradiction (q : Query) : Result Bool := do
  if q.assumptions ≠ [] ∨ 20000 < q.arena.nodes.length then return false
  let leaves ← conjuncts q
  let (equalities, _) ← bvEqualitiesAndDisequalities q
  let comparisons := (← leaves.mapM (logSlicingComparisonAssertion q.arena)).reduceOption
  if comparisons = [] then return false
  let index ← LogSlicingIndex.new q.arena equalities
  leaves.anyM fun leaf => do
    let some (result, computed) ← logSlicingComparisonDisequality q.arena leaf | return false
    comparisons.anyM (refutesComparison q.arena leaves equalities index result computed)

/-! ## What the matchers say -/

variable {q : Query} {index : LogSlicingIndex} {equalities : List BvPair} {leaves : List TermId}
  {ρ : Env} {t a b c x : TermId} {w v high low : Nat} {σ : TermSort}

theorem matchesExtract_answers (h : q.arena.sortAt t = some σ) :
    Answers (matchesExtract q.arena t c high low) fun found => found = true →
      q.arena.kindAt t = some (.bvExtract c high low) := by
  refine (kind_answers h).bind fun k hk => answers_ok fun hfound => ?_
  rwa [NodeKind.bvExtract?_eq.mp (beq_iff_eq.mp hfound)] at hk

theorem isBvConstU64_answers {value : UInt64} (hs : q.arena.Inv) (h : q.arena.sortAt t = some σ) :
    Answers (isBvConstU64 q.arena t w value) fun found => found = true →
      q.arena.IsBv t w ∧ ∀ ρ, q.arena.bv ρ t w = BitVec.ofNat w value.toNat := by
  refine Returns.answers ?_ fun hfound =>
    ⟨(isBvConstU64_true hs hfound).1, fun ρ => (bv_of_isBvConstU64 hs hfound).2⟩
  refine (kind_answers h).returns.bind fun k _ => ?_
  cases k <;> exact returns_ok _

/-- The condition `c` is one. -/
theorem matchesBvEqConstAlias_answers (hs : q.arena.Inv) (hi : index.Sound q)
    (ht : q.arena.sortAt t = some .bool) (hc : q.arena.IsBv c 1) :
    Answers (matchesBvEqConstAlias q.arena index t c 1 1) fun found => found = true →
      ∀ ρ, Asserted q ρ → (q.arena.IsTrue ρ t ↔ q.arena.bit ρ c 0 = true) := by
  refine (bvEqPair_answers ht).bind fun o ho => ?_
  rcases o with - | ⟨a, b⟩
  · exact answers_ok fun h => nomatch h
  · have hk := ho _ rfl
    obtain ⟨w, ha, hb⟩ := hs.bvEq_sort hk
    have key : ∀ {x y : TermId}, q.arena.IsBv x w →
        (∀ ρ, q.arena.IsTrue ρ t ↔ q.arena.value ρ x = q.arena.value ρ y) →
        EqualBv q x c ∧ (q.arena.IsBv y 1 ∧ ∀ ρ, q.arena.bv ρ y 1 = BitVec.ofNat 1 1) →
          ∀ ρ, Asserted q ρ → (q.arena.IsTrue ρ t ↔ q.arena.bit ρ c 0 = true) := by
      intro x y hx htrue hxy ρ hρ
      obtain ⟨heq, hy, hone⟩ := hxy
      have hx1 := (heq.symm.of_width hc).1
      rw [htrue, Arena.value_eq_iff_bv hs hx1 hy, hone, ← heq.bit hs hρ, ← hx1.getLsbD hs]
      generalize q.arena.bv ρ x 1 = word
      revert word
      decide
    refine Answers.or
      (((sameOrEqualIndex_answers hi ha hc).and (isBvConstU64_answers hs hb)).mono ?_)
      (((sameOrEqualIndex_answers hi hb hc).and (isBvConstU64_answers hs ha)).mono ?_)
    · exact fun _ h hfound => key ha (fun ρ => Arena.isTrue_bvEq hs hk) (h hfound)
    · exact fun _ h hfound => key hb (fun ρ => (Arena.isTrue_bvEq hs hk).trans eq_comm) (h hfound)

/-- The slices of two words between the same bounds are equal. -/
theorem matchesBvEqExtracts_answers (hs : q.arena.Inv) (ht : q.arena.sortAt t = some .bool) :
    Answers (matchesBvEqExtracts q.arena t (a, high, low) (b, high, low)) fun found =>
      found = true → ∀ ρ, q.arena.IsTrue ρ t ↔
        ∀ i ≤ high - low, q.arena.bit ρ a (low + i) = q.arena.bit ρ b (low + i) := by
  refine (bvEqPair_answers ht).bind fun o ho => ?_
  rcases o with - | ⟨x, y⟩
  · exact answers_ok fun h => nomatch h
  · have hk := ho _ rfl
    obtain ⟨w, hx, hy⟩ := hs.bvEq_sort hk
    have key : ∀ {x y : TermId},
        (∀ ρ, q.arena.IsTrue ρ t ↔ q.arena.value ρ x = q.arena.value ρ y) →
        q.arena.kindAt x = some (.bvExtract a high low) ∧
          q.arena.kindAt y = some (.bvExtract b high low) →
        ∀ ρ, q.arena.IsTrue ρ t ↔
          ∀ i ≤ high - low, q.arena.bit ρ a (low + i) = q.arena.bit ρ b (low + i) := by
      intro x y htrue hxy ρ
      obtain ⟨hkx, hky⟩ := hxy
      obtain ⟨-, hx, -⟩ := hs.bvExtract_sort hkx
      obtain ⟨-, hy, -⟩ := hs.bvExtract_sort hky
      rw [htrue, Arena.value_eq_iff_bit hs hx hy]
      simp only [Nat.lt_succ_iff]
      refine forall₂_congr fun i hi => ?_
      rw [Arena.bit_bvExtract hs hkx hi, Arena.bit_bvExtract hs hky hi]
    refine Answers.or (((matchesExtract_answers hx).and (matchesExtract_answers hy)).mono ?_)
      (((matchesExtract_answers hy).and (matchesExtract_answers hx)).mono ?_)
    · exact fun _ h hfound => key (fun ρ => Arena.isTrue_bvEq hs hk) (h hfound)
    · exact fun _ h hfound => key (fun ρ => (Arena.isTrue_bvEq hs hk).trans eq_comm) (h hfound)

/-! ## One step of the chain -/

/-- The leaves are Bools that are true wherever the assertions are. -/
def Leaves (q : Query) (leaves : List TermId) : Prop := ∀ leaf ∈ leaves,
  q.arena.sortAt leaf = some .bool ∧ ∀ ρ, Asserted q ρ → q.arena.IsTrue ρ leaf

/-- The condition says whether the upper halves are equal. -/
theorem hasHighEquality_answers (hs : q.arena.Inv) (hi : index.Sound q) (hl : Leaves q leaves)
    (hc : q.arena.IsBv c 1) :
    Answers (hasLogSlicingHighEqualityCondition q.arena leaves index c a b w) fun found =>
      found = true → ∀ ρ, Asserted q ρ → (q.arena.bit ρ c 0 = true ↔
        ∀ i ≤ w * 2 - 1 - w, q.arena.bit ρ a (w + i) = q.arena.bit ρ b (w + i)) := by
  refine (answers_anyM (P := fun _ => ∀ ρ, Asserted q ρ → (q.arena.bit ρ c 0 = true ↔
    ∀ i ≤ w * 2 - 1 - w, q.arena.bit ρ a (w + i) = q.arena.bit ρ b (w + i)))
    fun leaf hleaf => ?_).mono fun _ h hfound => (h hfound).elim fun _ h => h.2
  obtain ⟨hsort, htrue⟩ := hl leaf hleaf
  refine (parts_answers hsort).bind fun o ho => ?_
  rcases o with - | ⟨x, y⟩
  · exact answers_ok fun h => nomatch h
  · obtain ⟨k, hk, hpair⟩ := ho
    rw [NodeKind.boolEq?_eq.mp hpair] at hk
    obtain ⟨σ, -, -, hx, hy⟩ := hs.hasSort hk
    have hiff : ∀ ρ, Asserted q ρ → (q.arena.IsTrue ρ x ↔ q.arena.IsTrue ρ y) :=
      fun ρ hρ => (Arena.isTrue_boolEq hs hk).mp (htrue ρ hρ)
    refine Answers.or (((matchesBvEqConstAlias_answers hs hi hx hc).and
      (matchesBvEqExtracts_answers hs hy)).mono fun _ h hfound ρ hρ => ?_)
      (((matchesBvEqConstAlias_answers hs hi hy hc).and
        (matchesBvEqExtracts_answers hs hx)).mono fun _ h hfound ρ hρ => ?_)
    · rw [← (h hfound).1 ρ hρ, hiff ρ hρ, (h hfound).2 ρ]
    · rw [← (h hfound).1 ρ hρ, ← hiff ρ hρ, (h hfound).2 ρ]

/-- The word is one of the two halves of `d.previous`, or of what is left of it when the bits above
the upper half are dropped. -/
structure HalfMux (q : Query) (t : TermId) (w : Nat) (d : LogSlicingMuxDefinition) : Prop where
  halfWidth : d.halfWidth = w
  maskSort : q.arena.IsBv d.mask w
  previousSort : ∃ v, q.arena.IsBv d.previous v ∧ 2 * w ≤ v
  bits : ∀ ρ, Asserted q ρ → ∀ i < w, q.arena.bit ρ t i =
    choose (q.arena.bit ρ d.mask i) (q.arena.bit ρ d.previous i) (q.arena.bit ρ d.previous (w + i))

theorem lowHighExtracts_answers (hs : q.arena.Inv) (ha : q.arena.IsBv a w) (hb : q.arena.IsBv b w) :
    Answers (logSlicingLowHighExtracts q.arena a b) fun o => ∀ p, o = some p → p.2 = w ∧
      q.arena.kindAt a = some (.bvExtract p.1 (w - 1) 0) ∧
      q.arena.kindAt b = some (.bvExtract p.1 (2 * w - 1) w) := by
  refine (kind_answers ha).bind fun k hk => ?_
  cases k with
  | bvExtract lowChild lowHigh lowLow =>
    refine (kind_answers hb).bind fun k' hk' => ?_
    cases k' with
    | bvExtract highChild highHigh highLow =>
      dsimp only
      split
      · exact answers_none
      · rename_i hbounds
        split
        · rename_i hwidth
          refine answers_some ?_
          obtain ⟨hchild, hlow, hhigh⟩ : lowChild = highChild ∧ lowLow = 0 ∧
              highLow = lowHigh + 1 := by
            simp only [not_or, not_not, ne_eq] at hbounds
            exact hbounds
          subst hchild hlow hhigh
          obtain ⟨-, ha', -⟩ := hs.bvExtract_sort hk
          obtain rfl : w = lowHigh + 1 := (ha.inj ha').trans (by omega)
          obtain rfl : highHigh = 2 * (lowHigh + 1) - 1 := by omega
          exact ⟨rfl, hk, hk'⟩
        · exact answers_none
    | _ => exact answers_none
  | _ => exact answers_none

theorem logSlicingMux_answers (hs : q.arena.Inv) (h : IsMux q t c a b w) :
    Answers (logSlicingMux q.arena c a b) fun o => ∀ d, o = some d → HalfMux q t w d := by
  refine (lowHighExtracts_answers hs h.thenSort h.elseSort).bind fun o ho => ?_
  rcases o with - | ⟨previous, halfWidth⟩
  · exact answers_none
  · obtain ⟨rfl, hka, hkb⟩ := ho _ rfl
    refine (sort_answers h.maskSort).bind fun _ hσ => ?_
    subst hσ
    rw [if_pos rfl]
    obtain ⟨v, -, hprevious, -, hlt⟩ := hs.bvExtract_sort hkb
    have hpos := h.maskSort.pos hs
    refine answers_some ⟨rfl, h.maskSort, ⟨v, hprevious, by omega⟩, fun ρ hρ i hi => ?_⟩
    rw [h.bits ρ hρ i hi, Arena.bit_bvExtract hs hka (by omega),
      Arena.bit_bvExtract hs hkb (by omega), Nat.zero_add]

/-- One bit chooses both words of a pair from the halves of another, and says whether the upper
halves are equal. -/
def Halved (q : Query) (current previous : BvPair) (w : Nat) : Prop :=
  ∀ ρ, Asserted q ρ → ∃ same : Bool,
    (∀ i < w, q.arena.bit ρ current.1 i =
      choose same (q.arena.bit ρ previous.1 i) (q.arena.bit ρ previous.1 (w + i))) ∧
    (∀ i < w, q.arena.bit ρ current.2 i =
      choose same (q.arena.bit ρ previous.2 i) (q.arena.bit ρ previous.2 (w + i))) ∧
    (same = true ↔ ∀ i < w, q.arena.bit ρ previous.1 (w + i) = q.arena.bit ρ previous.2 (w + i))

/-- What a step of the chain says. -/
structure PreviousPair (q : Query) (current previous : BvPair) (w : Nat) : Prop where
  left : q.arena.IsBv current.1 w
  right : q.arena.IsBv current.2 w
  previousLeft : ∃ v, q.arena.IsBv previous.1 v ∧ 2 * w ≤ v
  previousRight : ∃ v, q.arena.IsBv previous.2 v ∧ 2 * w ≤ v
  halved : Halved q current previous w

section Step

variable (hs : q.arena.Inv) (hi : index.Sound q) (hl : Leaves q leaves)
include hs hi hl

theorem sharesCondition_answers {left right : LogSlicingMuxDefinition} (ha : HalfMux q a w left)
    (hb : HalfMux q b w right) :
    Answers (sharesCondition q.arena leaves index left right) fun found => found = true →
      Halved q (a, b) (left.previous, right.previous) w := by
  refine (repeatedConditionsForMask_answers hs hi ha.maskSort).bind fun leftConds hleft => ?_
  refine (repeatedConditionsForMask_answers hs hi hb.maskSort).bind fun rightConds hright => ?_
  refine (answers_anyM (P := fun _ => Halved q (a, b) (left.previous, right.previous) w)
    fun leftCond hlc => ?_).mono fun _ h hfound => (h hfound).elim fun _ h => h.2
  refine (answers_anyM (P := fun _ => Halved q (a, b) (left.previous, right.previous) w)
    fun rightCond hrc => ?_).mono fun _ h hfound => (h hfound).elim fun _ h => h.2
  obtain ⟨hcl, wl, hwl, hbitsl⟩ := hleft leftCond hlc
  obtain ⟨hcr, wr, hwr, hbitsr⟩ := hright rightCond hrc
  obtain rfl := ha.maskSort.inj hwl
  obtain rfl := hb.maskSort.inj hwr
  refine ((sameOrEqualIndex_answers hi hcl hcr).and
    (hasHighEquality_answers hs hi hl hcl)).mono fun _ h hfound ρ hρ => ?_
  obtain ⟨hsame, hhigh⟩ := h hfound
  rw [ha.halfWidth] at hhigh
  refine ⟨q.arena.bit ρ leftCond 0, fun i hi => ?_, fun i hi => ?_, (hhigh ρ hρ).trans ?_⟩
  · rw [ha.bits ρ hρ i hi, hbitsl ρ hρ i hi]
  · rw [hb.bits ρ hρ i hi, hbitsr ρ hρ i hi, ← hsame.bit hs hρ]
  · have hpos := ha.maskSort.pos hs
    exact forall_congr' fun i => imp_congr_left (by omega)

theorem previousPair_answers (heq : ∀ p ∈ equalities, EqualBv q p.1 p.2) {current : BvPair}
    (ha : q.arena.IsBv current.1 w) (hb : q.arena.IsBv current.2 v) :
    Answers (logSlicingPreviousPair q.arena leaves equalities index current) fun o =>
      ∀ previous, o = some previous → PreviousPair q current previous w := by
  refine (muxDefinitions_answers (P := fun d _ _ _ => HalfMux q current.1 w d) hs heq ha
    fun _ _ _ h => logSlicingMux_answers hs h).bind fun leftDefs hleft => ?_
  refine (muxDefinitions_answers (P := fun d _ _ _ => HalfMux q current.2 v d) hs heq hb
    fun _ _ _ h => logSlicingMux_answers hs h).bind fun rightDefs hright => ?_
  refine (answers_findSomeM? (P := fun _ previous => PreviousPair q current previous w)
    fun left hmem => ?_).mono fun o ho p hp => (ho p hp).elim fun _ h => h.2
  obtain ⟨-, -, -, -, hld⟩ := hleft left hmem
  refine (answers_findSomeM? (P := fun _ previous => PreviousPair q current previous w)
    fun right hmem' => ?_).mono fun o ho p hp => (ho p hp).elim fun _ h => h.2
  obtain ⟨-, -, -, -, hrd⟩ := hright right hmem'
  split
  · exact answers_none
  · rename_i hhalf
    obtain rfl : w = v := by
      rw [← hld.halfWidth, ← hrd.halfWidth]
      exact not_not.mp hhalf
    refine (sharesCondition_answers hs hi hl hld hrd).bind fun found hfound => ?_
    cases found with
    | false => exact answers_none
    | true => exact answers_some ⟨ha, hb, hld.previousSort, hrd.previousSort, hfound rfl⟩

end Step

/-! ## What a step decides -/

/-- Words are compared by their upper halves, and by the lower ones where those are equal. -/
theorem lt_iff_halves {m n k : Nat} :
    m < n ↔ if m / k = n / k then m % k < n % k else m / k < n / k := by
  have hm := Nat.div_add_mod m k
  have hn := Nat.div_add_mod n k
  split
  · rename_i h
    rw [h] at hm
    omega
  · rename_i h
    constructor
    · intro hlt
      exact Nat.lt_of_le_of_ne (Nat.div_le_div_right (Nat.le_of_lt hlt)) h
    · intro hlt
      exact Nat.lt_of_div_lt_div hlt

theorem num_of_choose (hs : q.arena.Inv) {p : TermId} {same : Bool} (ht : q.arena.IsBv t w)
    (hp : q.arena.IsBv p (2 * w))
    (hbits : ∀ i < w, q.arena.bit ρ t i =
      choose same (q.arena.bit ρ p i) (q.arena.bit ρ p (w + i))) :
    q.arena.num ρ t = if same then q.arena.num ρ p % 2 ^ w else q.arena.num ρ p / 2 ^ w := by
  refine Nat.eq_of_testBit_eq fun i => ?_
  rw [Arena.testBit_num]
  by_cases hi : i < w
  · rw [hbits i hi]
    cases same with
    | true => simp [choose, Nat.testBit_mod_two_pow, hi, Arena.testBit_num]
    | false => simp [choose, Nat.testBit_div_two_pow, Arena.testBit_num, Nat.add_comm w]
  · rw [ht.bit_of_ge hs (Nat.le_of_not_lt hi)]
    cases same with
    | true => simp [Nat.testBit_mod_two_pow, hi]
    | false =>
      rw [if_neg Bool.false_ne_true, Nat.testBit_div_two_pow, Arena.testBit_num,
        hp.bit_of_ge hs (by omega)]

theorem upper_eq_iff (hs : q.arena.Inv) {p r : TermId} (hp : q.arena.IsBv p (2 * w))
    (hr : q.arena.IsBv r (2 * w)) : (∀ i < w, q.arena.bit ρ p (w + i) = q.arena.bit ρ r (w + i)) ↔
      q.arena.num ρ p / 2 ^ w = q.arena.num ρ r / 2 ^ w := by
  constructor
  · intro h
    refine Nat.eq_of_testBit_eq fun i => ?_
    rw [Nat.testBit_div_two_pow, Nat.testBit_div_two_pow, Arena.testBit_num, Arena.testBit_num,
      Nat.add_comm i]
    by_cases hi : i < w
    · exact h i hi
    · rw [hp.bit_of_ge hs (by omega), hr.bit_of_ge hs (by omega)]
  · intro h i _
    have hbit := congrArg (Nat.testBit · i) h
    simpa [Nat.testBit_div_two_pow, Arena.testBit_num, Nat.add_comm i] using hbit

/-- The halves decide for the words they are taken from, where these are twice as wide. -/
theorem PreviousPair.lt_iff (hs : q.arena.Inv) {current previous : BvPair}
    (h : PreviousPair q current previous w) (hl : q.arena.IsBv previous.1 (2 * w))
    (hr : q.arena.IsBv previous.2 (2 * w)) (hρ : Asserted q ρ) :
    q.arena.num ρ current.1 < q.arena.num ρ current.2 ↔
      q.arena.num ρ previous.1 < q.arena.num ρ previous.2 := by
  obtain ⟨same, hleft, hright, hsame⟩ := h.halved ρ hρ
  rw [num_of_choose hs h.left hl hleft, num_of_choose hs h.right hr hright,
    lt_iff_halves (m := q.arena.num ρ previous.1) (k := 2 ^ w)]
  rw [upper_eq_iff hs hl hr] at hsame
  cases same with
  | true => rw [if_pos rfl, if_pos rfl, if_pos (hsame.mp rfl)]
  | false => rw [if_neg Bool.false_ne_true, if_neg Bool.false_ne_true,
      if_neg fun h => nomatch hsame.mpr h]

/-! ## The whole chain -/

/-- The words of a step are twice as wide as the halves. -/
def HalvesWhole (s : Arena) (current previous : BvPair) : Prop :=
  ∀ w, s.IsBv current.1 w → s.IsBv previous.1 (2 * w) ∧ s.IsBv previous.2 (2 * w)

/-- In every step of the chain of `start` they are. -/
def ChainHalvesWhole (s : Arena) (leaves : List TermId) (equalities : List BvPair)
    (index : LogSlicingIndex) (start : BvPair) : Prop :=
  ∀ current previous, Relation.ReflTransGen
      (fun x y => logSlicingPreviousPair s leaves equalities index x = ok (some y)) start current →
    logSlicingPreviousPair s leaves equalities index current = ok (some previous) →
      HalvesWhole s current previous

theorem isExtensionOf_answers (hs : q.arena.Inv) (hi : index.Sound q) (ht : q.arena.IsBv t w)
    (hx : q.arena.IsBv x v) (hlt : v < w) :
    Answers (isExtensionOf q.arena index t w x v) fun found => found = true →
      ∀ ρ, Asserted q ρ → q.arena.num ρ t = q.arena.num ρ x := by
  have hpos := hx.pos hs
  refine ((answers_ok (a := (index.extractTerms t (v - 1) 0).contains x) fun h => h).and
    (answers_anyM (P := fun high => q.arena.IsBv high (w - v) ∧ ∀ ρ, q.arena.num ρ high = 0)
      fun high hhigh => ?_)).mono fun _ h hfound ρ hρ => ?_
  · have hhighBv := (hi.of_extractTerms hhigh |>.bit hs).1
    rw [show w - 1 - v + 1 = w - v by omega] at hhighBv
    exact (isZeroBvConst_answers hs hhighBv).unwrapOr.mono fun _ h hfound => ⟨hhighBv, h hfound⟩
  · obtain ⟨hlow, high, hhigh, hhighBv, hzero⟩ := h hfound
    rw [List.contains_iff_mem] at hlow
    obtain ⟨-, -, -, hlowBits⟩ := (hi.of_extractTerms hlow).bit hs
    obtain ⟨-, -, -, hhighBits⟩ := (hi.of_extractTerms hhigh).bit hs
    refine Nat.eq_of_testBit_eq fun i => ?_
    rw [Arena.testBit_num, Arena.testBit_num]
    by_cases hlow' : i < v
    · rw [hlowBits ρ hρ i (by omega), Nat.zero_add]
    · rw [hx.bit_of_ge hs (Nat.le_of_not_lt hlow')]
      by_cases hhigh' : i < w
      · have hbit := hhighBits ρ hρ (i - v) (by omega)
        rw [Nat.add_sub_cancel' (Nat.le_of_not_lt hlow')] at hbit
        rw [← hbit, ← Arena.testBit_num, hzero ρ, Nat.zero_testBit]
      · exact ht.bit_of_ge hs (Nat.le_of_not_lt hhigh')

theorem termZeroExtendsInput_answers (hs : q.arena.Inv) (hi : index.Sound q)
    (ht : q.arena.IsBv t w) (hx : q.arena.IsBv x v) :
    Answers (termZeroExtendsInput q.arena index t x) fun found => found = true →
      ∀ ρ, Asserted q ρ → q.arena.num ρ t = q.arena.num ρ x := by
  have hequal : ∀ {y : TermId}, EqualBv q t y → ∀ ρ, Asserted q ρ →
      q.arena.num ρ t = q.arena.num ρ y := by
    intro y heq ρ hρ
    obtain ⟨hy, hval⟩ := heq.of_width ht
    rw [ht.num_eq hs, hy.num_eq hs, hval ρ hρ]
  rw [termZeroExtendsInput, Arena.expectBv_of_sort ht, Arena.expectBv_of_sort hx, ok_bind, ok_bind]
  split
  · exact (sameOrEqualIndex_answers hi ht hx).mono fun _ h hfound => hequal (h hfound)
  · split
    · exact answers_ok fun h => nomatch h
    · refine (answers_anyM (P := fun _ => ∀ ρ, Asserted q ρ →
        q.arena.num ρ t = q.arena.num ρ x) fun other hother => ?_).mono
          fun _ h hfound => (h hfound).elim fun _ h => h.2
      obtain ⟨hother, hwidth⟩ := List.mem_filter.mp hother
      refine (isExtensionOf_answers hs hi (isOfWidth_eq.mp hwidth) hx (by omega)).mono
        fun _ h hfound ρ hρ => ?_
      rw [hequal (hi.of_candidateTerms ht hother) ρ hρ, h hfound ρ hρ]

/-- **The bits that the chain starts from decide for the words it ends at**, if its steps leave
nothing out. -/
theorem unsignedChain_answers (hs : q.arena.Inv) (hi : index.Sound q) (hl : Leaves q leaves)
    (heq : ∀ p ∈ equalities, EqualBv q p.1 p.2) {original : BvPair}
    (ha : q.arena.IsBv original.1 w) (hb : q.arena.IsBv original.2 w) (rounds : Nat) :
    ∀ {current : BvPair} {u v : Nat}, q.arena.IsBv current.1 u → q.arena.IsBv current.2 v →
      Answers (unsignedChain q.arena leaves equalities index original rounds current) fun found =>
        found = true → ChainHalvesWhole q.arena leaves equalities index current →
          ∀ ρ, Asserted q ρ → (q.arena.num ρ current.1 < q.arena.num ρ current.2 ↔
            q.arena.num ρ original.1 < q.arena.num ρ original.2) := by
  induction rounds with
  | zero => exact fun _ _ => answers_ok fun h => nomatch h
  | succ rounds ih =>
    intro current u v hcl hcr
    rw [unsignedChain]
    refine ((termZeroExtendsInput_answers hs hi hcl ha).and
      (termZeroExtendsInput_answers hs hi hcr hb)).bind fun initial hinitial => ?_
    cases initial with
    | true =>
      refine answers_ok fun _ _ ρ hρ => ?_
      rw [(hinitial rfl).1 ρ hρ, (hinitial rfl).2 ρ hρ]
    | false =>
      rw [if_neg Bool.false_ne_true]
      refine (previousPair_answers hs hi hl heq hcl hcr).with_eq.bind fun o ho => ?_
      cases o with
      | none => exact answers_ok fun h => nomatch h
      | some previous =>
        obtain ⟨hstep, ho⟩ := ho
        have hprev := ho previous rfl
        obtain ⟨v₁, hl₁, -⟩ := hprev.previousLeft
        obtain ⟨v₂, hr₁, -⟩ := hprev.previousRight
        refine (ih hl₁ hr₁).mono fun _ h hfound hwhole ρ hρ => ?_
        obtain ⟨hleft, hright⟩ := hwhole current previous .refl hstep u hcl
        rw [hprev.lt_iff hs hleft hright hρ]
        refine h hfound (fun x y hx hy => ?_) ρ hρ
        exact hwhole x y (.head hstep hx) hy

/-! ## Where the chain starts -/

/-- A pair of bits. -/
def BitPair (q : Query) (pair : BvPair) : Prop := q.arena.IsBv pair.1 1 ∧ q.arena.IsBv pair.2 1

theorem BitPair.lt_iff (hs : q.arena.Inv) {pair : BvPair} (h : BitPair q pair) :
    q.arena.num ρ pair.1 < q.arena.num ρ pair.2 ↔
      (!q.arena.bit ρ pair.1 0 && q.arena.bit ρ pair.2 0) = true := by
  rw [h.1.num_eq hs, h.2.num_eq hs, ← h.1.getLsbD hs, ← h.2.getLsbD hs]
  generalize q.arena.bv ρ pair.1 1 = x
  generalize q.arena.bv ρ pair.2 1 = y
  revert x y
  decide

theorem notAndBit_answers (hs : q.arena.Inv) (ha : q.arena.IsBv a w) (hb : q.arena.IsBv b w) :
    Answers (notAndBit q.arena a b) fun o => ∀ pair, o = some pair → BitPair q pair ∧ w = 1 ∧
      ∀ ρ, (q.arena.bit ρ a 0 && q.arena.bit ρ b 0) = true ↔
        q.arena.num ρ pair.1 < q.arena.num ρ pair.2 := by
  refine (bvNotChild_answers ha).bind fun o ho => ?_
  cases o with
  | none => exact answers_none
  | some child =>
    have hk := ho child rfl
    have hchild := hs.unary_sort hk ha id
    refine (sort_answers hchild).bind fun _ hσ => (sort_answers hb).bind fun _ hτ => ?_
    subst hσ hτ
    split
    · rename_i hone
      obtain rfl : w = 1 := by simpa using hone.1
      refine answers_some ⟨⟨hchild, hb⟩, rfl, fun ρ => ?_⟩
      rw [BitPair.lt_iff hs (show BitPair q (child, b) from ⟨hchild, hb⟩),
        Arena.bit_bvNot hs hk ha Nat.one_pos]
    · exact answers_none

theorem logSlicingUnsignedLtBit_answers (hs : q.arena.Inv) (ht : q.arena.IsBv t w) :
    Answers (logSlicingUnsignedLtBit q.arena t) fun o => ∀ pair, o = some pair → BitPair q pair ∧
      w = 1 ∧ ∀ ρ, q.arena.bit ρ t 0 = true ↔
        q.arena.num ρ pair.1 < q.arena.num ρ pair.2 := by
  refine (kind_answers ht).bind fun k hk => ?_
  cases k with
  | bvAnd a b =>
    obtain ⟨ha, hb⟩ := hs.binary_sort hk ht id
    refine (notAndBit_answers hs ha hb).bind fun o ho => ?_
    cases o with
    | some pair =>
      refine answers_some ?_
      obtain ⟨hpair, hw, hbit⟩ := ho pair rfl
      exact ⟨hpair, hw, fun ρ => by rw [Arena.bit_bvAnd hs hk, hbit ρ]⟩
    | none =>
      refine (notAndBit_answers hs hb ha).mono fun o ho pair hp => ?_
      obtain ⟨hpair, hw, hbit⟩ := ho pair hp
      exact ⟨hpair, hw, fun ρ => by rw [Arena.bit_bvAnd hs hk, Bool.and_comm, hbit ρ]⟩
  | _ => exact answers_none

/-- A Bool that says of a pair of bits that the first is less. -/
def SaysLt (q : Query) (t : TermId) (pair : BvPair) : Prop :=
  BitPair q pair ∧ ∀ ρ, q.arena.IsTrue ρ t ↔ q.arena.num ρ pair.1 < q.arena.num ρ pair.2

theorem logSlicingUnsignedLtExpr_answers (hs : q.arena.Inv) (ht : q.arena.sortAt t = some .bool) :
    Answers (logSlicingUnsignedLtExpr q.arena t) fun o => ∀ pair, o = some pair →
      SaysLt q t pair := by
  refine (bvEqPair_answers ht).bind fun o ho => ?_
  rcases o with - | ⟨a, b⟩
  · exact answers_none
  · have hk := ho _ rfl
    obtain ⟨w, ha, hb⟩ := hs.bvEq_sort hk
    have hside : ∀ x y, q.arena.IsBv x w → q.arena.IsBv y w →
        (∀ ρ, q.arena.IsTrue ρ t ↔ q.arena.value ρ x = q.arena.value ρ y) →
        isOneBvConst q.arena y = ok true →
        Answers (logSlicingUnsignedLtBit q.arena x) fun o => ∀ pair, o = some pair →
          SaysLt q t pair := by
      intro x y hx hy htrue hone
      refine (logSlicingUnsignedLtBit_answers hs hx).mono fun o ho pair hp => ?_
      obtain ⟨hpair, rfl, hbit⟩ := ho pair hp
      refine ⟨hpair, fun ρ => ?_⟩
      rw [htrue, Arena.value_eq_iff_bv hs hx hy, isOneBvConst_true hs hy hone, ← hbit ρ,
        ← hx.getLsbD hs]
      generalize q.arena.bv ρ x 1 = word
      revert word
      decide
    refine (isOneBvConst_answers hs hb).with_eq.bind fun found hfound => ?_
    cases found with
    | true => exact hside a b ha hb (fun ρ => Arena.isTrue_bvEq hs hk) hfound.1
    | false =>
      rw [if_neg Bool.false_ne_true]
      refine (isOneBvConst_answers hs ha).with_eq.bind fun found hfound => ?_
      cases found with
      | true => exact hside b a hb ha (fun ρ => (Arena.isTrue_bvEq hs hk).trans eq_comm) hfound.1
      | false => exact answers_none

/-! ## Signed comparisons -/

theorem matchesBvEqExtractConst_answers (hs : q.arena.Inv) (ht : q.arena.sortAt t = some .bool)
    {bit : Nat} : Answers (matchesBvEqExtractConst q.arena t c bit bit 1) fun found =>
      found = true → ∀ ρ, q.arena.IsTrue ρ t ↔ q.arena.bit ρ c bit = true := by
  refine (bvEqPair_answers ht).bind fun o ho => ?_
  rcases o with - | ⟨a, b⟩
  · exact answers_ok fun h => nomatch h
  · have hk := ho _ rfl
    obtain ⟨w, ha, hb⟩ := hs.bvEq_sort hk
    have key : ∀ {x y : TermId},
        (∀ ρ, q.arena.IsTrue ρ t ↔ q.arena.value ρ x = q.arena.value ρ y) →
        q.arena.kindAt x = some (.bvExtract c bit bit) ∧ (q.arena.IsBv y (bit - bit + 1) ∧
          ∀ ρ, q.arena.bv ρ y (bit - bit + 1) = BitVec.ofNat (bit - bit + 1) (1 : UInt64).toNat) →
        ∀ ρ, q.arena.IsTrue ρ t ↔ q.arena.bit ρ c bit = true := by
      intro x y htrue hxy ρ
      obtain ⟨hkx, hy, hone⟩ := hxy
      obtain ⟨-, hx, -⟩ := hs.bvExtract_sort hkx
      have hbit := Arena.bit_bvExtract (ρ := ρ) (i := 0) hs hkx (Nat.zero_le _)
      rw [Nat.sub_self] at hx hy hone
      rw [Nat.add_zero] at hbit
      rw [htrue, Arena.value_eq_iff_bv hs hx hy, hone, ← hbit, ← hx.getLsbD hs]
      generalize q.arena.bv ρ x (0 + 1) = word
      revert word
      decide
    refine Answers.or (((matchesExtract_answers ha).and (isBvConstU64_answers hs hb)).mono ?_)
      (((matchesExtract_answers hb).and (isBvConstU64_answers hs ha)).mono ?_)
    · exact fun _ h hfound => key (fun ρ => Arena.isTrue_bvEq hs hk) (h hfound)
    · exact fun _ h hfound => key (fun ρ => (Arena.isTrue_bvEq hs hk).trans eq_comm) (h hfound)

section Signed

variable (hs : q.arena.Inv) {a b : TermId} {i j : Nat}
include hs

/-- Every part says one of two things or nothing of use. So if after `done.length` parts that many
things have been said, the parts say just these. -/
def SignDiff (q : Query) (a b : TermId) (i j : Nat) (done : List TermId) (negative nonnegative : Bool) :
    Prop :=
  negative.toNat + nonnegative.toNat ≤ done.length ∧
    (negative.toNat + nonnegative.toNat = done.length → ∀ ρ,
      (∀ part ∈ done, q.arena.IsTrue ρ part) ↔
        (negative = true → q.arena.bit ρ a i = true) ∧
          (nonnegative = true → ¬q.arena.bit ρ b j = true))

theorem signDiffParts_answers {rest : List TermId} : ∀ {done : List TermId} {negative nonnegative : Bool},
    (∀ part ∈ rest, q.arena.sortAt part = some .bool) →
    SignDiff q a b i j done negative nonnegative →
      Answers (signDiffParts q.arena a b i j rest negative nonnegative) fun found =>
        found = true → SignDiff q a b i j (done ++ rest) true true := by
  induction rest with
  | nil =>
    intro done negative nonnegative _ h
    refine answers_ok fun hfound => ?_
    obtain ⟨rfl, rfl⟩ := Bool.and_eq_true_iff.mp hfound
    rwa [List.append_nil]
  | cons part rest ih =>
    intro done negative nonnegative hsorts h
    rw [List.forall_mem_cons] at hsorts
    have hnext : ∀ negative' nonnegative',
        SignDiff q a b i j (done ++ [part]) negative' nonnegative' →
        Answers (signDiffParts q.arena a b i j rest negative' nonnegative') fun found =>
          found = true → SignDiff q a b i j (done ++ part :: rest) true true := by
      intro negative' nonnegative' h'
      have := ih hsorts.2 h'
      rwa [List.append_assoc, List.singleton_append] at this
    -- a part that adds nothing leaves the count behind for good
    have hskip : SignDiff q a b i j (done ++ [part]) negative nonnegative := by
      obtain ⟨hle, -⟩ := h
      rw [SignDiff, List.length_append, List.length_singleton]
      exact ⟨by omega, fun heq => absurd heq (by omega)⟩
    rw [signDiffParts]
    refine (matchesBvEqExtractConst_answers hs hsorts.1).bind fun found hfound => ?_
    cases found with
    | true =>
      refine hnext true nonnegative ?_
      cases negative with
      | true => exact hskip
      | false =>
        obtain ⟨hle, hiff⟩ := h
        simp only [SignDiff, List.length_append, List.length_singleton, Bool.toNat_true,
          Bool.toNat_false, List.forall_mem_append, List.forall_mem_singleton] at hle hiff ⊢
        refine ⟨by omega, fun heq ρ => ?_⟩
        rw [hiff (by omega) ρ, hfound rfl ρ]
        simp [and_comm]
    | false =>
      rw [if_neg Bool.false_ne_true]
      refine (kind_answers hsorts.1).bind fun k hk => ?_
      cases k with
      | boolNot child =>
        have hchild := (hs.sort_kind hk hsorts.1).2
        refine (matchesBvEqExtractConst_answers hs hchild).bind fun found hfound => ?_
        refine hnext negative (found || nonnegative) ?_
        cases found with
        | false => exact hskip
        | true =>
          cases nonnegative with
          | true => exact hskip
          | false =>
            obtain ⟨hle, hiff⟩ := h
            simp only [SignDiff, List.length_append, List.length_singleton, Bool.toNat_true,
              Bool.toNat_false, List.forall_mem_append, List.forall_mem_singleton, Bool.or_false]
              at hle hiff ⊢
            refine ⟨by omega, fun heq ρ => ?_⟩
            rw [hiff (by omega) ρ, Arena.isTrue_boolNot hs hk, hfound rfl ρ]
            simp
      | _ => exact hnext negative nonnegative hskip

omit hs in
theorem signExtractBounds_eq (ha : q.arena.IsBv a w) (hb : q.arena.IsBv b w) :
    signExtractBounds q.arena a b = ok (w - 1, w - 1) := by
  have hwidth : ∀ e : Error, (ensure (w = w) e : Result Unit) = ok () :=
    fun _ => ensure_eq_ok.mpr rfl
  rw [signExtractBounds, Arena.expectBv_of_sort ha, Arena.expectBv_of_sort hb, ok_bind, ok_bind,
    hwidth]
  rfl

/-- The left word is negative and the right one is not. -/
theorem signedSignDiffPart_answers (ht : q.arena.sortAt t = some .bool) (ha : q.arena.IsBv a w)
    (hb : q.arena.IsBv b w) :
    Answers (signedSignDiffPart q.arena t a b) fun found => found = true → ∀ ρ,
      q.arena.IsTrue ρ t ↔ q.arena.bit ρ a (w - 1) = true ∧ ¬q.arena.bit ρ b (w - 1) = true := by
  rw [signedSignDiffPart, signExtractBounds_eq ha hb, ok_bind]
  refine (collectBoolAndConjuncts_answers hs ht).bind fun parts hparts => ?_
  split
  · exact answers_ok fun h => nomatch h
  · rename_i hlen
    have hstart : SignDiff q a b (w - 1) (w - 1) [] false false := ⟨Nat.le_refl _, by simp⟩
    refine (signDiffParts_answers hs hparts.1 hstart).mono fun _ h hfound ρ => ?_
    obtain ⟨-, hiff⟩ := h hfound
    rw [List.nil_append] at hiff
    rw [hparts.2 ρ, hiff (not_not.mp hlen).symm ρ]
    simp

/-- As `SignDiff`, for the parts that say that the signs are the same and that a pair of bits
decides. -/
def SameSign (q : Query) (a b : TermId) (i : Nat) (done : List TermId) (saw : Bool)
    (selected : Option BvPair) : Prop :=
  (∀ pair, selected = some pair → BitPair q pair) ∧
  saw.toNat + selected.isSome.toNat ≤ done.length ∧
    (saw.toNat + selected.isSome.toNat = done.length → ∀ ρ,
      (∀ part ∈ done, q.arena.IsTrue ρ part) ↔
        (saw = true → q.arena.bit ρ a i = q.arena.bit ρ b i) ∧
          ∀ pair, selected = some pair → q.arena.num ρ pair.1 < q.arena.num ρ pair.2)

theorem sameSignParts_answers {rest : List TermId} : ∀ {done : List TermId} {saw : Bool}
    {selected : Option BvPair}, (∀ part ∈ rest, q.arena.sortAt part = some .bool) →
    SameSign q a b i done saw selected →
      Answers (sameSignParts q.arena a b i i rest saw selected) fun o => ∀ pair, o = some pair →
        SameSign q a b i (done ++ rest) true (some pair) := by
  induction rest with
  | nil =>
    intro done saw selected _ h
    refine answers_ok fun pair hp => ?_
    rw [List.append_nil]
    cases saw with
    | true =>
      rw [if_pos rfl] at hp
      rwa [← hp]
    | false => cases hp
  | cons part rest ih =>
    intro done saw selected hsorts h
    obtain ⟨hbits, hle, hiff⟩ := h
    rw [List.forall_mem_cons] at hsorts
    have hnext : ∀ saw' selected', SameSign q a b i (done ++ [part]) saw' selected' →
        Answers (sameSignParts q.arena a b i i rest saw' selected') fun o => ∀ pair,
          o = some pair → SameSign q a b i (done ++ part :: rest) true (some pair) := by
      intro saw' selected' h'
      have := ih hsorts.2 h'
      rwa [List.append_assoc, List.singleton_append] at this
    rw [sameSignParts]
    refine (matchesBvEqExtracts_answers hs hsorts.1).bind fun found hfound => ?_
    cases found with
    | true =>
      refine hnext true selected ⟨hbits, ?_⟩
      have hsign := hfound rfl
      simp only [Nat.sub_self, Nat.le_zero, forall_eq, Nat.add_zero] at hsign
      rw [List.length_append, List.length_singleton]
      cases saw with
      | true => exact ⟨by omega, fun heq => absurd heq (by omega)⟩
      | false =>
        simp only [Bool.toNat_true, Bool.toNat_false, List.forall_mem_append,
          List.forall_mem_singleton] at hle hiff ⊢
        refine ⟨by omega, fun heq ρ => ?_⟩
        rw [hiff (by omega) ρ, hsign ρ]
        simp [and_comm]
    | false =>
      rw [if_neg Bool.false_ne_true]
      refine (logSlicingUnsignedLtExpr_answers hs hsorts.1).bind fun o ho => ?_
      refine hnext saw o ⟨fun pair hp => (ho pair hp).1, ?_⟩
      rw [List.length_append, List.length_singleton]
      cases o with
      | none =>
        rw [Option.isSome_none, Bool.toNat_false]
        exact ⟨by omega, fun heq => absurd heq (by have := selected.isSome.toNat; omega)⟩
      | some pair =>
        rw [Option.isSome_some, Bool.toNat_true]
        refine ⟨by omega, fun heq ρ => ?_⟩
        -- nothing was selected before, or the count would be behind
        obtain rfl : selected = none := by
          cases selected with
          | none => rfl
          | some _ =>
            rw [Option.isSome_some, Bool.toNat_true] at hle
            omega
        simp only [List.forall_mem_append, List.forall_mem_singleton]
        rw [hiff (by simpa using heq) ρ, (ho pair rfl).2 ρ]
        simp

/-- The signs are the same, and a pair of bits decides. -/
theorem signedSameSignUnsignedPart_answers (ht : q.arena.sortAt t = some .bool)
    (ha : q.arena.IsBv a w) (hb : q.arena.IsBv b w) :
    Answers (signedSameSignUnsignedPart q.arena t a b) fun o => ∀ pair, o = some pair →
      BitPair q pair ∧ ∀ ρ, q.arena.IsTrue ρ t ↔
        q.arena.bit ρ a (w - 1) = q.arena.bit ρ b (w - 1) ∧
          q.arena.num ρ pair.1 < q.arena.num ρ pair.2 := by
  rw [signedSameSignUnsignedPart, signExtractBounds_eq ha hb, ok_bind]
  refine (collectBoolAndConjuncts_answers hs ht).bind fun parts hparts => ?_
  split
  · exact answers_none
  · rename_i hlen
    have hstart : SameSign q a b (w - 1) [] false none := ⟨by simp, Nat.le_refl _, by simp⟩
    refine (sameSignParts_answers hs hparts.1 hstart).mono fun _ h pair hp => ?_
    obtain ⟨hbits, -, hiff⟩ := h pair hp
    rw [List.nil_append] at hiff
    refine ⟨hbits pair rfl, fun ρ => ?_⟩
    rw [hparts.2 ρ, hiff (not_not.mp hlen).symm ρ]
    simp

/-- `a` is less than `b` as a signed word if a pair of bits decides for them as unsigned ones. -/
theorem logSlicingSignedLtExpr_answers (ht : q.arena.sortAt t = some .bool)
    (ha : q.arena.IsBv a w) (hb : q.arena.IsBv b w) :
    Answers (logSlicingSignedLtExpr q.arena t a b) fun o => ∀ pair, o = some pair →
      BitPair q pair ∧ ∀ ρ, q.arena.IsTrue ρ t ↔
        (q.arena.bit ρ a (w - 1) = true ∧ ¬q.arena.bit ρ b (w - 1) = true) ∨
          (q.arena.bit ρ a (w - 1) = q.arena.bit ρ b (w - 1) ∧
            q.arena.num ρ pair.1 < q.arena.num ρ pair.2) := by
  refine (kind_answers ht).bind fun k hk => ?_
  cases k with
  | boolOr x y =>
    obtain ⟨-, hx, hy⟩ := hs.sort_kind hk ht
    have hside : ∀ x y, q.arena.sortAt x = some .bool → q.arena.sortAt y = some .bool →
        Answers (signedLtPartsMatch q.arena x y a b) fun found => found = true → ∀ ρ,
          q.arena.IsTrue ρ x ↔
            q.arena.bit ρ a (w - 1) = true ∧ ¬q.arena.bit ρ b (w - 1) = true := by
      intro x y hx hy
      refine (signedSignDiffPart_answers hs hx ha hb).bind fun found hfound => ?_
      cases found with
      | false => exact answers_ok fun h => nomatch h
      | true =>
        exact (signedSameSignUnsignedPart_answers hs hy ha hb).bind fun _ _ =>
          answers_ok fun _ => hfound rfl
    refine (hside x y hx hy).bind fun found hfound => ?_
    cases found with
    | true =>
      refine (signedSameSignUnsignedPart_answers hs hy ha hb).mono fun o ho pair hp => ?_
      obtain ⟨hbits, hiff⟩ := ho pair hp
      exact ⟨hbits, fun ρ => by rw [Arena.isTrue_boolOr hs hk, hfound rfl ρ, hiff ρ]⟩
    | false =>
      rw [if_neg Bool.false_ne_true]
      refine (hside y x hy hx).bind fun found hfound => ?_
      cases found with
      | true =>
        refine (signedSameSignUnsignedPart_answers hs hx ha hb).mono fun o ho pair hp => ?_
        obtain ⟨hbits, hiff⟩ := ho pair hp
        exact ⟨hbits, fun ρ => by rw [Arena.isTrue_boolOr hs hk, or_comm, hfound rfl ρ, hiff ρ]⟩
      | false => exact answers_none
  | _ => exact answers_none

omit hs in
theorem isTrue_bvSlt (hs : q.arena.Inv) (hk : q.arena.kindAt t = some (.bvSlt a b)) :
    ∃ w, q.arena.IsBv a w ∧ q.arena.IsBv b w ∧ ∀ ρ, q.arena.IsTrue ρ t ↔
      (q.arena.bit ρ a (w - 1) = true ∧ ¬q.arena.bit ρ b (w - 1) = true) ∨
        (q.arena.bit ρ a (w - 1) = q.arena.bit ρ b (w - 1) ∧
          q.arena.num ρ a < q.arena.num ρ b) := by
  obtain ⟨σ, -, w, -, ha, hb⟩ := hs.hasSort hk
  have ha : q.arena.IsBv a w := ha
  have hb : q.arena.IsBv b w := hb
  refine ⟨w, ha, hb, fun ρ => ?_⟩
  have hmsb : ∀ {x : TermId}, q.arena.IsBv x w →
      q.arena.bit ρ x (w - 1) = (q.arena.bv ρ x w).msb := by
    intro x hx
    rw [BitVec.msb_eq_getLsbD_last, hx.getLsbD hs]
  rw [hmsb ha, hmsb hb, ha.num_eq hs, hb.num_eq hs]
  simp only [Arena.IsTrue, hs.value_kind hk, NodeKind.sem, Smt.bvslt]
  rw [ha.value_eq hs, hb.value_eq hs, Smt.Value.rel₂_bv, Smt.Value.toBool_bool]
  generalize q.arena.bv ρ a w = x
  generalize q.arena.bv ρ b w = y
  rw [BitVec.slt_eq_ult, ← BitVec.lt_def, ← BitVec.ult_iff_lt]
  by_cases hmsb : x.msb = y.msb
  · rw [hmsb]
    simp
  · have hult := BitVec.ult_eq_msb_of_msb_neq hmsb
    cases hx : x.msb <;> cases hy : y.msb <;> simp_all

end Signed

/-! ## The pass is sound where nothing is left out -/

/-- What the comparison says of its words, if `lt` says that the left one is less as an unsigned
number. -/
def LogComparisonAssertion.Says (s : Arena) (ρ : Env) (comparison : LogComparisonAssertion)
    (w : Nat) (lt : Prop) : Prop :=
  if comparison.signed then
    (s.bit ρ comparison.left (w - 1) = true ∧ ¬s.bit ρ comparison.right (w - 1) = true) ∨
      (s.bit ρ comparison.left (w - 1) = s.bit ρ comparison.right (w - 1) ∧ lt)
  else lt

/-- The result is what the comparison says, wherever the assertions are true. -/
def LogComparisonAssertion.Holds (q : Query) (comparison : LogComparisonAssertion) : Prop :=
  ∃ w, q.arena.IsBv comparison.left w ∧ q.arena.IsBv comparison.right w ∧
    ∀ ρ, Asserted q ρ → (q.arena.IsTrue ρ comparison.result ↔ comparison.Says q.arena ρ w
      (q.arena.num ρ comparison.left < q.arena.num ρ comparison.right))

theorem comparisonParts_answers (hs : q.arena.Inv) (ht : q.arena.sortAt t = some .bool) :
    Answers (comparisonParts q.arena t) fun o => ∀ p, o = some p → ∀ result,
      ∃ w, q.arena.IsBv p.1 w ∧ q.arena.IsBv p.2.1 w ∧ ∀ ρ, q.arena.IsTrue ρ t ↔
        LogComparisonAssertion.Says q.arena ρ ⟨result, p.1, p.2.1, p.2.2⟩ w
          (q.arena.num ρ p.1 < q.arena.num ρ p.2.1) := by
  refine (kind_answers ht).bind fun k hk => ?_
  cases k with
  | bvUlt a b =>
    refine answers_some fun result => ?_
    obtain ⟨w, ha, hb⟩ := hs.bvUlt_sort hk
    exact ⟨w, ha, hb, fun ρ => Arena.isTrue_bvUlt hs hk⟩
  | bvSlt a b =>
    refine answers_some fun result => ?_
    obtain ⟨w, ha, hb, htrue⟩ := isTrue_bvSlt hs hk
    exact ⟨w, ha, hb, htrue⟩
  | _ => exact answers_none

theorem logSlicingComparisonAssertion_answers (hs : q.arena.Inv)
    (ht : q.arena.sortAt t = some .bool) (htrue : ∀ ρ, Asserted q ρ → q.arena.IsTrue ρ t) :
    Answers (logSlicingComparisonAssertion q.arena t) fun o => ∀ comparison, o = some comparison →
      comparison.Holds q := by
  refine (parts_answers ht).bind fun o ho => ?_
  rcases o with - | ⟨a, b⟩
  · exact answers_none
  · obtain ⟨k, hk, hpair⟩ := ho
    rw [NodeKind.boolEq?_eq.mp hpair] at hk
    obtain ⟨σ, -, -, ha, hb⟩ := hs.hasSort hk
    have hiff : ∀ ρ, Asserted q ρ → (q.arena.IsTrue ρ a ↔ q.arena.IsTrue ρ b) :=
      fun ρ hρ => (Arena.isTrue_boolEq hs hk).mp (htrue ρ hρ)
    refine (comparisonParts_answers hs ha).bind fun o ho => ?_
    cases o with
    | some p =>
      refine answers_some ?_
      obtain ⟨w, hl, hr, hmeans⟩ := ho p rfl b
      exact ⟨w, hl, hr, fun ρ hρ => (hiff ρ hρ).symm.trans (hmeans ρ)⟩
    | none =>
      refine (comparisonParts_answers hs hb).bind fun o ho => ?_
      cases o with
      | some p =>
        refine answers_some ?_
        obtain ⟨w, hl, hr, hmeans⟩ := ho p rfl a
        exact ⟨w, hl, hr, fun ρ hρ => (hiff ρ hρ).trans (hmeans ρ)⟩
      | none => exact answers_none

theorem logSlicingComparisonDisequality_answers (hs : q.arena.Inv)
    (ht : q.arena.sortAt t = some .bool) (htrue : ∀ ρ, Asserted q ρ → q.arena.IsTrue ρ t) :
    Answers (logSlicingComparisonDisequality q.arena t) fun o => ∀ p, o = some p →
      q.arena.sortAt p.2 = some .bool ∧
        ∀ ρ, Asserted q ρ → ¬(q.arena.IsTrue ρ p.1 ↔ q.arena.IsTrue ρ p.2) := by
  refine (kind_answers ht).bind fun k hk => ?_
  cases k with
  | boolNot child =>
    refine (parts_answers (hs.sort_kind hk ht).2).mono fun o ho p hp => ?_
    obtain ⟨k', hk', rfl⟩ := ho
    rw [NodeKind.boolEq?_eq.mp hp] at hk'
    obtain ⟨σ, -, -, -, hb⟩ := hs.hasSort hk'
    refine ⟨hb, fun ρ hρ => ?_⟩
    rw [← Arena.isTrue_boolEq hs hk']
    exact (Arena.isTrue_boolNot hs hk).mp (htrue ρ hρ)
  | _ => exact answers_none

/-- The computed Bool says the same, if the pair of bits that is selected decides. -/
theorem logSlicingSelected_answers (hs : q.arena.Inv) (ht : q.arena.sortAt t = some .bool)
    {comparison : LogComparisonAssertion} (hl : q.arena.IsBv comparison.left w)
    (hr : q.arena.IsBv comparison.right w) :
    Answers (logSlicingSelected q.arena comparison t) fun o => ∀ pair, o = some pair →
      BitPair q pair ∧ ∀ ρ, q.arena.IsTrue ρ t ↔
        comparison.Says q.arena ρ w (q.arena.num ρ pair.1 < q.arena.num ρ pair.2) := by
  unfold logSlicingSelected LogComparisonAssertion.Says
  by_cases hsigned : comparison.signed = true
  · simp only [if_pos hsigned]
    exact logSlicingSignedLtExpr_answers hs ht hl hr
  · simp only [if_neg hsigned]
    exact logSlicingUnsignedLtExpr_answers hs ht

theorem refutesComparison_answers (hs : q.arena.Inv) (hi : index.Sound q) (hl : Leaves q leaves)
    (heq : ∀ p ∈ equalities, EqualBv q p.1 p.2) (ht : q.arena.sortAt t = some .bool)
    {comparison : LogComparisonAssertion} (hc : comparison.Holds q) :
    Answers (refutesComparison q.arena leaves equalities index x t comparison) fun found =>
      found = true → comparison.result = x ∧ ∃ selected,
        logSlicingSelected q.arena comparison t = ok (some selected) ∧
          (ChainHalvesWhole q.arena leaves equalities index selected →
            ∀ ρ, Asserted q ρ → (q.arena.IsTrue ρ x ↔ q.arena.IsTrue ρ t)) := by
  rw [refutesComparison]
  split
  · exact answers_ok fun h => nomatch h
  · rename_i hresult
    obtain ⟨w, hleft, hright, hmeans⟩ := hc
    refine (logSlicingSelected_answers hs ht hleft hright).with_eq.bind fun o ho => ?_
    cases o with
    | none => exact answers_ok fun h => nomatch h
    | some selected =>
      obtain ⟨hselected, ho⟩ := ho
      obtain ⟨hpair, hdecides⟩ := ho selected rfl
      refine (unsignedChain_answers hs hi hl heq hleft hright 32 hpair.1 hpair.2).mono
        fun _ h hfound => ⟨not_not.mp hresult, selected, hselected, fun hwhole ρ hρ => ?_⟩
      rw [← not_not.mp hresult, hmeans ρ hρ, hdecides ρ, propext (h hfound hwhole ρ hρ)]

/-- In every chain that the pass goes up, the words of a step are twice as wide as the halves. -/
def ComparisonsHalveWhole (q : Query) : Prop :=
  ∀ leaves equalities disequalities index, conjuncts q = ok leaves →
    bvEqualitiesAndDisequalities q = ok (equalities, disequalities) →
    LogSlicingIndex.new q.arena equalities = ok index →
    ∀ asserted ∈ leaves, ∀ denied ∈ leaves, ∀ comparison computed selected,
      logSlicingComparisonAssertion q.arena asserted = ok (some comparison) →
      logSlicingComparisonDisequality q.arena denied = ok (some (comparison.result, computed)) →
      logSlicingSelected q.arena comparison computed = ok (some selected) →
        ChainHalvesWhole q.arena leaves equalities index selected

/-- `x < y` of width `w` spelled out in one step, by the two lowest bits of each word, and a result
that is to differ from it. -/
def lowBitsComparison (w : Nat) : Query := .asserting [
    ⟨.bvVar w "x" (some 0), .bv w⟩,
    ⟨.bvVar w "y" (some 1), .bv w⟩,
    ⟨.boolVar "r" (some 2), .bool⟩,
    ⟨.bvUlt 0 1, .bool⟩,
    ⟨.boolEq 2 3, .bool⟩,
    ⟨.bvVar 1 "same" (some 3), .bv 1⟩,
    ⟨.bvConst 1 [1], .bv 1⟩,
    ⟨.bvEq 5 6, .bool⟩,
    ⟨.bvExtract 0 1 1, .bv 1⟩,
    ⟨.bvExtract 1 1 1, .bv 1⟩,
    ⟨.bvEq 8 9, .bool⟩,
    ⟨.boolEq 7 10, .bool⟩,
    ⟨.bvNot 5, .bv 1⟩,
    ⟨.bvExtract 0 0 0, .bv 1⟩,
    ⟨.bvExtract 1 0 0, .bv 1⟩,
    ⟨.bvAnd 5 13, .bv 1⟩,
    ⟨.bvAnd 12 8, .bv 1⟩,
    ⟨.bvOr 15 16, .bv 1⟩,
    ⟨.bvVar 1 "left" (some 4), .bv 1⟩,
    ⟨.bvEq 18 17, .bool⟩,
    ⟨.bvAnd 5 14, .bv 1⟩,
    ⟨.bvAnd 12 9, .bv 1⟩,
    ⟨.bvOr 20 21, .bv 1⟩,
    ⟨.bvVar 1 "right" (some 5), .bv 1⟩,
    ⟨.bvEq 23 22, .bool⟩,
    ⟨.bvNot 18, .bv 1⟩,
    ⟨.bvAnd 25 23, .bv 1⟩,
    ⟨.bvEq 26 6, .bool⟩,
    ⟨.boolEq 2 27, .bool⟩,
    ⟨.boolNot 28, .bool⟩] [4, 11, 19, 24, 29]

end Shortcuts
end Qfbv
end SmtServer
