import SmtServer.Qfbv.Shortcuts.Comparators

/-!
# `log_slicing.rs` — shifts written out

A shift by a variable amount may be spelled out as a barrel shifter: a stage for each bit of the
amount, which shifts what the stage before it gives by a power of two or leaves it, and a mask that
is zero where the amount is not less than the width. The pass goes down from the last stage, each
time to a smaller bit, until it comes to the word that is shifted (`verifyLogSlicingShiftStage`).

A stage shifts by `1 << bit` on a machine word of 32 bits, but the bit is only compared with 63. The
amount of a stage below the last is less than the one before, so it is only at the last stage that
`bit` can be 32 or more.
-/

namespace SmtServer
namespace Qfbv

open Lib Outcome

namespace Shortcuts

inductive LogShiftKind where
  | shl
  | lShr
  | aShr
  deriving DecidableEq

structure LogShiftAssertion where
  result : TermId
  input : TermId
  amount : TermId
  width : Nat
  kind : LogShiftKind
  deriving DecidableEq

structure LogMuxDefinition where
  mask : TermId
  thenValue : TermId
  elseValue : TermId
  deriving DecidableEq

/-! ## Stages -/

/-- What `log_mux_expr_parts` makes of a mask and two words. -/
def logMux (mask thenValue elseValue : TermId) : Result (Option LogMuxDefinition) :=
  return some ⟨mask, thenValue, elseValue⟩

def logMuxExpr (s : Arena) (term : TermId) : Result (Option LogMuxDefinition) :=
  muxExpr logMux s term

def logMuxDefinitionsForTarget (s : Arena) (equalities : List BvPair) (target : TermId) :
    Result (List LogMuxDefinition) :=
  muxDefinitions logMux s equalities target

/-- The loop of `repeated_amount_bit`, over the aliases of the conditions one after another. -/
def amountBit (s : Arena) (amount : TermId) (width : Nat) :
    List TermId → (found : Option Nat) → Result (Option Nat)
  | [], found => return found
  | candidate :: rest, found => do
    match ← kind s candidate with
    | .bvExtract child high low =>
      if child = amount ∧ high = low ∧ high < width then
        if found.any (· ≠ high) then return none
        amountBit s amount width rest (some high)
      else amountBit s amount width rest found
    | _ => amountBit s amount width rest found

def repeatedAmountBit (s : Arena) (index : LogSlicingIndex) (mask amount : TermId) :
    Result (Option Nat) := do
  let .bv width ← s.sort amount | return none
  let conditions ← repeatedConditionsForMask s index mask
  amountBit s amount width (conditions.flatMap index.aliasesOf) none

/-- `1u32 << bit`. -/
def shlOneU32 (bit : Nat) : Result Nat := if bit < 32 then return 2 ^ bit else .panic

def anyZero (s : Arena) (terms : List TermId) : Result Bool :=
  terms.anyM fun term => (isZeroBvConst s term).unwrapOr false

def anyExtract (s : Arena) (terms : List TermId) (child : TermId) (high low : Nat) : Result Bool :=
  terms.anyM fun term => (matchesExtract s term child high low).unwrapOr false

def matchesLogSlicingShiftBy (s : Arena) (index : LogSlicingIndex) (shifted previous : TermId)
    (width shift : Nat) : LogShiftKind → Result Bool
  | .shl => do
    let lowZero ← anyZero s (index.extractTerms shifted (← subU shift 1) 0)
    let top ← subU (← subU width shift) 1
    let moved ← anyExtract s (index.extractTerms previous top 0) shifted (← subU width 1) shift
    return lowZero && moved
  | .lShr => do
    let top ← subU width 1
    let highZero ← anyZero s (index.extractTerms shifted top (← subU width shift))
    let moved ← anyExtract s (index.extractTerms previous top shift) shifted
      (← subU (← subU width shift) 1) 0
    return highZero && moved
  | .aShr => return false

/-- The body of the loops of `verify_log_slicing_shift_stage`: `recurse` is the call on the stage
below. -/
def verifyLogSlicingDefinition (s : Arena) (index : LogSlicingIndex) (amount : TermId) (width : Nat)
    (shiftKind : LogShiftKind) (maxBit : Nat) (recurse : TermId → Nat → Result Bool)
    (definition : LogMuxDefinition) : Result Bool := do
  let some bit ← repeatedAmountBit s index definition.mask amount | return false
  if maxBit ≤ bit ∨ 63 ≤ bit then return false
  let shift ← shlOneU32 bit
  if width ≤ shift then return false
  if ← matchesLogSlicingShiftBy s index definition.thenValue definition.elseValue width shift
      shiftKind then
    recurse definition.elseValue bit
  else return false

/-- The inner loop of `verify_log_slicing_shift_stage`. -/
def verifyLogSlicingTarget (s : Arena) (equalities : List BvPair) (index : LogSlicingIndex)
    (amount : TermId) (width : Nat) (shiftKind : LogShiftKind) (maxBit : Nat)
    (recurse : TermId → Nat → Result Bool) (target : TermId) : Result Bool := do
  (← logMuxDefinitionsForTarget s equalities target).anyM
    (verifyLogSlicingDefinition s index amount width shiftKind maxBit recurse)

/-- `max_bit` gets smaller with every call, so one round more than it is enough. -/
def verifyLogSlicingShiftStage (s : Arena) (equalities : List BvPair) (index : LogSlicingIndex)
    (input amount : TermId) (width : Nat) (shiftKind : LogShiftKind) :
    (rounds : Nat) → (stage : TermId) → (maxBit : Nat) → Result Bool
  | 0, _, _ => .panic
  | rounds + 1, stage, maxBit => do
    if ← sameOrEqualIndex s index stage input then return true
    if maxBit = 0 then return false
    (index.aliasesOf stage).anyM (verifyLogSlicingTarget s equalities index amount width shiftKind
      maxBit (verifyLogSlicingShiftStage s equalities index input amount width shiftKind rounds))

/-! ## The mask -/

/-- `find_bv_const_u64` and `find_bv_not_term`: the first node that passes. -/
def findNode (s : Arena) (p : TermId → Node → Bool) : Option TermId :=
  (s.nodes.zipIdx.find? fun (node, i) => p i node).map (·.2)

def findBvConstU64 (s : Arena) (width : Nat) (value : UInt64) : Option TermId :=
  findNode s fun i node => node.sort = .bv width ∧ isBvConstU64 s i width value = ok true

def findBvNotTerm (s : Arena) (child : TermId) (width : Nat) : Option TermId :=
  findNode s fun _ node => node.sort = .bv width ∧ node.kind = .bvNot child

def maskRepeatsUnsignedLessThanWidth (s : Arena) (leaves : List TermId) (equalities : List BvPair)
    (index : LogSlicingIndex) (mask amount : TermId) (width : Nat) : Result Bool := do
  match findBvConstU64 s width (.ofNat width) with
  | none => return false
  | some widthConst =>
    (← repeatedConditionsForMask s index mask).anyM fun cond => do
      let some selected ← logSlicingUnsignedLtBit s cond | return false
      verifyLogSlicingUnsignedChain s leaves equalities index selected (amount, widthConst)

def maskRepeatsExtract (s : Arena) (index : LogSlicingIndex) (mask child : TermId)
    (high low : Nat) : Result Bool := do
  (← repeatedConditionsForMask s index mask).anyM fun cond =>
    (index.aliasesOf cond).anyM fun term =>
      (matchesExtract s term child high low).unwrapOr false

def zeroFallbackSelectCandidates (s : Arena) (term : TermId) : Result (List BvPair) := do
  match ← kind s term with
  | .bvAnd a b => return [(a, b), (b, a)]
  | _ =>
    match ← logMuxExpr s term with
    | none => return []
    | some definition =>
      if ← isZeroBvConst s definition.elseValue then return [(definition.mask, definition.thenValue)]
      else return []

def bvVarNameHasPrefix (s : Arena) (term : TermId) (start : String) : Bool :=
  match kind s term with
  | .ok (.bvVar _ name _) => start.toList.isPrefixOf name.toList
  | _ => false

/-- The candidates in the order in which they are tried. -/
def orderedCandidates (s : Arena) (equalities : List BvPair) (candidates : List BvPair) :
    Result (List BvPair) := do
  let named := candidates.filter fun p => bvVarNameHasPrefix s p.1 "ite_cond_"
  let candidates := if named ≠ [] then named else candidates
  match candidates with
  | [first, second] =>
    let firstHasMux := (← logMuxDefinitionsForTarget s equalities first.1) ≠ []
    let secondHasMux := (← logMuxDefinitionsForTarget s equalities second.1) ≠ []
    return if firstHasMux ∧ ¬secondHasMux then [second, first] else candidates
  | _ => return candidates

/-- The body of the loop over the candidates. -/
def verifyCandidate (s : Arena) (leaves : List TermId) (equalities : List BvPair)
    (index : LogSlicingIndex) (input amount : TermId) (width : Nat) (shiftKind : LogShiftKind)
    (candidate : BvPair) : Result Bool := do
  if ← maskRepeatsUnsignedLessThanWidth s leaves equalities index candidate.1 amount width then
    verifyLogSlicingShiftStage s equalities index input amount width shiftKind 65 candidate.2 64
  else return false

def zeroFallbackCandidates (s : Arena) (equalities : List BvPair) (expr : TermId) :
    Result (List BvPair) := do
  orderedCandidates s equalities (← zeroFallbackSelectCandidates s expr)

def verifyLogSlicingZeroFallbackShiftExpr (s : Arena) (leaves : List TermId)
    (equalities : List BvPair) (index : LogSlicingIndex) (expr input amount : TermId) (width : Nat)
    (shiftKind : LogShiftKind) : Result Bool := do
  (← zeroFallbackCandidates s equalities expr).anyM
    (verifyCandidate s leaves equalities index input amount width shiftKind)

/-- What `verify_log_slicing_ashr_expr` finds before it goes on: a word that is chosen where the
input is negative and whose complement is to be a shift of the complement of the input, that
complement, and the word for an input that is not negative. -/
def ashrParts (s : Arena) (index : LogSlicingIndex) (shift : LogShiftAssertion) (expr : TermId) :
    Result (Option (TermId × TermId × TermId)) := do
  match ← logMuxExpr s expr with
  | none => return none
  | some definition =>
    if ← maskRepeatsExtract s index definition.mask shift.input (shift.width - 1)
        (shift.width - 1) then
      let some negativeInner ← bvNotChild s definition.thenValue | return none
      return (findBvNotTerm s shift.input shift.width).map
        fun notInput => (negativeInner, notInput, definition.elseValue)
    else return none

def verifyLogSlicingAshrExpr (s : Arena) (leaves : List TermId) (equalities : List BvPair)
    (index : LogSlicingIndex) (shift : LogShiftAssertion) (expr : TermId) : Result Bool := do
  match ← ashrParts s index shift expr with
  | none => return false
  | some (negativeInner, notInput, elseValue) =>
    verifyLogSlicingZeroFallbackShiftExpr s leaves equalities index negativeInner notInput
        shift.amount shift.width .lShr <&&>
      verifyLogSlicingZeroFallbackShiftExpr s leaves equalities index elseValue shift.input
        shift.amount shift.width .lShr

def verifyLogSlicingShiftExpr (s : Arena) (leaves : List TermId) (equalities : List BvPair)
    (index : LogSlicingIndex) (shift : LogShiftAssertion) (expr : TermId) : Result Bool :=
  if shift.kind = .aShr then verifyLogSlicingAshrExpr s leaves equalities index shift expr
  else verifyLogSlicingZeroFallbackShiftExpr s leaves equalities index expr shift.input shift.amount
    shift.width shift.kind

/-! ## The pass -/

/-- The kinds of `log_shift_assertion`. -/
def shiftParts : NodeKind → Option (TermId × TermId × LogShiftKind)
  | .bvShl input amount => some (input, amount, .shl)
  | .bvLShr input amount => some (input, amount, .lShr)
  | .bvAShr input amount => some (input, amount, .aShr)
  | _ => none

def logShiftAssertion (s : Arena) (result term : TermId) : Result (Option LogShiftAssertion) := do
  let width ← s.expectBv result "log slicing shift result"
  match shiftParts (← kind s term) with
  | none => return none
  | some (input, amount, shiftKind) =>
    if (← s.sort input) = .bv width then return some ⟨result, input, amount, width, shiftKind⟩
    return none

/-- The loop over the equalities that fills `shifts`. -/
def logShiftAssertions (s : Arena) (equalities : List BvPair) : Result (List LogShiftAssertion) := do
  let shifts ← equalities.mapM fun (a, b) => do
    let forward ← logShiftAssertion s a b
    let backward ← logShiftAssertion s b a
    return [forward, backward].reduceOption
  return shifts.flatten

/-- The term that is asserted to differ from the result of the shift. -/
def differingExpr (shift : LogShiftAssertion) (a b : TermId) : Option TermId :=
  if a = shift.result then some b else if b = shift.result then some a else none

/-- The body of the loops over the disequalities and the shifts. -/
def refutesShift (s : Arena) (leaves : List TermId) (equalities : List BvPair)
    (index : LogSlicingIndex) (p : BvPair) (shift : LogShiftAssertion) : Result Bool :=
  match differingExpr shift p.1 p.2 with
  | some expr => verifyLogSlicingShiftExpr s leaves equalities index shift expr
  | none => return false

def hasLogSlicingShiftContradiction (q : Query) : Result Bool := do
  if q.assumptions ≠ [] ∨ 40000 < q.arena.nodes.length then return false
  let leaves ← conjuncts q
  let (equalities, disequalities) ← bvEqualitiesAndDisequalities q
  let shifts ← logShiftAssertions q.arena equalities
  if shifts = [] then return false
  let index ← LogSlicingIndex.new q.arena equalities
  disequalities.anyM fun p => shifts.anyM (refutesShift q.arena leaves equalities index p)

/-! ## What a stage is -/

variable {q : Query} {index : LogSlicingIndex} {equalities : List BvPair} {leaves : List TermId}
  {ρ : Env} {t a b c x mask input amount stage : TermId} {w v bit shift maxBit : Nat} {σ : TermSort}
  {shiftKind : LogShiftKind} {definition : LogMuxDefinition}

/-- Every bit of the mask is one bit of the amount. -/
def RepeatsBit (q : Query) (mask amount : TermId) (bit w : Nat) : Prop :=
  ∀ ρ, Asserted q ρ → ∀ i < w, q.arena.bit ρ mask i = q.arena.bit ρ amount bit

theorem amountBit_answers {candidates : List TermId}
    (hsorts : ∀ x ∈ candidates, ∃ v, q.arena.IsBv x v) {P : Nat → Prop}
    (hP : ∀ x ∈ candidates, ∀ bit, bit < w →
      q.arena.kindAt x = some (.bvExtract amount bit bit) → P bit) :
    ∀ {found : Option Nat}, (∀ bit, found = some bit → P bit) →
      Answers (amountBit q.arena amount w candidates found) fun o => ∀ bit, o = some bit → P bit := by
  induction candidates with
  | nil => exact fun hfound => answers_ok hfound
  | cons x rest ih =>
    intro found hfound
    rw [List.forall_mem_cons] at hsorts hP
    obtain ⟨v, hx⟩ := hsorts.1
    rw [amountBit]
    refine (kind_answers hx).bind fun k hk => ?_
    cases k with
    | bvExtract child high low =>
      dsimp only
      split
      · rename_i hmatch
        obtain ⟨rfl, rfl, hlt⟩ := hmatch
        split
        · exact answers_none
        · refine ih hsorts.2 hP.2 fun bit hbit => ?_
          rw [← Option.some.inj hbit]
          exact hP.1 high hlt hk
      · exact ih hsorts.2 hP.2 hfound
    | _ => exact ih hsorts.2 hP.2 hfound

section Stage

variable (hs : q.arena.Inv) (hi : index.Sound q)
include hs hi

theorem repeatedAmountBit_answers (hmask : q.arena.IsBv mask w) (hamount : q.arena.IsBv amount v) :
    Answers (repeatedAmountBit q.arena index mask amount) fun o => ∀ bit, o = some bit →
      bit < v ∧ RepeatsBit q mask amount bit w := by
  refine (sort_answers hamount).bind fun σ hσ => ?_
  subst hσ
  refine (repeatedConditionsForMask_answers hs hi hmask).bind fun conditions hconditions => ?_
  have hcandidate : ∀ x ∈ conditions.flatMap index.aliasesOf, ∃ c ∈ conditions, EqualBv q c x := by
    intro x hx
    obtain ⟨c, hc, hx⟩ := List.mem_flatMap.mp hx
    exact ⟨c, hc, hi.of_aliasesOf (hconditions c hc).1 hx⟩
  refine amountBit_answers (fun x hx => ?_) (fun x hx bit hlt hk => ⟨hlt, fun ρ hρ i hi => ?_⟩)
    (by simp)
  · obtain ⟨c, -, v, -, hv, -⟩ := hcandidate x hx
    exact ⟨v, hv⟩
  · obtain ⟨c, hc, heq⟩ := hcandidate x hx
    obtain ⟨-, w', hmask', hbits⟩ := hconditions c hc
    obtain rfl := hmask.inj hmask'
    rw [hbits ρ hρ i hi, heq.bit hs hρ, Arena.bit_bvExtract hs hk (Nat.zero_le _), Nat.add_zero]

omit hs hi in
theorem logMuxDefinitions_answers (hs : q.arena.Inv) (heq : ∀ p ∈ equalities, EqualBv q p.1 p.2)
    (ht : q.arena.IsBv t w) :
    Answers (logMuxDefinitionsForTarget q.arena equalities t) fun definitions =>
      ∀ d ∈ definitions, IsMux q t d.mask d.thenValue d.elseValue w := by
  refine (muxDefinitions_answers (P := fun d mask thenValue elseValue =>
    d = ⟨mask, thenValue, elseValue⟩) hs heq ht fun _ _ _ _ => answers_some rfl).mono ?_
  rintro definitions h d hd
  obtain ⟨mask, thenValue, elseValue, hmux, rfl⟩ := h d hd
  exact hmux

/-- The word, shifted by so many bits. -/
def shiftBy {w : Nat} (y : BitVec w) (n : Nat) : LogShiftKind → BitVec w
  | .shl => y <<< n
  | .lShr => y >>> n
  | .aShr => y.sshiftRight n

omit hi in
theorem anyZero_answers {terms : List TermId} (hterms : ∀ x ∈ terms, ∃ v, q.arena.IsBv x v) :
    Answers (anyZero q.arena terms) fun found => found = true →
      ∃ x ∈ terms, ∀ ρ, q.arena.num ρ x = 0 := by
  refine answers_anyM fun x hx => ?_
  obtain ⟨v, hv⟩ := hterms x hx
  exact (isZeroBvConst_answers hs hv).unwrapOr

omit hs hi in
theorem anyExtract_answers {terms : List TermId} {high low : Nat}
    (hterms : ∀ x ∈ terms, ∃ v, q.arena.IsBv x v) :
    Answers (anyExtract q.arena terms c high low) fun found => found = true →
      ∃ x ∈ terms, q.arena.kindAt x = some (.bvExtract c high low) := by
  refine answers_anyM fun x hx => ?_
  obtain ⟨v, hv⟩ := hterms x hx
  exact (matchesExtract_answers hv).unwrapOr

theorem isBv_of_extractTerms {high low : Nat} :
    ∀ x ∈ index.extractTerms c high low, ∃ v, q.arena.IsBv x v :=
  fun _ hx => ⟨_, (hi.of_extractTerms hx |>.bit hs).1⟩

/-- A slice that is zero. -/
theorem zero_of_extractTerms {high low i : Nat} (hx : x ∈ index.extractTerms c high low)
    (hzero : ∀ ρ, q.arena.num ρ x = 0) (hρ : Asserted q ρ) (hlow : low ≤ i) (hhigh : i ≤ high) :
    q.arena.bit ρ c i = false := by
  obtain ⟨-, -, -, hbits⟩ := (hi.of_extractTerms hx).bit hs
  have hbit := hbits ρ hρ (i - low) (by omega)
  rw [Nat.add_sub_cancel' hlow] at hbit
  rw [← hbit, ← Arena.testBit_num, hzero ρ, Nat.zero_testBit]

/-- A slice of one word that is asserted to equal a slice of another. -/
theorem eq_of_extractTerms {high low high' low' i : Nat} (hx : x ∈ index.extractTerms c high low)
    (hk : q.arena.kindAt x = some (.bvExtract a high' low')) (hρ : Asserted q ρ)
    (hi' : i ≤ high - low) (hlen : high - low = high' - low') :
    q.arena.bit ρ c (low + i) = q.arena.bit ρ a (low' + i) := by
  obtain ⟨-, -, -, hbits⟩ := (hi.of_extractTerms hx).bit hs
  rw [← hbits ρ hρ i hi', Arena.bit_bvExtract hs hk (by omega)]

variable (shiftKind) in
/-- **Within the width nothing underflows, and what is accepted is a shift.** -/
theorem matchesShiftBy_answers (ha : q.arena.IsBv a w) (hb : q.arena.IsBv b w) (hpos : 0 < shift)
    (hlt : shift < w) :
    Answers (matchesLogSlicingShiftBy q.arena index a b w shift shiftKind) fun found =>
      found = true → ∀ ρ, Asserted q ρ →
        q.arena.bv ρ a w = shiftBy (q.arena.bv ρ b w) shift shiftKind := by
  have hwidth : (subU w shift : Result Nat) = ok (w - shift) := subU_of_le (Nat.le_of_lt hlt)
  have hrest : (subU (w - shift) 1 : Result Nat) = ok (w - shift - 1) := subU_of_le (by omega)
  have htop : (subU w 1 : Result Nat) = ok (w - 1) := subU_of_le (by omega)
  have hlow : (subU shift 1 : Result Nat) = ok (shift - 1) := subU_of_le hpos
  cases shiftKind with
  | shl =>
    rw [matchesLogSlicingShiftBy, hlow, ok_bind]
    refine (anyZero_answers hs (isBv_of_extractTerms hs hi)).bind fun zero hzero => ?_
    rw [hwidth, ok_bind, hrest, ok_bind, htop, ok_bind]
    refine (anyExtract_answers (isBv_of_extractTerms hs hi)).bind fun moved hmoved => ?_
    refine answers_ok fun h ρ hρ => BitVec.eq_of_getLsbD_eq fun i hbelow => ?_
    obtain ⟨rfl, rfl⟩ := Bool.and_eq_true_iff.mp h
    obtain ⟨x, hx, hxzero⟩ := hzero rfl
    obtain ⟨y, hy, hk⟩ := hmoved rfl
    rw [shiftBy, BitVec.getLsbD_shiftLeft, ha.getLsbD hs, hb.getLsbD hs, decide_eq_true hbelow]
    by_cases hcase : i < shift
    · rw [zero_of_extractTerms hs hi hx hxzero hρ (Nat.zero_le _) (by omega), decide_eq_true hcase]
      rfl
    · have hbit := eq_of_extractTerms (i := i - shift) hs hi hy hk hρ (by omega) (by omega)
      rw [Nat.zero_add, Nat.add_sub_cancel' (Nat.le_of_not_lt hcase)] at hbit
      rw [← hbit, decide_eq_false hcase]
      rfl
  | lShr =>
    rw [matchesLogSlicingShiftBy, htop, ok_bind, hwidth, ok_bind]
    refine (anyZero_answers hs (isBv_of_extractTerms hs hi)).bind fun zero hzero => ?_
    rw [ok_bind, hrest, ok_bind]
    refine (anyExtract_answers (isBv_of_extractTerms hs hi)).bind fun moved hmoved => ?_
    refine answers_ok fun h ρ hρ => BitVec.eq_of_getLsbD_eq fun i hbelow => ?_
    obtain ⟨rfl, rfl⟩ := Bool.and_eq_true_iff.mp h
    obtain ⟨x, hx, hxzero⟩ := hzero rfl
    obtain ⟨y, hy, hk⟩ := hmoved rfl
    rw [shiftBy, BitVec.getLsbD_ushiftRight, ha.getLsbD hs, hb.getLsbD hs]
    by_cases hcase : i < w - shift
    · have hbit := eq_of_extractTerms (i := i) hs hi hy hk hρ (by omega) (by omega)
      rw [Nat.zero_add] at hbit
      exact hbit.symm
    · rw [zero_of_extractTerms hs hi hx hxzero hρ (Nat.le_of_not_lt hcase) (by omega),
        hb.bit_of_ge hs (by omega)]
  | aShr => exact answers_ok fun h => nomatch h

end Stage

/-! ## The walk down the stages -/

/-- The definition is a stage for a bit below `maxBit`. -/
structure IsStage (s : Arena) (index : LogSlicingIndex) (amount : TermId) (width : Nat)
    (shiftKind : LogShiftKind) (maxBit bit : Nat) (definition : LogMuxDefinition) : Prop where
  carries : repeatedAmountBit s index definition.mask amount = ok (some bit)
  lt_maxBit : bit < maxBit
  lt_word : bit < 32
  lt_width : 2 ^ bit < width
  shifts : matchesLogSlicingShiftBy s index definition.thenValue definition.elseValue width
    (2 ^ bit) shiftKind = ok true

/-- From the stage one comes down to the input through stages for these bits, each smaller than the
one before. -/
inductive Descends (s : Arena) (equalities : List BvPair) (index : LogSlicingIndex)
    (input amount : TermId) (width : Nat) (shiftKind : LogShiftKind) :
    (bits : List Nat) → (stage : TermId) → (maxBit : Nat) → Prop
  | input {stage : TermId} {maxBit : Nat} : sameOrEqualIndex s index stage input = ok true →
    Descends s equalities index input amount width shiftKind [] stage maxBit
  | stage {bits : List Nat} {stage target : TermId} {maxBit bit : Nat}
    {definitions : List LogMuxDefinition} {definition : LogMuxDefinition} :
    target ∈ index.aliasesOf stage →
    logMuxDefinitionsForTarget s equalities target = ok definitions → definition ∈ definitions →
    IsStage s index amount width shiftKind maxBit bit definition →
    Descends s equalities index input amount width shiftKind bits definition.elseValue bit →
    Descends s equalities index input amount width shiftKind (bit :: bits) stage maxBit

/-- The definition is the last of the stages that lead down to the input. -/
def LeadsDown (s : Arena) (equalities : List BvPair) (index : LogSlicingIndex)
    (input amount : TermId) (width : Nat) (shiftKind : LogShiftKind) (maxBit : Nat)
    (definition : LogMuxDefinition) : Prop :=
  ∃ bit, IsStage s index amount width shiftKind maxBit bit definition ∧
    ∃ bits, Descends s equalities index input amount width shiftKind bits definition.elseValue bit

/-- The mask of the definition repeats no bit of the amount that is compared with 63 and found
small enough, but is too large for the word that is shifted. -/
def FitsWord (s : Arena) (index : LogSlicingIndex) (amount : TermId)
    (definition : LogMuxDefinition) : Prop :=
  ∀ bit, repeatedAmountBit s index definition.mask amount = ok (some bit) → ¬(32 ≤ bit ∧ bit < 63)

/-- The last stage is the input, or the masks of its definitions, up to the first definition that
leads down to the input, repeat no bit of the amount from 32 to 62. -/
def LastStageFits (s : Arena) (equalities : List BvPair) (index : LogSlicingIndex)
    (input amount : TermId) (width : Nat) (shiftKind : LogShiftKind) (stage : TermId) : Prop :=
  sameOrEqualIndex s index stage input = ok true ∨
    UpToHit
      (fun target => ∃ definitions, logMuxDefinitionsForTarget s equalities target = ok definitions ∧
        ∃ d ∈ definitions, LeadsDown s equalities index input amount width shiftKind 64 d)
      (fun target => ∀ definitions, logMuxDefinitionsForTarget s equalities target = ok definitions →
        UpToHit (LeadsDown s equalities index input amount width shiftKind 64)
          (FitsWord s index amount) definitions)
      (index.aliasesOf stage)

section Walk

variable (hs : q.arena.Inv) (hi : index.Sound q) (heq : ∀ p ∈ equalities, EqualBv q p.1 p.2)
  (hinput : q.arena.IsBv input w) (hamount : q.arena.IsBv amount w)
include hs hi hamount

omit hs hi hamount in
theorem shlOneU32_of_lt (h : bit < 32) : shlOneU32 bit = ok (2 ^ bit) := if_pos h

variable (shiftKind) in
/-- What a definition is tested for: `recurse` is the call on the stage below. -/
theorem verifyDefinition_spec {recurse : TermId → Nat → Result Bool} {P : TermId → Nat → Prop}
    (hd : IsMux q t definition.mask definition.thenValue definition.elseValue w)
    (hrecurse : ∀ x bit, q.arena.IsBv x w → bit < maxBit →
      Only (recurse x bit) fun found => found = true ↔ P x bit)
    (hreturns : ∀ x bit, q.arena.IsBv x w → bit < maxBit → bit < 32 → Returns (recurse x bit)) :
    Only (verifyLogSlicingDefinition q.arena index amount w shiftKind maxBit recurse definition)
      (fun found => found = true ↔ ∃ bit,
        IsStage q.arena index amount w shiftKind maxBit bit definition ∧
          P definition.elseValue bit) ∧
    (Returns (verifyLogSlicingDefinition q.arena index amount w shiftKind maxBit recurse definition) ↔
      ∀ bit, repeatedAmountBit q.arena index definition.mask amount = ok (some bit) →
        ¬(32 ≤ bit ∧ bit < maxBit ∧ bit < 63)) := by
  obtain ⟨o, hbit, ho⟩ := repeatedAmountBit_answers hs hi hd.maskSort hamount
  rw [verifyLogSlicingDefinition, hbit, ok_bind]
  have hno : (∀ bit, o = some bit → ¬bit < maxBit ∨ ¬bit < 32 ∨ ¬2 ^ bit < w) →
      ¬∃ bit, IsStage q.arena index amount w shiftKind maxBit bit definition ∧
        P definition.elseValue bit := by
    rintro h ⟨bit, hstage, -⟩
    rcases h bit (Outcome.ok.inj (hbit.symm.trans hstage.carries)) with h | h | h
    · exact h hstage.lt_maxBit
    · exact h hstage.lt_word
    · exact h hstage.lt_width
  cases o with
  | none =>
    refine ⟨only_ok (iff_of_false Bool.false_ne_true (hno fun _ h => nomatch h)), ?_⟩
    exact iff_of_true (returns_ok false) fun bit h => nomatch h
  | some bit =>
    have hsome : ∀ bit', (ok (some bit) : Result (Option Nat)) = ok (some bit') → bit' = bit := by
      intro bit' h
      cases h
      rfl
    dsimp only
    by_cases hskip : maxBit ≤ bit ∨ 63 ≤ bit
    · rw [if_pos hskip]
      refine ⟨only_ok (iff_of_false Bool.false_ne_true (hno fun _ h => ?_)), ?_⟩
      · cases h
        omega
      · refine iff_of_true (returns_ok false) fun bit' h => ?_
        rw [hsome bit' h]
        omega
    · rw [if_neg hskip]
      by_cases hword : bit < 32
      · rw [shlOneU32_of_lt hword, ok_bind]
        have hfits : ∀ bit', (ok (some bit) : Result (Option Nat)) = ok (some bit') →
            ¬(32 ≤ bit' ∧ bit' < maxBit ∧ bit' < 63) := by
          intro bit' h
          rw [hsome bit' h]
          omega
        by_cases hwidth : w ≤ 2 ^ bit
        · rw [if_pos hwidth]
          refine ⟨only_ok (iff_of_false Bool.false_ne_true (hno fun _ h => ?_)),
            iff_of_true (returns_ok false) hfits⟩
          cases h
          omega
        · rw [if_neg hwidth]
          obtain ⟨found, hfound, -⟩ := matchesShiftBy_answers shiftKind hs hi
            hd.thenSort hd.elseSort (Nat.two_pow_pos bit) (Nat.lt_of_not_le hwidth)
          rw [hfound, ok_bind]
          have hlt : bit < maxBit := by omega
          cases found with
          | true =>
            refine ⟨(hrecurse _ bit hd.elseSort hlt).mono fun found h => h.trans ?_,
              iff_of_true (hreturns _ bit hd.elseSort hlt hword) hfits⟩
            constructor
            · exact fun hp => ⟨bit, ⟨hbit, hlt, hword, Nat.lt_of_not_le hwidth, hfound⟩, hp⟩
            · rintro ⟨bit', hstage, hp⟩
              rwa [hsome bit' (hbit.symm.trans hstage.carries)] at hp
          | false =>
            refine ⟨only_ok (iff_of_false Bool.false_ne_true ?_),
              iff_of_true (returns_ok false) hfits⟩
            rintro ⟨bit', hstage, -⟩
            have hmatch := hstage.shifts
            rw [hsome bit' (hbit.symm.trans hstage.carries)] at hmatch
            cases hfound.symm.trans hmatch
      · rw [shlOneU32, if_neg hword]
        refine ⟨only_panic, iff_of_false (fun h => nomatch h) fun h => ?_⟩
        exact h bit rfl (by omega)

include heq

variable (shiftKind) in
theorem verifyTarget_spec {recurse : TermId → Nat → Result Bool} {P : TermId → Nat → Prop}
    (ht : q.arena.IsBv t w)
    (hrecurse : ∀ x bit, q.arena.IsBv x w → bit < maxBit →
      Only (recurse x bit) fun found => found = true ↔ P x bit)
    (hreturns : ∀ x bit, q.arena.IsBv x w → bit < maxBit → bit < 32 → Returns (recurse x bit)) :
    Only (verifyLogSlicingTarget q.arena equalities index amount w shiftKind maxBit recurse t)
      (fun found => found = true ↔ ∃ definitions,
        logMuxDefinitionsForTarget q.arena equalities t = ok definitions ∧ ∃ d ∈ definitions,
          ∃ bit, IsStage q.arena index amount w shiftKind maxBit bit d ∧ P d.elseValue bit) ∧
    (Returns (verifyLogSlicingTarget q.arena equalities index amount w shiftKind maxBit recurse t) ↔
      ∀ definitions, logMuxDefinitionsForTarget q.arena equalities t = ok definitions →
        UpToHit
          (fun d => ∃ bit, IsStage q.arena index amount w shiftKind maxBit bit d ∧ P d.elseValue bit)
          (fun d => ∀ bit, repeatedAmountBit q.arena index d.mask amount = ok (some bit) →
            ¬(32 ≤ bit ∧ bit < maxBit ∧ bit < 63)) definitions) := by
  obtain ⟨definitions, hdefinitions, hmux⟩ := logMuxDefinitions_answers hs heq ht
  have hdef := fun d hd => verifyDefinition_spec shiftKind hs hi hamount (hmux d hd)
    hrecurse hreturns
  rw [verifyLogSlicingTarget, hdefinitions, ok_bind]
  simp only [Outcome.ok.injEq, exists_eq_left', forall_eq']
  exact ⟨only_anyM fun d hd => (hdef d hd).1,
    returns_anyM_iff (fun d hd => (hdef d hd).1) fun d hd => (hdef d hd).2⟩

include hinput

variable (shiftKind) in
/-- **What the walk finds, and when it returns.** Below bit 32 it always does. -/
theorem verifyStage_spec (rounds : Nat) : ∀ {stage : TermId} {maxBit : Nat},
    q.arena.IsBv stage w → maxBit < rounds →
      Only (verifyLogSlicingShiftStage q.arena equalities index input amount w shiftKind rounds stage
          maxBit)
        (fun found => found = true ↔ ∃ bits,
          Descends q.arena equalities index input amount w shiftKind bits stage maxBit) ∧
      (maxBit ≤ 32 → Returns (verifyLogSlicingShiftStage q.arena equalities index input amount w
        shiftKind rounds stage maxBit)) ∧
      (maxBit = 64 → (Returns (verifyLogSlicingShiftStage q.arena equalities index input amount w
        shiftKind rounds stage maxBit) ↔
          LastStageFits q.arena equalities index input amount w shiftKind stage)) := by
  induction rounds with
  | zero => exact fun _ h => absurd h (Nat.not_lt_zero _)
  | succ rounds ih =>
    intro stage maxBit hstage hrounds
    obtain ⟨same, hsame, -⟩ := sameOrEqualIndex_answers hi hstage hinput
    rw [verifyLogSlicingShiftStage, hsame, ok_bind]
    cases same with
    | true =>
      refine ⟨only_ok (iff_of_true rfl ⟨[], .input hsame⟩), fun _ => returns_ok true, fun _ => ?_⟩
      exact iff_of_true (returns_ok true) (.inl hsame)
    | false =>
      rw [if_neg Bool.false_ne_true]
      by_cases hzero : maxBit = 0
      · subst hzero
        rw [if_pos rfl]
        refine ⟨only_ok (iff_of_false Bool.false_ne_true ?_), fun _ => returns_ok false,
          fun h => nomatch h⟩
        rintro ⟨bits, hbits⟩
        cases hbits with
        | input h => cases h.symm.trans hsame
        | stage _ _ _ h => exact Nat.not_lt_zero _ h.lt_maxBit
      · rw [if_neg hzero]
        have htarget := fun target (hmem : target ∈ index.aliasesOf stage) =>
          verifyTarget_spec shiftKind hs hi heq hamount
            ((hi.of_aliasesOf hstage hmem).of_width hstage).1
            (fun x bit hx (hlt : bit < maxBit) => (ih hx (show bit < rounds by omega)).1)
            (fun x bit hx hlt hword => (ih hx (by omega)).2.1 (Nat.le_of_lt hword))
        refine ⟨(only_anyM fun target hmem => (htarget target hmem).1).mono
          fun found h => h.trans ⟨?_, ?_⟩, fun hword => ?_, ?_⟩
        · rintro ⟨target, hmem, definitions, hdefinitions, d, hd, bit, hbit, bits, hbits⟩
          exact ⟨bit :: bits, .stage hmem hdefinitions hd hbit hbits⟩
        · rintro ⟨bits, hbits⟩
          cases hbits with
          | input h => cases h.symm.trans hsame
          | stage hmem hdefinitions hd hbit hbits =>
            exact ⟨_, hmem, _, hdefinitions, _, hd, _, hbit, _, hbits⟩
        · refine returns_anyM fun target hmem => (htarget target hmem).2.mpr fun definitions _ => ?_
          exact upToHit_of_forall fun d _ bit _ => by omega
        · rintro rfl
          have hfits : ∀ d, (∀ bit, repeatedAmountBit q.arena index d.mask amount = ok (some bit) →
              ¬(32 ≤ bit ∧ bit < 64 ∧ bit < 63)) ↔ FitsWord q.arena index amount d :=
            fun d => forall₂_congr fun bit _ => by omega
          rw [returns_anyM_iff (fun target hmem => (htarget target hmem).1)
            fun target hmem => (htarget target hmem).2, LastStageFits,
            or_iff_right fun h => nomatch h.symm.trans hsame]
          simp only [hfits]
          exact Iff.rfl

end Walk

/-! ## What is found before the walk -/

theorem findNode_some {s : Arena} {p : TermId → Node → Bool} (h : findNode s p = some t) :
    ∃ node, s.nodes[t]? = some node ∧ p t node = true := by
  obtain ⟨⟨node, i⟩, hfind, rfl⟩ := Option.map_eq_some_iff.mp h
  have hp := List.find?_some hfind
  exact ⟨node, List.mem_zipIdx_iff_getElem?.mp (List.mem_of_find?_eq_some hfind), hp⟩

theorem findBvConstU64_some (hs : q.arena.Inv) {value : UInt64}
    (h : findBvConstU64 q.arena w value = some t) :
    q.arena.IsBv t w ∧ ∀ ρ, q.arena.bv ρ t w = BitVec.ofNat w value.toNat := by
  obtain ⟨node, -, hp⟩ := findNode_some h
  rw [decide_eq_true_eq] at hp
  exact ⟨(isBvConstU64_true hs hp.2).1, fun ρ => (bv_of_isBvConstU64 hs hp.2).2⟩

theorem findBvNotTerm_some {s : Arena} (h : findBvNotTerm s c w = some t) :
    s.IsBv t w ∧ s.kindAt t = some (.bvNot c) := by
  obtain ⟨node, hnode, hp⟩ := findNode_some h
  rw [decide_eq_true_eq] at hp
  exact ⟨Arena.sortAt_eq_some.mpr ⟨node, hnode, hp.1⟩,
    Arena.kindAt_eq_some.mpr ⟨node, hnode, hp.2⟩⟩

/-- In the chains of the conditions that a mask repeats, every step leaves nothing out. -/
def MaskHalvesWhole (s : Arena) (leaves : List TermId) (equalities : List BvPair)
    (index : LogSlicingIndex) (mask : TermId) : Prop :=
  ∀ conditions, repeatedConditionsForMask s index mask = ok conditions → ∀ cond ∈ conditions,
    ∀ selected, logSlicingUnsignedLtBit s cond = ok (some selected) →
      ChainHalvesWhole s leaves equalities index selected

section Parts

variable (hs : q.arena.Inv) (hi : index.Sound q) (heq : ∀ p ∈ equalities, EqualBv q p.1 p.2)
include hs

section Masks

include hi

/-- The mask is ones where the amount is less than the width, and zero elsewhere. -/
theorem maskRepeatsLt_answers (hl : Leaves q leaves) (heq : ∀ p ∈ equalities, EqualBv q p.1 p.2)
    (hmask : q.arena.IsBv mask w) (hamount : q.arena.IsBv amount w) :
    Answers (maskRepeatsUnsignedLessThanWidth q.arena leaves equalities index mask amount w)
      fun found => found = true → MaskHalvesWhole q.arena leaves equalities index mask →
        ∀ ρ, Asserted q ρ → ∀ i < w,
          q.arena.bit ρ mask i = decide (q.arena.num ρ amount < w) := by
  rw [maskRepeatsUnsignedLessThanWidth]
  cases hconst : findBvConstU64 q.arena w (.ofNat w) with
  | none => exact answers_ok fun h => nomatch h
  | some widthConst =>
    obtain ⟨hconstBv, hval⟩ := findBvConstU64_some hs hconst
    have hnum : ∀ ρ, q.arena.num ρ widthConst = w := by
      intro ρ
      have hle : w ≤ 65536 := (hs.width_le mask w hmask).2
      have hlt : w < 2 ^ w := Nat.lt_two_pow_self
      rw [hconstBv.num_eq hs, hval, BitVec.toNat_ofNat, UInt64.toNat_ofNat',
        Nat.mod_eq_of_lt (by omega : w < 2 ^ 64), Nat.mod_eq_of_lt hlt]
    refine (repeatedConditionsForMask_answers hs hi hmask).with_eq.bind fun conditions hc => ?_
    obtain ⟨hconditions, hrepeats⟩ := hc
    refine (answers_anyM (P := fun cond => ∃ selected,
      logSlicingUnsignedLtBit q.arena cond = ok (some selected) ∧
        (ChainHalvesWhole q.arena leaves equalities index selected → ∀ ρ, Asserted q ρ →
          (q.arena.bit ρ cond 0 = true ↔ q.arena.num ρ amount < w))) fun cond hcond => ?_).mono
        fun _ h hfound hwhole ρ hρ i hi => ?_
    · refine (logSlicingUnsignedLtBit_answers hs (hrepeats cond hcond).1).with_eq.bind fun o ho => ?_
      cases o with
      | none => exact answers_ok fun h => nomatch h
      | some selected =>
        obtain ⟨hselected, ho⟩ := ho
        obtain ⟨hpair, -, hbit⟩ := ho selected rfl
        refine (unsignedChain_answers hs hi hl heq (show q.arena.IsBv (amount, widthConst).1 w from hamount) hconstBv
          32 hpair.1 hpair.2).mono fun _ h hfound => ⟨selected, hselected, fun hwhole ρ hρ => ?_⟩
        rw [hbit ρ, h hfound hwhole ρ hρ, hnum ρ]
    · obtain ⟨cond, hcond, selected, hselected, hdecides⟩ := h hfound
      obtain ⟨-, w', hmask', hbits⟩ := hrepeats cond hcond
      obtain rfl := hmask.inj hmask'
      rw [hbits ρ hρ i hi, Bool.eq_iff_iff, decide_eq_true_eq]
      exact hdecides (hwhole conditions hconditions cond hcond selected hselected) ρ hρ

theorem maskRepeatsExtract_answers (hmask : q.arena.IsBv mask w) :
    Answers (maskRepeatsExtract q.arena index mask c bit bit) fun found => found = true →
      ∀ ρ, Asserted q ρ → ∀ i < w, q.arena.bit ρ mask i = q.arena.bit ρ c bit := by
  refine (repeatedConditionsForMask_answers hs hi hmask).bind fun conditions hconditions => ?_
  refine (answers_anyM (P := fun _ => ∀ ρ, Asserted q ρ → ∀ i < w,
    q.arena.bit ρ mask i = q.arena.bit ρ c bit) fun cond hcond => ?_).mono
      fun _ h hfound => (h hfound).elim fun _ h => h.2
  refine (answers_anyM (P := fun _ => ∀ ρ, Asserted q ρ → ∀ i < w,
    q.arena.bit ρ mask i = q.arena.bit ρ c bit) fun term hterm => ?_).mono
      fun _ h hfound => (h hfound).elim fun _ h => h.2
  obtain ⟨hcondBv, w', hmask', hbits⟩ := hconditions cond hcond
  obtain rfl := hmask.inj hmask'
  have hequal := hi.of_aliasesOf hcondBv hterm
  obtain ⟨v, -, hv, -⟩ := hequal
  refine (matchesExtract_answers hv).unwrapOr.mono fun _ h hfound ρ hρ i hlt => ?_
  rw [hbits ρ hρ i hlt, (hi.of_aliasesOf hcondBv hterm).bit hs hρ,
    Arena.bit_bvExtract hs (h hfound) (Nat.zero_le _), Nat.add_zero]

end Masks

theorem logMuxExpr_answers (ht : q.arena.IsBv t w) :
    Answers (logMuxExpr q.arena t) fun o => ∀ d, o = some d →
      IsMux q t d.mask d.thenValue d.elseValue w := by
  refine (muxExpr_answers (P := fun d mask thenValue elseValue =>
    d = ⟨mask, thenValue, elseValue⟩) hs (.refl ht) ht fun _ _ _ _ => answers_some rfl).mono ?_
  rintro o h d hd
  obtain ⟨mask, thenValue, elseValue, hmux, rfl⟩ := h d hd
  exact hmux

/-- Of the two words one masks the other in the term. -/
def Masked (q : Query) (t : TermId) (w : Nat) (p : BvPair) : Prop :=
  q.arena.IsBv p.1 w ∧ q.arena.IsBv p.2 w ∧ ∀ ρ, Asserted q ρ → ∀ i < w,
    q.arena.bit ρ t i = (q.arena.bit ρ p.1 i && q.arena.bit ρ p.2 i)

theorem zeroFallbackSelectCandidates_answers (ht : q.arena.IsBv t w) :
    Answers (zeroFallbackSelectCandidates q.arena t) fun out => ∀ p ∈ out, Masked q t w p := by
  refine (kind_answers ht).bind fun k hk => ?_
  have hother : Answers (do
      match ← logMuxExpr q.arena t with
      | none => return []
      | some definition =>
        if ← isZeroBvConst q.arena definition.elseValue then
          return [(definition.mask, definition.thenValue)]
        else return []) fun out => ∀ p ∈ out, Masked q t w p := by
    refine (logMuxExpr_answers hs ht).bind fun o ho => ?_
    cases o with
    | none => exact answers_ok (by simp)
    | some d =>
      have hmux := ho d rfl
      refine (isZeroBvConst_answers hs hmux.elseSort).bind fun zero hzero => ?_
      cases zero with
      | false => exact answers_ok (by simp)
      | true =>
        refine answers_ok fun p hp => ?_
        obtain rfl := List.mem_singleton.mp hp
        refine ⟨hmux.maskSort, hmux.thenSort, fun ρ hρ i hi => ?_⟩
        rw [hmux.bits ρ hρ i hi, ← Arena.testBit_num (t := d.elseValue), hzero rfl ρ, Nat.zero_testBit]
        cases q.arena.bit ρ d.mask i <;> simp [choose]
  cases k with
  | bvAnd a b =>
    refine answers_ok fun p hp => ?_
    obtain ⟨ha, hb, hbits⟩ := and_either hs ht hk hp
    exact ⟨ha, hb, fun ρ _ i _ => hbits ρ i⟩
  | _ => exact hother

include heq

/-- Reordering keeps the candidates. -/
theorem orderedCandidates_answers {candidates : List BvPair}
    (hcandidates : ∀ p ∈ candidates, Masked q t w p) :
    Answers (orderedCandidates q.arena equalities candidates) fun out =>
      ∀ p ∈ out, Masked q t w p := by
  rw [orderedCandidates]
  have hnamed : ∀ p ∈ (if (candidates.filter fun p => bvVarNameHasPrefix q.arena p.1 "ite_cond_") ≠ []
      then candidates.filter fun p => bvVarNameHasPrefix q.arena p.1 "ite_cond_" else candidates),
      Masked q t w p := by
    split
    · exact fun p hp => hcandidates p (List.mem_of_mem_filter hp)
    · exact hcandidates
  dsimp only
  split
  · rename_i first second hpair
    rw [hpair] at hnamed ⊢
    simp only [List.forall_mem_cons, List.not_mem_nil, false_imp_iff, implies_true,
      and_true] at hnamed
    refine (logMuxDefinitions_answers hs heq hnamed.1.1).bind fun _ _ => ?_
    refine (logMuxDefinitions_answers hs heq hnamed.2.1).bind fun _ _ => answers_ok ?_
    split <;> simp [hnamed]
  · exact answers_ok hnamed

theorem zeroFallbackCandidates_answers (ht : q.arena.IsBv t w) :
    Answers (zeroFallbackCandidates q.arena equalities t) fun out => ∀ p ∈ out, Masked q t w p :=
  (zeroFallbackSelectCandidates_answers hs ht).bind fun _ h => orderedCandidates_answers hs heq h

omit heq

/-- What an arithmetic shift is split into. -/
structure AshrParts (q : Query) (expr input : TermId) (w : Nat) (parts : TermId × TermId × TermId) :
    Prop where
  negative : q.arena.IsBv parts.1 w
  notInput : q.arena.IsBv parts.2.1 w
  nonnegative : q.arena.IsBv parts.2.2 w
  complement : ∀ ρ, q.arena.bv ρ parts.2.1 w = ~~~q.arena.bv ρ input w
  chosen : ∀ ρ, Asserted q ρ → q.arena.bv ρ expr w =
    if (q.arena.bv ρ input w).msb then ~~~q.arena.bv ρ parts.1 w else q.arena.bv ρ parts.2.2 w

include hi in
theorem ashrParts_answers {shift : LogShiftAssertion} (ht : q.arena.IsBv t shift.width)
    (hinput : q.arena.IsBv shift.input shift.width) :
    Answers (ashrParts q.arena index shift t) fun o => ∀ parts, o = some parts →
      AshrParts q t shift.input shift.width parts := by
  refine (logMuxExpr_answers hs ht).bind fun o ho => ?_
  cases o with
  | none => exact answers_none
  | some d =>
    have hmux := ho d rfl
    refine (maskRepeatsExtract_answers hs hi hmux.maskSort).bind fun found hfound => ?_
    cases found with
    | false => exact answers_none
    | true =>
      rw [if_pos rfl]
      refine (bvNotChild_answers hmux.thenSort).bind fun o ho => ?_
      cases o with
      | none => exact answers_none
      | some negativeInner =>
        have hnegative := ho negativeInner rfl
        cases hnot : findBvNotTerm q.arena shift.input shift.width with
        | none => exact answers_none
        | some notInput =>
          obtain ⟨hnotBv, hnotKind⟩ := findBvNotTerm_some hnot
          refine answers_some ⟨hs.unary_sort hnegative hmux.thenSort id, hnotBv, hmux.elseSort,
            fun ρ => (Arena.bv_bvNot hs hnotKind hnotBv).2, fun ρ hρ => ?_⟩
          have hmsb : (q.arena.bv ρ shift.input shift.width).msb =
              q.arena.bit ρ shift.input (shift.width - 1) := by
            rw [BitVec.msb_eq_getLsbD_last, hinput.getLsbD hs]
          rw [hmsb, ← (Arena.bv_bvNot hs hnegative hmux.thenSort).2]
          refine BitVec.eq_of_getLsbD_eq fun i hlt => ?_
          rw [ht.getLsbD hs, hmux.bits ρ hρ i hlt, hfound rfl ρ hρ i hlt, choose]
          split
          · exact (hmux.thenSort.getLsbD hs).symm
          · exact (hmux.elseSort.getLsbD hs).symm

/-- The result is the shifted word, wherever the assertions are true. -/
structure LogShiftAssertion.Holds (q : Query) (shift : LogShiftAssertion) : Prop where
  result : q.arena.IsBv shift.result shift.width
  input : q.arena.IsBv shift.input shift.width
  amount : q.arena.IsBv shift.amount shift.width
  shifts : ∀ ρ, Asserted q ρ → q.arena.bv ρ shift.result shift.width =
    shiftBy (q.arena.bv ρ shift.input shift.width) (q.arena.num ρ shift.amount) shift.kind

theorem shiftParts_eq {k : NodeKind} {p : TermId × TermId × LogShiftKind}
    (hk : q.arena.kindAt t = some k) (hp : shiftParts k = some p) (ht : q.arena.IsBv t w) :
    q.arena.IsBv p.1 w ∧ q.arena.IsBv p.2.1 w ∧
      ∀ ρ, q.arena.bv ρ t w = shiftBy (q.arena.bv ρ p.1 w) (q.arena.num ρ p.2.1) p.2.2 := by
  cases k <;> simp only [shiftParts, Option.some.injEq, reduceCtorEq] at hp <;> subst hp
  case bvShl input amount =>
    obtain ⟨ha, hb⟩ := hs.binary_sort hk ht id
    refine ⟨ha, hb, fun ρ => ?_⟩
    rw [(Arena.bv_bvShl hs hk ht).2.2, shiftBy, hb.num_eq hs, BitVec.shiftLeft_eq']
  case bvLShr input amount =>
    obtain ⟨ha, hb⟩ := hs.binary_sort hk ht id
    refine ⟨ha, hb, fun ρ => ?_⟩
    rw [(Arena.bv_bvLShr hs hk ht).2.2, shiftBy, hb.num_eq hs, BitVec.ushiftRight_eq']
  case bvAShr input amount =>
    obtain ⟨ha, hb⟩ := hs.binary_sort hk ht id
    refine ⟨ha, hb, fun ρ => ?_⟩
    rw [(Arena.bv_bvAShr hs hk ht).2.2, shiftBy, hb.num_eq hs, BitVec.sshiftRight_eq']

theorem logShiftAssertion_answers (h : EqualBv q a b) :
    Answers (logShiftAssertion q.arena a b) fun o => ∀ shift, o = some shift → shift.Holds q := by
  obtain ⟨w, ha, hb, hval⟩ := h
  rw [logShiftAssertion, Arena.expectBv_of_sort ha, ok_bind]
  refine (kind_answers hb).bind fun k hk => ?_
  cases hp : shiftParts k with
  | none => exact answers_none
  | some p =>
    obtain ⟨hinput, hamount, hshift⟩ := shiftParts_eq hs hk hp hb
    refine (sort_answers hinput).bind fun σ hσ => ?_
    subst hσ
    rw [if_pos rfl]
    exact answers_some ⟨ha, hinput, hamount, fun ρ hρ => (hval ρ hρ).trans (hshift ρ)⟩

include heq in
theorem logShiftAssertions_answers : Answers (logShiftAssertions q.arena equalities) fun shifts =>
    ∀ shift ∈ shifts, shift.Holds q := by
  refine (answers_mapM (R := fun _ shifts => ∀ shift ∈ shifts, LogShiftAssertion.Holds q shift)
    fun p hp => ?_).bind fun found hfound => answers_ok fun shift hshift => ?_
  · refine (logShiftAssertion_answers hs (heq p hp)).bind fun forward hforward => ?_
    refine (logShiftAssertion_answers hs (heq p hp).symm).bind fun backward hbackward => ?_
    refine answers_ok fun shift hshift => ?_
    rw [List.reduceOption_mem_iff] at hshift
    simp only [List.mem_cons, List.not_mem_nil, or_false] at hshift
    rcases hshift with hshift | hshift
    · exact hforward shift hshift.symm
    · exact hbackward shift hshift.symm
  · obtain ⟨shifts, hmem, hshift⟩ := List.mem_flatten.mp hshift
    obtain ⟨p, -, h⟩ := exists_of_forall₂ hfound shifts hmem
    exact h shift hshift

end Parts

/-! ## When the pass returns

For each search of the pass, what it accepts, and what must hold of whatever it comes to before it
accepts something. -/

def CandidateAccepted (s : Arena) (leaves : List TermId) (equalities : List BvPair)
    (index : LogSlicingIndex) (input amount : TermId) (width : Nat) (shiftKind : LogShiftKind)
    (candidate : BvPair) : Prop :=
  maskRepeatsUnsignedLessThanWidth s leaves equalities index candidate.1 amount width = ok true ∧
    ∃ bits, Descends s equalities index input amount width shiftKind bits candidate.2 64

def CandidateFits (s : Arena) (leaves : List TermId) (equalities : List BvPair)
    (index : LogSlicingIndex) (input amount : TermId) (width : Nat) (shiftKind : LogShiftKind)
    (candidate : BvPair) : Prop :=
  maskRepeatsUnsignedLessThanWidth s leaves equalities index candidate.1 amount width = ok true →
    LastStageFits s equalities index input amount width shiftKind candidate.2

def ZeroFallbackAccepted (s : Arena) (leaves : List TermId) (equalities : List BvPair)
    (index : LogSlicingIndex) (expr input amount : TermId) (width : Nat)
    (shiftKind : LogShiftKind) : Prop :=
  ∃ candidates, zeroFallbackCandidates s equalities expr = ok candidates ∧ ∃ c ∈ candidates,
    CandidateAccepted s leaves equalities index input amount width shiftKind c

def ZeroFallbackFits (s : Arena) (leaves : List TermId) (equalities : List BvPair)
    (index : LogSlicingIndex) (expr input amount : TermId) (width : Nat)
    (shiftKind : LogShiftKind) : Prop :=
  ∀ candidates, zeroFallbackCandidates s equalities expr = ok candidates →
    UpToHit (CandidateAccepted s leaves equalities index input amount width shiftKind)
      (CandidateFits s leaves equalities index input amount width shiftKind) candidates

def ShiftAccepted (s : Arena) (leaves : List TermId) (equalities : List BvPair)
    (index : LogSlicingIndex) (shift : LogShiftAssertion) (expr : TermId) : Prop :=
  if shift.kind = .aShr then
    ∃ parts, ashrParts s index shift expr = ok (some parts) ∧
      ZeroFallbackAccepted s leaves equalities index parts.1 parts.2.1 shift.amount shift.width .lShr ∧
      ZeroFallbackAccepted s leaves equalities index parts.2.2 shift.input shift.amount shift.width .lShr
  else ZeroFallbackAccepted s leaves equalities index expr shift.input shift.amount shift.width
    shift.kind

def ShiftFits (s : Arena) (leaves : List TermId) (equalities : List BvPair)
    (index : LogSlicingIndex) (shift : LogShiftAssertion) (expr : TermId) : Prop :=
  if shift.kind = .aShr then
    ∀ parts, ashrParts s index shift expr = ok (some parts) →
      ZeroFallbackFits s leaves equalities index parts.1 parts.2.1 shift.amount shift.width .lShr ∧
      (ZeroFallbackAccepted s leaves equalities index parts.1 parts.2.1 shift.amount shift.width .lShr →
        ZeroFallbackFits s leaves equalities index parts.2.2 shift.input shift.amount shift.width .lShr)
  else ZeroFallbackFits s leaves equalities index expr shift.input shift.amount shift.width shift.kind

section Returns

variable (hs : q.arena.Inv) (hi : index.Sound q) (hl : Leaves q leaves)
  (heq : ∀ p ∈ equalities, EqualBv q p.1 p.2)
include hs hi hl heq

variable (shiftKind) in
theorem verifyCandidate_spec (hinput : q.arena.IsBv input w) (hamount : q.arena.IsBv amount w)
    {p : BvPair} (hmask : q.arena.IsBv p.1 w) (hstage : q.arena.IsBv p.2 w) :
    Only (verifyCandidate q.arena leaves equalities index input amount w shiftKind p)
      (fun found => found = true ↔
        CandidateAccepted q.arena leaves equalities index input amount w shiftKind p) ∧
    (Returns (verifyCandidate q.arena leaves equalities index input amount w shiftKind p) ↔
      CandidateFits q.arena leaves equalities index input amount w shiftKind p) := by
  obtain ⟨found, hfound, -⟩ := maskRepeatsLt_answers hs hi hl heq hmask hamount
  obtain ⟨honly, -, hreturns⟩ := verifyStage_spec shiftKind hs hi heq hinput hamount
    65 hstage (by decide : 64 < 65)
  rw [verifyCandidate, CandidateAccepted, CandidateFits, hfound, ok_bind]
  cases found with
  | true =>
    refine ⟨honly.mono fun found h => h.trans (and_iff_right rfl).symm, (hreturns rfl).trans ?_⟩
    exact ⟨fun h _ => h, fun h => h rfl⟩
  | false =>
    refine ⟨only_ok (iff_of_false Bool.false_ne_true fun h => nomatch h.1), ?_⟩
    exact iff_of_true (returns_ok false) fun h => nomatch h

variable (shiftKind) in
theorem verifyZeroFallback_spec (hinput : q.arena.IsBv input w) (hamount : q.arena.IsBv amount w)
    (ht : q.arena.IsBv t w) :
    Only (verifyLogSlicingZeroFallbackShiftExpr q.arena leaves equalities index t input amount w
        shiftKind)
      (fun found => found = true ↔
        ZeroFallbackAccepted q.arena leaves equalities index t input amount w shiftKind) ∧
    (Returns (verifyLogSlicingZeroFallbackShiftExpr q.arena leaves equalities index t input amount w
        shiftKind) ↔
      ZeroFallbackFits q.arena leaves equalities index t input amount w shiftKind) := by
  obtain ⟨candidates, hcandidates, hmasked⟩ := zeroFallbackCandidates_answers hs heq ht
  have hcandidate := fun p hp => verifyCandidate_spec shiftKind hs hi hl heq hinput
    hamount (hmasked p hp).1 (hmasked p hp).2.1
  rw [verifyLogSlicingZeroFallbackShiftExpr, ZeroFallbackAccepted, ZeroFallbackFits, hcandidates,
    ok_bind]
  simp only [Outcome.ok.injEq, exists_eq_left', forall_eq']
  exact ⟨only_anyM fun p hp => (hcandidate p hp).1,
    returns_anyM_iff (fun p hp => (hcandidate p hp).1) fun p hp => (hcandidate p hp).2⟩

theorem verifyShiftExpr_spec {shift : LogShiftAssertion}
    (hinput : q.arena.IsBv shift.input shift.width) (hamount : q.arena.IsBv shift.amount shift.width)
    (ht : q.arena.IsBv t shift.width) :
    Only (verifyLogSlicingShiftExpr q.arena leaves equalities index shift t)
      (fun found => found = true ↔ ShiftAccepted q.arena leaves equalities index shift t) ∧
    (Returns (verifyLogSlicingShiftExpr q.arena leaves equalities index shift t) ↔
      ShiftFits q.arena leaves equalities index shift t) := by
  rw [verifyLogSlicingShiftExpr, ShiftAccepted, ShiftFits]
  by_cases hashr : shift.kind = .aShr
  · simp only [if_pos hashr]
    obtain ⟨o, hparts, ho⟩ := ashrParts_answers hs hi ht hinput
    rw [verifyLogSlicingAshrExpr, hparts, ok_bind]
    cases o with
    | none =>
      refine ⟨only_ok (iff_of_false Bool.false_ne_true ?_), iff_of_true (returns_ok false) ?_⟩
      · rintro ⟨parts, h, -⟩
        cases h
      · intro parts h
        cases h
    | some parts =>
      have hsorts := ho parts rfl
      obtain ⟨honly, hreturns⟩ := verifyZeroFallback_spec .lShr hs hi hl heq
        hsorts.notInput hamount hsorts.negative
      obtain ⟨honly', hreturns'⟩ := verifyZeroFallback_spec .lShr hs hi hl heq
        hinput hamount hsorts.nonnegative
      simp only [Outcome.ok.injEq, Option.some.injEq, exists_eq_left', forall_eq']
      refine ⟨honly.and honly', ?_⟩
      rw [returns_and_iff honly, hreturns, hreturns']
  · simp only [if_neg hashr]
    exact verifyZeroFallback_spec shift.kind hs hi hl heq hinput hamount ht

omit hs hi hl heq in
/-- The term differs from the result of the shift. -/
theorem differingExpr_some {p : BvPair} {shift : LogShiftAssertion} {expr : TermId}
    (h : differingExpr shift p.1 p.2 = some expr) (hp : DistinctBv q p.1 p.2) :
    DistinctBv q expr shift.result := by
  unfold differingExpr at h
  split at h
  · rename_i hfirst
    cases h
    exact hfirst ▸ hp.symm
  · split at h
    · rename_i hsecond
      cases h
      exact hsecond ▸ hp
    · cases h

/-- What the pass finds for a disequality and a shift. -/
theorem refutesShift_spec {p : BvPair} (hp : DistinctBv q p.1 p.2) {shift : LogShiftAssertion}
    (hshift : shift.Holds q) :
    Only (refutesShift q.arena leaves equalities index p shift)
      (fun found => found = true ↔ ∃ expr, differingExpr shift p.1 p.2 = some expr ∧
        ShiftAccepted q.arena leaves equalities index shift expr) ∧
    (Returns (refutesShift q.arena leaves equalities index p shift) ↔
      ∀ expr, differingExpr shift p.1 p.2 = some expr →
        ShiftFits q.arena leaves equalities index shift expr) := by
  rw [refutesShift]
  cases hexpr : differingExpr shift p.1 p.2 with
  | none =>
    exact ⟨only_ok (by simp), iff_of_true (returns_ok false) fun expr h => nomatch h⟩
  | some expr =>
    have hsort := ((differingExpr_some hexpr hp).symm.of_width hshift.result).1
    simpa using verifyShiftExpr_spec hs hi hl heq hshift.input hshift.amount hsort

end Returns

/-- The disequalities and shifts up to the first that contradict each other: wherever one of them
leads to a walk, the last stage fits the machine word. -/
def ShiftStagesFit (q : Query) : Prop :=
  q.assumptions = [] → q.arena.nodes.length ≤ 40000 →
  ∀ leaves equalities disequalities shifts index, conjuncts q = ok leaves →
    bvEqualitiesAndDisequalities q = ok (equalities, disequalities) →
    logShiftAssertions q.arena equalities = ok shifts →
    LogSlicingIndex.new q.arena equalities = ok index →
      UpToHit
        (fun p => ∃ shift ∈ shifts, ∃ expr, differingExpr shift p.1 p.2 = some expr ∧
          ShiftAccepted q.arena leaves equalities index shift expr)
        (fun p => UpToHit
          (fun shift => ∃ expr, differingExpr shift p.1 p.2 = some expr ∧
            ShiftAccepted q.arena leaves equalities index shift expr)
          (fun shift => ∀ expr, differingExpr shift p.1 p.2 = some expr →
            ShiftFits q.arena leaves equalities index shift expr) shifts) disequalities

/-- **A walk down from a last stage returns just where that stage fits the machine word**, which for
words of up to 32 bits it does; **the pass returns just where every last stage it comes to fits.**
Panics are shifts by 32 or more, differences below zero and walks that do not end. -/
theorem log_slicing_shift_returns_iff (hq : q.WellFormed) :
    (∀ equalities disequalities index stage input amount w shiftKind,
      bvEqualitiesAndDisequalities q = ok (equalities, disequalities) →
      LogSlicingIndex.new q.arena equalities = ok index → q.arena.IsBv stage w →
      q.arena.IsBv input w → q.arena.IsBv amount w →
        (Returns (verifyLogSlicingShiftStage q.arena equalities index input amount w shiftKind 65
          stage 64) ↔ LastStageFits q.arena equalities index input amount w shiftKind stage) ∧
        (w ≤ 32 → LastStageFits q.arena equalities index input amount w shiftKind stage)) ∧
    (Returns (hasLogSlicingShiftContradiction q) ↔ ShiftStagesFit q) := by
  have hs := hq.arena
  constructor
  · intro equalities disequalities index stage input amount w shiftKind hcollect hindex hstage
      hinput hamount
    obtain ⟨heq, -⟩ := (bvEqualitiesAndDisequalities_answers hq).of_eq hcollect
    have hi := (LogSlicingIndex.new_answers heq).of_eq hindex
    refine ⟨(verifyStage_spec shiftKind hs hi heq hinput hamount 65 hstage (by decide)).2.2 rfl,
      fun hw => .inr (upToHit_of_forall fun target htarget definitions hdefinitions => ?_)⟩
    refine upToHit_of_forall fun d hd bit hbit => ?_
    have htargetBv := ((hi.of_aliasesOf hstage htarget).of_width hstage).1
    have hmux := (logMuxDefinitions_answers hs heq htargetBv).of_eq hdefinitions d hd
    have hlt := ((repeatedAmountBit_answers hs hi hmux.maskSort hamount).of_eq hbit bit rfl).1
    omega
  · rw [hasLogSlicingShiftContradiction, ShiftStagesFit]
    split
    · rename_i hskip
      refine iff_of_true (returns_ok false) fun hassumptions hlen => ?_
      rcases hskip with h | h
      · exact absurd hassumptions h
      · exact absurd hlen (Nat.not_le.mpr h)
    · rename_i hgo
      simp only [not_or, not_not, ne_eq, Nat.not_lt] at hgo
      obtain ⟨leaves, hleaves, hsorts, htrue⟩ := conjuncts_answers hq
      obtain ⟨⟨equalities, disequalities⟩, hcollect, h⟩ := bvEqualitiesAndDisequalities_answers hq
      have heq : ∀ p ∈ equalities, EqualBv q p.1 p.2 := h.1
      have hne : ∀ p ∈ disequalities, DistinctBv q p.1 p.2 := h.2
      obtain ⟨shifts, hshifts, hhold⟩ := logShiftAssertions_answers hs heq
      obtain ⟨index, hindex, hi⟩ := LogSlicingIndex.new_answers heq
      have hl : Leaves q leaves := fun leaf hleaf =>
        ⟨hsorts leaf hleaf, fun ρ hρ => (htrue ρ).mp hρ leaf hleaf⟩
      rw [hleaves, hcollect, ok_bind, ok_bind]
      dsimp only
      rw [hshifts, ok_bind, hindex]
      have hrefutes := fun p hp shift hshift =>
        refutesShift_spec hs hi hl heq (hne p hp) (hhold shift hshift)
      have hsearch : Returns (if shifts = [] then pure false else ok index >>= fun index =>
          disequalities.anyM fun p => shifts.anyM (refutesShift q.arena leaves equalities index p)) ↔
          Returns (disequalities.anyM fun p =>
            shifts.anyM (refutesShift q.arena leaves equalities index p)) := by
        split
        · rename_i hnone
          subst hnone
          exact iff_of_true (returns_ok false) (returns_anyM fun p _ => returns_ok false)
        · exact Iff.rfl
      refine (hsearch.trans (returns_anyM_iff (fun p hp => only_anyM fun shift hshift =>
        (hrefutes p hp shift hshift).1) fun p hp => returns_anyM_iff (fun shift hshift =>
          (hrefutes p hp shift hshift).1) fun shift hshift => (hrefutes p hp shift hshift).2)).trans ?_
      constructor
      · rintro h - - _ _ _ _ _ ⟨⟩ ⟨⟩ hshifts' hindex'
        cases hshifts.symm.trans hshifts'
        cases hindex.symm.trans hindex'
        exact h
      · exact fun h => h hgo.1 hgo.2 leaves equalities disequalities shifts index rfl rfl hshifts hindex

/-- A shift of 64 bits with one stage, for a given bit of the amount. -/
def singleStageShift (bit : Nat) : Query := .asserting [
    ⟨.bvVar 64 "x" (some 0), .bv 64⟩,
    ⟨.bvVar 64 "amount" (some 1), .bv 64⟩,
    ⟨.bvVar 64 "result" (some 2), .bv 64⟩,
    ⟨.bvShl 0 1, .bv 64⟩,
    ⟨.bvEq 2 3, .bool⟩,
    ⟨.bvExtract 1 bit bit, .bv 1⟩,
    ⟨.bvConcat 5 5, .bv 2⟩,
    ⟨.bvConcat 6 6, .bv 4⟩,
    ⟨.bvConcat 7 7, .bv 8⟩,
    ⟨.bvConcat 8 8, .bv 16⟩,
    ⟨.bvConcat 9 9, .bv 32⟩,
    ⟨.bvConcat 10 10, .bv 64⟩,
    ⟨.bvVar 64 "stage" (some 3), .bv 64⟩,
    ⟨.bvVar 64 "shifted" (some 4), .bv 64⟩,
    ⟨.bvNot 11, .bv 64⟩,
    ⟨.bvAnd 11 13, .bv 64⟩,
    ⟨.bvAnd 14 0, .bv 64⟩,
    ⟨.bvOr 15 16, .bv 64⟩,
    ⟨.bvEq 12 17, .bool⟩,
    ⟨.bvConst 64 [64, 0, 0, 0, 0, 0, 0, 0], .bv 64⟩,
    ⟨.bvVar 1 "same" (some 5), .bv 1⟩,
    ⟨.bvConst 1 [1], .bv 1⟩,
    ⟨.bvEq 20 21, .bool⟩,
    ⟨.bvExtract 1 1 1, .bv 1⟩,
    ⟨.bvExtract 19 1 1, .bv 1⟩,
    ⟨.bvEq 23 24, .bool⟩,
    ⟨.boolEq 22 25, .bool⟩,
    ⟨.bvNot 20, .bv 1⟩,
    ⟨.bvExtract 1 0 0, .bv 1⟩,
    ⟨.bvExtract 19 0 0, .bv 1⟩,
    ⟨.bvAnd 20 28, .bv 1⟩,
    ⟨.bvAnd 27 23, .bv 1⟩,
    ⟨.bvOr 30 31, .bv 1⟩,
    ⟨.bvVar 1 "left" (some 6), .bv 1⟩,
    ⟨.bvEq 33 32, .bool⟩,
    ⟨.bvAnd 20 29, .bv 1⟩,
    ⟨.bvAnd 27 24, .bv 1⟩,
    ⟨.bvOr 35 36, .bv 1⟩,
    ⟨.bvVar 1 "right" (some 7), .bv 1⟩,
    ⟨.bvEq 38 37, .bool⟩,
    ⟨.bvNot 33, .bv 1⟩,
    ⟨.bvAnd 40 38, .bv 1⟩,
    ⟨.bvConcat 41 41, .bv 2⟩,
    ⟨.bvConcat 42 42, .bv 4⟩,
    ⟨.bvConcat 43 43, .bv 8⟩,
    ⟨.bvConcat 44 44, .bv 16⟩,
    ⟨.bvConcat 45 45, .bv 32⟩,
    ⟨.bvConcat 46 46, .bv 64⟩,
    ⟨.bvAnd 47 12, .bv 64⟩,
    ⟨.bvEq 2 48, .bool⟩,
    ⟨.boolNot 49, .bool⟩] [4, 18, 26, 34, 39, 50]

/-- For bit 32 of the amount, `1 << 32` does not fit 32 bits. -/
theorem log_slicing_shift_of_bit_32 : (singleStageShift 32).WellFormed ∧
    hasLogSlicingShiftContradiction (singleStageShift 32) = panic :=
  ⟨Query.wellFormed_of_check (by decide) (by decide), by decide⟩

theorem log_slicing_shift_of_bit_5 :
    hasLogSlicingShiftContradiction (singleStageShift 5) = ok false ∧
      ShiftStagesFit (singleStageShift 5) := by
  have hfound : hasLogSlicingShiftContradiction (singleStageShift 5) = ok false := by
    decide
  exact ⟨hfound, (log_slicing_shift_returns_iff
    (Query.wellFormed_of_check (by decide) (by decide))).2.mp ⟨_, hfound⟩⟩

end Shortcuts
end Qfbv
end SmtServer
