import Mathlib.Data.List.ReduceOption
import Mathlib.Data.List.Sort
import SmtServer.Lib.MixedWords
import SmtServer.Qfbv.Shortcuts.Matching

/-!
# `log_slicing.rs` — adders written out

A query may spell out an adder: the sum is the exclusive or of the operands and of a word of carries,
and that word is the word of outgoing carries moved up by one bit. It is defined by itself, through
equations between slices that may stand anywhere in the query and either way round.

Every adder that is collected adds (`LogSlicingAdder.Adds`), so a query cannot be satisfied that says
of its sum that it differs from the sum of the operands, or from a difference if one of the operands
is the sum of an adder that negates.
-/

namespace SmtServer
namespace Qfbv

open Lib Outcome

namespace Shortcuts

structure LogSlicingAdder where
  sum : TermId
  a : TermId
  b : TermId
  deriving DecidableEq

/-- The order of the keys that the adders are sorted by. -/
def LogSlicingAdder.le (x y : LogSlicingAdder) : Prop :=
  x.sum < y.sum ∨ (x.sum = y.sum ∧ (x.a < y.a ∨ (x.a = y.a ∧ x.b ≤ y.b)))

instance : DecidableRel LogSlicingAdder.le := fun _ _ => inferInstanceAs (Decidable (_ ∨ _))

def collectBvOrTerms (s : Arena) (term : TermId) : Result (List TermId) :=
  collect (·.bvOr?) s (term + 1) term

/-- The loop of `is_log_slicing_carry` over the three parts of a disjunction. -/
def seenPairs (s : Arena) (a b cin : TermId) :
    (terms : List TermId) → (seenAb seenAc seenBc : Bool) → Result Bool
  | [], seenAb, seenAc, seenBc => return seenAb && seenAc && seenBc
  | term :: terms, seenAb, seenAc, seenBc => do
    let some (x, y) ← bvAndParts s term | return false
    if sameUnorderedPair x y a b then seenPairs s a b cin terms true seenAc seenBc
    else if sameUnorderedPair x y a cin then seenPairs s a b cin terms seenAb true seenBc
    else if sameUnorderedPair x y b cin then seenPairs s a b cin terms seenAb seenAc true
    else return false

def isLogSlicingCarry (s : Arena) (term a b cin : TermId) : Result Bool := do
  let terms ← collectBvOrTerms s term
  if terms.length ≠ 3 then return false
  seenPairs s a b cin terms false false false

def findLogSlicingCout (s : Arena) (equalities : List BvPair) (a b cin : TermId) :
    Result (Option TermId) :=
  equalities.findSomeM? fun (left, right) => do
    if ← isLogSlicingCarry s left a b cin then return some right
    if ← isLogSlicingCarry s right a b cin then return some left
    return none

def isExtractOf (s : Arena) (term child : TermId) (high low : Nat) : Result Bool := do
  return (← kind s term).bvExtract? == some (child, high, low)

def hasShift (s : Arena) (equalities : List BvPair) (cout concat : TermId) (width : Nat) :
    Result Bool :=
  equalities.anyM fun (a, b) =>
    ((isExtractOf s a cout (width - 2) 0).unwrapOr false <&&>
        (isExtractOf s b concat (width - 1) 1).unwrapOr false) <||>
      ((isExtractOf s b cout (width - 2) 0).unwrapOr false <&&>
        (isExtractOf s a concat (width - 1) 1).unwrapOr false)

def hasLowZero (s : Arena) (equalities : List BvPair) (concat : TermId) : Result Bool :=
  equalities.anyM fun (a, b) =>
    ((isExtractOf s a concat 0 0).unwrapOr false <&&> (isZeroBvConst s b).unwrapOr false) <||>
      ((isExtractOf s b concat 0 0).unwrapOr false <&&> (isZeroBvConst s a).unwrapOr false)

def hasLogSlicingCarryShift (s : Arena) (equalities : List BvPair) (cin cout : TermId)
    (width : Nat) : Result Bool := do
  if width < 2 then return false
  equalities.anyM fun (left, right) =>
    let concat := if left = cin then some right else if right = cin then some left else none
    match concat with
    | none => return false
    | some concat => hasShift s equalities cout concat width <&&> hasLowZero s equalities concat

/-- One round of the loop over the three terms of which one is the word of carries. -/
def logSlicingAdderWith (s : Arena) (equalities : List BvPair) (sum : TermId) (width : Nat)
    (cin a b : TermId) : Result (Option LogSlicingAdder) := do
  let some cout ← findLogSlicingCout s equalities a b cin | return none
  if ← hasLogSlicingCarryShift s equalities cin cout width then return some ⟨sum, a, b⟩
  return none

def collectLogSlicingAddersFromOrientation (s : Arena) (equalities : List BvPair)
    (sum xorTerm : TermId) : Result (List LogSlicingAdder) := do
  let .bv width ← s.sort sum | return []
  match ← collectBvXorTerms s xorTerm with
  | [x, y, z] =>
    let first ← logSlicingAdderWith s equalities sum width x y z
    let second ← logSlicingAdderWith s equalities sum width y x z
    let third ← logSlicingAdderWith s equalities sum width z x y
    return [first, second, third].reduceOption
  | _ => return []

def collectLogSlicingAdders (s : Arena) (equalities : List BvPair) :
    Result (List LogSlicingAdder) := do
  let adders ← equalities.mapM fun (sum, xorTerm) => do
    return (← collectLogSlicingAddersFromOrientation s equalities sum xorTerm) ++
      (← collectLogSlicingAddersFromOrientation s equalities xorTerm sum)
  return (adders.flatten.insertionSort LogSlicingAdder.le).dedup

def isTwosComplementNegationAdder (s : Arena) (adder : LogSlicingAdder) (term : TermId) :
    Result Bool :=
  (isBvNotOf s adder.a term <&&> isOneBvConst s adder.b) <||>
    (isBvNotOf s adder.b term <&&> isOneBvConst s adder.a)

/-- Whether an equality says the same of a sum or a difference that an adder denies. -/
def adderContradicts (s : Arena) (adders : List LogSlicingAdder) (disequalities : List BvPair)
    (result arithmetic : TermId) : Result Bool := do
  match ← kind s arithmetic with
  | .bvAdd a b =>
    return adders.any fun adder => sameUnorderedPair adder.a adder.b a b &&
      disequalities.any fun (x, y) => sameUnorderedPair x y result adder.sum
  | .bvSub a b =>
    adders.anyM fun outer =>
      pure (disequalities.any fun (x, y) => sameUnorderedPair x y result outer.sum) <&&>
        adders.anyM fun inner => pure (sameUnorderedPair outer.a outer.b a inner.sum) <&&>
          (isTwosComplementNegationAdder s inner b).unwrapOr false
  | _ => return false

def hasLogSlicingAdderContradiction (q : Query) : Result Bool := do
  let (equalities, disequalities) ← bvEqualitiesAndDisequalities q
  let adders ← collectLogSlicingAdders q.arena equalities
  equalities.anyM fun (result, arithmetic) =>
    adderContradicts q.arena adders disequalities result arithmetic

/-! ## Carries -/

variable {s : Arena} {q : Query} {ρ : Env} {t a b c : TermId} {w : Nat} {equalities : List BvPair}

theorem collectBvOrTerms_answers (hs : s.Inv) (ht : s.IsBv t w) :
    Answers (collectBvOrTerms s t) fun leaves => (∀ leaf ∈ leaves, s.IsBv leaf w) ∧
      ∀ ρ i, s.bit ρ t i = leaves.any (s.bit ρ · i) := by
  refine (collect_answers (P := fun t leaves => s.IsBv t w → (∀ leaf ∈ leaves, s.IsBv leaf w) ∧
    ∀ ρ i, s.bit ρ t i = leaves.any (s.bit ρ · i)) hs ?_ ?_ ?_ _ t
      (Nat.lt_succ_self t) ht).mono fun leaves h => h ht
  · intro k a b hk
    rw [NodeKind.bvOr?_eq.mp hk]
    simp [NodeKind.children]
  · intro t k _ _ ht
    simp [ht]
  · intro t k a b la lb hk hsplit iha ihb ht
    rw [NodeKind.bvOr?_eq.mp hsplit] at hk
    obtain ⟨ha, hb⟩ := hs.binary_sort hk ht id
    obtain ⟨hla, hta⟩ := iha ha
    obtain ⟨hlb, htb⟩ := ihb hb
    refine ⟨List.forall_mem_append.mpr ⟨hla, hlb⟩, fun ρ i => ?_⟩
    rw [Arena.bit_bvOr hs hk, hta ρ, htb ρ, List.any_append]

/-- A pair of bits that is seen, of those that may be. -/
theorem bit_of_pair (hs : s.Inv) {x y : TermId} (hk : s.kindAt t = some (.bvAnd x y))
    (h : sameUnorderedPair x y a b = true) (i : Nat) :
    s.bit ρ t i = (s.bit ρ a i && s.bit ρ b i) := by
  rw [Arena.bit_bvAnd hs hk]
  rcases sameUnorderedPair_eq.mp h with ⟨rfl, rfl⟩ | ⟨rfl, rfl⟩
  · rfl
  · exact Bool.and_comm _ _

/-- The parts are pairs of bits, and with those seen before they are all three. -/
theorem seenPairs_true (hs : s.Inv) {terms : List TermId} {seenAb seenAc seenBc : Bool}
    (h : seenPairs s a b c terms seenAb seenAc seenBc = ok true) (ρ : Env) (i : Nat) :
    (terms.any (s.bit ρ · i) || (seenAb && (s.bit ρ a i && s.bit ρ b i)) ||
        (seenAc && (s.bit ρ a i && s.bit ρ c i)) || (seenBc && (s.bit ρ b i && s.bit ρ c i))) =
      Bool.atLeastTwo (s.bit ρ a i) (s.bit ρ b i) (s.bit ρ c i) := by
  induction terms generalizing seenAb seenAc seenBc with
  | nil =>
    have hall := Outcome.ok.inj h
    simp only [Bool.and_eq_true] at hall
    obtain ⟨⟨rfl, rfl⟩, rfl⟩ := hall
    cases s.bit ρ a i <;> cases s.bit ρ b i <;> cases s.bit ρ c i <;> rfl
  | cons term terms ih =>
    obtain ⟨x, y, hparts, h⟩ := let_pair h
    have hk := bvAndParts_eq.mp hparts
    rw [List.any_cons]
    split at h
    · rename_i hpair
      rw [bit_of_pair hs hk hpair, ← ih h]
      cases s.bit ρ a i && s.bit ρ b i <;> simp
    · split at h
      · rename_i hpair
        rw [bit_of_pair hs hk hpair, ← ih h]
        cases s.bit ρ a i && s.bit ρ c i <;> simp
      · split at h
        · rename_i hpair
          rw [bit_of_pair hs hk hpair, ← ih h]
          cases s.bit ρ b i && s.bit ρ c i <;> simp
        · cases h

/-- A carry is one where at least two of the three bits are. -/
theorem isLogSlicingCarry_true (hs : s.Inv) (ht : s.IsBv t w)
    (h : isLogSlicingCarry s t a b c = ok true) (ρ : Env) (i : Nat) :
    s.bit ρ t i = Bool.atLeastTwo (s.bit ρ a i) (s.bit ρ b i) (s.bit ρ c i) := by
  obtain ⟨terms, hterms, h⟩ := bind_eq_ok.mp h
  obtain ⟨-, h⟩ := of_if h
  rw [((collectBvOrTerms_answers hs ht).of_eq hterms).2, ← seenPairs_true hs h ρ i]
  simp

/-! ## Equations between slices -/

theorem EqualBv.bit (hs : q.arena.Inv) (h : EqualBv q a b) (hρ : Asserted q ρ) (i : Nat) :
    q.arena.bit ρ a i = q.arena.bit ρ b i := by
  obtain ⟨w, ha, hb, heq⟩ := h
  rw [← ha.getLsbD hs, heq ρ hρ, hb.getLsbD hs]

theorem isExtractOf_true {child : TermId} {high low : Nat}
    (h : (isExtractOf s t child high low).unwrapOr false = ok true) :
    s.kindAt t = some (.bvExtract child high low) := by
  obtain ⟨k, hk, h⟩ := bind_eq_ok.mp (of_unwrapOr h)
  rw [pure_eq, Outcome.ok.injEq, beq_iff_eq] at h
  rw [kind_eq_ok.mp hk, NodeKind.bvExtract?_eq.mp h]

section Slices

variable (hs : q.arena.Inv) (heq : ∀ p ∈ equalities, EqualBv q p.1 p.2)
include hs heq

theorem findLogSlicingCout_some {cout : TermId}
    (h : findLogSlicingCout q.arena equalities a b c = ok (some cout)) (hρ : Asserted q ρ) (i : Nat) :
    q.arena.bit ρ cout i =
      Bool.atLeastTwo (q.arena.bit ρ a i) (q.arena.bit ρ b i) (q.arena.bit ρ c i) := by
  obtain ⟨⟨left, right⟩, hp, h⟩ := of_findSomeM? h
  obtain ⟨w, hl, hr, -⟩ := heq _ hp
  obtain ⟨found, hfound, h⟩ := bind_eq_ok.mp h
  cases found with
  | true =>
    cases h
    rw [← (heq _ hp).bit hs hρ]
    exact isLogSlicingCarry_true hs hl hfound ρ i
  | false =>
    obtain ⟨found, hright, h⟩ := bind_eq_ok.mp h
    cases found with
    | true =>
      cases h
      rw [(heq _ hp).bit hs hρ]
      exact isLogSlicingCarry_true hs hr hright ρ i
    | false => cases h

theorem hasShift_true {cout concat : TermId} (hw : 2 ≤ w)
    (h : hasShift q.arena equalities cout concat w = ok true) (hρ : Asserted q ρ) {i : Nat}
    (hi : i + 1 < w) : q.arena.bit ρ concat (i + 1) = q.arena.bit ρ cout i := by
  have key : ∀ {x y : TermId}, EqualBv q x y →
      q.arena.kindAt x = some (.bvExtract cout (w - 2) 0) →
      q.arena.kindAt y = some (.bvExtract concat (w - 1) 1) →
      q.arena.bit ρ concat (i + 1) = q.arena.bit ρ cout i := by
    intro x y hxy hx hy
    have hbit := hxy.bit hs hρ i
    rw [Arena.bit_bvExtract hs hx (by omega), Arena.bit_bvExtract hs hy (by omega), Nat.zero_add,
      Nat.add_comm 1] at hbit
    exact hbit.symm
  obtain ⟨p, hp, h⟩ := exists_of_anyM h
  rcases true_of_or h with h | h
  · obtain ⟨hx, hy⟩ := and_eq_true.mp h
    exact key (heq p hp) (isExtractOf_true hx) (isExtractOf_true hy)
  · obtain ⟨hx, hy⟩ := and_eq_true.mp h
    exact key (heq p hp).symm (isExtractOf_true hx) (isExtractOf_true hy)

theorem hasLowZero_true {concat : TermId} (h : hasLowZero q.arena equalities concat = ok true)
    (hρ : Asserted q ρ) : q.arena.bit ρ concat 0 = false := by
  have key : ∀ {x y : TermId}, EqualBv q x y → q.arena.kindAt x = some (.bvExtract concat 0 0) →
      isZeroBvConst q.arena y = ok true → q.arena.bit ρ concat 0 = false := by
    intro x y hxy hx hy
    have hbit := hxy.bit hs hρ 0
    obtain ⟨w, -, hyw, -⟩ := hxy
    rw [Arena.bit_bvExtract hs hx (Nat.zero_le _), ← hyw.getLsbD hs,
      isZeroBvConst_true hs hyw hy] at hbit
    rw [hbit]
    exact BitVec.getLsbD_zero
  obtain ⟨p, hp, h⟩ := exists_of_anyM h
  rcases true_of_or h with h | h
  · obtain ⟨hx, hy⟩ := and_eq_true.mp h
    exact key (heq p hp) (isExtractOf_true hx) (of_unwrapOr hy)
  · obtain ⟨hx, hy⟩ := and_eq_true.mp h
    exact key (heq p hp).symm (isExtractOf_true hx) (of_unwrapOr hy)

/-- The carries start with nothing and are the outgoing carries moved up by one bit. -/
theorem hasLogSlicingCarryShift_true {cin cout : TermId}
    (h : hasLogSlicingCarryShift q.arena equalities cin cout w = ok true) (hρ : Asserted q ρ) :
    q.arena.bit ρ cin 0 = false ∧
      ∀ i, i + 1 < w → q.arena.bit ρ cin (i + 1) = q.arena.bit ρ cout i := by
  obtain ⟨hw, h⟩ := of_if h
  obtain ⟨p, hp, h⟩ := exists_of_anyM h
  have key : ∀ {concat : TermId}, EqualBv q cin concat →
      (hasShift q.arena equalities cout concat w <&&> hasLowZero q.arena equalities concat) =
        ok true →
      q.arena.bit ρ cin 0 = false ∧
        ∀ i, i + 1 < w → q.arena.bit ρ cin (i + 1) = q.arena.bit ρ cout i := by
    intro concat hconcat h
    obtain ⟨hshift, hzero⟩ := and_eq_true.mp h
    refine ⟨?_, fun i hi => ?_⟩
    · rw [hconcat.bit hs hρ, hasLowZero_true hs heq hzero hρ]
    · rw [hconcat.bit hs hρ, hasShift_true hs heq (by omega) hshift hρ hi]
  dsimp only at h
  by_cases hleft : p.1 = cin
  · rw [if_pos hleft] at h
    exact key (hleft ▸ heq p hp) h
  · rw [if_neg hleft] at h
    by_cases hright : p.2 = cin
    · rw [if_pos hright] at h
      exact key (hright ▸ (heq p hp).symm) h
    · rw [if_neg hright] at h
      cases h

end Slices

/-! ## Adders -/

/-- The sum is the sum of the operands, wherever the assertions are true. -/
def LogSlicingAdder.Adds (q : Query) (adder : LogSlicingAdder) : Prop :=
  ∃ w, q.arena.IsBv adder.sum w ∧ q.arena.IsBv adder.a w ∧ q.arena.IsBv adder.b w ∧
    ∀ ρ, Asserted q ρ →
      q.arena.bv ρ adder.sum w = q.arena.bv ρ adder.a w + q.arena.bv ρ adder.b w

theorem logSlicingAdderWith_some (hs : q.arena.Inv) (heq : ∀ p ∈ equalities, EqualBv q p.1 p.2)
    {sum : TermId} (hsum : q.arena.IsBv sum w) (ha : q.arena.IsBv a w) (hb : q.arena.IsBv b w)
    (hxor : ∀ ρ, Asserted q ρ → ∀ i, q.arena.bit ρ sum i =
      (q.arena.bit ρ a i ^^ (q.arena.bit ρ b i ^^ q.arena.bit ρ c i)))
    {adder : LogSlicingAdder}
    (h : logSlicingAdderWith q.arena equalities sum w c a b = ok (some adder)) : adder.Adds q := by
  obtain ⟨cout, hcout, h⟩ := let_term h
  obtain ⟨found, hfound, h⟩ := bind_eq_ok.mp h
  cases found with
  | false => cases h
  | true =>
    cases h
    refine ⟨w, hsum, ha, hb, fun ρ hρ => ?_⟩
    obtain ⟨h0, hsucc⟩ := hasLogSlicingCarryShift_true hs heq hfound hρ
    refine MixedWords.eq_add_of_carries (c := q.arena.bit ρ c) h0 (fun i hi => ?_) fun i _ => ?_
    · rw [hsucc i hi, findLogSlicingCout_some hs heq hcout hρ, ha.getLsbD hs, hb.getLsbD hs]
    · rw [ha.getLsbD hs, hb.getLsbD hs, hsum.getLsbD hs, hxor ρ hρ]

theorem adders_of_orientation (hs : q.arena.Inv) (heq : ∀ p ∈ equalities, EqualBv q p.1 p.2)
    {sum xorTerm : TermId} (hequal : EqualBv q sum xorTerm) {adders : List LogSlicingAdder}
    (h : collectLogSlicingAddersFromOrientation q.arena equalities sum xorTerm = ok adders) :
    ∀ adder ∈ adders, adder.Adds q := by
  obtain ⟨w, hsum, hxorw, hval⟩ := hequal
  have hequal : EqualBv q sum xorTerm := ⟨w, hsum, hxorw, hval⟩
  rw [collectLogSlicingAddersFromOrientation, Arena.sort_eq_ok.mpr hsum, ok_bind] at h
  obtain ⟨terms, hterms, h⟩ := bind_eq_ok.mp h
  obtain ⟨hsorts, hbits⟩ := (collectBvXorTerms_answers hs hxorw).of_eq hterms
  split at h
  · rename_i x y z
    simp only [List.forall_mem_cons, List.not_mem_nil, false_imp_iff, implies_true,
      and_true] at hsorts
    obtain ⟨hx, hy, hz⟩ := hsorts
    have hsumbit : ∀ ρ, Asserted q ρ → ∀ i, q.arena.bit ρ sum i =
        (q.arena.bit ρ x i ^^ (q.arena.bit ρ y i ^^ q.arena.bit ρ z i)) := by
      intro ρ hρ i
      rw [hequal.bit hs hρ, hbits]
      simp [Lfsr.parity]
    obtain ⟨first, hfirst, h⟩ := bind_eq_ok.mp h
    obtain ⟨second, hsecond, h⟩ := bind_eq_ok.mp h
    obtain ⟨third, hthird, h⟩ := bind_eq_ok.mp h
    cases h
    intro adder hadder
    rw [List.reduceOption_mem_iff] at hadder
    simp only [List.mem_cons, List.not_mem_nil, or_false] at hadder
    rcases hadder with rfl | rfl | rfl
    · refine logSlicingAdderWith_some hs heq hsum hy hz (fun ρ hρ i => ?_) hfirst
      rw [hsumbit ρ hρ]
      cases q.arena.bit ρ x i <;> cases q.arena.bit ρ y i <;> cases q.arena.bit ρ z i <;> rfl
    · refine logSlicingAdderWith_some hs heq hsum hx hz (fun ρ hρ i => ?_) hsecond
      rw [hsumbit ρ hρ]
      cases q.arena.bit ρ x i <;> cases q.arena.bit ρ y i <;> cases q.arena.bit ρ z i <;> rfl
    · exact logSlicingAdderWith_some hs heq hsum hx hy hsumbit hthird
  · cases h
    simp

theorem collectLogSlicingAdders_eq (hs : q.arena.Inv)
    (heq : ∀ p ∈ equalities, EqualBv q p.1 p.2) {adders : List LogSlicingAdder}
    (h : collectLogSlicingAdders q.arena equalities = ok adders) :
    ∀ adder ∈ adders, adder.Adds q := by
  obtain ⟨found, hfound, h⟩ := bind_eq_ok.mp h
  cases h
  intro adder hadder
  rw [List.mem_dedup, List.mem_insertionSort] at hadder
  obtain ⟨part, hpart, hadder⟩ := List.mem_flatten.mp hadder
  obtain ⟨⟨sum, xorTerm⟩, hp, hpart⟩ := exists_of_mapM hfound part hpart
  obtain ⟨left, hleft, hpart⟩ := bind_eq_ok.mp hpart
  obtain ⟨right, hright, hpart⟩ := bind_eq_ok.mp hpart
  cases hpart
  rcases List.mem_append.mp hadder with hadder | hadder
  · exact adders_of_orientation hs heq (heq _ hp) hleft adder hadder
  · exact adders_of_orientation hs heq (heq _ hp).symm hright adder hadder

/-- An adder that negates: one operand is the complement, the other is one. -/
theorem isTwosComplementNegationAdder_true (hs : q.arena.Inv) {adder : LogSlicingAdder}
    (hadds : adder.Adds q) (h : isTwosComplementNegationAdder q.arena adder t = ok true) :
    ∃ w, q.arena.IsBv adder.sum w ∧ q.arena.IsBv t w ∧
      ∀ ρ, Asserted q ρ → q.arena.bv ρ adder.sum w = -q.arena.bv ρ t w := by
  obtain ⟨w, hsum, ha, hb, hadd⟩ := hadds
  have key : ∀ {x y : TermId}, q.arena.IsBv x w → q.arena.IsBv y w →
      (isBvNotOf q.arena x t <&&> isOneBvConst q.arena y) = ok true →
      q.arena.IsBv t w ∧ ∀ ρ, q.arena.bv ρ x w + q.arena.bv ρ y w = -q.arena.bv ρ t w := by
    intro x y hx hy h
    obtain ⟨hnot, hone⟩ := and_eq_true.mp h
    have hk := isBvNotOf_true hnot
    refine ⟨hs.unary_sort hk hx id, fun ρ => ?_⟩
    rw [(Arena.bv_bvNot hs hk hx).2, isOneBvConst_true hs hy hone]
    exact (BitVec.neg_eq_not_add _).symm
  rcases true_of_or h with h | h
  · obtain ⟨ht, hneg⟩ := key ha hb h
    exact ⟨w, hsum, ht, fun ρ hρ => (hadd ρ hρ).trans (hneg ρ)⟩
  · obtain ⟨ht, hneg⟩ := key hb ha h
    exact ⟨w, hsum, ht, fun ρ hρ => by rw [hadd ρ hρ, BitVec.add_comm, hneg ρ]⟩

/-- The operands of an adder, in either order. -/
theorem LogSlicingAdder.Adds.of_pair {adder : LogSlicingAdder} (h : adder.Adds q)
    (hpair : sameUnorderedPair adder.a adder.b a b = true) :
    ∃ w, q.arena.IsBv adder.sum w ∧ q.arena.IsBv a w ∧ q.arena.IsBv b w ∧
      ∀ ρ, Asserted q ρ → q.arena.bv ρ adder.sum w = q.arena.bv ρ a w + q.arena.bv ρ b w := by
  obtain ⟨w, hsum, ha, hb, hadd⟩ := h
  rcases sameUnorderedPair_eq.mp hpair with ⟨rfl, rfl⟩ | ⟨rfl, rfl⟩
  · exact ⟨w, hsum, ha, hb, hadd⟩
  · exact ⟨w, hsum, hb, ha, fun ρ hρ => (hadd ρ hρ).trans (BitVec.add_comm _ _)⟩

theorem adderContradicts_true (hs : q.arena.Inv) {adders : List LogSlicingAdder}
    {disequalities : List BvPair} {result arithmetic : TermId}
    (hadders : ∀ adder ∈ adders, adder.Adds q)
    (hne : ∀ p ∈ disequalities, DistinctBv q p.1 p.2) (heq : EqualBv q result arithmetic)
    (h : adderContradicts q.arena adders disequalities result arithmetic = ok true) :
    ¬∃ ρ, Asserted q ρ := by
  rintro ⟨ρ, hρ⟩
  obtain ⟨k, hk, h⟩ := bind_eq_ok.mp h
  have hk := kind_eq_ok.mp hk
  split at h
  · obtain ⟨adder, hadder, h⟩ := List.any_eq_true.mp (Outcome.ok.inj h)
    rw [Bool.and_eq_true] at h
    obtain ⟨w, hsum, ha, hb, hadd⟩ := (hadders adder hadder).of_pair h.1
    obtain ⟨hr, hdiffer⟩ := (distinct_of_any hne h.2).symm.of_width hsum
    obtain ⟨harith, hval⟩ := heq.of_width hr
    refine hdiffer ρ hρ ?_
    rw [hadd ρ hρ, hval ρ hρ, (Arena.bv_bvAdd hs hk harith).2.2]
  · obtain ⟨outer, houter, h⟩ := exists_of_anyM h
    obtain ⟨hany, h⟩ := and_eq_true.mp h
    obtain ⟨inner, hinner, h⟩ := exists_of_anyM h
    obtain ⟨hpair, hneg⟩ := and_eq_true.mp h
    obtain ⟨w, hsum, ha, hinnerSum, hadd⟩ := (hadders outer houter).of_pair (Outcome.ok.inj hpair)
    obtain ⟨v, hv, hb, hval⟩ :=
      isTwosComplementNegationAdder_true hs (hadders inner hinner) (of_unwrapOr hneg)
    obtain rfl := hinnerSum.inj hv
    obtain ⟨hr, hdiffer⟩ := (distinct_of_any hne (Outcome.ok.inj hany)).symm.of_width hsum
    obtain ⟨harith, hequal⟩ := heq.of_width hr
    refine hdiffer ρ hρ ?_
    rw [hadd ρ hρ, hval ρ hρ, hequal ρ hρ, (Arena.bv_bvSub hs hk harith).2.2, sub_eq_add_neg]
  · cases h

/-- Every adder that is collected adds, and a query that denies what an adder adds up to cannot be
satisfied. -/
theorem log_slicing_adder_is_sound {q : Query} (hq : q.WellFormed) :
    (∀ equalities adders, (∀ p ∈ equalities, EqualBv q p.1 p.2) →
      collectLogSlicingAdders q.arena equalities = ok adders →
        ∀ adder ∈ adders, ∃ w, q.arena.IsBv adder.sum w ∧ q.arena.IsBv adder.a w ∧
          q.arena.IsBv adder.b w ∧ ∀ ρ, Asserted q ρ →
            q.arena.bv ρ adder.sum w = q.arena.bv ρ adder.a w + q.arena.bv ρ adder.b w) ∧
    (hasLogSlicingAdderContradiction q = ok true → ¬∃ ρ, Asserted q ρ) := by
  have hs := hq.arena
  refine ⟨fun equalities adders heq h => collectLogSlicingAdders_eq hs heq h, fun h => ?_⟩
  obtain ⟨⟨equalities, disequalities⟩, hcollect, h⟩ := bind_eq_ok.mp h
  obtain ⟨heq, hne⟩ := (bvEqualitiesAndDisequalities_answers hq).of_eq hcollect
  obtain ⟨adders, hadders, h⟩ := bind_eq_ok.mp h
  obtain ⟨⟨result, arithmetic⟩, hp, h⟩ := exists_of_anyM h
  exact adderContradicts_true hs (collectLogSlicingAdders_eq hs heq hadders) hne (heq _ hp) h

/-- `a - b` at four bits by two adders, of which one negates `b`. -/
def writtenSubtraction : Query := .asserting [
    ⟨.bvVar 4 "a" (some 0), .bv 4⟩,
    ⟨.bvVar 4 "b" (some 1), .bv 4⟩,
    ⟨.bvConst 4 [1], .bv 4⟩,
    ⟨.bvConst 1 [0], .bv 1⟩,
    ⟨.bvNot 1, .bv 4⟩,
    ⟨.bvVar 4 "n" (some 2), .bv 4⟩,
    ⟨.bvVar 4 "nin" (some 3), .bv 4⟩,
    ⟨.bvVar 4 "nout" (some 4), .bv 4⟩,
    ⟨.bvXor 4 2, .bv 4⟩,
    ⟨.bvXor 8 6, .bv 4⟩,
    ⟨.bvEq 5 9, .bool⟩,
    ⟨.bvAnd 4 2, .bv 4⟩,
    ⟨.bvAnd 4 6, .bv 4⟩,
    ⟨.bvAnd 6 2, .bv 4⟩,
    ⟨.bvOr 11 12, .bv 4⟩,
    ⟨.bvOr 14 13, .bv 4⟩,
    ⟨.bvEq 15 7, .bool⟩,
    ⟨.bvVar 4 "nshift" (some 5), .bv 4⟩,
    ⟨.bvEq 6 17, .bool⟩,
    ⟨.bvExtract 7 2 0, .bv 3⟩,
    ⟨.bvExtract 17 3 1, .bv 3⟩,
    ⟨.bvEq 19 20, .bool⟩,
    ⟨.bvExtract 17 0 0, .bv 1⟩,
    ⟨.bvEq 22 3, .bool⟩,
    ⟨.bvVar 4 "d" (some 6), .bv 4⟩,
    ⟨.bvVar 4 "din" (some 7), .bv 4⟩,
    ⟨.bvVar 4 "dout" (some 8), .bv 4⟩,
    ⟨.bvXor 0 5, .bv 4⟩,
    ⟨.bvXor 25 27, .bv 4⟩,
    ⟨.bvEq 28 24, .bool⟩,
    ⟨.bvAnd 0 5, .bv 4⟩,
    ⟨.bvAnd 0 25, .bv 4⟩,
    ⟨.bvAnd 5 25, .bv 4⟩,
    ⟨.bvOr 30 31, .bv 4⟩,
    ⟨.bvOr 33 32, .bv 4⟩,
    ⟨.bvEq 26 34, .bool⟩,
    ⟨.bvVar 4 "dshift" (some 9), .bv 4⟩,
    ⟨.bvEq 36 25, .bool⟩,
    ⟨.bvExtract 26 2 0, .bv 3⟩,
    ⟨.bvExtract 36 3 1, .bv 3⟩,
    ⟨.bvEq 39 38, .bool⟩,
    ⟨.bvExtract 36 0 0, .bv 1⟩,
    ⟨.bvEq 3 41, .bool⟩,
    ⟨.bvVar 4 "r" (some 10), .bv 4⟩,
    ⟨.bvSub 0 1, .bv 4⟩,
    ⟨.bvEq 43 44, .bool⟩,
    ⟨.bvEq 24 43, .bool⟩,
    ⟨.boolNot 46, .bool⟩] [10, 16, 18, 21, 23, 29, 35, 37, 40, 42, 45, 47]

theorem log_slicing_adder_of_written : hasLogSlicingAdderContradiction writtenSubtraction = ok true ∧
    ¬∃ ρ, Asserted writtenSubtraction ρ := by
  have hfound : hasLogSlicingAdderContradiction writtenSubtraction = ok true := by decide
  exact ⟨hfound, (log_slicing_adder_is_sound
    (Query.wellFormed_of_check (by decide) (by decide))).2 hfound⟩

end Shortcuts
end Qfbv
end SmtServer
