import Mathlib.Data.List.ProdSigma
import SmtServer.Qfbv.Check
import SmtServer.Qfbv.EvalSound
import SmtServer.Qfbv.Shortcuts.Matching

/-!
# `successor.rs` — `left ≤ right` and `right + 1 ≤ left`

Nothing is between `x` and `x + 1`, so `x < y` and `y < x + 1` contradict each other, also where
`x + 1` wraps around to zero.

Of `left ≤ right` and `right + 1 ≤ left` that is not true: where `right + 1` wraps around they hold
together, with `right` the greatest number of its width. Unless it is told to validate, the pass
takes the two comparisons for the whole query: it asks neither whether `right` can be the greatest
number nor what the other conjuncts say.
-/

namespace SmtServer
namespace Qfbv

open Lib Outcome

namespace Shortcuts

/-- `collect_unsigned_less_or_equal` on a conjunct. -/
def collectUnsignedLessOrEqual (s : Arena) (leaf : TermId) (out : List BvPair) :
    Result (List BvPair) := do
  match (← kind s leaf).bvUle? with
  | some p => return out ++ [p]
  | none => return out

/-- `*a == base && is_one_bv_const(query, *b)?`. -/
def isBasePlusOne (s : Arena) (base a b : TermId) : Result Bool :=
  if a = base then isOneBvConst s b else return false

def isUnsignedSuccessorTerm (s : Arena) (term base : TermId) : Result Bool := do
  let .bvAdd a b ← kind s term | return false
  if ← isBasePlusOne s base a b then return true
  isBasePlusOne s base b a

def validateUnsignedSuccessorWraparoundWitness (q : Query) (left right : TermId) :
    Result Bool := do
  let .bv leftWidth ← q.arena.sort left | return false
  let .bv rightWidth ← q.arena.sort right | return false
  if leftWidth ≠ rightWidth then return false
  if !(← kind q.arena left).isBvVar then return false
  if !(← kind q.arena right).isBvVar then return false
  let len ← bytesForWidth leftWidth
  let max := maskUnusedHighBits (List.replicate len 0xff) leftWidth
  querySatisfiedByBvAssignment q fun t =>
    if t = right then some max else if t = left then some (List.replicate len 0) else none

/-- The test of the two nested loops. -/
def wrapsAround (s : Arena) (left right otherLeft otherRight : TermId) : Result Bool :=
  if otherLeft ≠ left ∧ otherLeft ≠ right ∧ left = otherRight then
    isUnsignedSuccessorTerm s otherLeft right
  else return false

def hasUnsignedSuccessorWraparoundWitness (q : Query) (validate : Bool) : Result Bool := do
  if q.assumptions ≠ [] ∨ q.assertions.length ≠ 2 then return false
  let nonStrict ← forAllConjuncts q (collectUnsignedLessOrEqual q.arena) []
  if nonStrict.length ≠ 2 then return false
  match ← (nonStrict.product nonStrict).findM? fun (p, other) =>
      wrapsAround q.arena p.1 p.2 other.1 other.2 with
  | some ((left, right), _) =>
    if validate then validateUnsignedSuccessorWraparoundWitness q left right else return true
  | none => return false

/-- `collect_unsigned_strict_less` on a conjunct. -/
def collectUnsignedStrictLess (s : Arena) (leaf : TermId) (out : List BvPair) :
    Result (List BvPair) := do
  match (← kind s leaf).bvUlt? with
  | some p => return out ++ [p]
  | none => return out

def hasUnsignedSuccessorContradiction (q : Query) : Result Bool := do
  let strict ← forAllConjuncts q (collectUnsignedStrictLess q.arena) []
  strict.anyM fun (x, y) => strict.anyM fun (left, right) =>
    pure (left == y) <&&> (isUnsignedSuccessorTerm q.arena right x).unwrapOr false

/-! ## What the pass finds -/

/-- The comparison that a conjunct is, if it is one. -/
def comparison (s : Arena) (leaf : TermId) : Option BvPair := (s.kindAt leaf).bind (·.bvUle?)

theorem comparison_eq {s : Arena} {leaf : TermId} {p : BvPair} :
    comparison s leaf = some p ↔ s.kindAt leaf = some (.bvUle p.1 p.2) := by
  simp only [comparison, Option.bind_eq_some_iff, NodeKind.bvUle?_eq, exists_eq_right]

/-- The shape that the pass looks for: of two assertions exactly two conjuncts are comparisons,
`left ≤ right` and `succ ≤ left`, and `succ` is `right + 1`. -/
structure Wraparound (q : Query) (leaves : List TermId) (left right succ : TermId) : Prop where
  noAssumptions : q.assumptions = []
  twoAssertions : q.assertions.length = 2
  comparisons : leaves.filterMap (comparison q.arena) = [(left, right), (succ, left)] ∨
    leaves.filterMap (comparison q.arena) = [(succ, left), (left, right)]
  succ_ne_left : succ ≠ left
  succ_ne_right : succ ≠ right
  successor : isUnsignedSuccessorTerm q.arena succ right = ok true

variable {q : Query} {leaves : List TermId} {s : Arena} {t base a b left right succ : TermId}
  {w : Nat}

theorem nonStrict_eq (hq : q.WellFormed) (hrun : conjuncts q = ok leaves) :
    forAllConjuncts q (collectUnsignedLessOrEqual q.arena) [] =
      ok (leaves.filterMap (comparison q.arena)) := by
  obtain ⟨hsorts, -⟩ := (conjuncts_answers hq).of_eq hrun
  rw [forAllConjuncts_eq hrun]
  suffices h : ∀ out, leaves.foldlM (fun out leaf => collectUnsignedLessOrEqual q.arena leaf out)
      out = ok (out ++ leaves.filterMap (comparison q.arena)) from h []
  clear hrun
  induction leaves with
  | nil => exact fun out => by simp
  | cons leaf rest ih =>
    intro out
    rw [List.forall_mem_cons] at hsorts
    obtain ⟨k, hk, hkind⟩ := kind_answers hsorts.1
    have hstep : collectUnsignedLessOrEqual q.arena leaf out =
        ok (out ++ (comparison q.arena leaf).toList) := by
      rw [collectUnsignedLessOrEqual, hk, ok_bind, comparison, hkind, Option.bind_some]
      cases k.bvUle? with
      | none => exact congrArg ok (List.append_nil out).symm
      | some p => rfl
    rw [List.foldlM_cons, hstep, ok_bind, ih hsorts.2, List.append_assoc]
    cases h : comparison q.arena leaf <;> simp [h]

theorem isBasePlusOne_answers (hs : s.Inv) (hb : s.IsBv b w) :
    Answers (isBasePlusOne s base a b) fun found => found = true →
      a = base ∧ ∀ ρ, s.num ρ b = 1 := by
  unfold isBasePlusOne
  split
  · exact (isOneBvConst_answers hs hb).mono fun z hz htrue => ⟨‹_›, hz htrue⟩
  · exact answers_ok fun h => nomatch h

/-- A successor term is one more than its base. -/
theorem isUnsignedSuccessorTerm_answers (hs : s.Inv) (ht : s.IsBv t w) :
    Answers (isUnsignedSuccessorTerm s t base) fun found => found = true →
      s.IsBv base w ∧ ∀ ρ, s.num ρ t = (s.num ρ base + 1) % 2 ^ w := by
  refine (kind_answers ht).bind fun k hk => ?_
  cases k with
  | bvAdd a b =>
    obtain ⟨ha, hb⟩ := hs.binary_sort hk ht id
    refine (isBasePlusOne_answers hs hb).bind fun found hfound => ?_
    cases found with
    | true =>
      obtain ⟨rfl, hone⟩ := hfound rfl
      refine answers_ok fun _ => ⟨ha, fun ρ => ?_⟩
      rw [Arena.num_bvAdd hs hk ht, hone]
    | false =>
      refine (isBasePlusOne_answers hs ha).mono fun found hfound htrue => ?_
      obtain ⟨rfl, hone⟩ := hfound htrue
      refine ⟨hb, fun ρ => ?_⟩
      rw [Arena.num_bvAdd hs hk ht, hone, Nat.add_comm]
  | _ => exact answers_ok fun h => nomatch h

/-- No number is between another and its successor. -/
theorem unsigned_successor_contradiction_unsat (hq : q.WellFormed)
    (h : hasUnsignedSuccessorContradiction q = ok true) (ρ : Env) : ¬Asserted q ρ := by
  intro hρ
  have hs := hq.arena
  obtain ⟨strict, hstrict, h⟩ := bind_eq_ok.mp h
  have hcollected := (collected_answers hq (fun _ _ => rfl)).of_eq hstrict
  have hlt : ∀ p ∈ strict, ∃ w, q.arena.IsBv p.1 w ∧ q.arena.IsBv p.2 w ∧
      q.arena.num ρ p.1 < q.arena.num ρ p.2 := by
    intro p hp
    obtain ⟨leaf, k, hk, hsplit, htrue⟩ := hcollected p hp
    rw [NodeKind.bvUlt?_eq.mp hsplit] at hk
    obtain ⟨w, ha, hb⟩ := hs.bvUlt_sort hk
    exact ⟨w, ha, hb, (Arena.isTrue_bvUlt hs hk).mp (htrue ρ hρ)⟩
  obtain ⟨⟨x, y⟩, hxy, h⟩ := exists_of_anyM h
  obtain ⟨⟨left, right⟩, hlr, h⟩ := exists_of_anyM h
  obtain ⟨hy, hsucc⟩ := and_eq_true.mp h
  obtain rfl : left = y := by simpa using hy
  obtain ⟨w, hx, hleft, hlow⟩ := hlt _ hxy
  obtain ⟨v, hleft', hright, hhigh⟩ := hlt _ hlr
  obtain ⟨hx', hnum⟩ := (isUnsignedSuccessorTerm_answers hs hright).of_eq (of_unwrapOr hsucc) rfl
  have hle := Nat.mod_le (q.arena.num ρ x + 1) (2 ^ v)
  dsimp only at hlow hhigh
  rw [hnum] at hhigh
  omega

theorem wrapsAround_answers (hs : s.Inv) {other : BvPair} (ht : s.IsBv other.1 w) :
    Answers (wrapsAround s left right other.1 other.2) fun found => found = true ↔
      other.1 ≠ left ∧ other.1 ≠ right ∧ left = other.2 ∧
        isUnsignedSuccessorTerm s other.1 right = ok true := by
  unfold wrapsAround
  split
  · rename_i h
    obtain ⟨found, hfound⟩ : Returns (isUnsignedSuccessorTerm s other.1 right) :=
      (isUnsignedSuccessorTerm_answers hs ht).returns
    rw [hfound]
    exact answers_ok ⟨fun htrue => ⟨h.1, h.2.1, h.2.2, by rw [htrue]⟩,
      fun h' => Outcome.ok.inj h'.2.2.2⟩
  · rename_i h
    exact answers_ok ⟨fun h => (nomatch h), fun h' => absurd ⟨h'.1, h'.2.1, h'.2.2.1⟩ h⟩

/-- Two pairs of a list of two that differ are the list. -/
theorem pair_of_two {l : List BvPair} (hl : l.length = 2) {p p' : BvPair} (hp : p ∈ l)
    (hp' : p' ∈ l) (hne : p ≠ p') : l = [p, p'] ∨ l = [p', p] := by
  obtain ⟨x, y, rfl⟩ := List.length_eq_two.mp hl
  simp only [List.mem_cons, List.not_mem_nil, or_false] at hp hp'
  rcases hp with rfl | rfl <;> rcases hp' with rfl | rfl
  · exact absurd rfl hne
  · exact .inl rfl
  · exact .inr rfl
  · exact absurd rfl hne

/-- The pass answers by the shape alone, or validates the assignment that it stands for. -/
theorem witness_cases (hq : q.WellFormed) (hrun : conjuncts q = ok leaves) :
    (∃ left right succ, Wraparound q leaves left right succ ∧
      ∀ validate, hasUnsignedSuccessorWraparoundWitness q validate =
        if validate then validateUnsignedSuccessorWraparoundWitness q left right else ok true) ∨
    ((∀ left right succ, ¬Wraparound q leaves left right succ) ∧
      ∀ validate, hasUnsignedSuccessorWraparoundWitness q validate = ok false) := by
  unfold hasUnsignedSuccessorWraparoundWitness
  by_cases hshape : q.assumptions ≠ [] ∨ q.assertions.length ≠ 2
  · refine .inr ⟨fun left right succ h => ?_, fun validate => if_pos hshape⟩
    exact hshape.elim (absurd h.noAssumptions) (absurd h.twoAssertions)
  · rw [not_or, not_not, not_not] at hshape
    simp only [hshape.1, hshape.2, ne_eq, not_true_eq_false, or_self, if_false,
      nonStrict_eq hq hrun, ok_bind]
    by_cases hlen : (leaves.filterMap (comparison q.arena)).length = 2
    · have hsearch := @answers_findM? Error _
        (fun (p, other) => wrapsAround q.arena p.1 p.2 other.1 other.2)
        (fun (p, other) => other.1 ≠ p.1 ∧ other.1 ≠ p.2 ∧ p.1 = other.2 ∧
          isUnsignedSuccessorTerm q.arena other.1 p.2 = ok true)
        ((leaves.filterMap (comparison q.arena)).product
          (leaves.filterMap (comparison q.arena))) ?_
      · obtain ⟨o, ho, hsome, hnone⟩ := hsearch
        simp only [hlen, not_true_eq_false, if_false, ho, ok_bind]
        cases o with
        | some x =>
          obtain ⟨⟨left, right⟩, succ, other⟩ := x
          obtain ⟨hmem, hleft, hright, rfl, hsucc⟩ := hsome _ rfl
          rw [List.pair_mem_product] at hmem
          refine .inl ⟨left, right, succ, ⟨hshape.1, hshape.2, ?_, hleft, hright, hsucc⟩,
            fun validate => rfl⟩
          exact pair_of_two hlen hmem.1 hmem.2 fun h => hleft (congrArg Prod.fst h).symm
        | none =>
          refine .inr ⟨fun left right succ h => ?_, fun validate => rfl⟩
          refine hnone rfl ((left, right), (succ, left)) ?_
            ⟨h.succ_ne_left, h.succ_ne_right, rfl, h.successor⟩
          rw [List.pair_mem_product]
          rcases h.comparisons with hc | hc <;> rw [hc] <;> simp
      · rintro ⟨p, other⟩ hmem
        obtain ⟨leaf, -, hleaf⟩ := List.mem_filterMap.mp (List.pair_mem_product.mp hmem).2
        obtain ⟨w, hw, -⟩ := hq.arena.bvUle_sort (comparison_eq.mp hleaf)
        exact wrapsAround_answers hq.arena hw
    · simp only [hlen, not_false_eq_true, if_true]
      refine .inr ⟨fun left right succ h => hlen ?_, fun validate => rfl⟩
      rcases h.comparisons with hc | hc <;> rw [hc] <;> rfl

/-! ## What the shape means -/

/-- The two comparisons hold together when `right` is the greatest number of its width, and only
then. -/
theorem wraparound_asserted (hq : q.WellFormed) (hrun : conjuncts q = ok leaves)
    (h : Wraparound q leaves left right succ) (ρ : Env) :
    ∃ w, q.arena.IsBv right w ∧ (Asserted q ρ ↔ q.arena.num ρ right = 2 ^ w - 1 ∧
      ∀ leaf ∈ leaves, comparison q.arena leaf = none → q.arena.IsTrue ρ leaf) := by
  have hs := hq.arena
  obtain ⟨-, htrue⟩ := (conjuncts_answers hq).of_eq hrun
  have hcmp : ∀ p, (∃ leaf ∈ leaves, comparison q.arena leaf = some p) ↔
      p = (left, right) ∨ p = (succ, left) := by
    intro p
    rw [← List.mem_filterMap]
    rcases h.comparisons with hc | hc <;> rw [hc] <;> simp [or_comm]
  obtain ⟨leaf, -, hleaf⟩ := (hcmp (succ, left)).mpr (.inr rfl)
  obtain ⟨w, hsucc, hleft⟩ : ∃ w, q.arena.IsBv succ w ∧ q.arena.IsBv left w :=
    hs.bvUle_sort (comparison_eq.mp hleaf)
  obtain ⟨hright, hnum⟩ := (isUnsignedSuccessorTerm_answers hs hsucc).of_eq h.successor rfl
  have hlt := hright.num_lt (ρ := ρ) hs
  have hleftlt := hleft.num_lt (ρ := ρ) hs
  refine ⟨w, hright, ?_⟩
  rw [htrue ρ]
  constructor
  · intro hall
    refine ⟨?_, fun leaf hmem _ => hall leaf hmem⟩
    have hle : ∀ p, p = (left, right) ∨ p = (succ, left) →
        q.arena.num ρ p.1 ≤ q.arena.num ρ p.2 := by
      intro p hp
      obtain ⟨leaf, hmem, hleaf⟩ := (hcmp p).mpr hp
      exact (Arena.isTrue_bvUle hs (comparison_eq.mp hleaf)).mp (hall leaf hmem)
    have h1 := hle (left, right) (.inl rfl)
    have h2 := hle (succ, left) (.inr rfl)
    dsimp only at h1 h2
    rw [hnum] at h2
    by_contra hmax
    rw [Nat.mod_eq_of_lt (by omega)] at h2
    omega
  · rintro ⟨hmax, hrest⟩ leaf hmem
    cases hleaf : comparison q.arena leaf with
    | none => exact hrest leaf hmem hleaf
    | some p =>
      rw [Arena.isTrue_bvUle hs (comparison_eq.mp hleaf)]
      rcases (hcmp p).mp ⟨leaf, hmem, hleaf⟩ with rfl | rfl
      · show q.arena.num ρ left ≤ q.arena.num ρ right
        omega
      · show q.arena.num ρ succ ≤ q.arena.num ρ left
        rw [hnum, hmax, Nat.sub_add_cancel (Nat.two_pow_pos w), Nat.mod_self]
        exact Nat.zero_le _

/-- The assignment that is validated is in range, so the evaluator can be trusted. -/
theorem validated_only (hq : q.WellFormed) :
    Only (validateUnsignedSuccessorWraparoundWitness q left right) fun found => found = true →
      ∃ ρ, Asserted q ρ := by
  have hs := hq.arena
  have hvar : ∀ {t : TermId} {v w : Nat} {name : String} {external : Option Nat},
      q.arena.sort t = ok (.bv v) → q.arena.kindAt t = some (.bvVar w name external) → w = v := by
    intro t v w name external hsort hk
    exact (TermSort.bv.inj (hs.sort_kind hk (Arena.sort_eq_ok.mp hsort))).symm
  unfold validateUnsignedSuccessorWraparoundWitness
  refine (only_self _).bind fun σ hl _ => ?_
  cases σ with
  | bool => exact only_ok fun h => nomatch h
  | bv leftWidth =>
    refine (only_self _).bind fun τ hr _ => ?_
    cases τ with
    | bool => exact only_ok fun h => nomatch h
    | bv rightWidth =>
      dsimp only
      split
      · exact only_ok fun h => nomatch h
      · rename_i heq
        obtain rfl : leftWidth = rightWidth := by simpa using heq
        refine (only_self _).bind fun k hk _ => ?_
        split
        · exact only_ok fun h => nomatch h
        · refine (only_self _).bind fun k' hk' _ => ?_
          split
          · exact only_ok fun h => nomatch h
          · refine (only_self _).bind fun len hlen _ => ?_
            rintro found hfound rfl
            refine ⟨_, isTrue_of_holds (holds_of_querySatisfiedBy hq ?_ hfound)⟩
            have hw := hs.sortOk (Arena.sort_eq_ok.mp hl)
            rw [Arena.bytesForWidth_ok hw] at hlen
            obtain rfl := Outcome.ok.inj hlen
            intro t w name external ht bytes hbytes
            dsimp only at hbytes
            split at hbytes
            · rename_i htr
              obtain rfl := hvar (htr ▸ hr) ht
              obtain rfl := Option.some.inj hbytes
              have hones := Bytes.Spells.allOnes w
              exact ⟨hones.length, by rw [hones.toNat]; exact BitVec.isLt _⟩
            · split at hbytes
              · rename_i htl
                obtain rfl := hvar (htl ▸ hl) ht
                obtain rfl := Option.some.inj hbytes
                simp
              · cases hbytes

/-! ## When the answer is right -/

/-- Wherever the shape is found, `right` can be the greatest number of its width while all
conjuncts that are no comparison are true. -/
def WraparoundAllowed (q : Query) : Prop :=
  ∀ leaves left right succ, conjuncts q = ok leaves → Wraparound q leaves left right succ →
    ∃ ρ w, q.arena.IsBv right w ∧ q.arena.num ρ right = 2 ^ w - 1 ∧
      ∀ leaf ∈ leaves, comparison q.arena leaf = none → q.arena.IsTrue ρ leaf

/-- `x ≤ y ∧ y = 0` and `y + 1 ≤ x`. -/
def boundedWraparound : Query where
  arena := ⟨[
    ⟨.bvVar 8 "x" (some 0), .bv 8⟩,
    ⟨.bvVar 8 "y" (some 1), .bv 8⟩,
    ⟨.bvUle 0 1, .bool⟩,
    ⟨.bvConst 8 [0], .bv 8⟩,
    ⟨.bvEq 1 3, .bool⟩,
    ⟨.boolAnd 2 4, .bool⟩,
    ⟨.bvConst 8 [1], .bv 8⟩,
    ⟨.bvAdd 1 6, .bv 8⟩,
    ⟨.bvUle 7 0, .bool⟩]⟩
  assertions := [⟨5, none⟩, ⟨8, none⟩]
  assumptions := []
  command := .solve
  target := none
  signed := false
  wantModel := false
  wantCore := false
  getValues := []

theorem boundedWraparound_wellFormed : boundedWraparound.WellFormed :=
  Query.wellFormed_of_check (by decide) (by decide)

/-- With `y` fixed to zero nothing wraps around. -/
theorem boundedWraparound_unsat (ρ : Env) : ¬Asserted boundedWraparound ρ := by
  have hs := boundedWraparound_wellFormed.arena
  intro hρ
  obtain ⟨hle, heq⟩ := (Arena.isTrue_boolAnd hs (a := 2) (b := 4) rfl).mp
    (hρ ⟨5, none⟩ (by simp [boundedWraparound]))
  have hge := hρ ⟨8, none⟩ (by simp [boundedWraparound])
  have hx := (Arena.isTrue_bvUle hs (a := 0) (b := 1) rfl).mp hle
  have hy := (Arena.value_eq_iff_num hs (a := 1) (b := 3) (w := 8) rfl rfl).mp
    ((Arena.isTrue_bvEq hs (a := 1) (b := 3) rfl).mp heq)
  have hz := (Arena.isTrue_bvUle hs (a := 7) (b := 0) rfl).mp hge
  have h0 : boundedWraparound.arena.num ρ 3 = leNat [0] := Arena.num_bvConst hs rfl
  have h1 : boundedWraparound.arena.num ρ 6 = leNat [1] := Arena.num_bvConst hs rfl
  rw [h0] at hy
  rw [Arena.num_bvAdd hs (t := 7) (a := 1) (b := 6) (w := 8) rfl rfl, hy, h1] at hz
  rw [hy] at hx
  simp at hx hz
  omega

/-- The plain wraparound, `x ≤ y` and `y + 1 ≤ x`. -/
def freeWraparound : Query where
  arena := ⟨[
    ⟨.bvVar 8 "x" (some 0), .bv 8⟩,
    ⟨.bvVar 8 "y" (some 1), .bv 8⟩,
    ⟨.bvUle 0 1, .bool⟩,
    ⟨.bvConst 8 [1], .bv 8⟩,
    ⟨.bvAdd 1 3, .bv 8⟩,
    ⟨.bvUle 4 0, .bool⟩]⟩
  assertions := [⟨2, none⟩, ⟨5, none⟩]
  assumptions := []
  command := .solve
  target := none
  signed := false
  wantModel := false
  wantCore := false
  getValues := []

end Shortcuts
end Qfbv
end SmtServer
