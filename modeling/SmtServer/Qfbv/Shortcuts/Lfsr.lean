import SmtServer.Qfbv.Check
import SmtServer.Qfbv.Shortcuts.Common

/-!
# `lfsr.rs` — synchronised shift registers

The pass recognises two chains of registers that step together. A transition is a conjunct
`ite(reset, to = 0, to = step(from))`, and a final conjunct says that some of the last pairs of
registers are equal exactly when no reset happened. If two chains take the same steps under the
same resets, then a reset makes the last registers equal, and without a reset they are equal only
if the first registers are; when the query also says that the first registers differ, there is no
assignment.

What the pass knows of a step is its **signature**, the sorted set of its taps. This loses two
things that the argument needs. A bit that is tapped twice is in the set and is not tapped; and the
register that is tapped may be wider than the step (`LfsrRegular`).
-/

namespace SmtServer
namespace Qfbv

open Lib Outcome

namespace Shortcuts

/-- `from` and `to`, tokens of Lean, are the source and the target. -/
structure LfsrTransition where
  reset : TermId
  source : TermId
  target : TermId
  signature : List Nat
  deriving DecidableEq

/-- `sort_unstable`, then `dedup`: on a sorted vector all repetitions go. -/
def sortDedup (xs : List Nat) : List Nat := (xs.insertionSort (· ≤ ·)).dedup

/-- The loop over the terms of the feedback. -/
def lfsrTaps (s : Arena) (child : TermId) (width : Nat) : List TermId → Result (Option (List Nat))
  | [] => return some []
  | xorTerm :: rest => do
    let .bvExtract tapChild high low ← kind s xorTerm | return none
    if tapChild ≠ child ∨ high ≠ low ∨ width ≤ high then return none
    return (← lfsrTaps s child width rest).map (high :: ·)

def invertibleLfsrStep (s : Arena) (term : TermId) : Result (Option (TermId × List Nat)) := do
  let .bv width ← s.sort term | return none
  if width < 2 then return none
  let .bvConcat high low ← kind s term | return none
  let .bvExtract child highBit lowBit ← kind s high | return none
  if highBit ≠ width - 2 ∨ lowBit ≠ 0 then return none
  let xorTerms ← collectBvXorTerms s low
  if xorTerms.length < 2 then return none
  let some taps ← lfsrTaps s child width xorTerms | return none
  let signature := sortDedup taps
  if width - 1 ∉ signature then return none
  return some (child, signature)

def bvEqZeroSide (s : Arena) (term : TermId) : Result (Option TermId) := do
  let some (a, b) ← bvEqPair s term | return none
  if ← isZeroBvConst s a then
    return some b
  else if ← isZeroBvConst s b then
    return some a
  else
    return none

def bvEqLfsrStepSide (s : Arena) (term : TermId) :
    Result (Option (TermId × TermId × List Nat)) := do
  let some (a, b) ← bvEqPair s term | return none
  match ← invertibleLfsrStep s a with
  | some (source, signature) => return some (b, source, signature)
  | none => return (← invertibleLfsrStep s b).map fun (source, signature) => (a, source, signature)

def lfsrTransition (s : Arena) (term : TermId) : Result (Option LfsrTransition) := do
  let .boolIte cond thenValue elseValue ← kind s term | return none
  let some resetTo ← bvEqZeroSide s thenValue | return none
  let some (target, source, signature) ← bvEqLfsrStepSide s elseValue | return none
  if resetTo ≠ target then return none
  return some ⟨cond, source, target, signature⟩

/-- The loop that collects a pair from each leaf, or nothing. -/
def bvEqPairs (s : Arena) : List TermId → Result (Option (List BvPair))
  | [] => return some []
  | leaf :: rest => do
    let some pair ← bvEqPair s leaf | return none
    return (← bvEqPairs s rest).map (pair :: ·)

def bvEqPairsInDisjunction (s : Arena) (term : TermId) : Result (Option (List BvPair)) := do
  let leaves ← collectBoolOrLeaves s term
  let some pairs ← bvEqPairs s leaves | return none
  return if pairs = [] then none else some pairs

/-- The loop that collects the reset from each leaf, or nothing. -/
def negatedBools (s : Arena) : List TermId → Result (Option (List TermId))
  | [] => return some []
  | leaf :: rest => do
    let .boolNot child ← kind s leaf | return none
    let .bool ← s.sort child | return none
    return (← negatedBools s rest).map (child :: ·)

def allResetsFalse (s : Arena) (term : TermId) : Result (Option (List TermId)) := do
  let leaves ← collectBoolAndConjuncts s term
  if leaves = [] then return none
  return (← negatedBools s leaves).map sortDedup

/-- One of the two ways to read a final conjunct. -/
def lfsrFinalSide (s : Arena) (pairs resets : TermId) :
    Result (Option (List BvPair × List TermId)) := do
  let some finalPairs ← bvEqPairsInDisjunction s pairs | return none
  return (← allResetsFalse s resets).map (finalPairs, ·)

def lfsrFinalPattern (s : Arena) (term : TermId) :
    Result (Option (List BvPair × List TermId)) := do
  let .boolEq a b ← kind s term | return none
  match ← lfsrFinalSide s a b with
  | some pattern => return some pattern
  | none => lfsrFinalSide s b a

def uniqueLfsrPredecessor (target : TermId) (unusedResets : List TermId)
    (transitions : List LfsrTransition) : Option LfsrTransition :=
  match transitions.filter fun t => t.target == target && unusedResets.contains t.reset with
  | [first] => some first
  | _ => none

/-- The loop of `trace_synchronized_lfsr_chains`; a round uses a reset up. -/
def traceRounds (transitions : List LfsrTransition) : (rounds : Nat) →
    (currentA currentB : TermId) → (unused : List TermId) → Result (Option BvPair)
  | _, currentA, currentB, [] => return some (currentA, currentB)
  | 0, _, _, _ :: _ => .panic
  | rounds + 1, currentA, currentB, unused => do
    let some transitionA := uniqueLfsrPredecessor currentA unused transitions | return none
    let some transitionB := transitions.find? fun t => t.target == currentB &&
      t.reset == transitionA.reset && t.signature == transitionA.signature | return none
    traceRounds transitions rounds transitionA.source transitionB.source
      (unused.filter (· ≠ transitionA.reset))

def traceSynchronizedLfsrChains (finalA finalB : TermId) (resets : List TermId)
    (transitions : List LfsrTransition) : Result (Option BvPair) :=
  traceRounds transitions resets.length finalA finalB resets

/-- The disequality that a leaf states, if it states one. -/
def bvDisequality (s : Arena) (leaf : TermId) : Result (Option BvPair) := do
  match ← kind s leaf with
  | .boolNot child => bvEqPair s child
  | _ => return none

def hasSynchronizedLfsrContradiction (query : Query) : Result Bool := do
  let s := query.arena
  if query.assumptions ≠ [] ∨ 100000 < s.nodes.length then return false
  let leaves ← conjuncts query
  let found ← leaves.mapM fun leaf => do
    return (← lfsrTransition s leaf, ← bvDisequality s leaf)
  let transitions := found.filterMap (·.1)
  let disequalities := found.filterMap (·.2)
  if transitions = [] ∨ disequalities = [] then return false
  leaves.anyM fun leaf => do
    let some (finalPairs, resets) ← lfsrFinalPattern s leaf | return false
    if finalPairs = [] ∨ resets = [] then return false
    finalPairs.allM fun (finalA, finalB) => do
      let some (initialA, initialB) ← traceSynchronizedLfsrChains finalA finalB resets transitions
        | return false
      return disequalities.any fun (a, b) => sameUnorderedPair a b initialA initialB

/-! ## What is recognised -/

variable {s : Arena} {ρ : Env} {t c : TermId} {σ : TermSort} {w v : Nat} {taps : List Nat}

theorem mem_sortDedup {xs : List Nat} {x : Nat} : x ∈ sortDedup xs ↔ x ∈ xs := by
  rw [sortDedup, List.mem_dedup, List.mem_insertionSort]

/-- The term shifts `w` bits of `c` up and feeds the bits of `c` at `taps` back. -/
structure IsLfsrStep (s : Arena) (t c : TermId) (w : Nat) (taps : List Nat) : Prop where
  sort : s.IsBv t w
  two_le : 2 ≤ w
  shape : ∃ high low leaves, s.kindAt t = some (.bvConcat high low) ∧
    s.kindAt high = some (.bvExtract c (w - 2) 0) ∧ collectBvXorTerms s low = ok leaves ∧
    List.Forall₂ (fun leaf tap => s.kindAt leaf = some (.bvExtract c tap tap)) leaves taps
  bounded : ∀ tap ∈ taps, tap < w
  last : w - 1 ∈ taps
  two_taps : 2 ≤ taps.length

theorem lfsrTaps_answers {leaves : List TermId} (hl : ∀ leaf ∈ leaves, ∃ σ, s.sortAt leaf = some σ) :
    Answers (lfsrTaps s c w leaves) fun o => ∀ taps, o = some taps →
      List.Forall₂ (fun leaf tap => s.kindAt leaf = some (.bvExtract c tap tap)) leaves taps ∧
      ∀ tap ∈ taps, tap < w := by
  induction leaves with
  | nil => exact answers_some ⟨.nil, by simp⟩
  | cons leaf leaves ih =>
    obtain ⟨σ, hσ⟩ := hl leaf (by simp)
    rw [lfsrTaps]
    refine (kind_answers hσ).bind fun k hk => ?_
    cases k with
    | bvExtract tapChild high low =>
      dsimp only
      split
      · exact answers_none
      · rename_i hok
        rw [not_or, not_or, not_not, not_not, not_le] at hok
        obtain ⟨rfl, rfl, hlt⟩ := hok
        refine (ih fun x hx => hl x (by simp [hx])).map fun taps h => ?_
        exact ⟨.cons hk h.1, List.forall_mem_cons.mpr ⟨hlt, h.2⟩⟩
    | _ => exact answers_none

theorem invertibleLfsrStep_answers (hs : s.Inv) (ht : s.sortAt t = some σ) :
    Answers (invertibleLfsrStep s t) fun o => ∀ p, o = some p →
      ∃ w taps, IsLfsrStep s t p.1 w taps ∧ p.2 = sortDedup taps := by
  refine (sort_answers ht).bind fun τ hτ => ?_
  subst hτ
  cases τ with
  | bool => exact answers_none
  | bv w =>
    dsimp only
    split
    · exact answers_none
    · rename_i hw
      refine (kind_answers ht).bind fun k hk => ?_
      cases k with
      | bvConcat high low =>
        obtain ⟨hw', lw, ht', hh, hl⟩ := hs.bvConcat_sort hk
        refine (kind_answers hh).bind fun j hj => ?_
        cases j with
        | bvExtract child highBit lowBit =>
          dsimp only
          split
          · exact answers_none
          · rename_i hbits
            rw [not_or, not_not, not_not] at hbits
            obtain ⟨rfl, rfl⟩ := hbits
            refine (collectBvXorTerms_answers hs hl).with_eq.bind fun leaves hleaves => ?_
            obtain ⟨hrun, hsorts, -⟩ := hleaves
            split
            · exact answers_none
            · rename_i hlen
              refine (lfsrTaps_answers fun leaf hleaf => ⟨_, hsorts leaf hleaf⟩).bind ?_
              intro o ho
              cases o with
              | none => exact answers_none
              | some taps =>
                obtain ⟨hall, hbound⟩ := ho taps rfl
                dsimp only
                split
                · exact answers_none
                · rename_i hlast
                  rw [not_not, mem_sortDedup] at hlast
                  refine answers_some ⟨w, taps, ?_, rfl⟩
                  refine ⟨ht, by omega, ⟨high, low, leaves, hk, hj, hrun, hall⟩, hbound, hlast, ?_⟩
                  rw [← hall.length_eq]
                  omega
        | _ => exact answers_none
      | _ => exact answers_none

/-- The taps are bits of the register, and their exclusive or is that of the leaves. -/
theorem taps_spec (hs : s.Inv) (hc : s.IsBv c v) {leaves : List TermId}
    (h : List.Forall₂ (fun leaf tap => s.kindAt leaf = some (.bvExtract c tap tap)) leaves taps) :
    (∀ tap ∈ taps, tap < v) ∧
      ∀ ρ, Lfsr.parity (s.bit ρ · 0) leaves = Lfsr.parity (s.bit ρ c) taps := by
  induction h with
  | nil => simp
  | cons hleaf _ ih =>
    obtain ⟨v', -, hc', -, hlt⟩ := hs.bvExtract_sort hleaf
    obtain rfl := hc.inj hc'
    refine ⟨List.forall_mem_cons.mpr ⟨hlt, ih.1⟩, fun ρ => ?_⟩
    rw [Lfsr.parity_cons, Lfsr.parity_cons, ih.2 ρ, Arena.bit_bvExtract hs hleaf (Nat.zero_le _),
      Nat.add_zero]

/-- A step is what the general theory calls one, of a register that may be wider than it. -/
theorem IsLfsrStep.value (hs : s.Inv) (h : IsLfsrStep s t c w taps) :
    ∃ v, s.IsBv c v ∧ w ≤ v ∧
      ∀ ρ, s.value ρ t = .bv w (Lfsr.step w taps ((s.value ρ c).toBv v)) := by
  obtain ⟨high, low, leaves, hk, hj, hrun, hall⟩ := h.shape
  obtain ⟨hw, lw, ht, hh, hl⟩ := hs.bvConcat_sort hk
  obtain ⟨v, hh', hc, -, hlt⟩ := hs.bvExtract_sort hj
  obtain rfl := hh.inj hh'
  have htwo := h.two_le
  have hwidth := h.sort.inj ht
  obtain rfl : lw = 1 := by omega
  obtain ⟨-, hparity⟩ := (collectBvXorTerms_answers hs hl).of_eq hrun
  obtain ⟨htaps, hleaves⟩ := taps_spec hs hc hall
  have hlast := htaps (w - 1) h.last
  refine ⟨v, hc, by omega, fun ρ => ?_⟩
  have hdt := h.sort.denotes (ρ := ρ) hs
  have hdc := hc.denotes (ρ := ρ) hs
  rw [hdt.value, Smt.Value.bv_inj]
  refine BitVec.eq_of_getLsbD_eq fun i hi => ?_
  rw [← hdt.bit, Arena.bit_bvConcat hs hk hl, Lfsr.getLsbD_step (by omega)]
  by_cases hi0 : i = 0
  · subst hi0
    rw [if_pos Nat.one_pos, if_pos rfl, hparity ρ, hleaves ρ]
    exact Lfsr.parity_congr fun tap _ => hdc.bit
  · rw [if_neg (by omega), if_neg hi0, Arena.bit_bvExtract hs hj (by omega), Nat.zero_add, hdc.bit]
    simp [hi]

/-- The conjunct says how the target moves: to zero on a reset, and by the step otherwise. -/
structure IsTransition (s : Arena) (leaf : TermId) (tr : LfsrTransition) (step : TermId) (w : Nat)
    (taps : List Nat) : Prop where
  shape : ∃ zeroEq stepEq, s.kindAt leaf = some (.boolIte tr.reset zeroEq stepEq) ∧
    (s.kindAt stepEq = some (.bvEq step tr.target) ∨ s.kindAt stepEq = some (.bvEq tr.target step))
  step : IsLfsrStep s step tr.source w taps
  signature : tr.signature = sortDedup taps

theorem bvEqZeroSide_answers (hs : s.Inv) (ht : s.sortAt t = some .bool) :
    Answers (bvEqZeroSide s t) fun o => ∀ x, o = some x →
      ∀ ρ, s.IsTrue ρ t → s.num ρ x = 0 := by
  refine (bvEqPair_answers ht).bind fun o ho => ?_
  cases o with
  | none => exact answers_none
  | some p =>
    have hk := ho p rfl
    obtain ⟨w, ha, hb⟩ := hs.bvEq_sort hk
    have hnum : ∀ ρ, s.IsTrue ρ t → s.num ρ p.1 = s.num ρ p.2 := fun ρ h =>
      (Arena.value_eq_iff_num hs ha hb).mp ((Arena.isTrue_bvEq hs hk).mp h)
    refine (isZeroBvConst_answers hs ha).bind fun z hz => ?_
    cases z with
    | true => exact answers_some fun ρ h => by rw [← hnum ρ h, hz rfl ρ]
    | false =>
      refine (isZeroBvConst_answers hs hb).bind fun z hz => ?_
      cases z with
      | true => exact answers_some fun ρ h => by rw [hnum ρ h, hz rfl ρ]
      | false => exact answers_none

theorem bvEqLfsrStepSide_answers (hs : s.Inv) (ht : s.sortAt t = some .bool) :
    Answers (bvEqLfsrStepSide s t) fun o => ∀ p, o = some p →
      ∃ step w taps, IsLfsrStep s step p.2.1 w taps ∧ p.2.2 = sortDedup taps ∧
        (s.kindAt t = some (.bvEq step p.1) ∨ s.kindAt t = some (.bvEq p.1 step)) := by
  refine (bvEqPair_answers ht).bind fun o ho => ?_
  cases o with
  | none => exact answers_none
  | some p =>
    have hk := ho p rfl
    obtain ⟨w, ha, hb⟩ := hs.bvEq_sort hk
    refine (invertibleLfsrStep_answers hs ha).bind fun o ho => ?_
    cases o with
    | some r =>
      obtain ⟨w, taps, hstep, hsig⟩ := ho r rfl
      exact answers_some ⟨p.1, w, taps, hstep, hsig, .inl hk⟩
    | none =>
      refine (invertibleLfsrStep_answers hs hb).map fun r hr => ?_
      obtain ⟨w, taps, hstep, hsig⟩ := hr
      exact ⟨p.2, w, taps, hstep, hsig, .inr hk⟩

/-- A true transition resets its target, or steps it. -/
theorem lfsrTransition_answers (hs : s.Inv) (ht : s.sortAt t = some .bool) :
    Answers (lfsrTransition s t) fun o => ∀ tr, o = some tr →
      ∃ step w taps, IsTransition s t tr step w taps ∧ s.IsBv tr.target w ∧
        ∀ ρ, s.IsTrue ρ t → (s.IsTrue ρ tr.reset → s.num ρ tr.target = 0) ∧
          (¬s.IsTrue ρ tr.reset → s.value ρ tr.target = s.value ρ step) := by
  refine (kind_answers ht).bind fun k hk => ?_
  cases k with
  | boolIte cond thenValue elseValue =>
    obtain ⟨-, -, hthen, helse⟩ := hs.sort_kind hk ht
    refine (bvEqZeroSide_answers hs hthen).bind fun o ho => ?_
    cases o with
    | none => exact answers_none
    | some resetTo =>
      refine (bvEqLfsrStepSide_answers hs helse).bind fun r hr => ?_
      cases r with
      | none => exact answers_none
      | some p =>
        obtain ⟨step, w, taps, hstep, hsig, hor⟩ := hr p rfl
        dsimp only
        split
        · exact answers_none
        · rename_i heq
          rw [not_not] at heq
          subst heq
          have htarget : s.IsBv p.1 w ∧
              ∀ ρ, s.IsTrue ρ elseValue → s.value ρ p.1 = s.value ρ step := by
            rcases hor with hk | hk
            · obtain ⟨v, ha, hb⟩ := hs.bvEq_sort hk
              obtain rfl := ha.inj hstep.sort
              exact ⟨hb, fun ρ h => ((Arena.isTrue_bvEq hs hk).mp h).symm⟩
            · obtain ⟨v, ha, hb⟩ := hs.bvEq_sort hk
              obtain rfl := hb.inj hstep.sort
              exact ⟨ha, fun ρ h => (Arena.isTrue_bvEq hs hk).mp h⟩
          refine answers_some ⟨step, w, taps, ⟨⟨_, _, hk, hor⟩, hstep, hsig⟩, htarget.1, ?_⟩
          intro ρ h
          obtain ⟨hreset, hmove⟩ := (Arena.isTrue_boolIte hs hk).mp h
          exact ⟨fun hc => ho _ rfl ρ (hreset hc), fun hc => htarget.2 ρ (hmove hc)⟩
  | _ => exact answers_none

theorem bvEqPairs_answers (hs : s.Inv) {leaves : List TermId}
    (hl : ∀ leaf ∈ leaves, s.sortAt leaf = some .bool) :
    Answers (bvEqPairs s leaves) fun o => ∀ pairs, o = some pairs →
      ∀ ρ, (∃ leaf ∈ leaves, s.IsTrue ρ leaf) ↔ ∃ p ∈ pairs, s.value ρ p.1 = s.value ρ p.2 := by
  induction leaves with
  | nil => exact answers_some fun ρ => by simp
  | cons leaf leaves ih =>
    rw [bvEqPairs]
    refine (bvEqPair_answers (hl leaf (by simp))).bind fun o ho => ?_
    cases o with
    | none => exact answers_none
    | some p =>
      refine (ih fun x hx => hl x (by simp [hx])).map fun pairs h ρ => ?_
      rw [List.exists_mem_cons_iff, List.exists_mem_cons_iff, h ρ,
        Arena.isTrue_bvEq hs (ho p rfl)]

theorem bvEqPairsInDisjunction_answers (hs : s.Inv) (ht : s.sortAt t = some .bool) :
    Answers (bvEqPairsInDisjunction s t) fun o => ∀ pairs, o = some pairs →
      ∀ ρ, s.IsTrue ρ t ↔ ∃ p ∈ pairs, s.value ρ p.1 = s.value ρ p.2 := by
  refine (collectBoolOrLeaves_answers hs ht).bind fun leaves hleaves => ?_
  refine (bvEqPairs_answers hs hleaves.1).bind fun o ho => ?_
  cases o with
  | none => exact answers_none
  | some pairs =>
    dsimp only
    split
    · exact answers_none
    · exact answers_some fun ρ => (hleaves.2 ρ).trans (ho pairs rfl ρ)

theorem negatedBools_answers (hs : s.Inv) {leaves : List TermId}
    (hl : ∀ leaf ∈ leaves, s.sortAt leaf = some .bool) :
    Answers (negatedBools s leaves) fun o => ∀ resets, o = some resets →
      ∀ ρ, (∀ leaf ∈ leaves, s.IsTrue ρ leaf) ↔ ∀ r ∈ resets, ¬s.IsTrue ρ r := by
  induction leaves with
  | nil => exact answers_some fun ρ => by simp
  | cons leaf leaves ih =>
    rw [negatedBools]
    have hleaf := hl leaf (by simp)
    refine (kind_answers hleaf).bind fun k hk => ?_
    cases k with
    | boolNot child =>
      obtain ⟨-, hchild⟩ := hs.sort_kind hk hleaf
      refine (sort_answers hchild).bind fun τ hτ => ?_
      subst hτ
      refine (ih fun x hx => hl x (by simp [hx])).map fun resets h ρ => ?_
      rw [List.forall_mem_cons, List.forall_mem_cons, h ρ, Arena.isTrue_boolNot hs hk]
    | _ => exact answers_none

theorem allResetsFalse_answers (hs : s.Inv) (ht : s.sortAt t = some .bool) :
    Answers (allResetsFalse s t) fun o => ∀ resets, o = some resets →
      ∀ ρ, s.IsTrue ρ t ↔ ∀ r ∈ resets, ¬s.IsTrue ρ r := by
  refine (collectBoolAndConjuncts_answers hs ht).bind fun leaves hleaves => ?_
  split
  · exact answers_none
  · refine (negatedBools_answers hs hleaves.1).map fun resets h ρ => ?_
    rw [hleaves.2 ρ, h ρ]
    simp only [mem_sortDedup]

theorem lfsrFinalSide_answers (hs : s.Inv) {a b : TermId} (ha : s.sortAt a = some .bool)
    (hb : s.sortAt b = some .bool) :
    Answers (lfsrFinalSide s a b) fun o => ∀ p, o = some p → ∀ ρ, (s.IsTrue ρ a ↔ s.IsTrue ρ b) →
      ((∃ q ∈ p.1, s.value ρ q.1 = s.value ρ q.2) ↔ ∀ r ∈ p.2, ¬s.IsTrue ρ r) := by
  refine (bvEqPairsInDisjunction_answers hs ha).bind fun o ho => ?_
  cases o with
  | none => exact answers_none
  | some pairs =>
    refine (allResetsFalse_answers hs hb).map fun resets h ρ hiff => ?_
    rw [← ho pairs rfl ρ, ← h ρ, hiff]

/-- A true final conjunct: some final pair is equal when there was no reset, and only then. -/
theorem lfsrFinalPattern_answers (hs : s.Inv) (ht : s.sortAt t = some .bool) :
    Answers (lfsrFinalPattern s t) fun o => ∀ p, o = some p → ∀ ρ, s.IsTrue ρ t →
      ((∃ q ∈ p.1, s.value ρ q.1 = s.value ρ q.2) ↔ ∀ r ∈ p.2, ¬s.IsTrue ρ r) := by
  refine (kind_answers ht).bind fun k hk => ?_
  cases k with
  | boolEq a b =>
    obtain ⟨-, ha, hb⟩ := hs.sort_kind hk ht
    refine (lfsrFinalSide_answers hs ha hb).bind fun o ho => ?_
    cases o with
    | some p => exact answers_some fun ρ h => ho p rfl ρ ((Arena.isTrue_boolEq hs hk).mp h)
    | none =>
      refine (lfsrFinalSide_answers hs hb ha).mono fun o h p hp ρ ht => ?_
      exact h p hp ρ ((Arena.isTrue_boolEq hs hk).mp ht).symm
  | _ => exact answers_none

/-! ## Tracing the chains -/

/-- Two transitions that make their registers equal on a reset, and otherwise keep equal registers
equal and different ones different. -/
def InStep (s : Arena) (ρ : Env) (a b : LfsrTransition) : Prop :=
  (s.IsTrue ρ a.reset → s.value ρ a.target = s.value ρ b.target) ∧
  (¬s.IsTrue ρ a.reset →
    (s.value ρ a.target = s.value ρ b.target ↔ s.value ρ a.source = s.value ρ b.source))

/-- All transitions of one reset and one signature move in step. -/
def AllInStep (s : Arena) (ρ : Env) (transitions : List LfsrTransition) : Prop :=
  ∀ a ∈ transitions, ∀ b ∈ transitions, a.reset = b.reset → a.signature = b.signature →
    InStep s ρ a b

theorem uniqueLfsrPredecessor_eq {target : TermId} {unused : List TermId}
    {transitions : List LfsrTransition} {tr : LfsrTransition}
    (h : uniqueLfsrPredecessor target unused transitions = some tr) :
    tr ∈ transitions ∧ tr.target = target ∧ tr.reset ∈ unused := by
  unfold uniqueLfsrPredecessor at h
  split at h
  · rename_i first hfilter
    obtain rfl := Option.some.inj h
    have hmem : first ∈ transitions.filter fun t => t.target == target && unused.contains t.reset := by
      rw [hfilter]
      simp
    simpa using List.mem_filter.mp hmem
  · cases h

/-- What the trace says of the first pair: without a reset they are equal when the last ones are,
and a reset anywhere on the way makes the last ones equal. -/
theorem traceRounds_answers (s : Arena) (transitions : List LfsrTransition) :
    ∀ (rounds : Nat) (finalA finalB : TermId) (unused : List TermId), unused.length ≤ rounds →
      Answers (traceRounds transitions rounds finalA finalB unused) fun o => ∀ p, o = some p →
        ∀ ρ, AllInStep s ρ transitions →
          ((∀ r ∈ unused, ¬s.IsTrue ρ r) →
            (s.value ρ finalA = s.value ρ finalB ↔ s.value ρ p.1 = s.value ρ p.2)) ∧
          ((∃ r ∈ unused, s.IsTrue ρ r) → s.value ρ finalA = s.value ρ finalB) := by
  intro rounds
  induction rounds with
  | zero =>
    intro finalA finalB unused hlen
    obtain rfl := List.length_eq_zero_iff.mp (Nat.le_zero.mp hlen)
    exact answers_some fun ρ _ => ⟨fun _ => Iff.rfl, fun h => by simp at h⟩
  | succ rounds ih =>
    intro finalA finalB unused hlen
    cases unused with
    | nil => exact answers_some fun ρ _ => ⟨fun _ => Iff.rfl, fun h => by simp at h⟩
    | cons r rest =>
      simp only [traceRounds]
      cases ha : uniqueLfsrPredecessor finalA (r :: rest) transitions with
      | none => exact answers_none
      | some a =>
        obtain ⟨hamem, rfl, hareset⟩ := uniqueLfsrPredecessor_eq ha
        dsimp only
        cases hb : transitions.find? fun t => t.target == finalB && t.reset == a.reset &&
            t.signature == a.signature with
        | none => exact answers_none
        | some b =>
          have hbmem := List.mem_of_find?_eq_some hb
          have hbprop := List.find?_some hb
          simp only [Bool.and_eq_true, beq_iff_eq] at hbprop
          obtain ⟨⟨rfl, hreset⟩, hsig⟩ := hbprop
          -- the reset that is used up is in the list, so what is left is shorter
          have hshort : ((r :: rest).filter (· ≠ a.reset)).length ≤ rounds := by
            have hlt : ((r :: rest).filter (· ≠ a.reset)).length < (r :: rest).length := by
              rw [List.length_filter_lt_length_iff_exists]
              exact ⟨a.reset, hareset, by simp⟩
            omega
          refine (ih a.source b.source _ hshort).mono fun o ho p hp ρ hstep => ?_
          obtain ⟨hequal, hkeep⟩ := hstep a hamem b hbmem hreset.symm hsig.symm
          obtain ⟨hquiet, hloud⟩ := ho p hp ρ hstep
          constructor
          · intro hnone
            rw [hkeep (hnone _ hareset)]
            exact hquiet fun x hx => hnone x (List.mem_filter.mp hx).1
          · rintro ⟨x, hx, htrue⟩
            by_cases hnow : s.IsTrue ρ a.reset
            · exact hequal hnow
            · rw [hkeep hnow]
              refine hloud ⟨x, List.mem_filter.mpr ⟨hx, ?_⟩, htrue⟩
              rw [decide_eq_true_eq]
              rintro rfl
              exact hnow htrue

/-! ## The pass -/

/-- The transition is one the pass collects from the query, by a step of width `w` with these
taps. -/
def IsQueryStep (q : Query) (tr : LfsrTransition) (w : Nat) (taps : List Nat) : Prop :=
  ∃ leaves leaf step, conjuncts q = ok leaves ∧ leaf ∈ leaves ∧
    lfsrTransition q.arena leaf = ok (some tr) ∧ IsTransition q.arena leaf tr step w taps

/-- Every step of the query can be undone, and the signature says which bits are fed back. -/
structure LfsrRegular (q : Query) : Prop where
  invertible : ∀ tr w taps, IsQueryStep q tr w taps →
    q.arena.IsBv tr.source w ∧ taps.count (w - 1) % 2 = 1
  same : ∀ tr tr' w w' taps taps', IsQueryStep q tr w taps → IsQueryStep q tr' w' taps' →
    tr.signature = tr'.signature → ∀ i, taps.count i % 2 = taps'.count i % 2

/-- In a query whose steps are regular, transitions of one signature move in step. -/
theorem inStep_of_regular {q : Query} (hs : q.arena.Inv) (hreg : LfsrRegular q)
    {tr tr' : LfsrTransition} {w w' : Nat} {taps taps' : List Nat} {leaf leaf' step step' : TermId}
    (hq : IsQueryStep q tr w taps) (hq' : IsQueryStep q tr' w' taps')
    (ht : IsTransition q.arena leaf tr step w taps)
    (ht' : IsTransition q.arena leaf' tr' step' w' taps')
    (hb : q.arena.IsBv tr.target w) (hb' : q.arena.IsBv tr'.target w')
    (hmove : (q.arena.IsTrue ρ tr.reset → q.arena.num ρ tr.target = 0) ∧
      (¬q.arena.IsTrue ρ tr.reset → q.arena.value ρ tr.target = q.arena.value ρ step))
    (hmove' : (q.arena.IsTrue ρ tr'.reset → q.arena.num ρ tr'.target = 0) ∧
      (¬q.arena.IsTrue ρ tr'.reset → q.arena.value ρ tr'.target = q.arena.value ρ step'))
    (hreset : tr.reset = tr'.reset) (hsig : tr.signature = tr'.signature) :
    InStep q.arena ρ tr tr' := by
  -- the last tap is the width less one, so the two steps have one width
  have hmem : ∀ i, i ∈ taps ↔ i ∈ taps' := by
    intro i
    rw [← mem_sortDedup, ← ht.signature, hsig, ht'.signature, mem_sortDedup]
  have hlt := ht'.step.bounded _ ((hmem _).mp ht.step.last)
  have hlt' := ht.step.bounded _ ((hmem _).mpr ht'.step.last)
  have htwo := ht.step.two_le
  have htwo' := ht'.step.two_le
  obtain rfl : w = w' := by omega
  obtain ⟨hsource, hodd⟩ := hreg.invertible tr w taps hq
  obtain ⟨hsource', -⟩ := hreg.invertible tr' w taps' hq'
  constructor
  · intro h
    rw [Arena.value_eq_iff_num hs hb hb', hmove.1 h, hmove'.1 (hreset ▸ h)]
  · intro h
    obtain ⟨v, hv, -, hval⟩ := ht.step.value hs
    obtain rfl := hv.inj hsource
    obtain ⟨v', hv', -, hval'⟩ := ht'.step.value hs
    obtain rfl := hv'.inj hsource'
    rw [hmove.2 h, hmove'.2 (hreset ▸ h), hval ρ, hval' ρ, Smt.Value.bv_inj,
      ← Lfsr.step_congr (hreg.same tr tr' _ _ taps taps' hq hq' hsig)]
    have hinj := (Lfsr.step_injective_iff (by omega) (le_refl _) ht.step.bounded).mpr ⟨rfl, hodd⟩
    rw [hinj.eq_iff, ← Smt.Value.bv_inj, ← (hsource.denotes hs).value, ← (hsource'.denotes hs).value]

theorem bvDisequality_answers (hs : s.Inv) (ht : s.sortAt t = some .bool) :
    Answers (bvDisequality s t) fun o => ∀ p, o = some p →
      ∀ ρ, s.IsTrue ρ t → s.value ρ p.1 ≠ s.value ρ p.2 := by
  refine (kind_answers ht).bind fun k hk => ?_
  cases k with
  | boolNot child =>
    obtain ⟨-, hchild⟩ := hs.sort_kind hk ht
    refine (bvEqPair_answers hchild).mono fun o ho p hp ρ h => ?_
    rw [Arena.isTrue_boolNot hs hk, Arena.isTrue_bvEq hs (ho p hp)] at h
    exact h
  | _ => exact answers_none

/-- The transitions of a query that holds move in step. -/
theorem allInStep_of_regular {q : Query} (hs : q.arena.Inv) (hreg : LfsrRegular q)
    {leaves : List TermId} (hrun : conjuncts q = ok leaves)
    (hsorts : ∀ leaf ∈ leaves, q.arena.sortAt leaf = some .bool)
    (htrue : ∀ leaf ∈ leaves, q.arena.IsTrue ρ leaf) {transitions : List LfsrTransition}
    (hfrom : ∀ tr ∈ transitions, ∃ leaf ∈ leaves,
      lfsrTransition q.arena leaf = ok (some tr)) : AllInStep q.arena ρ transitions := by
  have hmove : ∀ tr ∈ transitions, ∃ leaf step w taps, IsQueryStep q tr w taps ∧
      IsTransition q.arena leaf tr step w taps ∧ q.arena.IsBv tr.target w ∧
      (q.arena.IsTrue ρ tr.reset → q.arena.num ρ tr.target = 0) ∧
        (¬q.arena.IsTrue ρ tr.reset → q.arena.value ρ tr.target = q.arena.value ρ step) := by
    intro tr htr
    obtain ⟨leaf, hleaf, htrans⟩ := hfrom tr htr
    obtain ⟨step, w, taps, ht, hb, hmoves⟩ :=
      (lfsrTransition_answers hs (hsorts leaf hleaf)).of_eq htrans tr rfl
    exact ⟨leaf, step, w, taps, ⟨leaves, leaf, step, hrun, hleaf, htrans, ht⟩, ht, hb,
      hmoves ρ (htrue leaf hleaf)⟩
  intro a ha b hb hreset hsig
  obtain ⟨la, sa, wa, ta, hqa, hta, hba, hma⟩ := hmove a ha
  obtain ⟨lb, sb, wb, tb, hqb, htb, hbb, hmb⟩ := hmove b hb
  exact inStep_of_regular hs hreg hqa hqb hta htb hba hbb hma hmb hreset hsig

/-- A trace that ends in registers the query tells apart. -/
def ChainContradicts (s : Arena) (transitions : List LfsrTransition) (disequalities : List BvPair)
    (resets : List TermId) (final : BvPair) : Prop :=
  ∃ initial : BvPair, ∃ d ∈ disequalities, sameUnorderedPair d.1 d.2 initial.1 initial.2 = true ∧
    ∀ ρ, AllInStep s ρ transitions →
      ((∀ r ∈ resets, ¬s.IsTrue ρ r) →
        (s.value ρ final.1 = s.value ρ final.2 ↔ s.value ρ initial.1 = s.value ρ initial.2)) ∧
      ((∃ r ∈ resets, s.IsTrue ρ r) → s.value ρ final.1 = s.value ρ final.2)

/-- When all final pairs lead back to registers that differ, the final conjunct is false. -/
theorem not_final_of_contradicts {transitions : List LfsrTransition}
    {disequalities finalPairs : List BvPair} {resets : List TermId} (hne : finalPairs ≠ [])
    (hall : ∀ p ∈ finalPairs, ChainContradicts s transitions disequalities resets p)
    (hstep : AllInStep s ρ transitions)
    (hdis : ∀ d ∈ disequalities, s.value ρ d.1 ≠ s.value ρ d.2) :
    ¬((∃ p ∈ finalPairs, s.value ρ p.1 = s.value ρ p.2) ↔ ∀ r ∈ resets, ¬s.IsTrue ρ r) := by
  intro hfinal
  by_cases hquiet : ∀ r ∈ resets, ¬s.IsTrue ρ r
  · obtain ⟨p, hp, hpeq⟩ := hfinal.mpr hquiet
    obtain ⟨initial, d, hd, hsame, htrace⟩ := hall p hp
    have hinitial := ((htrace ρ hstep).1 hquiet).mp hpeq
    apply hdis d hd
    simp only [sameUnorderedPair, Bool.or_eq_true, Bool.and_eq_true, beq_iff_eq] at hsame
    rcases hsame with ⟨h₁, h₂⟩ | ⟨h₁, h₂⟩
    · rw [h₁, h₂, hinitial]
    · rw [h₁, h₂, hinitial]
  · obtain ⟨p, hp⟩ := List.exists_mem_of_ne_nil _ hne
    obtain ⟨initial, d, hd, hsame, htrace⟩ := hall p hp
    apply hquiet
    apply hfinal.mp
    refine ⟨p, hp, (htrace ρ hstep).2 ?_⟩
    push Not at hquiet
    exact hquiet

/-- The pass always answers; and when it says that there is a contradiction and the steps of the
query are regular, no assignment makes all assertions true. -/
theorem hasSynchronizedLfsrContradiction_answers {q : Query} (hq : q.WellFormed) :
    Answers (hasSynchronizedLfsrContradiction q) fun found => found = true →
      LfsrRegular q → ¬q.Satisfiable := by
  have hs := hq.arena
  unfold hasSynchronizedLfsrContradiction
  dsimp only
  split
  · exact answers_ok fun h => nomatch h
  refine (conjuncts_answers hq).with_eq.bind fun leaves hleaves => ?_
  obtain ⟨hrun, hsorts, htrue⟩ := hleaves
  refine (answers_mapM (R := fun leaf p =>
    (∀ tr, p.1 = some tr → lfsrTransition q.arena leaf = ok (some tr)) ∧
      ∀ d, p.2 = some d → bvDisequality q.arena leaf = ok (some d)) fun leaf hleaf => ?_).bind
    fun found hfound => ?_
  · refine (lfsrTransition_answers hs (hsorts leaf hleaf)).with_eq.bind fun o ho => ?_
    refine (bvDisequality_answers hs (hsorts leaf hleaf)).with_eq.bind fun d hd => ?_
    exact answers_ok ⟨fun tr htr => htr ▸ ho.1, fun p hp => hp ▸ hd.1⟩
  split
  · exact answers_ok fun h => nomatch h
  refine (answers_anyM (P := fun _ => LfsrRegular q → ¬q.Satisfiable) fun leaf hleaf => ?_).mono
    fun b hb hbt => (hb hbt).elim fun _ h => h.2
  refine (lfsrFinalPattern_answers hs (hsorts leaf hleaf)).bind fun o ho => ?_
  cases o with
  | none => exact answers_ok fun h => nomatch h
  | some p =>
    dsimp only
    split
    · exact answers_ok fun h => nomatch h
    rename_i hempty
    rw [not_or] at hempty
    refine (answers_allM (P := ChainContradicts q.arena (found.filterMap (·.1))
      (found.filterMap (·.2)) p.2) fun final hfinal => ?_).mono ?_
    · refine (traceRounds_answers q.arena _ _ final.1 final.2 p.2 (le_refl _)).bind fun o ho => ?_
      cases o with
      | none => exact answers_ok fun h => nomatch h
      | some initial =>
        refine answers_ok fun hany => ?_
        obtain ⟨d, hd, hsame⟩ := List.any_eq_true.mp hany
        exact ⟨initial, d, hd, hsame, ho initial rfl⟩
    · rintro b hb hbt hreg ⟨ρ, hρ⟩
      have hleaves := (htrue ρ).mp (isTrue_of_holds hρ)
      refine not_final_of_contradicts hempty.1 (hb hbt) ?_ ?_ (ho p rfl ρ (hleaves leaf hleaf))
      · refine allInStep_of_regular hs hreg hrun hsorts hleaves fun tr htr => ?_
        obtain ⟨x, hx, hxtr⟩ := List.mem_filterMap.mp htr
        obtain ⟨l, hl, h⟩ := exists_of_forall₂ hfound x hx
        exact ⟨l, hl, h.1 tr hxtr⟩
      · intro d hd
        obtain ⟨x, hx, hxd⟩ := List.mem_filterMap.mp hd
        obtain ⟨l, hl, h⟩ := exists_of_forall₂ hfound x hx
        exact (bvDisequality_answers hs (hsorts l hl)).of_eq (h.2 d hxd) d rfl ρ (hleaves l hl)

/-- The step of a term is the only one it is. -/
theorem IsLfsrStep.unique {c' : TermId} {w' : Nat} {taps' : List Nat}
    (h : IsLfsrStep s t c w taps) (h' : IsLfsrStep s t c' w' taps') : w = w' ∧ taps = taps' := by
  obtain ⟨high, low, leaves, hk, hj, hrun, hall⟩ := h.shape
  obtain ⟨high', low', leaves', hk', hj', hrun', hall'⟩ := h'.shape
  obtain ⟨rfl, rfl⟩ : high = high' ∧ low = low' := by simpa using hk.symm.trans hk'
  obtain rfl := Outcome.ok.inj (hrun.symm.trans hrun')
  refine ⟨h.sort.inj h'.sort, ?_⟩
  clear hrun hrun' h h'
  induction hall generalizing taps' with
  | nil => exact (List.forall₂_nil_left_iff.mp hall').symm
  | cons hleaf _ ih =>
    cases hall' with
    | cons hleaf' hrest =>
      have htap := hleaf.symm.trans hleaf'
      simp only [Option.some.injEq, NodeKind.bvExtract.injEq] at htap
      rw [htap.2.1, ih hrest]

/-- Two registers of two bits that take a step together; `feedback` holds the exclusive ors, and
the last two of them, `tap` and the one after, are what is fed back. -/
def lfsrQuery (feedback : List Node) (tap : Nat) : Query where
  arena := ⟨[
    ⟨.boolVar "reset" (some 0), .bool⟩,
    ⟨.bvVar 2 "a" (some 1), .bv 2⟩,
    ⟨.bvVar 2 "b" (some 2), .bv 2⟩,
    ⟨.bvVar 2 "a_next" (some 3), .bv 2⟩,
    ⟨.bvVar 2 "b_next" (some 4), .bv 2⟩,
    ⟨.bvConst 2 [0], .bv 2⟩,
    ⟨.bvEq 3 5, .bool⟩,
    ⟨.bvEq 4 5, .bool⟩,
    ⟨.bvExtract 1 0 0, .bv 1⟩,
    ⟨.bvExtract 2 0 0, .bv 1⟩,
    ⟨.bvExtract 1 1 1, .bv 1⟩,
    ⟨.bvExtract 2 1 1, .bv 1⟩,
    ⟨.bvEq 1 2, .bool⟩,
    ⟨.boolNot 12, .bool⟩,
    ⟨.bvEq 3 4, .bool⟩,
    ⟨.boolNot 0, .bool⟩,
    ⟨.boolEq 14 15, .bool⟩] ++ feedback ++ [
    ⟨.bvConcat 8 tap, .bv 2⟩,
    ⟨.bvConcat 9 (tap + 1), .bv 2⟩,
    ⟨.bvEq 3 (tap + 2), .bool⟩,
    ⟨.bvEq 4 (tap + 3), .bool⟩,
    ⟨.boolIte 0 6 (tap + 4), .bool⟩,
    ⟨.boolIte 0 7 (tap + 5), .bool⟩]⟩
  assertions := [⟨tap + 6, none⟩, ⟨tap + 7, none⟩, ⟨13, none⟩, ⟨16, none⟩]
  assumptions := []
  command := .solve
  target := none
  signed := false
  wantModel := false
  wantCore := false
  getValues := []

/-- Each register feeds back the exclusive or of its two bits. -/
def lfsrBothTaps : Query := lfsrQuery [⟨.bvXor 10 8, .bv 1⟩, ⟨.bvXor 11 9, .bv 1⟩] 17

/-- Each register feeds back its high bit, its low bit and its high bit again. -/
def lfsrDoubleTap : Query :=
  lfsrQuery [⟨.bvXor 10 8, .bv 1⟩, ⟨.bvXor 11 9, .bv 1⟩, ⟨.bvXor 17 10, .bv 1⟩,
    ⟨.bvXor 18 11, .bv 1⟩] 19

theorem lfsrBothTaps_wellFormed : lfsrBothTaps.WellFormed :=
  Query.wellFormed_of_check (by decide) (by decide)

/-- The one step that each of the two registers takes. -/
theorem lfsrBothTaps_step {tr : LfsrTransition} {w : Nat} {taps : List Nat}
    (h : IsQueryStep lfsrBothTaps tr w taps) :
    lfsrBothTaps.arena.IsBv tr.source 2 ∧ w = 2 ∧ taps = [1, 0] := by
  have hrun : conjuncts lfsrBothTaps = ok [23, 24, 13, 16] := by decide
  obtain ⟨leaves, leaf, step, hleaves, hleaf, htr, ht⟩ := h
  obtain rfl := Outcome.ok.inj (hleaves.symm.trans hrun)
  obtain ⟨zeroEq, stepEq, hk, hor⟩ := ht.shape
  have hside : ∀ (tr' : LfsrTransition) (z e x y : TermId),
      lfsrTransition lfsrBothTaps.arena leaf = ok (some tr') →
      lfsrBothTaps.arena.kindAt leaf = some (.boolIte tr'.reset z e) →
      lfsrBothTaps.arena.kindAt e = some (.bvEq tr'.target x) → tr'.target ≠ x →
      lfsrBothTaps.arena.sortAt tr'.source = some (.bv 2) →
      IsLfsrStep lfsrBothTaps.arena x y 2 [1, 0] →
      lfsrBothTaps.arena.IsBv tr.source 2 ∧ w = 2 ∧ taps = [1, 0] := by
    intro tr' z e x y htr' hk' he hne hsort hstep
    obtain rfl : tr = tr' := by simpa using htr.symm.trans htr'
    obtain ⟨-, rfl⟩ : zeroEq = z ∧ stepEq = e := by simpa using hk.symm.trans hk'
    have hx : step = x := by
      rcases hor with h | h
      · have := h.symm.trans he
        simp only [Option.some.injEq, NodeKind.bvEq.injEq] at this
        exact absurd this.2 hne
      · have := h.symm.trans he
        simp only [Option.some.injEq, NodeKind.bvEq.injEq] at this
        exact this.2
    subst hx
    obtain ⟨hw, htaps⟩ := ht.step.unique hstep
    exact ⟨hsort, hw, htaps⟩
  have hleaf' : leaf = 23 ∨ leaf = 24 ∨ leaf = 13 ∨ leaf = 16 := by simpa using hleaf
  rcases hleaf' with rfl | rfl | rfl | rfl
  · refine hside ⟨0, 1, 3, [0, 1]⟩ 6 21 19 1
      (by decide) (by decide) (by decide) (by decide) (by decide) ?_
    refine ⟨by decide, by decide, ⟨8, 17, [10, 8], ?_⟩, by decide, by decide, by decide⟩
    refine ⟨by decide, by decide, by decide, ?_⟩
    exact .cons (by decide) (.cons (by decide) .nil)
  · refine hside ⟨0, 2, 4, [0, 1]⟩ 7 22 20 2
      (by decide) (by decide) (by decide) (by decide) (by decide) ?_
    refine ⟨by decide, by decide, ⟨9, 18, [11, 9], ?_⟩, by decide, by decide, by decide⟩
    refine ⟨by decide, by decide, by decide, ?_⟩
    exact .cons (by decide) (.cons (by decide) .nil)
  · have hnone : lfsrTransition lfsrBothTaps.arena 13 = ok none := by decide
    cases htr.symm.trans hnone
  · have hnone : lfsrTransition lfsrBothTaps.arena 16 = ok none := by decide
    cases htr.symm.trans hnone

end Shortcuts
end Qfbv
end SmtServer
