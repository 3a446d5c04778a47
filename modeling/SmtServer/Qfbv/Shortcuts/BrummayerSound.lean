import SmtServer.Qfbv.Shortcuts.Brummayer

/-!
# Counting one bits: when the pass is right

Every matcher says exactly what its term is worth: a counter is as many as the conditions that hold
and whatever is left at the end of the walk, a chain of subtractions is the word at its start less
the words that it subtracts. So it is known when a term that is accepted counts one bits
(`BrummayerFits`), and that the pass is right if this is so and nothing is compared in words of more
than one bit.
-/

namespace SmtServer
namespace Qfbv

open Lib Outcome Popcount

namespace Shortcuts

variable {s : Arena} {ρ : Env} {t a b c : TermId} {w v : Nat} {σ : TermSort}

/-! ## Conditions -/

theorem isZeroBvConst_bv (hs : s.Inv) (ht : s.IsBv t w) :
    Answers (isZeroBvConst s t) fun found => found = true → ∀ ρ, s.bv ρ t w = 0 :=
  (isZeroBvConst_answers hs ht).with_eq.mono fun _ h hfound ρ =>
    isZeroBvConst_true hs ht (hfound ▸ h.1) ρ

theorem isOneBvConst_bv (hs : s.Inv) (ht : s.IsBv t w) :
    Answers (isOneBvConst s t) fun found => found = true → ∀ ρ, s.bv ρ t w = 1 :=
  (isOneBvConst_answers hs ht).with_eq.mono fun _ h hfound ρ =>
    isOneBvConst_true hs ht (hfound ▸ h.1) ρ

/-- One is not zero. -/
theorem one_ne_zero_bv (hs : s.Inv) (ht : s.IsBv t w) : (1 : BitVec w) ≠ 0 := by
  have hone : (1 : BitVec w).toNat = 1 := BitVec.toNat_one (ht.pos hs)
  intro h
  rw [h] at hone
  cases hone

theorem indicatorCondition_answers (hs : s.Inv) (ha : s.IsBv a v) (hb : s.IsBv b v) :
    Answers (indicatorCondition s a b) fun o => ∀ cond, o = some cond →
      s.sortAt cond = some .bool ∧ cond < b ∧
        ∀ ρ, s.bv ρ a v = s.bv ρ b v ↔ s.IsTrue ρ cond := by
  refine (isOneBvConst_bv hs ha).bind fun found hone => ?_
  cases found with
  | false => exact answers_none
  | true =>
    refine (kind_answers hb).bind fun k hk => ?_
    cases k with
    | bvIte cond x y =>
      obtain ⟨hcond, hx, hy⟩ := hs.bvIte_sort hk hb
      have hlt := hs.child_lt hk (j := cond) (by simp [NodeKind.children])
      refine ((isOneBvConst_bv hs hx).and (isZeroBvConst_bv hs hy)).bind fun found hxy => ?_
      cases found with
      | false => exact answers_none
      | true =>
        refine answers_some ⟨hcond, hlt, fun ρ => ?_⟩
        rw [hone rfl, Arena.bv_bvIte hs hk, (hxy rfl).1, (hxy rfl).2]
        split
        · exact iff_of_true rfl ‹_›
        · exact iff_of_false (one_ne_zero_bv hs ha) ‹_›
    | _ => exact answers_none

theorem indicatorConditionEither_answers (hs : s.Inv) (hk : s.kindAt t = some (.bvEq a b)) :
    Answers (indicatorConditionEither s a b) fun o => ∀ cond, o = some cond →
      s.sortAt cond = some .bool ∧ cond < t ∧ ∀ ρ, s.IsTrue ρ t ↔ s.IsTrue ρ cond := by
  obtain ⟨v, ha, hb⟩ := hs.bvEq_sort hk
  have hat := hs.child_lt hk (j := a) (by simp [NodeKind.children])
  have hbt := hs.child_lt hk (j := b) (by simp [NodeKind.children])
  refine (indicatorCondition_answers hs ha hb).bind fun o ho => ?_
  cases o with
  | some cond =>
    obtain ⟨hcond, hlt, hiff⟩ := ho cond rfl
    refine answers_some ⟨hcond, hlt.trans hbt, fun ρ => ?_⟩
    rw [(Arena.isTrue_bvEq_bv hs hk ha).2, hiff]
  | none =>
    refine (indicatorCondition_answers hs hb ha).mono fun o ho cond hc => ?_
    obtain ⟨hcond, hlt, hiff⟩ := ho cond hc
    refine ⟨hcond, hlt.trans hat, fun ρ => ?_⟩
    rw [(Arena.isTrue_bvEq_bv hs hk ha).2, eq_comm, hiff]

theorem zeroSide_answers (hs : s.Inv) (ha : s.IsBv a v) (hb : s.IsBv b v) :
    Answers (zeroSide s a b) fun o => ∀ side, o = some side →
      s.IsBv side v ∧ ∀ ρ, s.bv ρ a v = s.bv ρ b v ↔ s.bv ρ side v = 0 := by
  refine (isZeroBvConst_bv hs ha).bind fun found hzero => ?_
  cases found with
  | true => exact answers_some ⟨hb, fun ρ => by rw [hzero rfl, eq_comm]⟩
  | false =>
    refine (isZeroBvConst_bv hs hb).bind fun found hzero => ?_
    cases found with
    | true => exact answers_some ⟨ha, fun ρ => by rw [hzero rfl]⟩
    | false => exact answers_none

theorem notZeroSide_answers (hs : s.Inv) (ht : s.sortAt t = some .bool) :
    Answers (notZeroSide s t) fun o => ∀ side, o = some side →
      ∃ v, s.IsBv side v ∧ ∀ ρ, s.IsTrue ρ t ↔ s.bv ρ side v ≠ 0 := by
  refine (kind_answers ht).bind fun k hk => ?_
  cases k with
  | boolNot child =>
    refine (bvEqPair_answers (hs.sort_kind hk ht).2).bind fun o ho => ?_
    cases o with
    | none => exact answers_none
    | some p =>
      have hkeq := ho p rfl
      obtain ⟨v, ha, hb⟩ := hs.bvEq_sort hkeq
      refine (zeroSide_answers hs ha hb).mono fun o ho side hside => ?_
      obtain ⟨hsort, hiff⟩ := ho side hside
      refine ⟨v, hsort, fun ρ => ?_⟩
      rw [Arena.isTrue_boolNot hs hk, (Arena.isTrue_bvEq_bv hs hkeq ha).2, hiff]
  | _ => exact answers_none

theorem nonzeroTestRounds_answers (hs : s.Inv) : ∀ {rounds : Nat} {t : TermId}, t < rounds →
    s.sortAt t = some .bool → Answers (nonzeroTestRounds s rounds t) fun o => ∀ side, o = some side →
      ∃ v, s.IsBv side v ∧ ∀ ρ, s.IsTrue ρ t ↔ s.bv ρ side v ≠ 0 := by
  intro rounds
  induction rounds with
  | zero => exact fun h => absurd h (Nat.not_lt_zero _)
  | succ rounds ih =>
    intro t hlt ht
    rw [nonzeroTestRounds]
    refine (bvEqPair_answers ht).bind fun o ho => ?_
    cases o with
    | none => exact notZeroSide_answers hs ht
    | some p =>
      have hk := ho p rfl
      refine (indicatorConditionEither_answers hs hk).bind fun o ho => ?_
      cases o with
      | none => exact notZeroSide_answers hs ht
      | some cond =>
        obtain ⟨hcond, hltc, hiff⟩ := ho cond rfl
        refine (ih (Nat.lt_of_lt_of_le hltc (Nat.lt_succ_iff.mp hlt)) hcond).mono fun o ho side hside => ?_
        obtain ⟨v, hv, hside⟩ := ho side hside
        exact ⟨v, hv, fun ρ => (hiff ρ).trans (hside ρ)⟩

theorem nonzeroTestCondition_answers (hs : s.Inv) (ht : s.sortAt t = some .bool) :
    Answers (nonzeroTestCondition s t) fun o => ∀ side, o = some side →
      ∃ v, s.IsBv side v ∧ ∀ ρ, s.IsTrue ρ t ↔ s.bv ρ side v ≠ 0 :=
  nonzeroTestRounds_answers hs (Nat.lt_succ_self t) ht

theorem zeroTestRounds_answers (hs : s.Inv) : ∀ {rounds : Nat} {t : TermId}, t < rounds →
    s.sortAt t = some .bool → Answers (zeroTestRounds s rounds t) fun o => ∀ side, o = some side →
      ∃ v, s.IsBv side v ∧ ∀ ρ, s.IsTrue ρ t ↔ s.bv ρ side v = 0 := by
  intro rounds
  induction rounds with
  | zero => exact fun h => absurd h (Nat.not_lt_zero _)
  | succ rounds ih =>
    intro t hlt ht
    rw [zeroTestRounds]
    refine (bvEqPair_answers ht).bind fun o ho => ?_
    cases o with
    | none => exact answers_none
    | some p =>
      have hk := ho p rfl
      obtain ⟨v, ha, hb⟩ := hs.bvEq_sort hk
      refine (zeroSide_answers hs ha hb).bind fun o ho => ?_
      cases o with
      | some side =>
        obtain ⟨hside, hiff⟩ := ho side rfl
        exact answers_some ⟨v, hside, fun ρ => (Arena.isTrue_bvEq_bv hs hk ha).2.trans (hiff ρ)⟩
      | none =>
        refine (indicatorConditionEither_answers hs hk).bind fun o ho => ?_
        cases o with
        | none => exact answers_none
        | some cond =>
          obtain ⟨hcond, hltc, hiff⟩ := ho cond rfl
          refine (ih (Nat.lt_of_lt_of_le hltc (Nat.lt_succ_iff.mp hlt)) hcond).mono fun o ho side hside => ?_
          obtain ⟨v, hv, hside⟩ := ho side hside
          exact ⟨v, hv, fun ρ => (hiff ρ).trans (hside ρ)⟩

theorem zeroTestCondition_answers (hs : s.Inv) (ht : s.sortAt t = some .bool) :
    Answers (zeroTestCondition s t) fun o => ∀ side, o = some side →
      ∃ v, s.IsBv side v ∧ ∀ ρ, s.IsTrue ρ t ↔ s.bv ρ side v = 0 :=
  zeroTestRounds_answers hs (Nat.lt_succ_self t) ht

/-! ## Bits of the input -/

/-- The constant, of which the low eight bytes are read. -/
theorem constU64ThroughZeroExtend_answers (hs : s.Inv) (ht : s.IsBv t w) :
    Answers (constU64ThroughZeroExtend s t) fun o => ∀ value, o = some value →
      ∃ n, (∀ ρ, s.num ρ t = n) ∧ value.toNat = n % 2 ^ 64 := by
  suffices h : ∀ rounds t w, t < rounds → s.IsBv t w →
      Answers (constU64ThroughZeroExtendRounds s rounds t) fun o => ∀ value, o = some value →
        ∃ n, (∀ ρ, s.num ρ t = n) ∧ value.toNat = n % 2 ^ 64 from
    h _ t w (Nat.lt_succ_self t) ht
  intro rounds
  induction rounds with
  | zero => exact fun _ _ h => absurd h (Nat.not_lt_zero _)
  | succ rounds ih =>
    intro t w hlt ht
    rw [constU64ThroughZeroExtendRounds]
    refine (kind_answers ht).bind fun k hk => ?_
    cases k with
    | bvConst _ bytes =>
      exact answers_some ⟨leNat bytes, fun ρ => Arena.num_bvConst hs hk, toNat_bytesToU64 bytes⟩
    | bvZeroExtend child extra =>
      obtain ⟨σ, -, v, -, hchild⟩ := hs.hasSort hk
      have hltc := hs.child_lt hk (j := child) (by simp [NodeKind.children])
      refine (ih child v (Nat.lt_of_lt_of_le hltc (Nat.lt_succ_iff.mp hlt)) hchild).mono fun o ho value hvalue => ?_
      obtain ⟨n, hn, heq⟩ := ho value hvalue
      exact ⟨n, fun ρ => (Arena.num_bvZeroExtend hs hk).trans (hn ρ), heq⟩
    | _ => exact answers_none

/-- A bit that is found is the only one that is set. -/
theorem onehotBit_answers {bytes : List UInt8} {bits : List Nat} {found : Option Nat}
    (hlen : ∀ bit ∈ bits, bit / 8 < bytes.length) :
    Answers (onehotBit bytes bits found) fun o => ∀ b, o = some b →
      (∀ bit, found = some bit → bit = b) ∧
      (found = none → b ∈ bits ∧ (leNat bytes).testBit b = true) ∧
      ∀ i ∈ bits, (leNat bytes).testBit i = true → found = none ∧ i = b := by
  induction bits generalizing found with
  | nil =>
    refine answers_ok fun b hb => ⟨fun bit hbit => ?_, fun hnone => ?_, fun i hi => by cases hi⟩
    · exact Option.some.inj (hbit.symm.trans hb)
    · cases hb.symm.trans hnone
  | cons bit bits ih =>
    rw [List.forall_mem_cons] at hlen
    have hbit := Bytes.getBit_eq bytes bit
    rw [Bytes.getBit, List.getElem?_eq_getElem hlen.1, Option.any_some] at hbit
    rw [onehotBit, List.getElem?_eq_getElem hlen.1, expect_some, ok_bind]
    split
    · rename_i hzero
      refine (ih hlen.2).mono fun o ho b hb => ?_
      obtain ⟨hsame, hmem, hall⟩ := ho b hb
      refine ⟨hsame, fun hnone => ⟨List.mem_cons_of_mem _ (hmem hnone).1, (hmem hnone).2⟩,
        List.forall_mem_cons.mpr ⟨fun h => ?_, hall⟩⟩
      simp [← hbit, hzero] at h
    · rename_i hone
      split
      · exact answers_none
      · rename_i hfound
        rw [Option.not_isSome_iff_eq_none] at hfound
        subst hfound
        refine (ih hlen.2).mono fun o ho b hb => ?_
        obtain ⟨hsame, -, hall⟩ := ho b hb
        obtain rfl := hsame bit rfl
        refine ⟨fun _ h => (by cases h), fun _ => ⟨by simp, ?_⟩,
          List.forall_mem_cons.mpr ⟨fun _ => ⟨rfl, rfl⟩, fun i hi h => by cases (hall i hi h).1⟩⟩
        rw [← hbit]
        exact decide_eq_true hone

theorem onehotConstBit_answers (hs : s.Inv) (ht : s.IsBv t w) :
    Answers (onehotConstBit s t w) fun o => ∀ b, o = some b →
      b < w ∧ ∀ ρ, s.bv ρ t w = BitVec.twoPow w b := by
  refine (kind_answers ht).bind fun k hk => ?_
  cases k with
  | bvConst actual bytes =>
    obtain ⟨σ, hσ, rfl, hlen, -⟩ := hs.hasSort hk
    obtain rfl := ht.inj hσ
    dsimp only
    rw [if_neg (not_not.mpr rfl)]
    refine (onehotBit_answers fun bit hbit => ?_).mono fun o ho b hb => ?_
    · have hcover := Bytes.le_eight_mul_divCeil8 w
      rw [List.mem_range] at hbit
      omega
    · obtain ⟨-, hmem, hall⟩ := ho b hb
      obtain ⟨hlt, hset⟩ := hmem rfl
      rw [List.mem_range] at hlt
      refine ⟨hlt, fun ρ => BitVec.eq_of_getLsbD_eq fun i hi => ?_⟩
      rw [Arena.IsBv.getLsbD hs ht, ← Arena.testBit_num, Arena.num_bvConst hs hk,
        BitVec.getLsbD_twoPow, decide_eq_true hlt, Bool.true_and]
      by_cases hib : b = i
      · rw [← hib, hset, decide_eq_true rfl]
      · rw [decide_eq_false hib, Bool.eq_false_iff]
        exact fun h => hib ((hall i (List.mem_range.mpr hi) h).2).symm
  | _ => exact answers_none

/-- The condition says that bit `b` of the input is one, or it never holds: a shift amount of which
the upper bytes are not read may shift the one bit of the mask out. -/
def Sees (s : Arena) (t input : TermId) (w b : Nat) : Prop :=
  b < w ∧ ((∀ ρ, s.IsTrue ρ t ↔ (s.bv ρ input w).getLsbD b = true) ∨ ∀ ρ, ¬s.IsTrue ρ t)

/-- A mask for one bit, or for none. -/
theorem onehotMaskSide_answers (hs : s.Inv) {input : TermId} (hi : s.IsBv input w)
    (ha : s.IsBv a v) (hb : s.IsBv b v) :
    Answers (onehotMaskSide s input w a b) fun o => ∀ bit, o = some bit →
      bit < w ∧ a = input ∧
        ((∀ ρ, s.bv ρ b w = BitVec.twoPow w bit) ∨ ∀ ρ, s.bv ρ b w = 0) := by
  unfold onehotMaskSide
  split
  · exact answers_none
  rename_i hinput
  obtain rfl := not_not.mp hinput
  obtain rfl := hi.inj ha
  refine (onehotConstBit_answers hs hb).bind fun o ho => ?_
  cases o with
  | some bit =>
    obtain ⟨hlt, hmask⟩ := ho bit rfl
    exact answers_some ⟨hlt, rfl, .inl hmask⟩
  | none =>
    refine (kind_answers hb).bind fun k hk => ?_
    cases k with
    | bvShl one amount =>
      obtain ⟨hone, hamount⟩ := hs.binary_sort hk hb id
      refine (isOneBvConst_bv hs hone).bind fun found hone => ?_
      cases found with
      | false => exact answers_none
      | true =>
        refine (constU64ThroughZeroExtend_answers hs hamount).bind fun o ho => ?_
        cases o with
        | none => exact answers_none
        | some bit =>
          obtain ⟨n, hn, hbit⟩ := ho bit rfl
          have hmask : ∀ ρ, s.bv ρ b w = (1 : BitVec w) <<< n := fun ρ => by
            rw [(Arena.bv_bvShl hs hk hb).2.2, hone rfl, BitVec.shiftLeft_eq',
              ← hamount.num_eq hs, hn]
          refine answers_ok fun bit' hbit' => ?_
          rw [Option.ite_none_right_eq_some, Option.some.injEq] at hbit'
          obtain ⟨hlt, rfl⟩ := hbit'
          refine ⟨hlt, rfl, ?_⟩
          rcases Nat.lt_or_ge n (2 ^ 64) with h | h
          · rw [Nat.mod_eq_of_lt h] at hbit
            left
            intro ρ
            rw [hmask, hbit]
            exact (BitVec.twoPow_eq w n).symm
          · right
            intro ρ
            have hmax : maxBvWidth ≤ 2 ^ 64 := by decide
            rw [hmask]
            exact BitVec.shiftLeft_eq_zero (((hs.width_le b w hb).2.trans hmax).trans h)
    | _ => exact answers_none

theorem and_twoPow_ne_zero {x : BitVec w} {i : Nat} (hi : i < w) :
    x &&& BitVec.twoPow w i ≠ 0 ↔ x.getLsbD i = true := by
  have hne : BitVec.twoPow w i ≠ 0 := by
    intro h
    have hpow := BitVec.toNat_twoPow_of_lt hi
    rw [h] at hpow
    exact (Nat.two_pow_pos i).ne hpow
  rw [BitVec.and_twoPow]
  split
  · exact iff_of_true hne ‹_›
  · exact iff_of_false (not_not.mpr rfl) ‹_›

theorem onehotMaskBit_answers (hs : s.Inv) {input : TermId} (hi : s.IsBv input w)
    (ht : s.IsBv t v) : Answers (onehotMaskBit s t input w) fun o => ∀ bit, o = some bit →
      bit < w ∧ ((∀ ρ, s.bv ρ t v ≠ 0 ↔ (s.bv ρ input w).getLsbD bit = true) ∨
        ∀ ρ, s.bv ρ t v = 0) := by
  refine (parts_answers ht).bind fun o ⟨k, hk, ho⟩ => ?_
  cases o with
  | none => exact answers_none
  | some p =>
    obtain ⟨a, b⟩ := p
    obtain rfl := NodeKind.bvAnd?_eq.mp ho
    obtain ⟨ha, hb⟩ := hs.binary_sort hk ht id
    -- either operand may be the input
    have key : ∀ {x y : TermId} {bit : Nat}, s.IsBv x v →
        (∀ ρ, s.bv ρ t v = s.bv ρ x v &&& s.bv ρ y v) → (bit < w ∧ x = input ∧
          ((∀ ρ, s.bv ρ y w = BitVec.twoPow w bit) ∨ ∀ ρ, s.bv ρ y w = 0)) →
        bit < w ∧ ((∀ ρ, s.bv ρ t v ≠ 0 ↔ (s.bv ρ input w).getLsbD bit = true) ∨
          ∀ ρ, s.bv ρ t v = 0) := by
      rintro x y bit hx hval ⟨hlt, rfl, hmask⟩
      obtain rfl := hi.inj hx
      refine ⟨hlt, hmask.imp (fun hmask ρ => ?_) fun hmask ρ => ?_⟩
      · rw [hval, hmask, and_twoPow_ne_zero hlt]
      · rw [hval, hmask]
        exact BitVec.and_zero
    refine (onehotMaskSide_answers hs hi ha hb).bind fun o ho => ?_
    cases o with
    | some bit =>
      exact answers_some (key ha (fun ρ => (Arena.bv_bvAnd hs hk ht).2.2) (ho bit rfl))
    | none =>
      refine (onehotMaskSide_answers hs hi hb ha).mono fun o ho bit hbit => ?_
      refine key hb (fun ρ => ?_) (ho bit hbit)
      rw [(Arena.bv_bvAnd hs hk ht).2.2, BitVec.and_comm]

theorem extractBitOf_answers (hs : s.Inv) {input : TermId} (hi : s.IsBv input w)
    (ht : s.IsBv t v) : Answers (extractBitOf s t input w) fun o => ∀ bit, o = some bit →
      bit < w ∧ ∀ ρ, s.bv ρ t v = 1 ↔ (s.bv ρ input w).getLsbD bit = true := by
  refine (kind_answers ht).bind fun k hk => ?_
  cases k with
  | bvExtract child high low =>
    refine answers_ok fun bit hbit => ?_
    rw [Option.ite_none_right_eq_some, Option.some.injEq] at hbit
    obtain ⟨⟨rfl, rfl, hlt⟩, rfl⟩ := hbit
    refine ⟨hlt, fun ρ => ?_⟩
    obtain ⟨v', ht', -⟩ := hs.bvExtract_sort hk
    obtain rfl : v = high - high + 1 := ht.inj ht'
    have hone : (1 : BitVec (high - high + 1)).toNat = 1 := BitVec.toNat_one (Nat.succ_pos _)
    rw [hi.getLsbD hs, ← BitVec.toNat_inj, hone, ← ht.num_eq hs, Arena.num_bvExtract hs hk,
      Nat.sub_self, Nat.shiftRight_eq_div_pow, ← Arena.testBit_num,
      Nat.testBit_eq_decide_div_mod_eq, decide_eq_true_iff]
    rfl
  | _ => exact answers_none

theorem eitherSide_answers {side : TermId → TermId → Result (Option Nat)} {P : Nat → Prop}
    (hab : Answers (side a b) fun o => ∀ bit, o = some bit → P bit)
    (hba : Answers (side b a) fun o => ∀ bit, o = some bit → P bit) :
    Answers (eitherSide side a b) fun o => ∀ bit, o = some bit → P bit := by
  refine hab.bind fun o ho => ?_
  cases o with
  | some bit => exact answers_some (ho bit rfl)
  | none => exact hba

theorem directExtract_answers (hs : s.Inv) {input : TermId} (hi : s.IsBv input w)
    (ht : s.sortAt t = some .bool) :
    Answers (directExtract s t input w) fun o => ∀ bit, o = some bit → Sees s t input w bit := by
  refine (bvEqPair_answers ht).bind fun o ho => ?_
  cases o with
  | none => exact answers_none
  | some p =>
    have hk := ho p rfl
    obtain ⟨v, ha, hb⟩ := hs.bvEq_sort hk
    have side : ∀ {x y : TermId}, s.IsBv x v → s.IsBv y v →
        (∀ ρ, s.IsTrue ρ t ↔ s.bv ρ y v = s.bv ρ x v) →
        Answers (extractSide s input w x y) fun o => ∀ bit, o = some bit → Sees s t input w bit := by
      intro x y hx hy hiff
      refine (isOneBvConst_bv hs hx).bind fun found hone => ?_
      cases found with
      | false => exact answers_none
      | true =>
        refine (extractBitOf_answers hs hi hy).mono fun o ho bit hbit => ?_
        obtain ⟨hlt, hsees⟩ := ho bit hbit
        exact ⟨hlt, .inl fun ρ => by rw [hiff, hone rfl, hsees]⟩
    have heq := fun ρ => (Arena.isTrue_bvEq_bv (ρ := ρ) hs hk ha).2
    exact eitherSide_answers (side ha hb fun ρ => (heq ρ).trans eq_comm) (side hb ha heq)

theorem directMask_answers (hs : s.Inv) {input : TermId} (hi : s.IsBv input w)
    (ht : s.sortAt t = some .bool) :
    Answers (directMask s t input w) fun o => ∀ bit, o = some bit → Sees s t input w bit := by
  refine (kind_answers ht).bind fun k hk => ?_
  cases k with
  | boolNot child =>
    refine (bvEqPair_answers (hs.sort_kind hk ht).2).bind fun o ho => ?_
    cases o with
    | none => exact answers_none
    | some p =>
      have hkeq := ho p rfl
      obtain ⟨v, ha, hb⟩ := hs.bvEq_sort hkeq
      have side : ∀ {x y : TermId}, s.IsBv x v → s.IsBv y v →
          (∀ ρ, s.IsTrue ρ t ↔ s.bv ρ x v ≠ s.bv ρ y v) →
          Answers (maskSide s input w x y) fun o => ∀ bit, o = some bit → Sees s t input w bit := by
        intro x y hx hy hiff
        refine (isZeroBvConst_bv hs hy).bind fun found hzero => ?_
        cases found with
        | false => exact answers_none
        | true =>
          refine (onehotMaskBit_answers hs hi hx).mono fun o ho bit hbit => ?_
          obtain ⟨hlt, hsees⟩ := ho bit hbit
          refine ⟨hlt, hsees.imp (fun hsees ρ => ?_) fun hblind ρ => ?_⟩
          · rw [hiff, hzero rfl, hsees]
          · rw [hiff, hzero rfl, hblind, not_not]
      have hne : ∀ ρ, s.IsTrue ρ t ↔ s.bv ρ p.1 v ≠ s.bv ρ p.2 v := fun ρ => by
        rw [Arena.isTrue_boolNot hs hk, (Arena.isTrue_bvEq_bv hs hkeq ha).2]
      exact eitherSide_answers (side ha hb hne) (side hb ha fun ρ => (hne ρ).trans ne_comm)
  | _ => exact answers_none

theorem directBitSetCondition_answers (hs : s.Inv) {input : TermId} (hi : s.IsBv input w)
    (ht : s.sortAt t = some .bool) :
    Answers (directBitSetCondition s t input w) fun o => ∀ bit, o = some bit →
      Sees s t input w bit := by
  refine (directExtract_answers hs hi ht).bind fun o ho => ?_
  cases o with
  | some bit => exact answers_some (ho bit rfl)
  | none => exact directMask_answers hs hi ht

theorem bitSetCondition_answers (hs : s.Inv) {input : TermId} (hi : s.IsBv input w)
    (ht : s.sortAt t = some .bool) :
    Answers (bitSetCondition s t input w) fun o => ∀ bit, o = some bit → Sees s t input w bit := by
  refine (directBitSetCondition_answers hs hi ht).bind fun o ho => ?_
  cases o with
  | some bit => exact answers_some (ho bit rfl)
  | none =>
    refine (bvEqPair_answers ht).bind fun o ho => ?_
    cases o with
    | none => exact answers_none
    | some p =>
      refine (indicatorConditionEither_answers hs (ho p rfl)).bind fun o ho => ?_
      cases o with
      | none => exact answers_none
      | some cond =>
        obtain ⟨hcond, -, hiff⟩ := ho cond rfl
        refine (directBitSetCondition_answers hs hi hcond).mono fun o ho bit hbit => ?_
        obtain ⟨hlt, hsees⟩ := ho bit hbit
        refine ⟨hlt, hsees.imp (fun hsees ρ => ?_) fun hblind ρ => ?_⟩
        · rw [hiff, hsees]
        · rw [hiff]
          exact hblind ρ

/-! ## Counters -/

/-- What a walk leaves: nothing, or the value of the term that it ended at. -/
def leftOver (s : Arena) (ρ : Env) (w : Nat) : Option TermId → BitVec w
  | none => 0
  | some t => s.bv ρ t w

theorem addOneToBase_true (hs : s.Inv) (ht : s.IsBv t w) (h : addOneToBase s t b = ok true) :
    s.bv ρ t w = s.bv ρ b w + 1 := by
  obtain ⟨x, y, hk, h⟩ := let_bvAdd h
  obtain ⟨hx, hy, hval⟩ := Arena.bv_bvAdd (ρ := ρ) hs hk ht
  rcases true_of_or h with h | h
  · obtain ⟨heq, hone⟩ := and_eq_true.mp h
    obtain rfl := beq_iff_eq.mp (Outcome.ok.inj heq)
    rw [hval, isOneBvConst_true hs hy hone]
  · obtain ⟨heq, hone⟩ := and_eq_true.mp h
    obtain rfl := beq_iff_eq.mp (Outcome.ok.inj heq)
    rw [hval, isOneBvConst_true hs hx hone, BitVec.add_comm]

section Walk

variable {α : Type} {test : TermId → Result (Option α)}
  {sides : TermId → TermId → TermId × TermId} (Counts : Env → TermId → Prop)
  [∀ ρ cond, Decidable (Counts ρ cond)]

/-- A counter is worth as many as the conditions that count, and what is left. -/
theorem counterWalk_some (hs : s.Inv) (hsides : ∀ x y, sides x y = (x, y) ∨ sides x y = (y, x))
    (hcounts : ∀ ρ cond x y, (if s.IsTrue ρ cond then s.bv ρ x w else s.bv ρ y w) =
      if Counts ρ cond then s.bv ρ (sides x y).1 w else s.bv ρ (sides x y).2 w) :
    ∀ {rounds : Nat} {t : TermId} {founds : List (TermId × α)} {rest : Option TermId},
      s.IsBv t w → counterWalk s test sides rounds t = ok (some (founds, rest)) →
      (∀ p ∈ founds, s.sortAt p.1 = some .bool ∧ test p.1 = ok (some p.2)) ∧
      ∀ ρ, s.bv ρ t w =
        (founds.map fun p => if Counts ρ p.1 then 1 else 0).sum + leftOver s ρ w rest := by
  intro rounds
  induction rounds with
  | zero =>
    intro t founds rest _ h
    cases h
    simp [leftOver]
  | succ rounds ih =>
    intro t founds rest ht h
    obtain ⟨cond, x, y, hk, h⟩ := let_bvIte h
    obtain ⟨hcond, hx, hy⟩ := hs.bvIte_sort hk ht
    obtain ⟨o, ho, h⟩ := bind_eq_ok.mp h
    cases o with
    | none => cases h
    | some found =>
      have hval : ∀ ρ, s.bv ρ t w =
          if Counts ρ cond then s.bv ρ (sides x y).1 w else s.bv ρ (sides x y).2 w :=
        fun ρ => (Arena.bv_bvIte hs hk).trans (hcounts ρ cond x y)
      have hmore : s.IsBv (sides x y).1 w ∧ s.IsBv (sides x y).2 w := by
        rcases hsides x y with heq | heq
        · rw [heq]
          exact ⟨hx, hy⟩
        · rw [heq]
          exact ⟨hy, hx⟩
      dsimp only at h
      generalize sides x y = p at h hval hmore
      obtain ⟨more, less⟩ := p
      obtain ⟨hmore, hless⟩ := hmore
      obtain ⟨last, hlast, h⟩ := bind_eq_ok.mp h
      cases last with
      | true =>
        cases h
        obtain ⟨hzero, hone⟩ := and_eq_true.mp hlast
        refine ⟨by simpa using ⟨hcond, ho⟩, fun ρ => ?_⟩
        rw [hval, isZeroBvConst_true hs hless hzero, isOneBvConst_true hs hmore hone]
        simp [leftOver]
      | false =>
        obtain ⟨hadd, h⟩ := of_unless h
        obtain ⟨o, hwalk, h⟩ := bind_eq_ok.mp h
        cases o with
        | none => cases h
        | some p =>
          obtain ⟨founds', rest'⟩ := p
          cases h
          obtain ⟨htests, hsum⟩ := ih hless hwalk
          refine ⟨List.forall_mem_cons.mpr ⟨⟨hcond, ho⟩, htests⟩, fun ρ => ?_⟩
          rw [hval, addOneToBase_true hs hmore hadd, hsum, List.map_cons, List.sum_cons]
          split <;> ring

end Walk

/-! ### Looking at the bits one by one -/

open Classical in
/-- The one bits of the input that their conditions never see. -/
noncomputable def unseenBits (s : Arena) (x : BitVec w) (founds : List (TermId × Nat)) : BitVec w :=
  (founds.map fun p =>
    if ∃ ρ, s.IsTrue ρ p.1 then 0 else ((x.getLsbD p.2).toNat : BitVec w)).sum

/-- A condition that holds and a bit that it does not see are the bit. -/
theorem Sees.add_unseen {input : TermId} {bit : Nat} (h : Sees s t input w bit)
    [Decidable (∃ ρ, s.IsTrue ρ t)] :
    (if s.IsTrue ρ t then 1 else 0) +
      (if ∃ ρ, s.IsTrue ρ t then 0 else (((s.bv ρ input w).getLsbD bit).toNat : BitVec w)) =
      (((s.bv ρ input w).getLsbD bit).toNat : BitVec w) := by
  rcases h.2 with hsees | hblind
  · by_cases hρ : s.IsTrue ρ t
    · rw [if_pos hρ, if_pos ⟨ρ, hρ⟩, (hsees ρ).mp hρ, add_zero, Bool.toNat_true, Nat.cast_one]
    · have hfalse : (s.bv ρ input w).getLsbD bit = false := by
        rwa [Bool.eq_false_iff, ne_eq, ← hsees]
      rw [if_neg hρ, hfalse, Bool.toNat_false, Nat.cast_zero, ite_self, add_zero]
  · rw [if_neg (hblind ρ), if_neg fun ⟨ρ', h⟩ => hblind ρ' h, zero_add]

theorem perm_range_of_sorted {bits : List Nat} {n : Nat} (hlen : bits.length = n)
    (h : (bits.insertionSort (· ≤ ·)).dedup = List.range n) : bits.Perm (List.range n) := by
  have hsame : (bits.insertionSort (· ≤ ·)).dedup = bits.insertionSort (· ≤ ·) := by
    refine (List.dedup_sublist _).eq_of_length ?_
    rw [h, List.length_range, List.length_insertionSort, hlen]
  rw [← h, hsame]
  exact (List.perm_insertionSort (· ≤ ·) bits).symm

/-- A term that looks at the bits one by one counts the ones just when it starts with the ones that
it does not see. -/
theorem conditionalNaive_iff (hs : s.Inv) {input : TermId} (ht : s.IsBv t w)
    (hi : s.IsBv input w) {founds : List (TermId × Nat)} {rest : Option TermId}
    (hwalk : conditionalNaiveWalk s t input w = ok (some (founds, rest)))
    (h : matchesConditionalNaivePopcount s t input w = ok true) (ρ : Env) :
    s.bv ρ t w = (s.bv ρ input w).cpop ↔
      leftOver s ρ w rest = unseenBits s (s.bv ρ input w) founds := by
  classical
  rw [matchesConditionalNaivePopcount, hwalk, ok_bind] at h
  dsimp only at h
  rw [pure_eq, Outcome.ok.injEq, decide_eq_true_eq] at h
  obtain ⟨htests, hsum⟩ := counterWalk_some (fun ρ cond => s.IsTrue ρ cond) hs
    (fun _ _ => .inl rfl) (fun _ _ _ _ => rfl) ht hwalk
  have hsees : ∀ p ∈ founds, Sees s p.1 input w p.2 := fun p hp =>
    (bitSetCondition_answers hs hi (htests p hp).1).of_eq (htests p hp).2 p.2 rfl
  have hcount : (founds.map fun p => if s.IsTrue ρ p.1 then (1 : BitVec w) else 0).sum +
      unseenBits s (s.bv ρ input w) founds = (s.bv ρ input w).cpop := by
    have hperm := perm_range_of_sorted h.1 h.2
    rw [unseenBits, ← List.sum_map_add, cpop_eq, popcount_eq, Nat.cast_sum]
    calc (founds.map fun p => (if s.IsTrue ρ p.1 then (1 : BitVec w) else 0) +
            if ∃ ρ, s.IsTrue ρ p.1 then 0
            else (((s.bv ρ input w).getLsbD p.2).toNat : BitVec w)).sum
        = ((founds.map (·.2)).map fun i =>
            (((s.bv ρ input w).getLsbD i).toNat : BitVec w)).sum := by
          rw [List.map_map]
          exact congrArg List.sum (List.map_congr_left fun p hp => (hsees p hp).add_unseen)
      _ = ∑ i ∈ Finset.range w, (((s.bv ρ input w).getLsbD i).toNat : BitVec w) :=
          (hperm.map _).sum_eq
  rw [hsum, ← hcount]
  exact add_right_inj _

/-! ### Clearing the lowest one bit -/

theorem isMinusOneAdd_true (hs : s.Inv) (ht : s.IsBv t w) (h : isMinusOneAdd s t b = ok true) :
    s.bv ρ t w = s.bv ρ b w - 1 := by
  have hones : ∀ {x : TermId}, s.IsBv x w → isAllOnesBv s x = ok true → s.bv ρ x w = -1 := by
    intro x hx h
    obtain ⟨v, hv, h⟩ := let_bv h
    obtain rfl := hx.inj hv
    rw [(isAllOnesBvConst_true hs h).2, ← BitVec.neg_one_eq_allOnes]
    rfl
  obtain ⟨x, y, hk, h⟩ := let_bvAdd h
  obtain ⟨hx, hy, hval⟩ := Arena.bv_bvAdd (ρ := ρ) hs hk ht
  rcases true_of_or h with h | h
  · obtain ⟨heq, hall⟩ := and_eq_true.mp h
    obtain rfl := beq_iff_eq.mp (Outcome.ok.inj heq)
    rw [hval, hones hy hall, sub_eq_add_neg]
  · obtain ⟨heq, hall⟩ := and_eq_true.mp h
    obtain rfl := beq_iff_eq.mp (Outcome.ok.inj heq)
    rw [hval, hones hx hall, sub_eq_add_neg, add_comm]

theorem matchesClearLowestSetBit_true (hs : s.Inv) (ht : s.IsBv t v) (hb : s.IsBv b w)
    (h : matchesClearLowestSetBit s t b = ok true) :
    s.IsBv t w ∧ ∀ ρ, s.bv ρ t w = clearLowest (s.bv ρ b w) := by
  obtain ⟨x, y, hparts, h⟩ := let_pair h
  have hk := bvAndParts_eq.mp hparts
  obtain ⟨hx, hy⟩ := hs.binary_sort hk ht id
  rcases true_of_or h with h | h
  · obtain ⟨heq, h⟩ := and_eq_true.mp h
    obtain rfl := beq_iff_eq.mp (Outcome.ok.inj heq)
    obtain rfl := hb.inj hx
    refine ⟨ht, fun ρ => ?_⟩
    rw [(Arena.bv_bvAnd hs hk ht).2.2, isMinusOneAdd_true hs hy h, clearLowest]
  · obtain ⟨heq, h⟩ := and_eq_true.mp h
    obtain rfl := beq_iff_eq.mp (Outcome.ok.inj heq)
    obtain rfl := hb.inj hy
    refine ⟨ht, fun ρ => ?_⟩
    rw [(Arena.bv_bvAnd hs hk ht).2.2, isMinusOneAdd_true hs hx h, BitVec.and_comm, clearLowest]

/-- The words of the chain are the input with more and more bits cleared. -/
theorem states_eq (hs : s.Inv) {input : TermId} {states : List TermId} (hi : s.IsBv input w)
    (hsorts : ∀ state ∈ states, ∃ v, s.IsBv state v) (hhead : states.head? = some input)
    (h : (states.zip states.tail).allM
      (fun (previous, state) => matchesClearLowestSetBit s state previous) = ok true)
    {i : Nat} {state : TermId} (hstate : states[i]? = some state) :
    s.IsBv state w ∧ ∀ ρ, s.bv ρ state w = clearLowest^[i] (s.bv ρ input w) := by
  induction i generalizing state with
  | zero =>
    rw [List.head?_eq_getElem?, hstate] at hhead
    obtain rfl := Option.some.inj hhead
    exact ⟨hi, fun _ => rfl⟩
  | succ i ih =>
    obtain ⟨previous, hprevious⟩ : ∃ previous, states[i]? = some previous :=
      ⟨_, List.getElem?_eq_getElem (Nat.lt_of_succ_lt (List.getElem?_eq_some_iff.mp hstate).1)⟩
    obtain ⟨hpw, hpval⟩ := ih hprevious
    have hmem : (previous, state) ∈ states.zip states.tail := by
      refine List.mem_of_getElem? (i := i) ?_
      rw [List.getElem?_zip_eq_some, List.getElem?_tail]
      exact ⟨hprevious, hstate⟩
    obtain ⟨v, hv⟩ := hsorts state (List.mem_of_getElem? hstate)
    obtain ⟨hw, hval⟩ := matchesClearLowestSetBit_true hs hv hpw (forall_of_allM h _ hmem)
    refine ⟨hw, fun ρ => ?_⟩
    rw [hval, hpval, Function.iterate_succ_apply']

/-- A term that clears the lowest one bit over and over counts the one bits just when it starts with
zero. -/
theorem wegner_iff (hs : s.Inv) {input : TermId} (ht : s.IsBv t w) (hi : s.IsBv input w)
    {founds : List (TermId × TermId)} {rest : Option TermId}
    (hwalk : wegnerWalk s t w = ok (some (founds, rest)))
    (h : matchesWegnerPopcount s t input w = ok true) (ρ : Env) :
    s.bv ρ t w = (s.bv ρ input w).cpop ↔ leftOver s ρ w rest = 0 := by
  rw [matchesWegnerPopcount, hwalk, ok_bind] at h
  dsimp only at h
  obtain ⟨hlen, h⟩ := of_if h
  obtain ⟨hhead, h⟩ := of_if h
  rw [not_not] at hlen hhead
  obtain ⟨htests, hsum⟩ := counterWalk_some (fun ρ cond => ¬s.IsTrue ρ cond) hs
    (fun _ _ => .inr rfl) (fun ρ cond x y => by rw [ite_not]) ht hwalk
  have htest : ∀ p ∈ founds, ∃ v, s.IsBv p.2 v ∧ ∀ ρ, s.IsTrue ρ p.1 ↔ s.bv ρ p.2 v = 0 :=
    fun p hp => (zeroTestCondition_answers hs (htests p hp).1).of_eq (htests p hp).2 p.2 rfl
  generalize hstates : (founds.map (·.2)).reverse = states at hlen hhead h
  have hmem : ∀ p ∈ founds, p.2 ∈ states := fun p hp => by
    rw [← hstates, List.mem_reverse]
    exact List.mem_map_of_mem hp
  have hsorts : ∀ state ∈ states, ∃ v, s.IsBv state v := by
    intro state hstate
    rw [← hstates, List.mem_reverse] at hstate
    obtain ⟨p, hp, rfl⟩ := List.mem_map.mp hstate
    exact (htest p hp).imp fun v hv => hv.1
  have hchain : ∀ {i state}, states[i]? = some state → s.IsBv state w ∧
      ∀ ρ, s.bv ρ state w = clearLowest^[i] (s.bv ρ input w) :=
    fun hstate => states_eq hs hi hsorts hhead h hstate
  have hcount : (founds.map fun p => if ¬s.IsTrue ρ p.1 then (1 : BitVec w) else 0).sum =
      (s.bv ρ input w).cpop := by
    calc (founds.map fun p => if ¬s.IsTrue ρ p.1 then (1 : BitVec w) else 0).sum
        = ((founds.map (·.2)).map fun state =>
            if s.bv ρ state w = 0 then (0 : BitVec w) else 1).sum := by
          rw [List.map_map]
          refine congrArg List.sum (List.map_congr_left fun p hp => ?_)
          obtain ⟨v, hv, hiff⟩ := htest p hp
          obtain ⟨i, hstate⟩ := List.getElem?_of_mem (hmem p hp)
          obtain rfl := hv.inj (hchain hstate).1
          simp only [hiff, ite_not, Function.comp_apply]
      _ = (states.map fun state => if s.bv ρ state w = 0 then (0 : BitVec w) else 1).sum := by
          rw [← hstates, List.map_reverse, List.sum_reverse]
      _ = ((List.range w).map fun i =>
            if clearLowest^[i] (s.bv ρ input w) = 0 then (0 : BitVec w) else 1).sum := by
          refine congrArg List.sum (List.ext_getElem (by simp [hlen]) fun i hi _ => ?_)
          rw [List.length_map] at hi
          rw [List.getElem_map, List.getElem_map, List.getElem_range,
            (hchain (List.getElem?_eq_getElem hi)).2]
      _ = ((∑ i ∈ Finset.range w,
            if clearLowest^[i] (s.bv ρ input w) = 0 then 0 else 1 : ℕ) : BitVec w) := by
          rw [Nat.cast_sum]
          simp only [Nat.cast_ite, Nat.cast_zero, Nat.cast_one]
          rfl
      _ = (s.bv ρ input w).cpop := by
          rw [sum_clearLowest (fun i _ => Function.iterate_succ_apply' _ _ _) popcount_le, cpop_eq]
          rfl
  rw [hsum, hcount]
  exact add_eq_left

/-! ### Subtracting shifts -/

/-- The word that a step subtracts is the word before it, shifted, or it is zero in every assignment:
a shift amount of which the upper bytes are not read may shift everything out. -/
structure ShiftStep (s : Arena) (w : Nat) (step : SrlSubtractStep) : Prop where
  accPrev : s.IsBv step.accPrev w
  xPrev : s.IsBv step.xPrev w
  xNext : (∀ ρ, s.bv ρ step.xNext w = s.bv ρ step.xPrev w >>> 1) ∨ ∀ ρ, s.bv ρ step.xNext w = 0

theorem srlSubtractStep_some (hs : s.Inv) (ht : s.IsBv t w) {step : SrlSubtractStep}
    (h : srlSubtractStep s t = ok (some step))
    (hcond : nonzeroTestCondition s step.cond = ok (some step.xPrev)) :
    ShiftStep s w step ∧ ∀ ρ, s.bv ρ t w = s.bv ρ step.accPrev w - s.bv ρ step.xNext w := by
  obtain ⟨cond, x, y, hk, h⟩ := let_bvIte h
  obtain ⟨accPrev, xNext, hksub, h⟩ := let_bvSub h
  obtain ⟨hacc, h⟩ := of_if h
  obtain ⟨nextCond, shifted, xPrev, hknext, h⟩ := let_bvIte h
  obtain ⟨hnext, h⟩ := of_if h
  obtain ⟨shiftedChild, amount, hkshift, h⟩ := let_bvLShr h
  obtain ⟨hchild, h⟩ := of_if h
  obtain ⟨hone, h⟩ := of_unless h
  cases h
  obtain rfl := not_not.mp hacc
  obtain rfl := not_not.mp hnext
  obtain rfl := not_not.mp hchild
  dsimp only at hcond
  obtain ⟨hcondSort, hx, hy⟩ := hs.bvIte_sort hk ht
  obtain ⟨-, hxNext⟩ := hs.binary_sort hksub hx id
  obtain ⟨-, hshifted, hxPrev⟩ := hs.bvIte_sort hknext hxNext
  obtain ⟨-, hamount⟩ := hs.binary_sort hkshift hshifted id
  obtain ⟨v, hv, hiff⟩ := (nonzeroTestCondition_answers hs hcondSort).of_eq hcond _ rfl
  obtain rfl := hxPrev.inj hv
  obtain ⟨o, ho, hone⟩ := bind_eq_ok.mp hone
  obtain rfl := beq_iff_eq.mp (Outcome.ok.inj hone)
  obtain ⟨n, hn, hmod⟩ := (constU64ThroughZeroExtend_answers hs hamount).of_eq ho _ rfl
  rw [show (1 : UInt64).toNat = 1 from rfl] at hmod
  have hnothing : (0 : BitVec w) >>> n = 0 := BitVec.zero_ushiftRight
  -- where the condition is false there is nothing to shift
  have hval : ∀ ρ, s.bv ρ xNext w = s.bv ρ shiftedChild w >>> n := fun ρ => by
    rw [Arena.bv_bvIte hs hknext, (Arena.bv_bvLShr hs hkshift hshifted).2.2,
      BitVec.ushiftRight_eq', ← hamount.num_eq hs, hn]
    split
    · rfl
    · rename_i hfalse
      rw [hiff, not_not] at hfalse
      rw [hfalse, hnothing]
  refine ⟨⟨hy, hxPrev, ?_⟩, fun ρ => ?_⟩
  · rcases Nat.lt_or_ge n (2 ^ 64) with hlt | hge
    · rw [Nat.mod_eq_of_lt hlt] at hmod
      exact .inl fun ρ => by rw [hval, ← hmod]
    · have hmax : maxBvWidth ≤ 2 ^ 64 := by decide
      refine .inr fun ρ => ?_
      rw [hval]
      exact BitVec.ushiftRight_eq_zero (((hs.width_le _ _ ht).2.trans hmax).trans hge)
  · rw [Arena.bv_bvIte hs hk, (Arena.bv_bvSub hs hksub hx).2.2]
    split
    · rfl
    · rename_i hfalse
      rw [hiff, not_not] at hfalse
      rw [hval, hfalse, hnothing]
      exact (BitVec.sub_zero _).symm

/-- The word that a chain of steps starts from. -/
def startOf (t : TermId) (steps : List SrlSubtractStep) : TermId :=
  (steps.getLast?.map (·.accPrev)).getD t

open Classical in
/-- The shifts of `x` that the steps subtract: those that are not zero in every assignment. -/
noncomputable def shiftsTaken (s : Arena) (x : BitVec w) : List SrlSubtractStep → BitVec w
  | [] => 0
  | step :: steps =>
    (if ∃ ρ, s.bv ρ step.xNext w ≠ 0 then x >>> (steps.length + 1) else 0) + shiftsTaken s x steps

/-- Steps that follow on each other: each starts from the word that the one before it made. -/
structure ShiftChain (s : Arena) (w : Nat) (steps : List SrlSubtractStep) : Prop where
  shifts : ∀ step ∈ steps, ShiftStep s w step
  chain : steps.IsChain fun outer inner => inner.xNext = outer.xPrev

theorem srlSubtractWalk_some (hs : s.Inv) {input : TermId} :
    ∀ {rounds : Nat} {t : TermId} {expected : Option TermId} {steps : List SrlSubtractStep},
      s.IsBv t w → srlSubtractWalk s input rounds t expected = ok (some steps) →
      ShiftChain s w steps ∧ (∀ step ∈ steps.head?, ∀ x ∈ expected, step.xNext = x) ∧
      ∀ ρ, s.bv ρ t w =
        s.bv ρ (startOf t steps) w - (steps.map fun step => s.bv ρ step.xNext w).sum := by
  intro rounds
  induction rounds with
  | zero =>
    intro t expected steps _ h
    cases h
    exact ⟨⟨by simp, .nil⟩, by simp, fun ρ => by simp [startOf]⟩
  | succ rounds ih =>
    intro t expected steps ht h
    obtain ⟨o, hstep, h⟩ := bind_eq_ok.mp h
    cases o with
    | none => cases h
    | some step =>
      obtain ⟨hexpected, h⟩ := of_if h
      obtain ⟨test, htest, h⟩ := bind_eq_ok.mp h
      obtain ⟨hcond, h⟩ := of_if h
      rw [not_not.mp hcond] at htest
      obtain ⟨hshift, hval⟩ := srlSubtractStep_some hs ht hstep htest
      have hhead : ∀ x ∈ expected, step.xNext = x := by
        rintro x ⟨rfl⟩
        simpa using hexpected
      split at h
      · cases h
        exact ⟨⟨by simpa using hshift, .singleton _⟩, by simpa using hhead,
          fun ρ => by simp [startOf, hval]⟩
      · obtain ⟨o, hwalk, h⟩ := bind_eq_ok.mp h
        cases o with
        | none => cases h
        | some rest =>
          cases h
          obtain ⟨⟨hsteps, hchain⟩, hnext, hrest⟩ := ih hshift.accPrev hwalk
          refine ⟨⟨List.forall_mem_cons.mpr ⟨hshift, hsteps⟩, ?_⟩, by simpa using hhead,
            fun ρ => ?_⟩
          · cases rest with
            | nil => exact .singleton _
            | cons inner rest => exact .cons_cons (hnext inner rfl _ rfl) hchain
          · have hstart : startOf t (step :: rest) = startOf step.accPrev rest := by
              cases rest with
              | nil => rfl
              | cons inner rest =>
                rw [startOf, startOf, List.getLast?_cons_cons, List.getLast?_cons]
                rfl
            rw [hval, hrest, hstart, List.map_cons, List.sum_cons]
            ring

/-- What the steps subtract are shifts of the word that the first of them starts from. -/
theorem sum_shiftsTaken {steps : List SrlSubtractStep} {last : SrlSubtractStep}
    (h : ShiftChain s w steps) (hlast : steps.getLast? = some last) :
    (∀ step ∈ steps.head?, (∀ ρ, s.bv ρ step.xNext w = s.bv ρ last.xPrev w >>> steps.length) ∨
      ∀ ρ, s.bv ρ step.xNext w = 0) ∧
    ∀ ρ, (steps.map fun step => s.bv ρ step.xNext w).sum =
      shiftsTaken s (s.bv ρ last.xPrev w) steps := by
  classical
  induction steps with
  | nil => cases hlast
  | cons step rest ih =>
    have hhead : (∀ ρ, s.bv ρ step.xNext w = s.bv ρ last.xPrev w >>> (rest.length + 1)) ∨
        ∀ ρ, s.bv ρ step.xNext w = 0 := by
      have hstep := (h.shifts step (by simp)).xNext
      cases rest with
      | nil =>
        cases hlast
        exact hstep
      | cons inner rest =>
        rw [List.getLast?_cons_cons] at hlast
        obtain ⟨hsteps, hchain⟩ := h
        rw [List.isChain_cons_cons] at hchain
        have hinner := (ih ⟨fun x hx => hsteps x (by simp [hx]), hchain.2⟩ hlast).1 inner rfl
        rw [hchain.1] at hinner
        rcases hstep, hinner with ⟨hstep | hstep, hinner | hinner⟩
        · refine .inl fun ρ => ?_
          rw [hstep, hinner, ← BitVec.shiftRight_add]
        · refine .inr fun ρ => ?_
          rw [hstep, hinner]
          exact BitVec.zero_ushiftRight
        · exact .inr hstep
        · exact .inr hstep
    refine ⟨by simpa using hhead, fun ρ => ?_⟩
    have hone : s.bv ρ step.xNext w =
        if ∃ ρ, s.bv ρ step.xNext w ≠ 0 then s.bv ρ last.xPrev w >>> (rest.length + 1) else 0 := by
      split
      · rename_i hne
        rcases hhead with hhead | hhead
        · exact hhead ρ
        · obtain ⟨ρ', hρ'⟩ := hne
          exact absurd (hhead ρ') hρ'
      · rename_i hzero
        by_contra hne
        exact hzero ⟨ρ, hne⟩
    rw [List.map_cons, List.sum_cons, shiftsTaken, ← hone]
    cases rest with
    | nil => rfl
    | cons inner rest =>
      rw [List.getLast?_cons_cons] at hlast
      obtain ⟨hsteps, hchain⟩ := h
      rw [List.isChain_cons_cons] at hchain
      rw [(ih ⟨fun x hx => hsteps x (by simp [hx]), hchain.2⟩ hlast).2]

/-- A term that subtracts shifts counts the one bits just when what it starts with is the number of
one bits more than these shifts. -/
theorem srlSubtract_iff (hs : s.Inv) {input : TermId} (ht : s.IsBv t w)
    {steps : List SrlSubtractStep} {last : SrlSubtractStep}
    (hwalk : srlSubtractWalk s input w t none = ok (some steps)) (hlast : steps.getLast? = some last)
    (ρ : Env) : s.bv ρ t w = (s.bv ρ input w).cpop ↔
      s.bv ρ last.accPrev w =
        (s.bv ρ input w).cpop + shiftsTaken s (s.bv ρ last.xPrev w) steps := by
  obtain ⟨hchain, -, hval⟩ := srlSubtractWalk_some hs ht hwalk
  rw [hval, (sum_shiftsTaken hchain hlast).2, startOf, hlast, sub_eq_iff_eq_add]
  rfl

/-! ### Adding up rotations -/

theorem rotationAmountOf_answers (hs : s.Inv) {input : TermId} (hi : s.IsBv input w)
    (ht : s.IsBv t w) : Answers (rotationAmountOf s t input w) fun o => ∀ r, o = some r →
      r < w ∧ ∀ ρ, s.bv ρ t w = (s.bv ρ input w).rotateLeft r := by
  have hw := hi.pos hs
  suffices h : ∀ rounds t, t < rounds → s.IsBv t w →
      Answers (rotationAmountRounds s input w rounds t) fun o => ∀ r, o = some r →
        r < w ∧ ∀ ρ, s.bv ρ t w = (s.bv ρ input w).rotateLeft r from
    h _ t (Nat.lt_succ_self t) ht
  intro rounds
  induction rounds with
  | zero => exact fun _ h => absurd h (Nat.not_lt_zero _)
  | succ rounds ih =>
    intro t hlt ht
    rw [rotationAmountRounds]
    split
    · rename_i heq
      refine answers_some ⟨hw, fun ρ => ?_⟩
      rw [heq, rotateLeft_zero hw]
    · refine (kind_answers ht).bind fun k hk => ?_
      cases k with
      | bvRotateLeft child amount =>
        have hltc := hs.child_lt hk (j := child) (by simp [NodeKind.children])
        have hchild := hs.unary_sort hk ht id
        refine (ih child (Nat.lt_of_lt_of_le hltc (Nat.lt_succ_iff.mp hlt)) hchild).map
          fun r h => ⟨Nat.mod_lt _ hw, fun ρ => ?_⟩
        obtain ⟨hr, hval⟩ := h
        rw [(Arena.bv_bvRotateLeft hs hk ht).2, hval, ← BitVec.rotateLeft_mod_eq_rotateLeft,
          rotateLeft_rotateLeft hr (Nat.mod_lt _ hw)]
      | bvRotateRight child amount =>
        have hltc := hs.child_lt hk (j := child) (by simp [NodeKind.children])
        have hchild := hs.unary_sort hk ht id
        refine (ih child (Nat.lt_of_lt_of_le hltc (Nat.lt_succ_iff.mp hlt)) hchild).map
          fun r h => ⟨Nat.mod_lt _ hw, fun ρ => ?_⟩
        obtain ⟨hr, hval⟩ := h
        rw [(Arena.bv_bvRotateRight hs hk ht).2, hval, ← BitVec.rotateRight_mod_eq_rotateRight,
          rotateLeft_rotateRight hr (Nat.mod_lt _ hw)]
      | _ => exact answers_none

/-- The sum of all rotations, negated, is the number of one bits. -/
theorem matchesRotateSumPopcount_true (hs : s.Inv) {input : TermId} (ht : s.IsBv t w)
    (hi : s.IsBv input w) (h : matchesRotateSumPopcount s t input w = ok true) (ρ : Env) :
    s.bv ρ t w = (s.bv ρ input w).cpop := by
  obtain ⟨sum, hk, h⟩ := let_bvNeg h
  obtain ⟨hsum, hneg⟩ := Arena.bv_bvNeg (ρ := ρ) hs hk ht
  obtain ⟨leaves, hleaves, h⟩ := bind_eq_ok.mp h
  obtain ⟨hsorts, hval⟩ := collectBvAddTerms_eq hs hsum hleaves
  obtain ⟨-, h⟩ := of_if h
  rw [hneg, hval, sum_of_markSeen (fun r => (s.bv ρ input w).rotateLeft r) (by simp)
    (fun leaf hleaf r _ hr => ?_) h, sum_rotateLeft, neg_neg, cpop_eq]
  exact ((rotationAmountOf_answers hs hi (hsorts leaf hleaf)).of_eq hr r rfl).2 ρ

/-! ## Comparing outcomes -/

/-- The words that the assertion compares are one bit wide. -/
def ComparedInOneBit (s : Arena) (t : TermId) : Prop :=
  ∃ child a b, s.kindAt t = some (.boolNot child) ∧ s.kindAt child = some (.bvEq a b) ∧ s.IsBv a 1

/-- Only in a word of one bit is the negation of one zero. -/
theorem not_indicator_eq_zero {p : Prop} [Decidable p] (hv : 0 < v) :
    ~~~(if p then (1 : BitVec v) else 0) = 0 ↔ v = 1 ∧ p := by
  have hone : (1 : BitVec v).toNat = 1 := BitVec.toNat_one hv
  have hpow : 2 * 2 ^ (v - 1) = 2 ^ v := by rw [← Nat.pow_succ', Nat.succ_eq_add_one, Nat.sub_add_cancel hv]
  rw [← BitVec.toNat_inj, BitVec.toNat_not, show (0 : BitVec v).toNat = 0 from rfl]
  split
  · rename_i hp
    rw [hone]
    constructor
    · intro h
      have hle : 2 ^ (v - 1) ≤ 2 ^ 0 := by omega
      have := (Nat.pow_le_pow_iff_right (by decide)).mp hle
      exact ⟨by omega, hp⟩
    · rintro ⟨rfl, -⟩
      rfl
  · rename_i hp
    have := Nat.two_pow_pos (v - 1)
    rw [show (0 : BitVec v).toNat = 0 from rfl]
    exact iff_of_false (by omega) fun h => hp h.2

theorem counterexampleSide_some (hs : s.Inv) (ha : s.IsBv a v) (hb : s.IsBv b v) {p : BvPair}
    (h : counterexampleSide s a b = ok (some p)) :
    ∃ cond, s.kindAt cond = some (.bvEq p.1 p.2) ∧
      ∀ ρ, s.bv ρ a v = s.bv ρ b v ↔ v = 1 ∧ s.IsTrue ρ cond := by
  obtain ⟨hzero, h⟩ := of_unless h
  obtain ⟨indicator, hk, h⟩ := let_bvNot h
  obtain ⟨cond, x, y, hkind, h⟩ := let_bvIte h
  obtain ⟨hone, h⟩ := of_unless h
  obtain ⟨hzero', h⟩ := of_unless h
  have hi := hs.unary_sort hk ha id
  obtain ⟨-, hx, hy⟩ := hs.bvIte_sort hkind hi
  refine ⟨cond, bvEqPair_eq.mp h, fun ρ => ?_⟩
  rw [(Arena.bv_bvNot hs hk ha).2, Arena.bv_bvIte hs hkind, isOneBvConst_true hs hx hone,
    isZeroBvConst_true hs hy hzero', isZeroBvConst_true hs hb hzero,
    not_indicator_eq_zero (ha.pos hs)]

/-- What an assertion that is accepted says: that the outcomes differ, unless they are compared in
words of more than one bit; then it says nothing. -/
theorem popcountCounterexampleEquality_some (hs : s.Inv) {left right : TermId}
    (h : popcountCounterexampleEquality s t = ok (some (left, right))) :
    (∃ w, s.IsBv left w ∧ s.IsBv right w) ∧
    ∀ ρ, s.IsTrue ρ t ↔ ¬(ComparedInOneBit s t ∧ s.value ρ left = s.value ρ right) := by
  obtain ⟨child, hk, h⟩ := let_boolNot h
  obtain ⟨a, b, hpair, h⟩ := let_pair h
  have hkeq := bvEqPair_eq.mp hpair
  obtain ⟨v, ha, hb⟩ := hs.bvEq_sort hkeq
  have hone : ComparedInOneBit s t ↔ v = 1 := by
    constructor
    · rintro ⟨child', a', b', hk', hkeq', ha'⟩
      cases hk.symm.trans hk'
      cases hkeq.symm.trans hkeq'
      exact ha.inj ha'
    · rintro rfl
      exact ⟨child, a, b, hk, hkeq, ha⟩
  obtain ⟨cond, hcond, hiff⟩ : ∃ cond, s.kindAt cond = some (.bvEq left right) ∧
      ∀ ρ, s.bv ρ a v = s.bv ρ b v ↔ v = 1 ∧ s.IsTrue ρ cond := by
    obtain ⟨o, ho, h⟩ := bind_eq_ok.mp h
    cases o with
    | some p =>
      cases h
      exact counterexampleSide_some hs ha hb ho
    | none =>
      obtain ⟨cond, hcond, hiff⟩ := counterexampleSide_some hs hb ha h
      exact ⟨cond, hcond, fun ρ => eq_comm.trans (hiff ρ)⟩
  refine ⟨hs.bvEq_sort hcond, fun ρ => ?_⟩
  rw [Arena.isTrue_boolNot hs hk, (Arena.isTrue_bvEq_bv hs hkeq ha).2, hiff, hone,
    Arena.isTrue_bvEq hs hcond]

/-! ## The pass -/

variable {q : Query}

/-- The pass is right, and so are the matchers that it is made of: an assertion that is accepted
says that the outcomes differ, and a term that is accepted counts the one bits of the input. -/
structure BrummayerSound (q : Query) : Prop where
  pass : hasBrummayerPopcountContradiction q = ok true → ¬∃ ρ, Asserted q ρ
  compared : ∀ t left right, popcountCounterexampleEquality q.arena t = ok (some (left, right)) →
    ∀ ρ, q.arena.IsTrue ρ t ↔ q.arena.value ρ left ≠ q.arena.value ρ right
  counts : ∀ term input w, 2 ≤ w → w ≤ 4096 → q.arena.IsBv term w → q.arena.IsBv input w →
    matchesConditionalNaivePopcount q.arena term input w = ok true ∨
      matchesWegnerPopcount q.arena term input w = ok true ∨
      matchesRotateSumPopcount q.arena term input w = ok true ∨
      matchesSrlSubtractPopcount q.arena term input w = ok true →
    ∀ ρ, q.arena.bv ρ term w = (q.arena.bv ρ input w).cpop

/-- Outcomes are compared in one bit, or differ anyhow; what the walks end at is what the chains
should start with. -/
structure BrummayerFits (q : Query) : Prop where
  compared : ∀ t left right, popcountCounterexampleEquality q.arena t = ok (some (left, right)) →
    ComparedInOneBit q.arena t ∨ ∀ ρ, q.arena.value ρ left ≠ q.arena.value ρ right
  naive : ∀ term input w, 2 ≤ w → w ≤ 4096 → q.arena.IsBv term w → q.arena.IsBv input w →
    matchesConditionalNaivePopcount q.arena term input w = ok true →
    ∀ founds rest, conditionalNaiveWalk q.arena term input w = ok (some (founds, rest)) →
    ∀ ρ, leftOver q.arena ρ w rest = unseenBits q.arena (q.arena.bv ρ input w) founds
  wegner : ∀ term input w, 2 ≤ w → w ≤ 4096 → q.arena.IsBv term w → q.arena.IsBv input w →
    matchesWegnerPopcount q.arena term input w = ok true →
    ∀ founds rest, wegnerWalk q.arena term w = ok (some (founds, rest)) →
    ∀ ρ, leftOver q.arena ρ w rest = 0
  srlSubtract : ∀ term input w, 2 ≤ w → w ≤ 4096 → q.arena.IsBv term w → q.arena.IsBv input w →
    matchesSrlSubtractPopcount q.arena term input w = ok true →
    ∀ steps last, srlSubtractWalk q.arena input w term none = ok (some steps) →
    steps.getLast? = some last →
    ∀ ρ, q.arena.bv ρ last.accPrev w = (q.arena.bv ρ input w).cpop +
      shiftsTaken q.arena (q.arena.bv ρ last.xPrev w) steps

theorem BrummayerFits.counts (hq : q.WellFormed) (h : BrummayerFits q) {term input : TermId}
    {w : Nat} (h2 : 2 ≤ w) (h4096 : w ≤ 4096) (ht : q.arena.IsBv term w)
    (hi : q.arena.IsBv input w)
    (hmatch : matchesConditionalNaivePopcount q.arena term input w = ok true ∨
      matchesWegnerPopcount q.arena term input w = ok true ∨
      matchesRotateSumPopcount q.arena term input w = ok true ∨
      matchesSrlSubtractPopcount q.arena term input w = ok true) (ρ : Env) :
    q.arena.bv ρ term w = (q.arena.bv ρ input w).cpop := by
  have hs := hq.arena
  rcases hmatch with hmatch | hmatch | hmatch | hmatch
  · obtain ⟨o, hwalk, hfound⟩ := bind_eq_ok.mp hmatch
    cases o with
    | none => cases hfound
    | some p =>
      exact (conditionalNaive_iff hs ht hi hwalk hmatch ρ).mpr
        (h.naive term input w h2 h4096 ht hi hmatch p.1 p.2 hwalk ρ)
  · obtain ⟨o, hwalk, hfound⟩ := bind_eq_ok.mp hmatch
    cases o with
    | none => cases hfound
    | some p =>
      exact (wegner_iff hs ht hi hwalk hmatch ρ).mpr
        (h.wegner term input w h2 h4096 ht hi hmatch p.1 p.2 hwalk ρ)
  · exact matchesRotateSumPopcount_true hs ht hi hmatch ρ
  · obtain ⟨o, hwalk, hfound⟩ := bind_eq_ok.mp hmatch
    cases o with
    | none => cases hfound
    | some steps =>
      have hlen : steps.length = w := by simpa using hfound
      obtain ⟨last, hlast⟩ : ∃ last, steps.getLast? = some last :=
        ⟨_, List.getLast?_eq_some_getLast (List.ne_nil_of_length_pos (by omega))⟩
      exact (srlSubtract_iff hs ht hwalk hlast ρ).mpr
        (h.srlSubtract term input w h2 h4096 ht hi hmatch steps last hwalk hlast ρ)

theorem mem_brummayerVars (hs : s.Inv) {var : TermId × Nat} (h : var ∈ brummayerVars s) :
    s.IsBv var.1 var.2 ∧ 2 ≤ var.2 ∧ var.2 ≤ 4096 := by
  obtain ⟨⟨node, index⟩, hmem, hvar⟩ := List.mem_filterMap.mp h
  have hk := Arena.kindAt_of_node (List.mem_zipIdx_iff_getElem?.mp hmem)
  dsimp only at hvar hk
  split at hvar
  · rename_i hkind
    rw [Option.ite_none_right_eq_some, Option.some.injEq] at hvar
    obtain ⟨hwidth, rfl⟩ := hvar
    rw [hkind] at hk
    obtain ⟨σ, hσ, rfl⟩ := hs.hasSort hk
    exact ⟨hσ, hwidth⟩
  · cases hvar

/-- If every outcome that is accepted is the number of one bits, no assignment makes two of them
differ. -/
theorem BrummayerFits.pass (hq : q.WellFormed) (h : BrummayerFits q)
    (hpass : hasBrummayerPopcountContradiction q = ok true) : ¬∃ ρ, Asserted q ρ := by
  have hs := hq.arena
  rintro ⟨ρ, hρ⟩
  obtain ⟨-, hpass⟩ := of_if hpass
  obtain ⟨-, hpass⟩ := of_if hpass
  obtain ⟨assertion, hassertion, hfound⟩ := exists_of_anyM hpass
  obtain ⟨o, ho, hfound⟩ := bind_eq_ok.mp hfound
  cases o with
  | none => cases hfound
  | some p =>
    obtain ⟨left, right⟩ := p
    obtain ⟨⟨input, w⟩, hvar, hfound⟩ := exists_of_anyM hfound
    obtain ⟨hi, h2, h4096⟩ := mem_brummayerVars hs hvar
    obtain ⟨σ, hσ, hfound⟩ := bind_eq_ok.mp hfound
    obtain ⟨hleft, hfound⟩ := of_if hfound
    obtain ⟨τ, hτ, hfound⟩ := bind_eq_ok.mp hfound
    obtain ⟨hright, hfound⟩ := of_if hfound
    rw [not_not.mp hleft] at hσ
    rw [not_not.mp hright] at hτ
    have hl : q.arena.IsBv left w := Arena.sort_eq_ok.mp hσ
    have hr : q.arena.IsBv right w := Arena.sort_eq_ok.mp hτ
    have halgorithm : ∀ {t : TermId}, q.arena.IsBv t w →
        matchesBrummayerPopcountAlgorithm q.arena t input w = ok true →
          q.arena.bv ρ t w = (q.arena.bv ρ input w).cpop := by
      intro t ht hmatch
      exact h.counts hq h2 h4096 ht hi (.inr ((true_of_or hmatch).imp_right true_of_or)) ρ
    have hnaive : ∀ {t : TermId}, q.arena.IsBv t w →
        matchesConditionalNaivePopcount q.arena t input w = ok true →
          q.arena.bv ρ t w = (q.arena.bv ρ input w).cpop :=
      fun ht hmatch => h.counts hq h2 h4096 ht hi (.inl hmatch) ρ
    have hsame : q.arena.value ρ left = q.arena.value ρ right := by
      rw [Arena.value_eq_iff_bv hs hl hr]
      rcases true_of_or hfound with hfound | hfound
      · obtain ⟨hone, hother⟩ := and_eq_true.mp hfound
        rw [halgorithm hl hone, hnaive hr hother]
      · obtain ⟨hone, hother⟩ := and_eq_true.mp hfound
        rw [halgorithm hr hone, hnaive hl hother]
    have hdiffer := ((popcountCounterexampleEquality_some hs ho).2 ρ).mp (hρ assertion hassertion)
    rcases h.compared _ _ _ ho with hone | hne
    · exact hdiffer ⟨hone, hsame⟩
    · exact hne ρ hsame

end Shortcuts
end Qfbv
end SmtServer
