import SmtServer.Qfbv.Builder.Built

/-!
# Terms bit by bit

An argument about a query in which words are cut up and put together again is about the bits of
terms (`Arena.bit`), one about sums and comparisons is about the numbers they stand for
(`Arena.num`), and one about assertions is about truth (`Arena.IsTrue`). Each kind of node has its
rule in these terms; a rule asks for the node's kind and for nothing about the assignment.
-/

namespace SmtServer
namespace Qfbv

open Lib
open Lib.Smt (Value)

namespace Arena

/-- The term is a true Bool. -/
def IsTrue (s : Arena) (ρ : Env) (t : TermId) : Prop := (s.value ρ t).toBool = true

/-- Bit `i` of a vector, counted from the lowest. -/
def bit (s : Arena) (ρ : Env) (t : TermId) (i : Nat) : Bool := (s.value ρ t).bits.getLsbD i

/-- The number a vector stands for. -/
def num (s : Arena) (ρ : Env) (t : TermId) : Nat := (s.value ρ t).bits.toNat

/-- The term is a vector of width `w`. -/
def IsBv (s : Arena) (t : TermId) (w : Nat) : Prop := s.sortAt t = some (.bv w)

instance {s : Arena} {ρ : Env} {t : TermId} : Decidable (s.IsTrue ρ t) :=
  inferInstanceAs (Decidable ((s.value ρ t).toBool = true))

instance {s : Arena} {t : TermId} {w : Nat} : Decidable (s.IsBv t w) :=
  inferInstanceAs (Decidable (s.sortAt t = some (.bv w)))

variable {s : Arena} {ρ : Env} {t a b c : TermId} {w v : Nat} {x : BitVec w} {k : NodeKind} {i : Nat}

theorem Denotes.bit (h : s.Denotes ρ t x) : s.bit ρ t i = x.getLsbD i := by
  rw [Arena.bit, h.value, Value.bits_bv]
  rfl

theorem Denotes.num (h : s.Denotes ρ t x) : s.num ρ t = x.toNat := by
  rw [Arena.num, h.value, Value.bits_bv]
  rfl

theorem testBit_num : (s.num ρ t).testBit i = s.bit ρ t i := rfl

theorem IsBv.inj (hv : s.IsBv t v) (hw : s.IsBv t w) : v = w := by
  simpa using Option.some.inj (hv.symm.trans hw)

theorem IsBv.denotes (hs : s.Inv) (h : s.IsBv t w) : s.Denotes ρ t ((s.value ρ t).toBv w) :=
  hs.denotes_of_sort h

theorem IsBv.bit_of_ge (hs : s.Inv) (h : s.IsBv t w) (hi : w ≤ i) : s.bit ρ t i = false := by
  rw [(h.denotes hs).bit]
  exact BitVec.getLsbD_of_ge _ i hi

theorem IsBv.num_lt (hs : s.Inv) (h : s.IsBv t w) : s.num ρ t < 2 ^ w := by
  rw [(h.denotes hs).num]
  exact BitVec.isLt _

theorem IsBv.pos (hs : s.Inv) (h : s.IsBv t w) : 1 ≤ w := (hs.width_le t w h).1

/-- Two vectors of one width are the same when they stand for the same number. -/
theorem value_eq_iff_num (hs : s.Inv) (ha : s.IsBv a w) (hb : s.IsBv b w) :
    s.value ρ a = s.value ρ b ↔ s.num ρ a = s.num ρ b := by
  rw [(ha.denotes hs).num, (hb.denotes hs).num, ← BitVec.toNat_eq, ← Value.bv_inj,
    ← (ha.denotes hs).value, ← (hb.denotes hs).value]

/-- Two vectors of one width are the same when they have the same bits. -/
theorem value_eq_iff_bit (hs : s.Inv) (ha : s.IsBv a w) (hb : s.IsBv b w) :
    s.value ρ a = s.value ρ b ↔ ∀ i < w, s.bit ρ a i = s.bit ρ b i := by
  constructor
  · intro h i _
    rw [bit, bit, h]
  · intro h
    rw [(ha.denotes hs).value, (hb.denotes hs).value, Value.bv_inj]
    refine BitVec.eq_of_getLsbD_eq fun i hi => ?_
    rw [← (ha.denotes hs).bit, ← (hb.denotes hs).bit, h i hi]

/-- Equal vectors have the same width. -/
theorem IsBv.of_value_eq (hs : s.Inv) (ha : s.IsBv a w) (hb : s.IsBv b v)
    (h : s.value ρ a = s.value ρ b) : w = v := by
  have h' := congrArg valueSort h
  rw [hs.value_sort ha, hs.value_sort hb] at h'
  simpa using h'

/-! ## What a kind says of the children's sorts -/

theorem Inv.hasSort (hs : s.Inv) (hk : s.kindAt t = some k) :
    ∃ σ, s.sortAt t = some σ ∧ k.HasSort s.sortAt σ := by
  obtain ⟨n, hn, rfl⟩ := kindAt_eq_some.mp hk
  exact ⟨n.sort, sortAt_eq_some.mpr ⟨n, hn, rfl⟩, hs.sorted t n hn⟩

/-- Both sides of an equation are vectors of one width. -/
theorem Inv.bvEq_sort (hs : s.Inv) (hk : s.kindAt t = some (.bvEq a b)) :
    ∃ w, s.IsBv a w ∧ s.IsBv b w := by
  obtain ⟨σ, -, w, -, ha, hb⟩ := hs.hasSort hk
  exact ⟨w, ha, hb⟩

/-! ## Truth -/

theorem isTrue_boolConst (hs : s.Inv) {u : Bool} (hk : s.kindAt t = some (.boolConst u)) :
    s.IsTrue ρ t ↔ u = true := by
  rw [IsTrue, hs.value_kind hk]
  rfl

theorem isTrue_boolNot (hs : s.Inv) (hk : s.kindAt t = some (.boolNot a)) :
    s.IsTrue ρ t ↔ ¬s.IsTrue ρ a := by
  simp only [IsTrue, hs.value_kind hk, NodeKind.sem, Smt.not, Value.toBool_bool,
    Bool.not_eq_true', Bool.not_eq_true]

theorem isTrue_boolAnd (hs : s.Inv) (hk : s.kindAt t = some (.boolAnd a b)) :
    s.IsTrue ρ t ↔ s.IsTrue ρ a ∧ s.IsTrue ρ b := by
  simp only [IsTrue, hs.value_kind hk, NodeKind.sem, Smt.and, Value.toBool_bool,
    Bool.and_eq_true]

theorem isTrue_boolOr (hs : s.Inv) (hk : s.kindAt t = some (.boolOr a b)) :
    s.IsTrue ρ t ↔ s.IsTrue ρ a ∨ s.IsTrue ρ b := by
  simp only [IsTrue, hs.value_kind hk, NodeKind.sem, Smt.or, Value.toBool_bool,
    Bool.or_eq_true]

theorem isTrue_boolImplies (hs : s.Inv) (hk : s.kindAt t = some (.boolImplies a b)) :
    s.IsTrue ρ t ↔ (s.IsTrue ρ a → s.IsTrue ρ b) := by
  simp only [IsTrue, hs.value_kind hk, NodeKind.sem, Smt.implies, Value.toBool_bool,
    Bool.or_eq_true, Bool.not_eq_true', ← Bool.not_eq_true]
  exact imp_iff_not_or.symm

theorem isTrue_boolEq (hs : s.Inv) (hk : s.kindAt t = some (.boolEq a b)) :
    s.IsTrue ρ t ↔ (s.IsTrue ρ a ↔ s.IsTrue ρ b) := by
  simp only [IsTrue, hs.value_kind hk, NodeKind.sem, Smt.iff, Value.toBool_bool, beq_iff_eq]
  exact Bool.eq_iff_iff

theorem isTrue_boolIte (hs : s.Inv) (hk : s.kindAt t = some (.boolIte c a b)) :
    s.IsTrue ρ t ↔ (s.IsTrue ρ c → s.IsTrue ρ a) ∧ (¬s.IsTrue ρ c → s.IsTrue ρ b) := by
  simp only [IsTrue, hs.value_kind hk, NodeKind.sem, Smt.ite]
  split <;> simp [*]

theorem isTrue_bvEq (hs : s.Inv) (hk : s.kindAt t = some (.bvEq a b)) :
    s.IsTrue ρ t ↔ s.value ρ a = s.value ρ b := by
  obtain ⟨w, ha, hb⟩ := hs.bvEq_sort hk
  have hda := ha.denotes (ρ := ρ) hs
  have hdb := hb.denotes (ρ := ρ) hs
  simp only [IsTrue, hs.value_kind hk, NodeKind.sem, Smt.bveq]
  rw [hda.value, hdb.value, Value.rel₂_bv, Value.toBool_bool, beq_iff_eq, Value.bv_inj]

/-- Both sides of a comparison are vectors of one width. -/
theorem Inv.bvUle_sort (hs : s.Inv) (hk : s.kindAt t = some (.bvUle a b)) :
    ∃ w, s.IsBv a w ∧ s.IsBv b w := by
  obtain ⟨σ, -, w, -, ha, hb⟩ := hs.hasSort hk
  exact ⟨w, ha, hb⟩

theorem isTrue_bvUle (hs : s.Inv) (hk : s.kindAt t = some (.bvUle a b)) :
    s.IsTrue ρ t ↔ s.num ρ a ≤ s.num ρ b := by
  obtain ⟨w, ha, hb⟩ := hs.bvUle_sort hk
  have hda := ha.denotes (ρ := ρ) hs
  have hdb := hb.denotes (ρ := ρ) hs
  simp only [IsTrue, hs.value_kind hk, NodeKind.sem, Smt.bvule]
  rw [hda.value, hdb.value, Value.rel₂_bv, Value.toBool_bool, BitVec.ule_iff_le, BitVec.le_def,
    hda.num, hdb.num]

/-! ## Bits -/

/-- The operands of an operator that keeps the width. -/
theorem Inv.unary_sort (hs : s.Inv) (hk : s.kindAt t = some k) (hw : s.IsBv t w)
    (hsort : ∀ {srt σ}, k.HasSort srt σ → ∃ w, σ = .bv w ∧ srt a = some (.bv w)) : s.IsBv a w := by
  obtain ⟨v, hv, ha⟩ := hsort (hs.sort_kind hk hw)
  obtain rfl : w = v := by simpa using hv
  exact ha

theorem Inv.binary_sort (hs : s.Inv) (hk : s.kindAt t = some k) (hw : s.IsBv t w)
    (hsort : ∀ {srt σ}, k.HasSort srt σ →
      ∃ w, σ = .bv w ∧ srt a = some (.bv w) ∧ srt b = some (.bv w)) : s.IsBv a w ∧ s.IsBv b w := by
  obtain ⟨v, hv, ha, hb⟩ := hsort (hs.sort_kind hk hw)
  obtain rfl : w = v := by simpa using hv
  exact ⟨ha, hb⟩

theorem bit_bvXor (hs : s.Inv) (hk : s.kindAt t = some (.bvXor a b)) :
    s.bit ρ t i = (s.bit ρ a i ^^ s.bit ρ b i) := by
  obtain ⟨σ, hσ, w, rfl, -, -⟩ := hs.hasSort hk
  obtain ⟨y, z, hy, hz, hx⟩ := hs.bvXor (ρ := ρ) (IsBv.denotes hs hσ) hk
  rw [(IsBv.denotes hs hσ).bit, hy.bit, hz.bit, hx, BitVec.getLsbD_xor]

theorem bit_bvAnd (hs : s.Inv) (hk : s.kindAt t = some (.bvAnd a b)) :
    s.bit ρ t i = (s.bit ρ a i && s.bit ρ b i) := by
  obtain ⟨σ, hσ, w, rfl, -, -⟩ := hs.hasSort hk
  obtain ⟨y, z, hy, hz, hx⟩ := hs.bvAnd (ρ := ρ) (IsBv.denotes hs hσ) hk
  rw [(IsBv.denotes hs hσ).bit, hy.bit, hz.bit, hx, BitVec.getLsbD_and]

theorem bit_bvOr (hs : s.Inv) (hk : s.kindAt t = some (.bvOr a b)) :
    s.bit ρ t i = (s.bit ρ a i || s.bit ρ b i) := by
  obtain ⟨σ, hσ, w, rfl, -, -⟩ := hs.hasSort hk
  obtain ⟨y, z, hy, hz, hx⟩ := hs.bvOr (ρ := ρ) (IsBv.denotes hs hσ) hk
  rw [(IsBv.denotes hs hσ).bit, hy.bit, hz.bit, hx, BitVec.getLsbD_or]

theorem bit_bvNot (hs : s.Inv) (hk : s.kindAt t = some (.bvNot a)) (hw : s.IsBv t w) (hi : i < w) :
    s.bit ρ t i = !s.bit ρ a i := by
  obtain ⟨y, hy, hx⟩ := hs.bvNot (ρ := ρ) (hw.denotes hs) hk
  rw [(hw.denotes hs).bit, hy.bit, hx, BitVec.getLsbD_not]
  simp [hi]

/-- A slice lies in the vector it is taken from. -/
theorem Inv.bvExtract_sort (hs : s.Inv) {high low : Nat}
    (hk : s.kindAt t = some (.bvExtract c high low)) :
    ∃ v, s.IsBv t (high - low + 1) ∧ s.IsBv c v ∧ low ≤ high ∧ high < v := by
  obtain ⟨σ, hσ, v, rfl, hc, hle, hlt⟩ := hs.hasSort hk
  exact ⟨v, hσ, hc, hle, hlt⟩

theorem bit_bvExtract (hs : s.Inv) {high low : Nat}
    (hk : s.kindAt t = some (.bvExtract c high low)) (hi : i ≤ high - low) :
    s.bit ρ t i = s.bit ρ c (low + i) := by
  obtain ⟨v, ht, -, -, -⟩ := hs.bvExtract_sort hk
  obtain ⟨v, z, -, -, -, hz, hbits⟩ := hs.bvExtract (ρ := ρ) (ht.denotes hs) hk
  rw [(ht.denotes hs).bit, hz.bit, hbits i (by omega)]

theorem Inv.bvConcat_sort (hs : s.Inv) {hi lo : TermId}
    (hk : s.kindAt t = some (.bvConcat hi lo)) :
    ∃ hw lw, s.IsBv t (hw + lw) ∧ s.IsBv hi hw ∧ s.IsBv lo lw := by
  obtain ⟨σ, hσ, hw, lw, rfl, hh, hl⟩ := hs.hasSort hk
  exact ⟨hw, lw, hσ, hh, hl⟩

theorem bit_bvConcat (hs : s.Inv) {hi lo : TermId} (hk : s.kindAt t = some (.bvConcat hi lo))
    (hl : s.IsBv lo w) :
    s.bit ρ t i = if i < w then s.bit ρ lo i else s.bit ρ hi (i - w) := by
  obtain ⟨hw, lw, ht, -, -⟩ := hs.bvConcat_sort hk
  obtain ⟨hw', lw', y, z, -, hy, hz, hbits⟩ := hs.bvConcat (ρ := ρ) (ht.denotes hs) hk
  obtain rfl := IsBv.inj hl hz.sort
  rw [(ht.denotes hs).bit, hy.bit, hz.bit, hbits i]

theorem bit_bvZeroExtend (hs : s.Inv) {extra : Nat} (hk : s.kindAt t = some (.bvZeroExtend c extra)) :
    s.bit ρ t i = s.bit ρ c i := by
  obtain ⟨σ, hσ, v, rfl, -⟩ := hs.hasSort hk
  obtain ⟨v, z, -, hz, hbits⟩ := hs.bvZeroExtend (ρ := ρ) (IsBv.denotes hs hσ) hk
  rw [(IsBv.denotes hs hσ).bit, hz.bit, hbits i]

theorem num_bvConst (hs : s.Inv) {bytes : List UInt8} (hk : s.kindAt t = some (.bvConst w bytes)) :
    s.num ρ t = leNat bytes := by
  obtain ⟨σ, hσ, rfl, -, -⟩ := hs.hasSort hk
  obtain ⟨-, hb⟩ := hs.bvConst (ρ := ρ) (IsBv.denotes hs hσ) hk
  rw [(IsBv.denotes hs hσ).num, hb.toNat]

theorem bit_bvShl (hs : s.Inv) (hk : s.kindAt t = some (.bvShl a b)) (hw : s.IsBv t w) :
    s.bit ρ t i = (decide (i < w) && decide (s.num ρ b ≤ i) && s.bit ρ a (i - s.num ρ b)) := by
  obtain ⟨y, z, hy, hz, hx⟩ := hs.bvShl (ρ := ρ) (hw.denotes hs) hk
  rw [(hw.denotes hs).bit, hy.bit, hz.num, hx, BitVec.shiftLeft_eq', BitVec.getLsbD_shiftLeft]
  simp only [← not_lt, decide_not]

/-! ## Numbers -/

theorem num_bvNot (hs : s.Inv) (hk : s.kindAt t = some (.bvNot a)) (hw : s.IsBv t w) :
    s.num ρ t = 2 ^ w - 1 - s.num ρ a := by
  obtain ⟨y, hy, hx⟩ := hs.bvNot (ρ := ρ) (hw.denotes hs) hk
  rw [(hw.denotes hs).num, hy.num, hx, BitVec.toNat_not]

theorem num_bvNeg (hs : s.Inv) (hk : s.kindAt t = some (.bvNeg a)) (hw : s.IsBv t w) :
    s.num ρ t = (2 ^ w - s.num ρ a) % 2 ^ w := by
  obtain ⟨y, hy, hx⟩ := hs.bvNeg (ρ := ρ) (hw.denotes hs) hk
  rw [(hw.denotes hs).num, hy.num, hx, BitVec.toNat_neg]

theorem num_bvAnd (hs : s.Inv) (hk : s.kindAt t = some (.bvAnd a b)) :
    s.num ρ t = s.num ρ a &&& s.num ρ b := by
  refine Nat.eq_of_testBit_eq fun i => ?_
  rw [Nat.testBit_and, testBit_num, testBit_num, testBit_num, bit_bvAnd hs hk]

theorem num_bvOr (hs : s.Inv) (hk : s.kindAt t = some (.bvOr a b)) :
    s.num ρ t = s.num ρ a ||| s.num ρ b := by
  refine Nat.eq_of_testBit_eq fun i => ?_
  rw [Nat.testBit_or, testBit_num, testBit_num, testBit_num, bit_bvOr hs hk]

theorem num_bvXor (hs : s.Inv) (hk : s.kindAt t = some (.bvXor a b)) :
    s.num ρ t = s.num ρ a ^^^ s.num ρ b := by
  refine Nat.eq_of_testBit_eq fun i => ?_
  rw [Nat.testBit_xor, testBit_num, testBit_num, testBit_num, bit_bvXor hs hk]

theorem num_bvAdd (hs : s.Inv) (hk : s.kindAt t = some (.bvAdd a b)) (hw : s.IsBv t w) :
    s.num ρ t = (s.num ρ a + s.num ρ b) % 2 ^ w := by
  obtain ⟨y, z, hy, hz, hx⟩ := hs.bvAdd (ρ := ρ) (hw.denotes hs) hk
  rw [(hw.denotes hs).num, hy.num, hz.num, hx, BitVec.toNat_add]

theorem num_bvSub (hs : s.Inv) (hk : s.kindAt t = some (.bvSub a b)) (hw : s.IsBv t w) :
    s.num ρ t = (2 ^ w - s.num ρ b + s.num ρ a) % 2 ^ w := by
  obtain ⟨y, z, hy, hz, hx⟩ := hs.bvSub (ρ := ρ) (hw.denotes hs) hk
  rw [(hw.denotes hs).num, hy.num, hz.num, hx, BitVec.toNat_sub]

theorem num_bvMul (hs : s.Inv) (hk : s.kindAt t = some (.bvMul a b)) (hw : s.IsBv t w) :
    s.num ρ t = s.num ρ a * s.num ρ b % 2 ^ w := by
  obtain ⟨y, z, hy, hz, hx⟩ := hs.bvMul (ρ := ρ) (hw.denotes hs) hk
  rw [(hw.denotes hs).num, hy.num, hz.num, hx, BitVec.toNat_mul]

theorem num_bvExtract (hs : s.Inv) {high low : Nat}
    (hk : s.kindAt t = some (.bvExtract c high low)) :
    s.num ρ t = (s.num ρ c >>> low) % 2 ^ (high - low + 1) := by
  obtain ⟨v, ht, -, -, -⟩ := hs.bvExtract_sort hk
  refine Nat.eq_of_testBit_eq fun i => ?_
  rw [Nat.testBit_mod_two_pow, Nat.testBit_shiftRight, testBit_num, testBit_num]
  by_cases hi : i < high - low + 1
  · simp [hi, bit_bvExtract hs hk (Nat.le_of_lt_succ hi)]
  · simp [hi, ht.bit_of_ge hs (Nat.le_of_not_lt hi)]

theorem num_bvConcat (hs : s.Inv) {hi lo : TermId} (hk : s.kindAt t = some (.bvConcat hi lo))
    (hl : s.IsBv lo w) : s.num ρ t = s.num ρ hi <<< w ||| s.num ρ lo := by
  refine Nat.eq_of_testBit_eq fun i => ?_
  rw [Nat.testBit_or, Nat.testBit_shiftLeft, testBit_num, testBit_num, testBit_num,
    bit_bvConcat hs hk hl]
  by_cases hi : i < w
  · simp [hi]
  · simp [hi, Nat.le_of_not_lt hi, hl.bit_of_ge hs (Nat.le_of_not_lt hi)]

theorem num_bvZeroExtend (hs : s.Inv) {extra : Nat}
    (hk : s.kindAt t = some (.bvZeroExtend c extra)) : s.num ρ t = s.num ρ c := by
  refine Nat.eq_of_testBit_eq fun i => ?_
  rw [testBit_num, testBit_num, bit_bvZeroExtend hs hk]

/-! ## Choices -/

theorem value_bvIte (hs : s.Inv) (hk : s.kindAt t = some (.bvIte c a b)) :
    s.value ρ t = if s.IsTrue ρ c then s.value ρ a else s.value ρ b := by
  rw [hs.value_kind hk, NodeKind.sem, Smt.ite]
  rfl

end Arena
end Qfbv
end SmtServer
