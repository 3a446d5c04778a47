import SmtServer.Qfbv.Builder.Connectives
import SmtServer.Qfbv.Builder.Polynomials
import SmtServer.Qfbv.Builder.Slices

/-!
# Comparisons mean what they say

Every reduction goes from an extension and a constant to the extended term and a constant. The
extended term comes earlier in the arena, and a constant is no extension, so a bound on the ids of
the operands that are no constants bounds the number of reductions.
-/

namespace SmtServer
namespace Qfbv

open Lib Outcome Bytes
open Lib.Smt (Value)

namespace Builder

variable {V : NodeKind → Prop} {s s' : Arena} {ρ : Env}
variable {t a b c : TermId} {w v : Nat} {x y : BitVec w} {z : BitVec v}
  {bytes : List UInt8} {rounds : Nat}

/-! ## One bit -/

theorem byte_and_one (byte : UInt8) : decide (byte &&& 1 ≠ 0) = byte.toNat.testBit 0 := by
  rw [Nat.testBit_zero, decide_eq_decide, ne_eq, ← UInt8.toNat_inj, UInt8.toNat_and]
  rw [show (1 : UInt8).toNat = 1 from rfl, show (0 : UInt8).toNat = 0 from rfl,
    Nat.and_one_is_mod]
  omega

/-- The first byte of a one-bit constant is its bit. -/
theorem spells_oneBit {x : BitVec 1} (h : Spells bytes x) :
    ∃ byte, bytes[0]? = some byte ∧ decide (byte &&& 1 ≠ 0) = x.getLsbD 0 := by
  obtain ⟨byte, rfl⟩ : ∃ byte, bytes = [byte] := by
    refine List.length_eq_one_iff.mp ?_
    rw [h.length]
    rfl
  refine ⟨byte, rfl, ?_⟩
  rw [byte_and_one, ← h.testBit 0, leNat_cons, leNat_nil, Nat.mul_zero, Nat.add_zero]

/-- A one-bit vector is its bit. -/
theorem beq_oneBit (x y : BitVec 1) : (x == y) = (x.getLsbD 0 == y.getLsbD 0) := by
  rw [Bool.eq_iff_iff, beq_iff_eq, beq_iff_eq]
  constructor
  · rintro rfl
    rfl
  · intro h
    refine BitVec.eq_of_getLsbD_eq fun i hi => ?_
    obtain rfl : i = 0 := by omega
    exact h

theorem reads_oneBitConst (hs : s.Inv) (h : s.Denotes ρ t x) :
    Reads (oneBitConstValue t) s fun r => ∀ bit, r = some bit → w = 1 ∧ x.getLsbD 0 = bit := by
  refine (reads_constValue hs h).bind fun r hr => ?_
  split
  · rename_i bytes
    obtain ⟨rfl, hb⟩ := hr (1, bytes) rfl
    obtain ⟨byte, hbyte, hbit⟩ := spells_oneBit hb
    have hread : ((.expect bytes[0]? : Result UInt8) : ArenaR UInt8) s = ok byte := by
      rw [hbyte]
      rfl
    refine reads_bind hread (reads_pure ?_)
    rintro _ ⟨⟩
    exact ⟨rfl, hbit.symm⟩
  · exact reads_pure nofun

/-- What a reduction says: nothing has changed, or the comparison has been answered. -/
def Reduces (s : Arena) (ρ : Env) (p : Bool) (found : Option TermId) (s' : Arena) : Prop :=
  (∀ t, found = some t → s'.DenotesBool ρ t p) ∧ (found = none → s' = s)

variable {p : Bool}

theorem reduces_none : Reduces s ρ p none s := ⟨nofun, fun _ => rfl⟩

theorem Spec.reduces {m : ArenaM TermId} (h : Spec V m s fun t s' => s'.DenotesBool ρ t p) :
    Spec V (m >>= fun t => pure (some t)) s (Reduces s ρ p) := by
  refine h.bind fun t s' _ _ ht => spec_pure ⟨?_, nofun⟩
  rintro _ ⟨⟩
  exact ht

theorem spec_reduces {m : ArenaM (Option TermId)} {g : Option TermId → ArenaM TermId}
    (hm : Spec V m s (Reduces s ρ p)) (hsome : ∀ t, g (some t) = pure t)
    (hnone : Spec V (g none) s fun t s' => s'.DenotesBool ρ t p) :
    Spec V (m >>= g) s fun t s' => s'.DenotesBool ρ t p := by
  refine hm.bind ?_
  rintro (_ | t) s' - - ⟨hfound, hsame⟩
  · obtain rfl := hsame rfl
    exact hnone
  · rw [hsome]
    exact spec_pure (hfound t rfl)

/-- A constant, if the term is one. -/
theorem spec_maybeConst {β : Type} {g : Option (Nat × List UInt8) → ArenaM β}
    {Q : β → Arena → Prop} (hs : s.Inv) (h : s.Denotes ρ t x)
    (hsome : ∀ bytes, ConstantAt s t → Spells bytes x → Spec V (g (some (w, bytes))) s Q)
    (hnone : Spec V (g none) s Q) : Spec V (Grow.read (bvConstValue t) >>= g) s Q :=
  spec_constValue hs h (fun bytes hk hb => hsome bytes ⟨_, hk, trivial⟩ hb) fun _ => hnone

theorem oneBitIteConstEquality_spec (ha : s.Denotes ρ a x) (hb : s.Denotes ρ b y) :
    Spec V (oneBitIteConstEquality a b) s (Reduces s ρ (x == y)) := by
  refine Spec.intro fun hs => ?_
  refine spec_maybeConst hs.inv hb (fun bytes _ hbytes => ?_) (spec_pure reduces_none)
  dsimp only
  split
  · exact spec_pure reduces_none
  rename_i hone
  obtain rfl : w = 1 := not_not.mp hone
  refine spec_look ha.sort (fun k q hk hf => ?_) fun _ _ _ => spec_pure reduces_none
  obtain ⟨cond, thenValue, elseValue⟩ := q
  rw [NodeKind.bvIte?_eq.mp hf] at hk
  obtain ⟨q, u, u', hq, hu, hu', rfl⟩ := hs.inv.bvIte ha hk
  obtain ⟨r, hr, hthen⟩ := reads_oneBitConst hs.inv hu
  obtain ⟨r', hr', helse⟩ := reads_oneBitConst hs.inv hu'
  refine spec_read hr ?_
  cases r with
  | none => exact spec_pure reduces_none
  | some thenBit =>
    refine spec_read hr' ?_
    cases r' with
    | none => exact spec_pure reduces_none
    | some elseBit =>
      obtain ⟨byte, hbyte, hexpected⟩ := spells_oneBit hbytes
      have hread : (.expect bytes[0]? : Result UInt8) = ok byte := by
        rw [hbyte]
        rfl
      refine spec_read hread ?_
      have hthen' := (hthen thenBit rfl).2
      have helse' := (helse elseBit rfl).2
      have hgoal : ((if q then u else u') == y) =
          ((if q then thenBit else elseBit) == y.getLsbD 0) := by
        rw [beq_oneBit]
        cases q
        · rw [if_neg Bool.false_ne_true, if_neg Bool.false_ne_true, helse']
        · rw [if_pos rfl, if_pos rfl, hthen']
      rw [hgoal, hexpected]
      generalize y.getLsbD 0 = expected
      split
      · rename_i hcase
        obtain ⟨rfl, hne⟩ := hcase
        refine spec_pure ⟨?_, nofun⟩
        rintro _ ⟨⟩
        convert hq using 1
        revert hne
        cases q <;> cases thenBit <;> cases elseBit <;> decide
      split
      · rename_i hcase
        obtain ⟨hne, rfl⟩ := hcase
        refine Spec.reduces ((boolNot_spec hq).mono fun t s' _ _ ht => ?_)
        convert ht using 1
        revert hne
        cases q <;> cases thenBit <;> cases elseBit <;> decide
      · rename_i h₁ h₂
        refine Spec.reduces (Spec.constBool ?_)
        revert h₁ h₂
        cases q <;> cases thenBit <;> cases elseBit <;> cases expected <;> decide

/-! ## Extensions -/

/-- `x` is `z` with bits added. -/
def Extends (signed : Bool) (x : BitVec w) (z : BitVec v) : Prop :=
  ∀ i, i < w → x.getLsbD i = if i < v then z.getLsbD i else (signed && z.msb)

variable {signed : Bool} {extra : Nat}

theorem Extends.low (h : Extends signed x z) (hle : v ≤ w) : x.extractLsb' 0 v = z := by
  refine BitVec.eq_of_getLsbD_eq fun i hi => ?_
  rw [getLsbD_slice x 0 v hi, Nat.zero_add, h i (by omega), if_pos hi]

theorem Extends.inj (hx : Extends signed x z) (hy : Extends signed y z) : x = y :=
  BitVec.eq_of_getLsbD_eq fun i hi => by rw [hx i hi, hy i hi]

/-- An equality of an extension. -/
theorem Extends.beq (hx : Extends signed x z) (hle : v ≤ w)
    (hy : Extends signed y (y.extractLsb' 0 v)) : (x == y) = (z == y.extractLsb' 0 v) := by
  rw [Bool.eq_iff_iff, beq_iff_eq, beq_iff_eq]
  constructor
  · rintro rfl
    exact (hx.low hle).symm
  · intro h
    rw [← h] at hy
    exact hx.inj hy

theorem Extends.beq_false (hx : Extends signed x z) (hle : v ≤ w)
    (hy : ¬Extends signed y (y.extractLsb' 0 v)) : (x == y) = false := by
  rw [beq_eq_false_iff_ne]
  rintro rfl
  exact hy ((hx.low hle).symm ▸ hx)

theorem Extends.toNat (h : Extends false x z) (hle : v ≤ w) : x.toNat = z.toNat := by
  refine Nat.eq_of_testBit_eq fun i => ?_
  rw [BitVec.testBit_toNat, BitVec.testBit_toNat]
  by_cases hi : i < w
  · rw [h i hi]
    split
    · rfl
    · rw [BitVec.getLsbD_of_ge z i (by omega), Bool.false_and]
  · rw [BitVec.getLsbD_of_ge x i (by omega), BitVec.getLsbD_of_ge z i (by omega)]

/-- What `extension_parts` finds. -/
structure IsExtension (s : Arena) (ρ : Env) (t : TermId) (x : BitVec w) (child : TermId)
    (childWidth extra : Nat) (signed : Bool) : Prop where
  width : w = childWidth + extra
  lt : child < t
  not_constant : ¬ConstantAt s t
  ofChild : ∃ z : BitVec childWidth, s.Denotes ρ child z ∧ Extends signed x z

theorem reads_extensionParts (hs : s.Inv) (h : s.Denotes ρ t x) :
    Reads (extensionParts t) s fun r => ∀ child childWidth extra signed,
      r = some (child, childWidth, extra, signed) →
        IsExtension s ρ t x child childWidth extra signed := by
  obtain ⟨k, hk⟩ := kind_of_sort h.sort
  obtain ⟨node, hnode, rfl⟩ := node_of_kind hk
  have hnot (hne : ¬node.kind.IsConst) : ¬ConstantAt s t := by
    rintro ⟨j, hj, hc⟩
    obtain rfl := Option.some.inj (hk.symm.trans hj)
    exact hne hc
  refine reads_bind hnode ?_
  split
  · rename_i child extra heq
    rw [heq] at hk hnot
    obtain ⟨v, z, rfl, hz, hbits⟩ := hs.bvZeroExtend h hk
    refine reads_bind (Arena.expectBv_of_sort hz.sort) (reads_pure ?_)
    rintro _ _ _ _ ⟨⟩
    refine ⟨rfl, hs.child_lt hk (by simp [NodeKind.children]), hnot id, z, hz, fun i hi => ?_⟩
    rw [hbits i, Bool.false_and]
    split
    · rfl
    · exact BitVec.getLsbD_of_ge z i (by omega)
  · rename_i child extra heq
    rw [heq] at hk hnot
    obtain ⟨v, z, rfl, hz, hbits⟩ := hs.bvSignExtend h hk
    refine reads_bind (Arena.expectBv_of_sort hz.sort) (reads_pure ?_)
    rintro _ _ _ _ ⟨⟩
    refine ⟨rfl, hs.child_lt hk (by simp [NodeKind.children]), hnot id, z, hz, fun i hi => ?_⟩
    rw [hbits i hi, Bool.true_and]
  · exact reads_pure (by rintro _ _ _ _ ⟨⟩)

theorem highBitsZero_iff (h : Spells bytes y) :
    highBitsZero bytes v w = true ↔ ∀ i, v ≤ i → i < w → y.getLsbD i = false := by
  rw [highBitsZero, List.all_eq_true]
  constructor
  · intro hall i hv hw
    have hbit := hall i (by rw [List.mem_range'_1]; omega)
    rwa [h.getBit, Bool.not_eq_true'] at hbit
  · intro hall i hi
    rw [List.mem_range'_1] at hi
    rw [h.getBit, hall i hi.1 (by omega)]
    rfl

/-- The test of `extension_const_equality`: the constant is an extension of its low bits. -/
theorem inRange_iff {y : BitVec (v + extra)} (h : Spells bytes y) :
    (if signed then sextBytes (extractBytes bytes 0 v) v extra == bytes
      else highBitsZero bytes v (v + extra)) = true ↔
      Extends signed y (y.extractLsb' 0 v) := by
  cases signed with
  | true =>
    rw [if_pos rfl, beq_iff_eq, ((h.extractBytes 0 v).sextBytes extra).inj h]
    constructor
    · intro heq i hi
      conv_lhs => rw [← heq]
      rw [BitVec.getLsbD_signExtend, decide_eq_true hi, Bool.true_and, Bool.true_and]
    · intro hext
      refine BitVec.eq_of_getLsbD_eq fun i hi => ?_
      rw [BitVec.getLsbD_signExtend, decide_eq_true hi, Bool.true_and, hext i hi, Bool.true_and]
  | false =>
    rw [if_neg Bool.false_ne_true, highBitsZero_iff h]
    constructor
    · intro hzero i hi
      rw [Bool.false_and]
      split
      · rw [getLsbD_slice y 0 v ‹_›, Nat.zero_add]
      · exact hzero i (by omega) hi
    · intro hext i hv hi
      rw [hext i hi, if_neg (by omega), Bool.false_and]

/-- Constants aside, the operands come before this id. -/
def Below (s : Arena) (rounds : Nat) (a b : TermId) : Prop :=
  0 < rounds ∧ (¬ConstantAt s a → a < rounds) ∧ (¬ConstantAt s b → b < rounds)

theorem Below.swap (h : Below s rounds a b) : Below s rounds b a := ⟨h.1, h.2.2, h.2.1⟩

theorem Below.child (h : a < rounds + 1) (hlt : c < a) (hconst : ConstantAt s b) :
    Below s rounds c b :=
  have hc : c < rounds := lt_of_lt_of_le hlt (Nat.le_of_lt_succ h)
  ⟨Nat.zero_lt_of_lt hc, fun _ => hc, fun hn => absurd hconst hn⟩

theorem extensionConstEqualityWith_spec {eq : TermId → TermId → ArenaM TermId}
    (heq : ∀ {s : Arena} {c d : TermId} {u : Nat} {y z : BitVec u}, s.Denotes ρ c y →
      s.Denotes ρ d z → Below s rounds c d →
      Spec V (eq c d) s fun t s' => s'.DenotesBool ρ t (y == z))
    (ha : s.Denotes ρ a x) (hb : s.Denotes ρ b y) (hbelow : ¬ConstantAt s a → a < rounds + 1) :
    Spec V (extensionConstEqualityWith eq a b) s (Reduces s ρ (x == y)) := by
  refine Spec.intro fun hs => ?_
  refine spec_maybeConst hs.inv hb (fun bytes _ hbytes => ?_) (spec_pure reduces_none)
  obtain ⟨r, hr, hparts⟩ := reads_extensionParts hs.inv ha
  refine spec_read hr ?_
  cases r with
  | none => exact spec_pure reduces_none
  | some q =>
    obtain ⟨child, childWidth, extra, signed⟩ := q
    obtain ⟨rfl, hlt, hnot, z, hz, hext⟩ := hparts _ _ _ _ rfl
    dsimp only
    rw [if_neg (not_not_intro rfl)]
    have hle : childWidth ≤ childWidth + extra := Nat.le_add_right ..
    have hrange : (if signed then sextBytes (extractBytes bytes 0 childWidth) childWidth extra == bytes
        else highBitsZero bytes childWidth (childWidth + extra)) = true ↔ _ := inRange_iff hbytes
    revert hrange
    generalize (if signed then sextBytes (extractBytes bytes 0 childWidth) childWidth extra == bytes
      else highBitsZero bytes childWidth (childWidth + extra)) = inRange
    intro hrange
    cases inRange with
    | false =>
      rw [hext.beq_false hle fun h => Bool.false_ne_true (hrange.mpr h)]
      exact Spec.reduces (Spec.constBool rfl)
    | true =>
      rw [hext.beq hle (hrange.mp rfl)]
      refine (bvConstBytes_spec (hs.inv.denotes_sortOk hz) (hbytes.extractBytes 0 childWidth)).bind
        fun d s₁ hle₁ hs₁ hd => ?_
      have hspec := heq (hz.mono hle₁) (hd.denotes hs₁.inv)
        (Below.child (hbelow hnot) hlt hd.constantAt)
      refine hspec.bind fun t s₂ _ _ ht => spec_pure ⟨?_, nofun⟩
      rintro _ ⟨⟩
      exact ht

/-! ## Equality -/

theorem bvEqRounds_spec (ha : s.Denotes ρ a x) (hb : s.Denotes ρ b y)
    (hbelow : Below s rounds a b) :
    Spec V (bvEqRounds rounds a b) s fun t s' => s'.DenotesBool ρ t (x == y) := by
  induction rounds generalizing s a b w x y with
  | zero => exact absurd hbelow.1 (lt_irrefl 0)
  | succ rounds ih =>
    refine Spec.intro fun hs => ?_
    have hw := hs.inv.denotes_sortOk ha
    have hflip : (y == x) = (x == y) := by rw [Bool.eq_iff_iff, beq_iff_eq, beq_iff_eq, eq_comm]
    refine spec_read (Arena.expectSameBv_of_sort ha.sort hb.sort) ?_
    split
    · subst b
      exact Spec.constBool (by rw [ha.inj hb, beq_self_eq_true])
    refine spec_tells (tells_isBvNegationPair ha hb) (fun h => ?_) fun _ => ?_
    · obtain rfl := eq_not_of_pair hs.inv ha hb h
      refine Spec.constBool ?_
      symm
      rw [beq_eq_false_iff_ne]
      intro h
      have hbit := congrArg (fun z : BitVec w => z.getLsbD 0) h
      have hw0 : 0 < w := hw.1
      rw [BitVec.getLsbD_not, decide_eq_true hw0, Bool.true_and] at hbit
      revert hbit
      cases x.getLsbD 0 <;> decide
    refine spec_reduces (oneBitIteConstEquality_spec ha hb) (fun _ => rfl) ?_
    refine spec_reduces (hflip ▸ oneBitIteConstEquality_spec hb ha) (fun _ => rfl) ?_
    refine spec_reduces (extensionConstEqualityWith_spec ih ha hb hbelow.2.1) (fun _ => rfl) ?_
    refine spec_reduces (hflip ▸ extensionConstEqualityWith_spec ih hb ha hbelow.2.2)
      (fun _ => rfl) ?_
    refine spec_constPair hs.inv ha hb (fun av bv hav hbv => ?_) fun _ => ?_
    · refine Spec.constBool ?_
      rw [Bool.eq_iff_iff, beq_iff_eq, beq_iff_eq]
      exact hav.inj hbv
    obtain ⟨r, hr, hdecided⟩ := polynomialEquality_spec hs.inv ha hb
    refine spec_read hr ?_
    cases r with
    | some v => exact Spec.constBool (hdecided v rfl).symm
    | none =>
      have hnode : Spec V (Arena.add (.bvEq (orderPair a b).1 (orderPair a b).2) .bool) s fun t s' =>
          s'.DenotesBool ρ t (x == y) := by
        by_cases hle : a ≤ b
        · rw [orderPair, if_pos hle]
          exact Spec.relNode (k := .bvEq a b) (f := fun y z => y == z) ha hb
            (fun h h' => ⟨_, rfl, h, h'⟩) rfl trivial
        · rw [orderPair, if_neg hle, ← hflip]
          exact Spec.relNode (k := .bvEq b a) (f := fun y z => y == z) hb ha
            (fun h h' => ⟨_, rfl, h, h'⟩) rfl trivial
      exact hnode

theorem below_add (s : Arena) (a b : TermId) : Below s (a + b + 1) a b :=
  ⟨Nat.succ_pos _, fun _ => Nat.lt_succ_of_le (Nat.le_add_right a b),
    fun _ => Nat.lt_succ_of_le (Nat.le_add_left b a)⟩

theorem bvEq_spec (ha : s.Denotes ρ a x) (hb : s.Denotes ρ b y) :
    Spec V (bvEq a b) s fun t s' => s'.DenotesBool ρ t (x == y) :=
  bvEqRounds_spec ha hb (below_add s a b)

theorem bvNe_spec (ha : s.Denotes ρ a x) (hb : s.Denotes ρ b y) :
    Spec V (bvNe a b) s fun t s' => s'.DenotesBool ρ t (!(x == y)) :=
  (bvEq_spec ha hb).bind fun _ _ _ _ h => boolNot_spec h

/-! ## Orders -/

namespace Comparison

/-- The comparison of two vectors. -/
def holds : Comparison → BitVec w → BitVec w → Bool
  | ult, x, y => x.ult y
  | ule, x, y => x.ule y
  | slt, x, y => x.slt y
  | sle, x, y => x.sle y

theorem holds_self (cmp : Comparison) (x : BitVec w) : cmp.holds x x = cmp.reflexive := by
  cases cmp with
  | ult => simp [holds, reflexive, BitVec.ult]
  | ule => simp [holds, reflexive, BitVec.ule]
  | slt => simp [holds, reflexive, BitVec.slt]
  | sle => simp [holds, reflexive, BitVec.sle]

theorem sle_eq (x y : BitVec w) : x.sle y = (x.slt y || x == y) := by
  rw [Bool.eq_iff_iff, Bool.or_eq_true, beq_iff_eq, BitVec.sle, BitVec.slt, decide_eq_true_eq,
    decide_eq_true_eq, ← BitVec.toInt_inj]
  omega

/-- The comparison of two constants. -/
theorem decide_eq {av bv : List UInt8} (cmp : Comparison) (hav : Spells av x) (hbv : Spells bv y) :
    cmp.decide av bv w = cmp.holds x y := by
  cases cmp with
  | ult =>
    rw [decide, holds, hav.cmpUnsignedBytes hbv, Bool.eq_iff_iff, beq_iff_eq, compare_lt_iff_lt,
      BitVec.ult, decide_eq_true_eq]
  | ule =>
    rw [decide, holds, hav.cmpUnsignedBytes hbv, Bool.eq_iff_iff, bne_iff_ne, ne_eq,
      compare_gt_iff_gt, BitVec.ule, decide_eq_true_eq]
    omega
  | slt => exact hav.signedLessThan hbv
  | sle =>
    rw [decide, holds, hav.signedLessThan hbv, sle_eq]
    congr 1
    rw [Bool.eq_iff_iff, beq_iff_eq, beq_iff_eq]
    exact hav.inj hbv

theorem node_spec (cmp : Comparison) (ha : s.Denotes ρ a x) (hb : s.Denotes ρ b y) :
    Spec V (Arena.add (cmp.node a b) .bool) s fun t s' => s'.DenotesBool ρ t (cmp.holds x y) := by
  cases cmp with
  | ult =>
    exact Spec.relNode (k := .bvUlt a b) (f := fun y z => y.ult z) ha hb
      (fun h h' => ⟨_, rfl, h, h'⟩) rfl trivial
  | ule =>
    exact Spec.relNode (k := .bvUle a b) (f := fun y z => y.ule z) ha hb
      (fun h h' => ⟨_, rfl, h, h'⟩) rfl trivial
  | slt =>
    exact Spec.relNode (k := .bvSlt a b) (f := fun y z => y.slt z) ha hb
      (fun h h' => ⟨_, rfl, h, h'⟩) rfl trivial
  | sle =>
    exact Spec.relNode (k := .bvSle a b) (f := fun y z => y.sle z) ha hb
      (fun h h' => ⟨_, rfl, h, h'⟩) rfl trivial

end Comparison

theorem ult_eq (x y : BitVec w) : x.ult y = decide (x.toNat < y.toNat) := rfl

theorem ule_eq (x y : BitVec w) : x.ule y = decide (x.toNat ≤ y.toNat) := rfl

/-- The high bits of a constant are zero. -/
theorem highZero_iff {y : BitVec (v + extra)} (h : Spells bytes y) :
    highBitsZero bytes v (v + extra) = true ↔ y.toNat < 2 ^ v := by
  rw [highBitsZero_iff h]
  constructor
  · intro hzero
    refine Nat.lt_pow_two_of_testBit y.toNat fun i hi => ?_
    rw [BitVec.testBit_toNat]
    by_cases hlt : i < v + extra
    · exact hzero i hi hlt
    · exact BitVec.getLsbD_of_ge y i (by omega)
  · intro hlt i hv _
    rw [← BitVec.testBit_toNat]
    exact Nat.testBit_lt_two_pow (lt_of_lt_of_le hlt (Nat.pow_le_pow_right (by decide) hv))

theorem low_toNat {y : BitVec (v + extra)} (h : y.toNat < 2 ^ v) :
    (y.extractLsb' 0 v).toNat = y.toNat := by
  rw [BitVec.extractLsb'_toNat, Nat.shiftRight_zero, Nat.mod_eq_of_lt h]

theorem zeroExtendConstUnsignedCmpWith_spec {cmp : Comparison → TermId → TermId → ArenaM TermId}
    (hcmp : ∀ {s : Arena} {c d : TermId} {u : Nat} {y z : BitVec u} (kind : Comparison),
      s.Denotes ρ c y → s.Denotes ρ d z → Below s rounds c d →
      Spec V (cmp kind c d) s fun t s' => s'.DenotesBool ρ t (kind.holds y z))
    (ha : s.Denotes ρ a x) (hb : s.Denotes ρ b y) (hbelow : ¬ConstantAt s a → a < rounds + 1)
    (strict left : Bool) :
    Spec V (zeroExtendConstUnsignedCmpWith cmp a b strict left) s (Reduces s ρ
      (if left then (Comparison.ofStrict strict).holds x y
        else (Comparison.ofStrict strict).holds y x)) := by
  refine Spec.intro fun hs => ?_
  refine spec_maybeConst hs.inv hb (fun bytes _ hbytes => ?_) (spec_pure reduces_none)
  obtain ⟨r, hr, hparts⟩ := reads_extensionParts hs.inv ha
  refine spec_read hr ?_
  cases r with
  | none => exact spec_pure reduces_none
  | some q =>
    obtain ⟨child, childWidth, extra, signed⟩ := q
    obtain ⟨rfl, hlt, hnot, z, hz, hext⟩ := hparts _ _ _ _ rfl
    dsimp only
    split
    · exact spec_pure reduces_none
    rename_i hsigned
    obtain rfl : signed = false := by
      cases signed with
      | false => rfl
      | true => exact absurd (.inl rfl) hsigned
    have hx : x.toNat = z.toNat := hext.toNat (Nat.le_add_right ..)
    have hzlt := z.isLt
    have hzero : isZeroBytes bytes = true ↔ y.toNat = 0 :=
      hbytes.isZeroBytes.trans ⟨fun h => h ▸ toNat_zero, eq_zero_of_toNat⟩
    have hhigh := highZero_iff hbytes
    have hzw := hs.inv.denotes_sortOk hz
    refine (bvConstBytes_spec hzw (hbytes.extractBytes 0 childWidth)).bind
      fun d s₁ hle₁ hs₁ hd => ?_
    have hz₁ := hz.mono hle₁
    have hd₁ : s₁.Denotes ρ d (y.extractLsb' 0 childWidth) := hd.denotes hs₁.inv
    have hbelow₁ : Below s₁ rounds child d := Below.child (hbelow hnot) hlt hd.constantAt
    -- an answer, or the comparison of the child with the low bits
    have hanswer {m : ArenaM TermId} {p : Bool}
        (h : Spec V m s₁ fun t s' => s'.DenotesBool ρ t p) :
        Spec V (m >>= fun t => pure (some t)) s₁ (Reduces s ρ p) := by
      refine h.bind fun t s' _ _ ht => spec_pure ⟨?_, nofun⟩
      rintro _ ⟨⟩
      exact ht
    cases left with
    | true =>
      rw [if_pos rfl, if_pos rfl]
      cases strict with
      | true =>
        rw [if_pos rfl, show Comparison.ofStrict true = .ult from rfl, Comparison.holds, ult_eq, hx]
        split
        · rename_i h
          exact hanswer (Spec.constBool (decide_eq_false (by rw [hzero.mp h]; omega)).symm)
        split
        · rename_i h
          rw [Bool.not_eq_true', ← Bool.not_eq_true, hhigh] at h
          exact hanswer (Spec.constBool (decide_eq_true (by omega)).symm)
        · rename_i h
          rw [Bool.not_eq_true', Bool.not_eq_false, hhigh] at h
          rw [← low_toNat h]
          exact hanswer (hcmp .ult hz₁ hd₁ hbelow₁)
      | false =>
        rw [if_neg Bool.false_ne_true, show Comparison.ofStrict false = .ule from rfl,
          Comparison.holds, ule_eq, hx]
        split
        · rename_i h
          rw [Bool.not_eq_true', ← Bool.not_eq_true, hhigh] at h
          exact hanswer (Spec.constBool (decide_eq_true (by omega)).symm)
        · rename_i h
          rw [Bool.not_eq_true', Bool.not_eq_false, hhigh] at h
          rw [← low_toNat h]
          exact hanswer (hcmp .ule hz₁ hd₁ hbelow₁)
    | false =>
      rw [if_neg Bool.false_ne_true, if_neg Bool.false_ne_true]
      cases strict with
      | true =>
        rw [show Comparison.ofStrict true = .ult from rfl, Comparison.holds, ult_eq, hx]
        split
        · rename_i h
          rw [Bool.not_eq_true', ← Bool.not_eq_true, hhigh] at h
          exact hanswer (Spec.constBool (decide_eq_false (by omega)).symm)
        rename_i h
        rw [Bool.not_eq_true', Bool.not_eq_false, hhigh] at h
        rw [← low_toNat h]
        refine spec_tells (tells_isAllOnes hd₁) (fun hones => ?_) fun _ => ?_
        · rw [hones.eq hs₁.inv hd₁, BitVec.toNat_allOnes]
          exact hanswer (Spec.constBool (decide_eq_false (by omega)).symm)
        · exact hanswer (hcmp .ult hd₁ hz₁ hbelow₁.swap)
      | false =>
        rw [show Comparison.ofStrict false = .ule from rfl, Comparison.holds, ule_eq, hx]
        split
        · rename_i h
          rw [Bool.not_eq_true', ← Bool.not_eq_true, hhigh] at h
          exact hanswer (Spec.constBool (decide_eq_false (by omega)).symm)
        rename_i h
        rw [Bool.not_eq_true', Bool.not_eq_false, hhigh] at h
        rw [if_neg Bool.false_ne_true]
        split
        · rename_i hz
          exact hanswer (Spec.constBool (decide_eq_true (by rw [hzero.mp hz]; omega)).symm)
        · rw [← low_toNat h]
          exact hanswer (hcmp .ule hd₁ hz₁ hbelow₁.swap)

theorem unsignedCmpWith_spec {cmp : Comparison → TermId → TermId → ArenaM TermId}
    (hcmp : ∀ {s : Arena} {c d : TermId} {u : Nat} {y z : BitVec u} (kind : Comparison),
      s.Denotes ρ c y → s.Denotes ρ d z → Below s rounds c d →
      Spec V (cmp kind c d) s fun t s' => s'.DenotesBool ρ t (kind.holds y z))
    (kind : Comparison) (ha : s.Denotes ρ a x) (hb : s.Denotes ρ b y)
    (hbelow : Below s (rounds + 1) a b) :
    Spec V (unsignedCmpWith cmp kind a b) s (Reduces s ρ (kind.holds x y)) := by
  unfold unsignedCmpWith
  cases hstrict : kind.strict? with
  | none => exact spec_pure reduces_none
  | some strict =>
    obtain rfl : kind = Comparison.ofStrict strict := by
      cases kind <;> cases hstrict <;> rfl
    refine (zeroExtendConstUnsignedCmpWith_spec hcmp ha hb hbelow.2.1 strict true).bind ?_
    rintro (_ | t) s' - - ⟨hfound, hsame⟩
    · obtain rfl := hsame rfl
      exact zeroExtendConstUnsignedCmpWith_spec hcmp hb ha hbelow.2.2 strict false
    · exact spec_pure ⟨hfound, nofun⟩

theorem bvCmpRounds_spec (cmp : Comparison) (ha : s.Denotes ρ a x) (hb : s.Denotes ρ b y)
    (hbelow : Below s rounds a b) :
    Spec V (bvCmpRounds rounds cmp a b) s fun t s' => s'.DenotesBool ρ t (cmp.holds x y) := by
  induction rounds generalizing s a b w x y cmp with
  | zero => exact absurd hbelow.1 (lt_irrefl 0)
  | succ rounds ih =>
    refine Spec.intro fun hs => ?_
    refine spec_read (Arena.expectSameBv_of_sort ha.sort hb.sort) ?_
    split
    · subst b
      exact Spec.constBool (by rw [ha.inj hb, cmp.holds_self])
    refine spec_reduces (unsignedCmpWith_spec (fun kind hc hd h => ih kind hc hd h) cmp ha hb hbelow)
      (fun _ => rfl) ?_
    refine spec_constPair hs.inv ha hb (fun av bv hav hbv => ?_) fun _ => ?_
    · exact Spec.constBool (cmp.decide_eq hav hbv)
    · exact cmp.node_spec ha hb

theorem bvCmp_spec (cmp : Comparison) (ha : s.Denotes ρ a x) (hb : s.Denotes ρ b y) :
    Spec V (bvCmp cmp a b) s fun t s' => s'.DenotesBool ρ t (cmp.holds x y) :=
  bvCmpRounds_spec cmp ha hb (below_add s a b)

/-! ## Overflow predicates -/

theorem overflowBinary_spec {f : TermId → TermId → NodeKind}
    {o : ∀ {w : Nat}, BitVec w → BitVec w → Bool} (ha : s.Denotes ρ a x) (hb : s.Denotes ρ b y)
    (hsort : ∀ {srt w}, srt a = some (.bv w) → srt b = some (.bv w) → (f a b).HasSort srt .bool)
    (hsem : ∀ {id look}, (f a b).sem ρ id look = Value.rel₂ o (look a) (look b))
    (hc : (f a b).Canonical V s.kindAt) :
    Spec V (overflowBinary a b f) s fun t s' => s'.DenotesBool ρ t (o x y) :=
  spec_read (Arena.expectSameBv_of_sort ha.sort hb.sort) (Spec.relNode ha hb hsort hsem hc)

theorem negOvf_spec (ha : s.Denotes ρ a x) :
    Spec V (negOvf a) s fun t s' => s'.DenotesBool ρ t x.negOverflow := by
  refine spec_read (Arena.expectBv_of_sort ha.sort) ?_
  refine Spec.boolNode (k := .negOverflow a) ⟨w, rfl, ha.sort⟩ (fun hle => ?_) trivial
  rw [NodeKind.sem, (ha.mono hle).value, Smt.bvnego, Value.bits_bv]
  rfl

end Builder
end Qfbv
end SmtServer
