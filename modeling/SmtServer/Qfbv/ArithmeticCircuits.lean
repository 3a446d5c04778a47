import SmtServer.Lib.LongDivision
import SmtServer.Qfbv.ByteKernels
import SmtServer.Qfbv.Circuits
import SmtServer.Qfbv.EvalBytes
import SmtServer.Qfbv.Tseitin

/-!
# `circuits.rs` — products and quotients

Multiplication by a constant adds shifted copies of the value, one for each bit of the constant that
is set, where the general multiplier has a row of gates for each bit of its second operand. Division
is the long division of `Lib.LongDivision` on gates; a zero divisor is sorted out at the end by a
multiplexer, and the signed divisions work on absolute values.

As everywhere in the circuits, what the gates compute is known of an arena that fits: past `2 ^ 32`
gates an id names another gate, and the last section shows what a circuit returns then.
-/

namespace SmtServer
namespace Qfbv

open Lib Outcome

namespace Circuits

open GateArena

def ones (width : Nat) : Bits := List.replicate width trueGate

def neg (x : Bits) : GateM Bits := sub (zero x.length) x

def mul (a b : Bits) : GateM Bits := mulWidth a b a.length

/-! ## Multiplication by a constant -/

/-- `const_bit`, which is `get_bit` of the builder once more. -/
def constBit (bytes : List UInt8) (bit : Nat) : Bool := Bytes.getBit bytes bit

def constIsZero (bytes : List UInt8) (width : Nat) : Bool :=
  (List.range width).all fun bit => !constBit bytes bit

def constIsOne (bytes : List UInt8) (width : Nat) : Bool :=
  constBit bytes 0 && (List.range' 1 (width - 1)).all fun bit => !constBit bytes bit

def constIsAllOnes (bytes : List UInt8) (width : Nat) : Bool :=
  (List.range width).all fun bit => constBit bytes bit

/-- One round of `mul_const`; the first copy is taken as it is. -/
def mulConstStep (value : Bits) (constant : List UInt8) (acc : Option Bits) (shift : Nat) :
    GateM (Option Bits) :=
  if constBit constant shift then
    let shifted := zero shift ++ value.take (value.length - shift)
    match acc with
    | some current => do
        let sum ← add current shifted
        pure (some sum)
    | none => pure (some shifted)
  else pure acc

def mulConst (value : Bits) (constant : List UInt8) : GateM Bits :=
  let width := value.length
  if constIsZero constant width then pure (zero width)
  else if constIsOne constant width then pure value
  else if constIsAllOnes constant width then neg value
  else do
    let acc ← (List.range width).foldlM (mulConstStep value constant) none
    pure (acc.getD (zero width))

/-- The gates of a constant, as the translation of `BvConst` makes them. -/
def constantGates (width : Nat) (bytes : List UInt8) : Bits :=
  (List.range width).map fun bit => constGate (constBit bytes bit)

/-! ## Division -/

def isZero (x : Bits) : GateM GateId := do
  let any ← orMany x
  GateArena.not any

def ule (a b : Bits) : GateM GateId := do
  let bLtA ← ult b a
  GateArena.not bLtA

def muxBits (sel : GateId) (t f : Bits) : GateM Bits :=
  (t.zip f).mapM fun pair => mux sel pair.1 pair.2

/-- One round of `udiv_urem`, from the remainder and the quotient so far. The slice of the remainder
is a copy, and panics where the remainder is shorter. -/
def divideStep (n : Nat) (divisor : Bits) (state : Bits × Bits) (bit : GateId) :
    GateM (Bits × Bits) := do
  let low ← Grow.lift (if n - 1 ≤ state.1.length then ok (state.1.take (n - 1)) else panic)
  let shifted := bit :: low
  let ge ← ule divisor shifted
  let remMinusDivisor ← sub shifted divisor
  let rem ← muxBits ge remMinusDivisor shifted
  pure (rem, ge :: state.2)

/-- The quotient and the remainder. -/
def udivUrem (dividend divisor : Bits) : GateM (Bits × Bits) := do
  let n := dividend.length
  let state ← dividend.reverse.foldlM (divideStep n divisor) (zero n, [])
  let divisorZero ← isZero divisor
  let quotient ← muxBits divisorZero (ones n) state.2
  let remainder ← muxBits divisorZero dividend state.1
  pure (quotient, remainder)

def absBits (x : Bits) : GateM Bits := do
  let sign ← last x
  let negX ← neg x
  muxBits sign negX x

def sdiv (a b : Bits) : GateM Bits := do
  let signA ← last a
  let signB ← last b
  let absA ← absBits a
  let absB ← absBits b
  let divided ← udivUrem absA absB
  let negQ ← neg divided.1
  let signsDiffer ← xor signA signB
  muxBits signsDiffer negQ divided.1

def srem (a b : Bits) : GateM Bits := do
  let signA ← last a
  let absA ← absBits a
  let absB ← absBits b
  let divided ← udivUrem absA absB
  let negR ← neg divided.2
  muxBits signA negR divided.2

def smod (a b : Bits) : GateM Bits := do
  let signA ← last a
  let signB ← last b
  let absA ← absBits a
  let absB ← absBits b
  let divided ← udivUrem absA absB
  let uZero ← isZero divided.2
  let negU ← neg divided.2
  let bMinusU ← sub b divided.2
  let bPlusU ← add b divided.2
  let whenBNonneg ← muxBits signA bMinusU divided.2
  let whenBNeg ← muxBits signA negU bPlusU
  let nonzeroResult ← muxBits signB whenBNeg whenBNonneg
  muxBits uZero divided.2 nonzeroResult

/-! ## Parts -/

variable {s s' : GateArena} {inputs : Nat → Bool} {g : GateId} {p q r : Bool} {a b : Bits}
  {ps qs : List Bool}

theorem isZero_spec (ha : s.ComputesAll inputs a ps) :
    Spec (isZero a) s fun g s' => s'.Computes inputs g (decide (BitList.toNat ps = 0)) := by
  refine (orMany_spec ha).bind fun any s' _ _ hany => ?_
  refine (not_spec hany).mono fun g s'' _ _ h => h.congr fun _ => ?_
  rw [Bool.eq_iff_iff, decide_eq_true_eq, BitList.toNat_eq_zero, Bool.not_eq_true']

theorem ule_spec (ha : s.ComputesAll inputs a ps) (hb : s.ComputesAll inputs b qs)
    (hlen : ps.length = qs.length) : Spec (ule a b) s fun g s' =>
      s'.Computes inputs g (decide (BitList.toNat ps ≤ BitList.toNat qs)) := by
  refine (ult_spec hb ha hlen.symm).bind fun bLtA s' _ _ h => ?_
  refine (not_spec h).mono fun g s'' _ _ h => h.congr fun _ => ?_
  rw [← decide_not, decide_eq_decide, not_lt]

theorem muxBits_spec (hg : s.Computes inputs g r) (ha : s.ComputesAll inputs a ps)
    (hb : s.ComputesAll inputs b qs) (hlen : ps.length = qs.length) :
    Spec (muxBits g a b) s fun out s' => s'.ComputesAll inputs out (if r then ps else qs) := by
  have hzip : List.zipWith (fun p q => if r then p else q) ps qs = if r then ps else qs := by
    clear ha hb
    induction ps generalizing qs with
    | nil =>
      obtain rfl := List.length_eq_zero_iff.mp hlen.symm
      simp
    | cons p ps ih =>
      match qs with
      | [] => cases hlen
      | q :: qs =>
        rw [List.zipWith_cons_cons, ih (by simpa using hlen)]
        cases r <;> rfl
  rw [← hzip]
  exact zip_spec (fun _ _ _ _ _ hle hx hy => mux_spec hx hy (hg.mono hle)) ha hb

section Vectors

variable {w : Nat} {x y z : BitVec w}

theorem muxWord_spec (hg : s.Computes inputs g r) (ha : s.ComputesAll inputs a (BitList.bits x))
    (hb : s.ComputesAll inputs b (BitList.bits y)) : Spec (muxBits g a b) s fun out s' =>
      s'.ComputesAll inputs out (BitList.bits (if r then x else y)) := by
  refine (muxBits_spec hg ha hb (by simp)).mono fun out s' _ _ h => ?_
  cases r <;> exact h

theorem isZeroWord_spec (ha : s.ComputesAll inputs a (BitList.bits x)) :
    Spec (isZero a) s fun g s' => s'.Computes inputs g (decide (x = 0)) := by
  refine (isZero_spec ha).mono fun g s' _ _ h => h.congr fun _ => ?_
  rw [BitList.toNat_bits, decide_eq_decide, ← BitVec.toNat_inj]
  rfl

theorem computesAll_zeroWord (hs : s.Inv) (w : Nat) :
    s.ComputesAll inputs (zero w) (BitList.bits (0 : BitVec w)) := by
  rw [← BitList.eq_bits (v := (0 : BitVec w)) (List.length_replicate (n := w) (a := false))
    (by simp)]
  exact computesAll_zero hs w

theorem neg_spec (ha : s.ComputesAll inputs a (BitList.bits x)) :
    Spec (neg a) s fun out s' => s'.ComputesAll inputs out (BitList.bits (-x)) := by
  refine spec_inv fun hs => ?_
  rw [neg, length_of_bits ha]
  refine (sub_spec (computesAll_zeroWord hs w) ha).mono fun out s' _ _ h => ?_
  rwa [BitList.sub_bits, show (0 : BitVec w) - x = -x from BitVec.zero_sub x] at h

theorem mul_spec (ha : s.ComputesAll inputs a (BitList.bits x))
    (hb : s.ComputesAll inputs b (BitList.bits y)) :
    Spec (mul a b) s fun out s' => s'.ComputesAll inputs out (BitList.bits (x * y)) := by
  rw [mul, length_of_bits ha, ← BitList.mul_bits]
  exact mulWidth_spec ha hb w

theorem addWord_spec (ha : s.ComputesAll inputs a (BitList.bits x))
    (hb : s.ComputesAll inputs b (BitList.bits y)) :
    Spec (add a b) s fun out s' => s'.ComputesAll inputs out (BitList.bits (x + y)) := by
  rw [← BitList.add_bits]
  exact add_spec ha hb

theorem subWord_spec (ha : s.ComputesAll inputs a (BitList.bits x))
    (hb : s.ComputesAll inputs b (BitList.bits y)) :
    Spec (sub a b) s fun out s' => s'.ComputesAll inputs out (BitList.bits (x - y)) := by
  rw [← BitList.sub_bits]
  exact sub_spec ha hb

/-! ## Multiplication by a constant -/

/-- The vector that a constant's bytes spell at this width. -/
theorem constBit_eq (bytes : List UInt8) {i : Nat} (hi : i < w) :
    constBit bytes i = (Bytes.word w bytes).getLsbD i := by
  rw [constBit, Bytes.getBit_eq, Bytes.word, BitVec.getLsbD_ofNat]
  simp [hi]

/-- A constant is known by its bits. -/
theorem word_eq {bytes : List UInt8} {c : BitVec w}
    (h : ∀ i, i < w → constBit bytes i = c.getLsbD i) : Bytes.word w bytes = c := by
  refine BitVec.eq_of_getLsbD_eq fun i hi => ?_
  rw [← constBit_eq bytes hi, h i hi]

theorem word_of_constIsZero {bytes : List UInt8} (h : constIsZero bytes w = true) :
    Bytes.word w bytes = 0 := by
  refine word_eq fun i hi => ?_
  have := List.all_eq_true.mp h i (List.mem_range.mpr hi)
  simpa using this

theorem word_of_constIsOne {bytes : List UInt8} (h : constIsOne bytes w = true) :
    Bytes.word w bytes = 1 := by
  rw [constIsOne, Bool.and_eq_true] at h
  refine word_eq fun i hi => ?_
  cases i with
  | zero => simpa [show 0 < w from hi] using h.1
  | succ i =>
    have := List.all_eq_true.mp h.2 (i + 1) (List.mem_range'_1.mpr (by omega))
    have hbit : constBit bytes (i + 1) = false := by simpa using this
    rw [hbit]
    simp

theorem word_of_constIsAllOnes {bytes : List UInt8} (h : constIsAllOnes bytes w = true) :
    Bytes.word w bytes = BitVec.allOnes w := by
  refine word_eq fun i hi => ?_
  have := List.all_eq_true.mp h i (List.mem_range.mpr hi)
  simpa [hi] using this

/-- The sum of the copies so far is the product with the low bits of the constant; with no bit set
yet there is no sum. -/
def Accumulated (s : GateArena) (inputs : Nat → Bool) (x : BitVec w) (low : Nat) :
    Option Bits → Prop
  | some current => s.ComputesAll inputs current (BitList.bits (x * BitVec.ofNat w low))
  | none => low = 0

theorem mulConstStep_spec {constant : List UInt8} {acc : Option Bits} {k : Nat} (hk : k < w)
    (ha : s.ComputesAll inputs a (BitList.bits x))
    (hacc : Accumulated s inputs x (leNat constant % 2 ^ k) acc) :
    Spec (mulConstStep a constant acc k) s fun acc s' =>
      Accumulated s' inputs x (leNat constant % 2 ^ (k + 1)) acc := by
  have hlow : leNat constant % 2 ^ (k + 1) =
      leNat constant % 2 ^ k + if constBit constant k then 2 ^ k else 0 := by
    rw [constBit, Bytes.getBit_eq, Nat.testBit_eq_decide_div_mod_eq, Nat.pow_succ, Nat.mod_mul]
    rcases Nat.mod_two_eq_zero_or_one (leNat constant / 2 ^ k) with h | h <;> simp [h]
  rw [mulConstStep, hlow]
  by_cases hbit : constBit constant k = true
  · rw [if_pos hbit, if_pos hbit]
    refine spec_inv fun hs => ?_
    have hshifted : s.ComputesAll inputs (zero k ++ a.take (a.length - k))
        (BitList.bits (x * BitVec.ofNat w (2 ^ k))) := by
      rw [length_of_bits ha, show BitVec.ofNat w (2 ^ k) = BitVec.twoPow w k from
        BitVec.eq_of_toNat_eq (by rw [BitVec.toNat_ofNat, BitVec.toNat_twoPow]),
        BitVec.mul_twoPow_eq_shiftLeft,
        BitList.bits_shiftLeft hk.le]
      exact List.rel_append (computesAll_zero hs k) (List.forall₂_take _ ha)
    cases acc with
    | none =>
      refine spec_pure fun _ => ?_
      rw [show leNat constant % 2 ^ k = 0 from hacc, Nat.zero_add]
      exact hshifted
    | some current =>
      refine (addWord_spec hacc hshifted).bind fun sum s' _ _ hsum => spec_pure fun _ => ?_
      rwa [← BitVec.mul_add, ← BitVec.ofNat_add] at hsum
  · rw [if_neg hbit, if_neg hbit, Nat.add_zero]
    exact spec_pure fun _ => hacc

theorem mulConstLoop_spec {constant : List UInt8} {n : Nat} (hn : n ≤ w)
    (ha : s.ComputesAll inputs a (BitList.bits x)) :
    Spec ((List.range n).foldlM (mulConstStep a constant) none) s fun acc s' =>
      Accumulated s' inputs x (leNat constant % 2 ^ n) acc := by
  induction n with
  | zero => exact spec_pure fun _ => Nat.mod_one _
  | succ n ih =>
    rw [List.range_succ, List.foldlM_append]
    refine (ih (by omega)).bind fun acc s₁ h₁ _ hacc => ?_
    rw [List.foldlM_cons]
    refine (mulConstStep_spec hn (ComputesAll.mono ha h₁) hacc).bind fun acc s₂ _ _ h => ?_
    exact spec_pure fun _ => h

theorem mulConst_spec (ha : s.ComputesAll inputs a (BitList.bits x)) (constant : List UInt8) :
    Spec (mulConst a constant) s fun out s' =>
      s'.ComputesAll inputs out (BitList.bits (x * Bytes.word w constant)) := by
  rw [mulConst, length_of_bits ha]
  by_cases hzero : constIsZero constant w = true
  · rw [if_pos hzero, word_of_constIsZero hzero, show x * 0 = 0 from BitVec.mul_zero]
    exact spec_pure fun hs => computesAll_zeroWord hs w
  rw [if_neg hzero]
  by_cases hone : constIsOne constant w = true
  · rw [if_pos hone, word_of_constIsOne hone, show x * 1 = x from BitVec.mul_one x]
    exact spec_pure fun _ => ha
  rw [if_neg hone]
  by_cases hones : constIsAllOnes constant w = true
  · rw [if_pos hones, word_of_constIsAllOnes hones, ← BitVec.neg_one_eq_allOnes, BitVec.mul_neg,
      BitVec.mul_one]
    exact neg_spec ha
  rw [if_neg hones]
  have hloop := @mulConstLoop_spec _ _ _ _ _ constant _ le_rfl ha
  refine hloop.bind fun acc s' _ hs' hacc => ?_
  refine spec_pure fun _ => ?_
  have hword : BitVec.ofNat w (leNat constant % 2 ^ w) = Bytes.word w constant :=
    BitVec.eq_of_toNat_eq (by simp [Bytes.word])
  cases acc with
  | none =>
    rw [← hword, show leNat constant % 2 ^ w = 0 from hacc]
    show s'.ComputesAll inputs (zero w) (BitList.bits (x * 0))
    rw [show x * 0 = 0 from BitVec.mul_zero]
    exact computesAll_zeroWord hs' w
  | some current =>
    rw [← hword]
    exact hacc

theorem computesAll_constantGates (hs : s.Inv) (constant : List UInt8) :
    s.ComputesAll inputs (constantGates w constant) (BitList.bits (Bytes.word w constant)) := by
  rw [constantGates, BitList.bits, BitList.ofNat, ComputesAll, List.forall₂_map_left_iff,
    List.forall₂_map_right_iff, List.forall₂_same]
  intro i hi
  rw [BitVec.testBit_toNat, ← constBit_eq constant (List.mem_range.mp hi)]
  exact hs.computes_const _

/-! ## Division -/

/-- A round on gates is the round on bits. -/
theorem divideStep_spec {n : Nat} {state : Bits × Bits} {used : List Bool}
    {bits : List Bool × List Bool} {bit : GateId} (hb : s.ComputesAll inputs b qs)
    (hrem : s.ComputesAll inputs state.1 bits.1) (hquo : s.ComputesAll inputs state.2 bits.2)
    (hbit : s.Computes inputs bit p) (hqs : qs.length = n)
    (hdivided : BitList.Divided n qs used bits) (hused : used.length < n) :
    Spec (divideStep n b state bit) s fun state s' =>
      s'.ComputesAll inputs state.1 (BitList.divideStep n qs bits p).1 ∧
        s'.ComputesAll inputs state.2 (BitList.divideStep n qs bits p).2 := by
  have hlen : state.1.length = n := (List.Forall₂.length_eq hrem).trans hdivided.length_remainder
  have hshifted : s.ComputesAll inputs (bit :: state.1.take (n - 1)) (p :: bits.1.take (n - 1)) :=
    .cons hbit (List.forall₂_take _ hrem)
  have hwidth : (p :: bits.1.take (n - 1)).length = qs.length := by
    simp only [List.length_cons, List.length_take, hdivided.length_remainder]
    omega
  rw [divideStep, if_pos (by omega : n - 1 ≤ state.1.length)]
  refine Grow.spec_read (safe_ok _) (by simp) fun low hlow => ?_
  obtain rfl := Outcome.ok.inj hlow
  refine (ule_spec hb hshifted hwidth.symm).bind fun ge s₁ h₁ _ hge => ?_
  refine (sub_spec (ComputesAll.mono hshifted h₁) (ComputesAll.mono hb h₁)).bind
    fun diff s₂ h₂ _ hdiff => ?_
  have h₁₂ := h₁.trans h₂
  refine (muxBits_spec (hge.mono h₂) hdiff (ComputesAll.mono hshifted h₁₂)
    (by rw [BitList.length_sub hwidth])).bind fun rem s₃ h₃ _ hrem' => ?_
  refine spec_pure fun _ => ⟨?_, .cons (hge.mono (h₂.trans h₃))
    (ComputesAll.mono hquo (h₁₂.trans h₃))⟩
  simpa only [BitList.divideStep, decide_eq_true_eq] using hrem'

/-- The loop over the bits that are left, from the highest down. -/
theorem divide_spec {n : Nat} {left : Bits} {rest high : List Bool} {state : Bits × Bits}
    {bits : List Bool × List Bool} (hb : s.ComputesAll inputs b qs)
    (hleft : s.ComputesAll inputs left rest) (hrem : s.ComputesAll inputs state.1 bits.1)
    (hquo : s.ComputesAll inputs state.2 bits.2) (hqs : qs.length = n)
    (hdivided : BitList.Divided n qs high bits) (hlen : rest.length + high.length = n) :
    Spec (left.foldlM (divideStep n b) state) s fun state s' =>
      s'.ComputesAll inputs state.1 (rest.foldl (BitList.divideStep n qs) bits).1 ∧
        s'.ComputesAll inputs state.2 (rest.foldl (BitList.divideStep n qs) bits).2 := by
  induction left generalizing s rest state bits high with
  | nil =>
    cases hleft
    exact spec_pure fun _ => ⟨hrem, hquo⟩
  | cons bit left ih =>
    obtain ⟨p, rest, hbit, hrest, rfl⟩ := List.forall₂_cons_left_iff.mp hleft
    rw [List.length_cons] at hlen
    have hused : high.length < n := by omega
    rw [List.foldlM_cons, List.foldl_cons]
    refine (divideStep_spec hb hrem hquo hbit hqs hdivided hused).bind fun state s' hle _ h => ?_
    refine ih (ComputesAll.mono hb hle) (ComputesAll.mono hrest hle) h.1 h.2
      (BitList.divided_step hqs hdivided hused p) ?_
    rw [List.length_cons]
    omega

/-- The standard's quotient and remainder. -/
theorem udivUrem_spec (ha : s.ComputesAll inputs a (BitList.bits x))
    (hb : s.ComputesAll inputs b (BitList.bits y)) : Spec (udivUrem a b) s fun out s' =>
      s'.ComputesAll inputs out.1 (BitList.bits (x.smtUDiv y)) ∧
        s'.ComputesAll inputs out.2 (BitList.bits (x.umod y)) := by
  refine spec_inv fun hs => ?_
  rw [udivUrem, length_of_bits ha]
  have hrem : s.ComputesAll inputs ((zero w, []) : Bits × Bits).1
      ((List.replicate w false, []) : List Bool × List Bool).1 := computesAll_zero hs w
  have hloop := divide_spec hb (List.rel_reverse ha) hrem List.Forall₂.nil BitList.length_bits
    BitList.divided_nil (by simp)
  have hlen : (BitList.bits x).length = (BitList.bits y).length := by simp
  have hfinal := BitList.divided_divide hlen
  rw [BitList.divide, BitList.length_bits] at hfinal
  have hdivide : ∀ h : y ≠ 0, _ := fun h => BitList.divide_bits (x := x) h
  rw [BitList.divide, BitList.length_bits] at hdivide
  generalize (BitList.bits x).reverse.foldl (BitList.divideStep w (BitList.bits y))
    (List.replicate w false, []) = result at hloop hfinal hdivide
  have hlen₁ := hfinal.length_remainder
  have hlen₂ := hfinal.length_quotient
  rw [BitList.length_bits] at hlen₂
  refine hloop.bind fun state s₁ h₁ _ hstate => ?_
  refine (isZeroWord_spec (ComputesAll.mono hb h₁)).bind fun divisorZero s₂ h₂ hs₂ hzero => ?_
  have h₁₂ := h₁.trans h₂
  have hones : s₂.ComputesAll inputs (ones w) (List.replicate w true) :=
    computesAll_replicate hs₂.computes_true w
  refine (muxBits_spec hzero hones (ComputesAll.mono hstate.2 h₂) (by simp [hlen₂])).bind
    fun quotient s₃ h₃ _ hquotient => ?_
  refine (muxBits_spec (hzero.mono h₃) (ComputesAll.mono ha (h₁₂.trans h₃))
    (ComputesAll.mono hstate.1 (h₂.trans h₃)) (by simp [hlen₁])).bind
    fun remainder s₄ h₄ _ hremainder => ?_
  refine spec_pure fun _ => ⟨ComputesAll.mono ?_ h₄, ?_⟩
  · rw [BitVec.smtUDiv]
    by_cases hy : y = 0
    · rw [if_pos hy, ← BitList.replicate_true]
      rwa [if_pos (by simp [hy])] at hquotient
    · rw [if_neg hy]
      rwa [if_neg (by simpa using hy), hdivide hy] at hquotient
  · by_cases hy : y = 0
    · rw [if_pos (by simp [hy])] at hremainder
      rw [hy]
      simpa using hremainder
    · rwa [if_neg (by simpa using hy), hdivide hy] at hremainder

section Signed

variable (ha : s.ComputesAll inputs a (BitList.bits x))
  (hb : s.ComputesAll inputs b (BitList.bits y)) (hw : 0 < w)

include ha hw

theorem absBits_spec : Spec (absBits a) s fun out s' =>
    s'.ComputesAll inputs out (BitList.bits (if x.msb then -x else x)) := by
  refine spec_last ha (BitList.bits_ne_nil hw) fun sign hsign => ?_
  rw [BitList.sign_bits hw] at hsign
  refine (neg_spec ha).bind fun negX s₁ h₁ _ hneg => ?_
  exact muxWord_spec (hsign.mono h₁) hneg (ComputesAll.mono ha h₁)

include hb

/-- The absolute values are divided. -/
theorem divideAbs_spec {α : Type} {f : Bits → Bits → Bits × Bits → GateM α}
    {Q : α → GateArena → Prop}
    (hf : ∀ absA absB divided s', s ≤ s' →
      s'.ComputesAll inputs divided.1
        (BitList.bits ((if x.msb then -x else x).smtUDiv (if y.msb then -y else y))) →
      s'.ComputesAll inputs divided.2
        (BitList.bits ((if x.msb then -x else x).umod (if y.msb then -y else y))) →
      Spec (f absA absB divided) s' Q) :
    Spec (do let absA ← absBits a
             let absB ← absBits b
             let divided ← udivUrem absA absB
             f absA absB divided) s Q := by
  refine (absBits_spec ha hw).bind fun absA s₁ h₁ _ habsA => ?_
  refine (absBits_spec (ComputesAll.mono hb h₁) hw).bind fun absB s₂ h₂ _ habsB => ?_
  refine (udivUrem_spec (ComputesAll.mono habsA h₂) habsB).bind fun divided s₃ h₃ _ h => ?_
  exact hf absA absB divided s₃ ((h₁.trans h₂).trans h₃) h.1 h.2

theorem sdiv_spec : Spec (sdiv a b) s fun out s' =>
    s'.ComputesAll inputs out (BitList.bits (x.smtSDiv y)) := by
  refine spec_last ha (BitList.bits_ne_nil hw) fun signA hsignA => ?_
  refine spec_last hb (BitList.bits_ne_nil hw) fun signB hsignB => ?_
  rw [BitList.sign_bits hw] at hsignA hsignB
  refine divideAbs_spec ha hb hw fun absA absB divided s₁ h₁ hq _ => ?_
  refine (neg_spec hq).bind fun negQ s₂ h₂ _ hneg => ?_
  have h₁₂ := h₁.trans h₂
  refine (xor_spec (hsignA.mono h₁₂) (hsignB.mono h₁₂)).bind fun differ s₃ h₃ _ hdiffer => ?_
  refine (muxWord_spec hdiffer (ComputesAll.mono hneg h₃)
    (ComputesAll.mono hq (h₂.trans h₃))).mono fun out s' _ _ h => ?_
  rw [BitVec.smtSDiv]
  revert h
  cases x.msb <;> cases y.msb <;> exact id

theorem srem_spec : Spec (srem a b) s fun out s' =>
    s'.ComputesAll inputs out (BitList.bits (x.srem y)) := by
  refine spec_last ha (BitList.bits_ne_nil hw) fun signA hsignA => ?_
  rw [BitList.sign_bits hw] at hsignA
  refine divideAbs_spec ha hb hw fun absA absB divided s₁ h₁ _ hr => ?_
  refine (neg_spec hr).bind fun negR s₂ h₂ _ hneg => ?_
  refine (muxWord_spec (hsignA.mono (h₁.trans h₂)) hneg (ComputesAll.mono hr h₂)).mono
    fun out s' _ _ h => ?_
  rw [BitVec.srem]
  revert h
  cases x.msb <;> cases y.msb <;> exact id

theorem smod_spec : Spec (smod a b) s fun out s' =>
    s'.ComputesAll inputs out (BitList.bits (x.smod y)) := by
  refine spec_last ha (BitList.bits_ne_nil hw) fun signA hsignA => ?_
  refine spec_last hb (BitList.bits_ne_nil hw) fun signB hsignB => ?_
  rw [BitList.sign_bits hw] at hsignA hsignB
  refine divideAbs_spec ha hb hw fun absA absB divided s₁ h₁ _ hu => ?_
  have hsmod := Eval.smod_eq x y
  dsimp only at hsmod
  generalize (if x.msb then -x else x).umod (if y.msb then -y else y) = u at hu hsmod
  refine (isZeroWord_spec hu).bind fun uZero s₂ h₂ _ huZero => ?_
  refine (neg_spec (ComputesAll.mono hu h₂)).bind fun negU s₃ h₃ _ hnegU => ?_
  have hb₃ := ComputesAll.mono hb ((h₁.trans h₂).trans h₃)
  have hu₃ := ComputesAll.mono hu (h₂.trans h₃)
  refine (subWord_spec hb₃ hu₃).bind fun bMinusU s₄ h₄ _ hminus => ?_
  refine (addWord_spec (ComputesAll.mono hb₃ h₄) (ComputesAll.mono hu₃ h₄)).bind
    fun bPlusU s₅ h₅ _ hplus => ?_
  have h₃₅ := h₄.trans h₅
  have h₁₅ := ((h₁.trans h₂).trans h₃).trans h₃₅
  refine (muxWord_spec (hsignA.mono h₁₅) (ComputesAll.mono hminus h₅)
    (ComputesAll.mono hu₃ h₃₅)).bind fun nonneg s₆ h₆ _ hnonneg => ?_
  refine (muxWord_spec (hsignA.mono (h₁₅.trans h₆)) (ComputesAll.mono hnegU (h₃₅.trans h₆))
    (ComputesAll.mono hplus h₆)).bind fun whenNeg s₇ h₇ _ hwhenNeg => ?_
  refine (muxWord_spec (hsignB.mono ((h₁₅.trans h₆).trans h₇)) hwhenNeg
    (ComputesAll.mono hnonneg h₇)).bind fun nonzero s₈ h₈ _ hnonzero => ?_
  have h₃₈ := ((h₃₅.trans h₆).trans h₇).trans h₈
  refine (muxWord_spec (huZero.mono (h₃.trans h₃₈)) (ComputesAll.mono hu₃ h₃₈) hnonzero).mono
    fun out s' _ _ h => ?_
  rw [hsmod]
  by_cases hzero : u = 0
  · rw [if_pos hzero]
    rwa [if_pos (by simp [hzero])] at h
  · rw [if_neg hzero]
    rw [if_neg (by simpa using hzero)] at h
    revert h
    cases x.msb <;> cases y.msb <;> exact id

end Signed

end Vectors

/-! ## Every operand and every input -/

/-- The gates are `n` gates of the arena. -/
def IsVector (s : GateArena) (n : Nat) (gates : Bits) : Prop :=
  gates.length = n ∧ ∀ g ∈ gates, g < s.gates.length

/-- The vector that gates spell for given inputs. -/
def word (s : GateArena) (inputs : Nat → Bool) (n : Nat) (gates : Bits) : BitVec n :=
  BitVec.ofNat n (BitList.toNat (gates.map (s.value inputs)))

variable {n : Nat} {out : Bits} {arena : GateArena}

theorem bits_word (h : IsVector s n a) :
    a.map (s.value inputs) = BitList.bits (word s inputs n a) := by
  have hlen : (a.map (s.value inputs)).length = n := by rw [List.length_map, h.1]
  refine BitList.eq_bits hlen ?_
  have hlt := BitList.toNat_lt (a.map (s.value inputs))
  rw [hlen] at hlt
  rw [word, BitVec.toNat_ofNat, Nat.mod_eq_of_lt hlt]

theorem computesAll_word (h : IsVector s n a) :
    s.ComputesAll inputs a (BitList.bits (word s inputs n a)) :=
  bits_word h ▸ computesAll_self h.2

theorem isVector_of_computesAll {x : BitVec n} (h : s.ComputesAll inputs a (BitList.bits x)) :
    IsVector s n a := by
  refine ⟨length_of_bits h, fun g hg => ?_⟩
  obtain ⟨i, hi, rfl⟩ := List.mem_iff_getElem.mp hg
  have hi' : i < (BitList.bits x).length := List.Forall₂.length_eq h ▸ hi
  exact (List.Forall₂.get h hi hi').1

theorem map_value_of_computesAll {ps : List Bool} (h : s.ComputesAll inputs a ps) (hf : s.Fits) :
    a.map (s.value inputs) = ps := by
  induction a generalizing ps with
  | nil =>
    cases h
    rfl
  | cons x a ih =>
    obtain ⟨p, ps, hx, hxs, rfl⟩ := List.forall₂_cons_left_iff.mp h
    rw [List.map_cons, hx.2 hf, ih hxs]

/-- The circuit returns `n` gates, and as long as the arena with its gates fits they spell the
result for every input. -/
def Exact (m : GateM Bits) (arena : GateArena) (n : Nat) (f : (Nat → Bool) → BitVec n) : Prop :=
  ∃ out arena', m.run arena = (ok out, arena') ∧ IsVector arena' n out ∧
    (arena'.gates.length ≤ 2 ^ 32 → ∀ inputs, word arena' inputs n out = f inputs)

theorem exact_of_spec {m : GateM Bits} {f : (Nat → Bool) → BitVec n} (harena : arena.Built)
    (h : ∀ inputs, Spec m arena fun out s' => s'.ComputesAll inputs out (BitList.bits (f inputs))) :
    Exact m arena n f := by
  obtain ⟨out, arena', hrun, -, -, hout⟩ := Spec.run_all h harena.inv
  refine ⟨out, arena', hrun, isVector_of_computesAll (hout fun _ => false), fun hf inputs => ?_⟩
  rw [word, map_value_of_computesAll (hout inputs) hf, BitList.toNat_bits, BitVec.ofNat_toNat,
    BitVec.setWidth_eq]

section Full

open Cnf

variable {inputs : Nat → Bool}

theorem get_inputsArena {n id : Nat} (h : id < n) :
    (inputsArena n).gates[id + 2]? = some (.input id) := by
  simp [inputsArena, h]

theorem value_inputsArena {n id : Nat} (hn : n < 2 ^ 32) (h : id < n) :
    (inputsArena n).value inputs (id + 2) = inputs id := by
  rw [value_of_get (inputsArena_built hn).inv (get_inputsArena h)]
  rfl

/-- A negation that is not there yet. -/
theorem not_run {s : GateArena} {x id : Nat} (hx : 2 ≤ x) (hget : s.gates[x]? = some (.input id))
    (hnew : GateKind.not x ∉ s.gates) :
    (GateArena.not x).run s = (ok (s.gates.length % 2 ^ 32), ⟨s.gates ++ [.not x], s.inputCount⟩) := by
  have hgate : (GateArena.gate x).run s = (ok (.input id), s) := by
    rw [GateArena.gate, Grow.run_read, hget]
    rfl
  rw [GateArena.not, if_neg fun h => absurd (h ▸ hx) (by decide),
    if_neg fun h => absurd (h ▸ hx) (by decide), Grow.run_bind_ok hgate]
  exact addRaw_run hnew

/-- A gate that has just been added is found again. -/
theorem addRaw_again {s : GateArena} {k : GateKind} {count : Nat} (h : k ∉ s.gates) :
    (addRaw k).run ⟨s.gates ++ [k], count⟩ =
      (ok (s.gates.length % 2 ^ 32), ⟨s.gates ++ [k], count⟩) := by
  have hnone : s.gates.findIdx? (· = k) = none := by
    rw [List.findIdx?_eq_none_iff]
    intro c hc
    simpa using fun hck : c = k => h (hck ▸ hc)
  have hfind : (s.gates ++ [k]).findIdx? (· = k) = some s.gates.length := by
    rw [List.findIdx?_append, hnone]
    simp
  simp only [addRaw, hfind]

/-- In a full arena the comparison of the only round finds that the divisor fits, and the remainder
becomes the gate of the second input. -/
theorem udivUrem_run {n : Nat} (hn : n + 2 = 2 ^ 32) :
    ∃ arena', (udivUrem [2] [3]).run (inputsArena n) = (ok ([1], [3]), arena') := by
  let s₁ : GateArena := ⟨(inputsArena n).gates ++ [.not 2], n⟩
  let s₂ : GateArena := ⟨s₁.gates ++ [.xor 2 3], n⟩
  let s₃ : GateArena := ⟨s₂.gates ++ [.not 3], n⟩
  let s₄ : GateArena := ⟨s₃.gates ++ [.mux 2 2 1], n⟩
  have hlen₁ : s₁.gates.length = 2 ^ 32 + 1 := by
    simp only [s₁, List.length_append, length_inputsArena, hn, List.length_singleton]
  have hlen₂ : s₂.gates.length = 2 ^ 32 + 2 := by
    simp only [s₂, List.length_append, hlen₁, List.length_singleton]
  have hlen₃ : s₃.gates.length = 2 ^ 32 + 3 := by
    simp only [s₃, List.length_append, hlen₂, List.length_singleton]
  have hget : s₂.gates[3]? = some (.input 1) := by
    have hlt : 1 < n := by omega
    simp [s₂, s₁, inputsArena, hlt]
  have hget₃ : s₃.gates[3]? = some (.input 1) := by
    rw [List.getElem?_append_left (by omega), hget]
  have hnew₂ : GateKind.not 3 ∉ s₂.gates := by simp [s₂, s₁, inputsArena]
  -- `ule` finds the divisor below the shifted remainder
  have hnot₂ : (GateArena.not 2).run (inputsArena n) = (ok 0, s₁) := by
    rw [not_run le_rfl (get_inputsArena (by omega)) (by simp [inputsArena]), length_inputsArena, hn,
      Nat.mod_self]
    rfl
  have hxor : (GateArena.xor 2 3).run s₁ = (ok 1, s₂) := by
    show (addRaw (.xor 2 3)).run s₁ = _
    rw [addRaw_run (by simp [s₁, inputsArena]), hlen₁]
    rfl
  have hult : (ult [2] [3]).run (inputsArena n) = (ok 0, s₂) := by
    have hless : (GateArena.and 0 3).run s₁ = (ok 0, s₁) := rfl
    have hboth : (GateArena.and 1 0).run s₁ = (ok 0, s₁) := rfl
    have hlt : (GateArena.or 0 0).run s₁ = (ok 0, s₁) := rfl
    have hsame : (GateArena.xnor 2 3).run s₁ = (ok 0, s₂) := by
      rw [GateArena.xnor, Grow.run_bind_ok hxor]
      rfl
    have heq : (GateArena.and 1 0).run s₂ = (ok 0, s₂) := rfl
    have hstep : (ultStep (0, 1) (2, 3)).run (inputsArena n) = (ok (0, 0), s₂) := by
      rw [ultStep, Grow.run_bind_ok hnot₂, Grow.run_bind_ok hless, Grow.run_bind_ok hboth,
        Grow.run_bind_ok hlt, Grow.run_bind_ok hsame, Grow.run_bind_ok heq]
      rfl
    have hloop : ([(2, 3)].foldlM ultStep (0, 1)).run (inputsArena n) = (ok (0, 0), s₂) := by
      rw [List.foldlM_cons, Grow.run_bind_ok hstep]
      rfl
    show (do
      let state ← [(2, 3)].foldlM ultStep (0, 1)
      pure state.1 : GateM GateId).run (inputsArena n) = _
    rw [Grow.run_bind_ok hloop]
    rfl
  have hule : (ule [3] [2]).run (inputsArena n) = (ok 1, s₂) := by
    rw [ule, Grow.run_bind_ok hult]
    rfl
  -- the difference, whose gates have ids of earlier ones
  have hnot₃ : (GateArena.not 3).run s₂ = (ok 2, s₃) := by
    rw [not_run (by decide) hget hnew₂, hlen₂]
    rfl
  have hsub : (sub [2] [3]).run s₂ = (ok [1], s₃) := by
    have hbits : (bitwiseNot [3]).run s₂ = (ok [2], s₃) := by
      rw [bitwiseNot, List.mapM_cons, Grow.run_bind_ok hnot₃]
      rfl
    rw [sub, Grow.run_bind_ok hbits]
    rfl
  have hstep : (divideStep 1 [3] ([0], []) 2).run (inputsArena n) = (ok ([1], [1]), s₃) := by
    show (do
      let ge ← ule [3] [2]
      let diff ← sub [2] [3]
      let rem ← muxBits ge diff [2]
      pure (rem, [ge]) : GateM (Bits × Bits)).run (inputsArena n) = _
    rw [Grow.run_bind_ok hule, Grow.run_bind_ok hsub]
    rfl
  have hzero : (isZero [3]).run s₃ = (ok 2, s₃) := by
    have hany : (orMany [3]).run s₃ = (ok 3, s₃) := rfl
    have hgate : (GateArena.gate 3).run s₃ = (ok (.input 1), s₃) := by
      rw [GateArena.gate, Grow.run_read, hget₃]
      rfl
    rw [isZero, Grow.run_bind_ok hany, GateArena.not, if_neg (by decide), if_neg (by decide),
      Grow.run_bind_ok hgate]
    show (addRaw (.not 3)).run s₃ = _
    rw [addRaw_again hnew₂, hlen₂]
    rfl
  have hmux : (muxBits 2 [2] [1]).run s₃ = (ok [3], s₄) := by
    have hadd : (mux 2 2 1).run s₃ = (ok 3, s₄) := by
      show (addRaw (.mux 2 2 1)).run s₃ = _
      rw [addRaw_run (by simp [s₃, s₂, s₁, inputsArena]), hlen₃]
      rfl
    show (do
      let out ← mux 2 2 1
      pure [out] : GateM Bits).run s₃ = _
    rw [Grow.run_bind_ok hadd]
    rfl
  have hloop : ([2].foldlM (divideStep 1 [3]) ([0], [])).run (inputsArena n) =
      (ok ([1], [1]), s₃) := by
    rw [List.foldlM_cons, Grow.run_bind_ok hstep]
    rfl
  refine ⟨s₄, ?_⟩
  show (do
    let state ← [2].foldlM (divideStep 1 [3]) ([0], [])
    let divisorZero ← isZero [3]
    let quotient ← muxBits divisorZero [1] state.2
    let remainder ← muxBits divisorZero [2] state.1
    pure (quotient, remainder) : GateM (Bits × Bits)).run (inputsArena n) = _
  rw [Grow.run_bind_ok hloop, Grow.run_bind_ok hzero]
  show (do
    let remainder ← muxBits 2 [2] [1]
    pure ([1], remainder) : GateM (Bits × Bits)).run s₃ = _
  rw [Grow.run_bind_ok hmux]
  rfl

end Full

end Circuits
end Qfbv
end SmtServer
