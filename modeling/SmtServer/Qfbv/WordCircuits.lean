import SmtServer.Qfbv.ArithmeticCircuits

/-!
# `circuits.rs` — bits, shifts and parts

What is left of the circuits: the operations that work place by place, the signed comparisons, the
three shifters and the functions that only move wires. A shifter has one stage for each bit of the
amount, and the stage's multiplexers take the vector as it is or moved by the stage's power of two;
what makes that a shift is that moves add up, and that none goes further than past the last bit
(`Moves`).
-/

namespace SmtServer
namespace Qfbv

open Lib Outcome

namespace Circuits

open GateArena

/-! ## Place by place -/

def bitwiseBinary (a b : Bits) (f : GateId → GateId → GateM GateId) : GateM Bits :=
  (a.zip b).mapM fun pair => f pair.1 pair.2

def bvAnd (a b : Bits) : GateM Bits := bitwiseBinary a b and

def bvOr (a b : Bits) : GateM Bits := bitwiseBinary a b or

def bvXor (a b : Bits) : GateM Bits := bitwiseBinary a b xor

/-! ## Signed order -/

def slt (a b : Bits) : GateM GateId := do
  let signA ← last a
  let signB ← last b
  let signsDiffer ← xor signA signB
  let unsignedLt ← ult a b
  mux signsDiffer signA unsignedLt

def sle (a b : Bits) : GateM GateId := do
  let bLtA ← slt b a
  GateArena.not bLtA

/-! ## Shifts -/

/-- `1usize.checked_shl(stage as u32).unwrap_or(usize::MAX)`, where a `usize` has 64 bits. -/
def stageShift (stage : Nat) : Nat :=
  let stage := stage % 2 ^ 32
  if stage < 64 then 2 ^ stage else 2 ^ 64 - 1

/-- One stage: a gate of the amount chooses between the vector so far and the vector moved. -/
def shiftStage (move : Nat → Bits → GateM Bits) (out : Bits) (sel : GateId × Nat) : GateM Bits := do
  let shifted ← move (stageShift sel.2) out
  muxBits sel.1 shifted out

/-- The loop of the three shifters over the gates of the amount. -/
def shiftBy (move : Nat → Bits → GateM Bits) (value amount : Bits) : GateM Bits :=
  amount.zipIdx.foldlM (shiftStage move) value

/-- `vec![fill; n]` with `shifted[shift..n]` copied from `out[..(n - shift)]`. -/
def moveUp (n : Nat) (shift : Nat) (out : Bits) : GateM Bits :=
  pure (if shift < n then zero shift ++ out.take (n - shift) else zero n)

/-- `vec![fill; n]` with `shifted[..(n - shift)]` copied from `out[shift..n]`. -/
def moveDown (n : Nat) (fill : GateId) (shift : Nat) (out : Bits) : Bits :=
  if shift < n then out.drop shift ++ List.replicate shift fill else List.replicate n fill

def shl (value amount : Bits) : GateM Bits := shiftBy (moveUp value.length) value amount

def lshr (value amount : Bits) : GateM Bits :=
  shiftBy (fun shift out => pure (moveDown value.length falseGate shift out)) value amount

/-- Every stage reads the sign again, from the vector so far. -/
def ashr (value amount : Bits) : GateM Bits :=
  shiftBy (fun shift out => do
    let sign ← last out
    pure (moveDown value.length sign shift out)) value amount

/-! ## Wires -/

def concat (high low : Bits) : Bits := low ++ high

/-- `value[low as usize..=high as usize]`. -/
def extract (value : Bits) (high low : Nat) : GateM Bits :=
  Grow.lift (slice value low (high + 1))

def zext (value : Bits) (extra : Nat) : Bits := value ++ zero extra

def repeated (value : Bits) (count : Nat) : Bits := (List.replicate count value).flatten

/-- `amount as usize % n` panics for an empty vector. -/
def rotate (value : Bits) (source : (n i : Nat) → Nat) : GateM Bits :=
  let n := value.length
  Grow.lift <|
    if n = 0 then panic
    else (List.range n).mapM fun i => expect value[source n i % n]?

def rotateLeft (value : Bits) (amount : Nat) : GateM Bits :=
  rotate value fun n i => i + n - amount % n

def rotateRight (value : Bits) (amount : Nat) : GateM Bits :=
  rotate value fun n i => i + amount % n

/-! ## A vector bit by bit -/

variable {s s' : GateArena} {inputs : Nat → Bool} {g : GateId} {p q r : Bool} {a b : Bits}
  {ps qs : List Bool} {w v : Nat} {x y : BitVec w} {i : Nat}

theorem getElem?_bits (hi : i < w) : (BitList.bits x)[i]? = some (x.getLsbD i) := by
  simp [BitList.bits, BitList.ofNat, hi, BitVec.testBit_toNat]

/-- The bits of a vector, in order. -/
theorem bits_eq_map : BitList.bits x = (List.range w).map x.getLsbD :=
  List.map_congr_left fun _ _ => BitVec.testBit_toNat x

/-- Gates compute a vector when each computes its bit. -/
theorem computesAll_of_bits (hlen : a.length = w)
    (h : ∀ i g, i < w → a[i]? = some g → s.Computes inputs g (x.getLsbD i)) :
    s.ComputesAll inputs a (BitList.bits x) := by
  refine List.forall₂_iff_get.mpr ⟨by rw [hlen, BitList.length_bits], fun i h₁ h₂ => ?_⟩
  have hi : i < w := hlen ▸ h₁
  have hbit : (BitList.bits x).get ⟨i, h₂⟩ = x.getLsbD i := by
    have := getElem?_bits (x := x) hi
    rwa [List.getElem?_eq_getElem h₂, Option.some_inj] at this
  rw [hbit]
  exact h i _ hi (List.getElem?_eq_getElem h₁)

theorem computes_of_getElem? (ha : s.ComputesAll inputs a (BitList.bits x)) (h : a[i]? = some g) :
    s.Computes inputs g (x.getLsbD i) := by
  obtain ⟨h₁, rfl⟩ := List.getElem?_eq_some_iff.mp h
  have hi : i < w := length_of_bits ha ▸ h₁
  have h₂ : i < (BitList.bits x).length := by rwa [BitList.length_bits]
  have hget := List.Forall₂.get ha h₁ h₂
  have hbit := getElem?_bits (x := x) hi
  rw [List.getElem?_eq_getElem h₂, Option.some_inj] at hbit
  rwa [List.get_eq_getElem, List.get_eq_getElem, hbit] at hget

/-! ## What they compute -/

section Vectors

variable (ha : s.ComputesAll inputs a (BitList.bits x)) (hb : s.ComputesAll inputs b (BitList.bits y))

include ha

theorem bitwiseNotWord_spec :
    Spec (bitwiseNot a) s fun out s' => s'.ComputesAll inputs out (BitList.bits (~~~x)) := by
  refine (bitwiseNot_spec ha).mono fun out s' _ _ h => ?_
  have hbits : (BitList.bits x).map (!·) = BitList.bits (~~~x) := by
    rw [bits_eq_map, bits_eq_map, List.map_map]
    refine List.map_congr_left fun i hi => ?_
    simp [List.mem_range.mp hi]
  rwa [hbits] at h

include hb

theorem bitwiseBinary_spec {f : GateId → GateId → GateM GateId} {op : Bool → Bool → Bool}
    {z : BitVec w}
    (hf : ∀ {s : GateArena} {x y : GateId} {p q : Bool}, s.Computes inputs x p →
      s.Computes inputs y q → Spec (f x y) s fun g s' => s'.Computes inputs g (op p q))
    (hz : ∀ i, z.getLsbD i = op (x.getLsbD i) (y.getLsbD i)) :
    Spec (bitwiseBinary a b f) s fun out s' => s'.ComputesAll inputs out (BitList.bits z) := by
  have hbits : List.zipWith op (BitList.bits x) (BitList.bits y) = BitList.bits z := by
    rw [bits_eq_map, bits_eq_map, bits_eq_map, List.zipWith_map, List.zipWith_self]
    exact List.map_congr_left fun i _ => (hz i).symm
  rw [← hbits]
  exact zip_spec (fun _ _ _ _ _ _ hx hy => hf hx hy) ha hb

theorem bvAnd_spec :
    Spec (bvAnd a b) s fun out s' => s'.ComputesAll inputs out (BitList.bits (x &&& y)) :=
  bitwiseBinary_spec ha hb (fun hx hy => and_spec hx hy) fun _ => BitVec.getLsbD_and

theorem bvOr_spec :
    Spec (bvOr a b) s fun out s' => s'.ComputesAll inputs out (BitList.bits (x ||| y)) :=
  bitwiseBinary_spec ha hb (fun hx hy => or_spec hx hy) fun _ => BitVec.getLsbD_or

theorem bvXor_spec :
    Spec (bvXor a b) s fun out s' => s'.ComputesAll inputs out (BitList.bits (x ^^^ y)) :=
  bitwiseBinary_spec ha hb (fun hx hy => xor_spec hx hy) fun _ => BitVec.getLsbD_xor

theorem eqWord_spec : Spec (eqBits a b) s fun g s' => s'.Computes inputs g (x == y) := by
  refine (eqBits_spec ha hb (by simp)).mono fun g s' _ _ h => h.congr fun _ => ?_
  rw [Bool.eq_iff_iff, beq_iff_eq, beq_iff_eq, BitList.bits_inj]

theorem ultWord_spec : Spec (ult a b) s fun g s' => s'.Computes inputs g (x.ult y) := by
  refine (ult_spec ha hb (by simp)).mono fun g s' _ _ h => h.congr fun _ => ?_
  rw [BitList.toNat_bits, BitList.toNat_bits]
  rfl

theorem uleWord_spec : Spec (ule a b) s fun g s' => s'.Computes inputs g (x.ule y) := by
  refine (ule_spec ha hb (by simp)).mono fun g s' _ _ h => h.congr fun _ => ?_
  rw [BitList.toNat_bits, BitList.toNat_bits]
  rfl

/-- Vectors of different signs compare by sign, others as numbers. -/
theorem slt_spec (hw : 0 < w) : Spec (slt a b) s fun g s' => s'.Computes inputs g (x.slt y) := by
  refine spec_last ha (BitList.bits_ne_nil hw) fun signA hsa => ?_
  refine spec_last hb (BitList.bits_ne_nil hw) fun signB hsb => ?_
  rw [BitList.sign_bits hw] at hsa hsb
  refine (xor_spec hsa hsb).bind fun differ s₁ h₁ _ hdiffer => ?_
  refine (ultWord_spec (ComputesAll.mono ha h₁) (ComputesAll.mono hb h₁)).bind
    fun less s₂ h₂ _ hless => ?_
  refine (mux_spec (hsa.mono (h₁.trans h₂)) hless (hdiffer.mono h₂)).mono
    fun g s' _ _ h => h.congr fun _ => ?_
  by_cases hmsb : x.msb = y.msb
  · rw [hmsb, Bool.xor_self, BitVec.slt_eq_ult_of_msb_eq hmsb]
    rfl
  · rw [BitVec.slt_eq_not_ult_of_msb_neq hmsb, BitVec.ult_eq_msb_of_msb_neq hmsb]
    revert hmsb
    cases x.msb <;> cases y.msb <;> simp

end Vectors

theorem sle_spec (ha : s.ComputesAll inputs a (BitList.bits x))
    (hb : s.ComputesAll inputs b (BitList.bits y)) (hw : 0 < w) :
    Spec (sle a b) s fun g s' => s'.Computes inputs g (x.sle y) := by
  refine (slt_spec hb ha hw).bind fun less s' _ _ h => ?_
  refine (not_spec h).mono fun g s'' _ _ h => h.congr fun _ => ?_
  rw [BitVec.sle_eq_not_slt]

/-! ## Shifters -/

/-- A family of moves of a vector: moving by a sum is moving twice, and from the width on there is
nothing left to move. -/
structure Moves (act : Nat → BitVec w → BitVec w) : Prop where
  zero : ∀ x, act 0 x = x
  add : ∀ m n x, act (m + n) x = act n (act m x)
  saturate : ∀ {n}, w ≤ n → ∀ x, act n x = act w x

/-- The shift of a stage that is too high for a `usize` moves everything out, as it should. -/
theorem Moves.stage {act : Nat → BitVec w → BitVec w} (h : Moves act) (hw : w ≤ 2 ^ 32)
    {stage : Nat} (hstage : stage < w) (x : BitVec w) :
    act (stageShift stage) x = act (2 ^ stage) x := by
  rw [stageShift, Nat.mod_eq_of_lt (hstage.trans_le hw)]
  by_cases hlt : stage < 64
  · rw [if_pos hlt]
  · have hpow : w ≤ 2 ^ stage :=
      hw.trans (Nat.pow_le_pow_right (by omega) (by omega))
    rw [if_neg hlt, h.saturate (by omega), h.saturate hpow]

/-- The low bits of a number, and the next one. -/
theorem toNat_mod_succ (y : BitVec w) (k : Nat) :
    y.toNat % 2 ^ (k + 1) = y.toNat % 2 ^ k + 2 ^ k * (y.getLsbD k).toNat := by
  rw [Nat.mod_pow_succ, ← BitVec.testBit_toNat, Nat.toNat_testBit]

/-- **A stage for each bit of the amount shifts by the amount.** -/
theorem shiftFrom_spec {move : Nat → Bits → GateM Bits} {act : Nat → BitVec w → BitVec w}
    (hact : Moves act) (hw : w ≤ 2 ^ 32)
    (hmove : ∀ {s : GateArena} {k : Nat} {out : Bits} {z : BitVec w},
      s.ComputesAll inputs out (BitList.bits z) → Spec (move k out) s fun out s' =>
        s'.ComputesAll inputs out (BitList.bits (act k z)))
    {y : BitVec v} (hv : v ≤ w) {k : Nat} (hk : k + b.length = v)
    (ha : s.ComputesAll inputs a (BitList.bits (act (y.toNat % 2 ^ k) x)))
    (hb : ∀ i g, b[i]? = some g → s.Computes inputs g (y.getLsbD (k + i))) :
    Spec ((b.zipIdx k).foldlM (shiftStage move) a) s fun out s' =>
      s'.ComputesAll inputs out (BitList.bits (act y.toNat x)) := by
  induction b generalizing s a k with
  | nil =>
    have hmod : y.toNat % 2 ^ k = y.toNat :=
      Nat.mod_eq_of_lt (by rw [show k = v from hk]; exact y.isLt)
    rw [hmod] at ha
    exact spec_pure fun _ => ha
  | cons sel b ih =>
    rw [List.length_cons] at hk
    rw [List.zipIdx_cons, List.foldlM_cons, shiftStage]
    refine Spec.bind (P := fun out s' =>
      s'.ComputesAll inputs out (BitList.bits (act (y.toNat % 2 ^ (k + 1)) x))) ?_ ?_
    · refine (hmove ha).bind fun shifted s₁ h₁ _ hshifted => ?_
      refine (muxWord_spec ((hb 0 sel rfl).mono h₁) hshifted (ComputesAll.mono ha h₁)).mono
        fun out s₂ _ _ h => ?_
      rw [hact.stage hw (by omega), Nat.add_zero] at h
      rw [toNat_mod_succ]
      cases hbit : y.getLsbD k with
      | true =>
        rw [hbit, if_pos rfl, ← hact.add] at h
        rwa [Bool.toNat_true, Nat.mul_one]
      | false =>
        rw [hbit] at h
        exact h
    · intro out s' hle _ hout
      refine ih (by omega) hout fun i g hg => ?_
      rw [Nat.add_assoc, Nat.add_comm 1]
      exact (hb (i + 1) g hg).mono hle

theorem shiftBy_spec {move : Nat → Bits → GateM Bits} {act : Nat → BitVec w → BitVec w}
    (hact : Moves act) (hw : w ≤ 2 ^ 32)
    (hmove : ∀ {s : GateArena} {k : Nat} {out : Bits} {z : BitVec w},
      s.ComputesAll inputs out (BitList.bits z) → Spec (move k out) s fun out s' =>
        s'.ComputesAll inputs out (BitList.bits (act k z)))
    (ha : s.ComputesAll inputs a (BitList.bits x))
    (hb : s.ComputesAll inputs b (BitList.bits y)) :
    Spec (shiftBy move a b) s fun out s' =>
      s'.ComputesAll inputs out (BitList.bits (act y.toNat x)) := by
  refine shiftFrom_spec hact hw hmove le_rfl (by rw [Nat.zero_add, length_of_bits hb]) ?_ ?_
  · rwa [Nat.pow_zero, Nat.mod_one, hact.zero]
  · intro i g hg
    rw [Nat.zero_add]
    exact computes_of_getElem? hb hg

theorem moves_shiftLeft : Moves fun n (x : BitVec w) => x <<< n where
  zero := BitVec.shiftLeft_zero
  add m n x := BitVec.shiftLeft_add x m n
  saturate {n} hn x := by
    rw [BitVec.shiftLeft_eq_zero hn, BitVec.shiftLeft_eq_zero le_rfl]

theorem moves_ushiftRight : Moves fun n (x : BitVec w) => x >>> n where
  zero := BitVec.ushiftRight_zero
  add m n x := BitVec.shiftRight_add x m n
  saturate {n} hn x := by
    rw [BitVec.ushiftRight_eq_zero hn, BitVec.ushiftRight_eq_zero le_rfl]

theorem moves_sshiftRight : Moves fun n (x : BitVec w) => x.sshiftRight n where
  zero x := BitVec.sshiftRight_zero
  add m n x := BitVec.sshiftRight_add
  saturate {n} hn x := by
    refine BitVec.eq_of_getLsbD_eq fun i hi => ?_
    rw [BitVec.getLsbD_sshiftRight, BitVec.getLsbD_sshiftRight, if_neg (by omega), if_neg (by omega)]

theorem moveUp_spec {z : BitVec w} {out : Bits} {k : Nat}
    (h : s.ComputesAll inputs out (BitList.bits z)) : Spec (moveUp w k out) s fun out s' =>
      s'.ComputesAll inputs out (BitList.bits (z <<< k)) := by
  rw [moveUp]
  refine spec_pure fun hs => ?_
  by_cases hk : k < w
  · rw [if_pos hk, BitList.bits_shiftLeft hk.le]
    exact List.rel_append (computesAll_zero hs k) (List.forall₂_take _ h)
  · rw [if_neg hk, BitVec.shiftLeft_eq_zero (by omega)]
    exact computesAll_zeroWord hs w

theorem moveDown_spec {z u : BitVec w} {out : Bits} {k : Nat} {fill : GateId}
    (h : s.ComputesAll inputs out (BitList.bits z)) (hfill : s.Computes inputs fill p)
    (hu : ∀ i, i < w → u.getLsbD i = if k + i < w then z.getLsbD (k + i) else p) :
    s.ComputesAll inputs (moveDown w fill k out) (BitList.bits u) := by
  have hlen := length_of_bits h
  rw [moveDown]
  by_cases hk : k < w
  · rw [if_pos hk]
    refine computesAll_of_bits (by simp [hlen, hk.le]) fun i g hi hg => ?_
    rw [hu i hi]
    by_cases hlt : k + i < w
    · rw [if_pos hlt]
      rw [List.getElem?_append_left (by simp; omega), List.getElem?_drop] at hg
      exact computes_of_getElem? h hg
    · rw [if_neg hlt]
      rw [List.getElem?_append_right (by simp; omega)] at hg
      rwa [List.eq_of_mem_replicate (List.mem_of_getElem? hg)]
  · rw [if_neg hk]
    refine computesAll_of_bits (by simp) fun i g hi hg => ?_
    rw [hu i hi, if_neg (by omega)]
    rwa [List.eq_of_mem_replicate (List.mem_of_getElem? hg)]

theorem lshrMove_spec {z : BitVec w} {out : Bits} {k : Nat}
    (h : s.ComputesAll inputs out (BitList.bits z)) :
    Spec (pure (moveDown w falseGate k out)) s fun out s' =>
      s'.ComputesAll inputs out (BitList.bits (z >>> k)) := by
  refine spec_pure fun hs => moveDown_spec h hs.computes_false fun i hi => ?_
  rw [BitVec.getLsbD_ushiftRight]
  split
  · rfl
  · exact BitVec.getLsbD_of_ge _ _ (by omega)

theorem ashrMove_spec (hpos : 0 < w) {z : BitVec w} {out : Bits} {k : Nat}
    (h : s.ComputesAll inputs out (BitList.bits z)) :
    Spec (last out >>= fun sign => pure (moveDown w sign k out)) s fun out s' =>
      s'.ComputesAll inputs out (BitList.bits (z.sshiftRight k)) := by
  refine spec_last h (BitList.bits_ne_nil hpos) fun sign hsign => spec_pure fun _ => ?_
  rw [BitList.sign_bits hpos] at hsign
  refine moveDown_spec h hsign fun i hi => ?_
  rw [BitVec.getLsbD_sshiftRight, decide_eq_false (by omega), Bool.not_false, Bool.true_and]

section Shifts

variable (ha : s.ComputesAll inputs a (BitList.bits x)) (hb : s.ComputesAll inputs b (BitList.bits y))
  (hw : w ≤ 2 ^ 32)

include ha hb hw

theorem shl_spec :
    Spec (shl a b) s fun out s' => s'.ComputesAll inputs out (BitList.bits (x <<< y)) := by
  rw [shl, length_of_bits ha]
  have h := shiftBy_spec moves_shiftLeft hw moveUp_spec ha hb
  exact h

theorem lshr_spec :
    Spec (lshr a b) s fun out s' => s'.ComputesAll inputs out (BitList.bits (x >>> y)) := by
  rw [lshr, length_of_bits ha]
  have h := shiftBy_spec moves_ushiftRight hw lshrMove_spec ha hb
  exact h

theorem ashr_spec (hpos : 0 < w) : Spec (ashr a b) s fun out s' =>
    s'.ComputesAll inputs out (BitList.bits (x.sshiftRight' y)) := by
  rw [ashr, length_of_bits ha]
  have h := shiftBy_spec moves_sshiftRight hw (ashrMove_spec hpos) ha hb
  exact h

end Shifts

/-! ## Wires -/

theorem concat_spec {y : BitVec v} (ha : s.ComputesAll inputs a (BitList.bits x))
    (hb : s.ComputesAll inputs b (BitList.bits y)) :
    s.ComputesAll inputs (concat a b) (BitList.bits (x ++ y)) := by
  have hla := length_of_bits ha
  have hlb := length_of_bits hb
  refine computesAll_of_bits (by simp [concat, hla, hlb]; omega) fun i g hi hg => ?_
  rw [BitVec.getLsbD_append]
  rw [concat] at hg
  by_cases hlt : i < v
  · rw [if_pos hlt]
    exact computes_of_getElem? hb (by rwa [List.getElem?_append_left (by omega)] at hg)
  · rw [if_neg hlt]
    exact computes_of_getElem? ha (by rwa [List.getElem?_append_right (by omega), hlb] at hg)

theorem extract_spec (ha : s.ComputesAll inputs a (BitList.bits x)) {high low : Nat}
    (hle : low ≤ high) (hlt : high < w) : Spec (extract a high low) s fun out s' =>
      s'.ComputesAll inputs out (BitList.bits (x.extractLsb high low)) := by
  have hlen := length_of_bits ha
  have hslice : (slice a low (high + 1) : Result Bits) =
      ok ((a.drop low).take (high + 1 - low)) := slice_of_le (by omega) (by omega)
  have hcomputes : s.ComputesAll inputs ((a.drop low).take (high + 1 - low))
      (BitList.bits (x.extractLsb high low)) := by
    refine computesAll_of_bits (by simp; omega) fun i g hi hg => ?_
    rw [List.getElem?_take_of_lt (by omega), List.getElem?_drop] at hg
    rw [BitVec.getLsbD_extractLsb, decide_eq_true (by omega), Bool.true_and]
    exact computes_of_getElem? ha hg
  intro hs
  exact Grow.wp_read hslice fun _ => ⟨hs, hcomputes⟩

theorem zext_spec (hs : s.Inv) (ha : s.ComputesAll inputs a (BitList.bits x)) (extra : Nat) :
    s.ComputesAll inputs (zext a extra) (BitList.bits (x.setWidth (w + extra))) := by
  rw [BitList.bits_setWidth (by omega), show w + extra - w = extra by omega]
  exact List.rel_append ha (computesAll_zero hs extra)

theorem sextWord_spec (ha : s.ComputesAll inputs a (BitList.bits x)) (hw : 0 < w) (extra : Nat) :
    Spec (sext a extra) s fun out s' =>
      s'.ComputesAll inputs out (BitList.bits (x.signExtend (w + extra))) := by
  rw [← BitList.signExtend_bits hw]
  exact sext_spec ha (BitList.bits_ne_nil hw) extra

theorem bits_cast (h : w = v) (x : BitVec w) : BitList.bits (x.cast h) = BitList.bits x := by
  subst h
  rfl

theorem repeated_spec (ha : s.ComputesAll inputs a (BitList.bits x)) (count : Nat) :
    s.ComputesAll inputs (repeated a count) (BitList.bits (x.replicate count)) := by
  induction count with
  | zero => exact .nil
  | succ count ih =>
    rw [BitVec.replicate_succ, bits_cast, repeated, List.replicate_succ', List.flatten_append,
      List.flatten_singleton]
    exact concat_spec ha ih

theorem rotate_spec {source : (n i : Nat) → Nat} {z : BitVec w} (hw : 0 < w)
    (ha : s.ComputesAll inputs a (BitList.bits x))
    (hz : ∀ i, i < w → z.getLsbD i = x.getLsbD (source w i % w)) :
    Spec (rotate a source) s fun out s' => s'.ComputesAll inputs out (BitList.bits z) := by
  have hlen := length_of_bits ha
  have hget : ∀ i, a[source w i % w]? = some (a.getD (source w i % w) falseGate) := by
    intro i
    have hlt : source w i % w < a.length := by
      rw [hlen]
      exact Nat.mod_lt _ hw
    rw [List.getElem?_eq_getElem hlt, List.getD_eq_getElem _ _ hlt]
  have hmap : ((List.range w).mapM fun i => (expect a[source w i % w]? : Result GateId)) =
      ok ((List.range w).map fun i => a.getD (source w i % w) falseGate) := by
    simp only [hget, expect_some, ← pure_eq, List.mapM_pure]
  rw [rotate, hlen, if_neg hw.ne', hmap]
  refine spec_pure fun _ => ?_
  refine computesAll_of_bits (by simp) fun i g hi hg => ?_
  rw [List.getElem?_map, List.getElem?_range hi, Option.map_some, Option.some_inj] at hg
  rw [hz i hi, ← hg]
  exact computes_of_getElem? ha (hget i)

theorem rotateLeft_spec (hw : 0 < w) (ha : s.ComputesAll inputs a (BitList.bits x))
    (amount : Nat) : Spec (rotateLeft a amount) s fun out s' =>
      s'.ComputesAll inputs out (BitList.bits (x.rotateLeft amount)) := by
  refine rotate_spec hw ha fun i hi => ?_
  have hlt := Nat.mod_lt amount hw
  rw [BitVec.getLsbD_rotateLeft]
  by_cases hle : i < amount % w
  · have hsource : (i + w - amount % w) % w = w - amount % w + i := by
      rw [Nat.mod_eq_of_lt (by omega)]
      omega
    rw [decide_eq_true hle, cond_true, hsource]
  · have hsource : (i + w - amount % w) % w = i - amount % w := by
      rw [show i + w - amount % w = i - amount % w + w by omega, Nat.add_mod_right,
        Nat.mod_eq_of_lt (by omega)]
    rw [decide_eq_false hle, cond_false, decide_eq_true hi, Bool.true_and, hsource]

theorem rotateRight_spec (hw : 0 < w) (ha : s.ComputesAll inputs a (BitList.bits x))
    (amount : Nat) : Spec (rotateRight a amount) s fun out s' =>
      s'.ComputesAll inputs out (BitList.bits (x.rotateRight amount)) := by
  refine rotate_spec hw ha fun i hi => ?_
  have hlt := Nat.mod_lt amount hw
  rw [BitVec.getLsbD_rotateRight]
  by_cases hle : i < w - amount % w
  · have hsource : (i + amount % w) % w = amount % w + i := by
      rw [Nat.add_comm]
      exact Nat.mod_eq_of_lt (by omega)
    rw [decide_eq_true hle, cond_true, hsource]
  · have hsource : (i + amount % w) % w = i - (w - amount % w) := by
      rw [show i + amount % w = i - (w - amount % w) + w by omega, Nat.add_mod_right]
      exact Nat.mod_eq_of_lt (by omega)
    rw [decide_eq_false hle, cond_false, decide_eq_true hi, Bool.true_and, hsource]

end Circuits
end Qfbv
end SmtServer
