import SmtServer.Lib.BitList
import SmtServer.Lib.Overflow
import SmtServer.Qfbv.Gates

/-!
# `circuits.rs` — bit-vector circuits

A vector is the list of its gates, **least significant first**. A circuit is built from the gates of
its operands, and what it computes is the operation on bit strings of `Lib.BitList` on the bits its
operands compute. The circuits here are those of the overflow predicates and what these are made of.
-/

namespace SmtServer
namespace Qfbv

open Lib Outcome

abbrev Bits := List GateId

namespace Circuits

open GateArena

def zero (width : Nat) : Bits := List.replicate width falseGate

def bitwiseNot (x : Bits) : GateM Bits := x.mapM GateArena.not

/-- The loop over the pairs of bits, with the carry so far. -/
def addWithCarry : Bits → Bits → GateId → GateM (Bits × GateId)
  | x :: a, y :: b, carry => do
    let axb ← xor x y
    let sum ← xor axb carry
    let xy ← and x y
    let cAndAxb ← and carry axb
    let carry ← or xy cAndAxb
    let rest ← addWithCarry a b carry
    pure (sum :: rest.1, rest.2)
  | _, _, carry => pure ([], carry)

def add (a b : Bits) : GateM Bits := do
  let sum ← addWithCarry a b falseGate
  pure sum.1

def sub (a b : Bits) : GateM Bits := do
  let notB ← bitwiseNot b
  let sum ← addWithCarry a notB trueGate
  pure sum.1

/-- The inner loop of `mul_width`: bit `i` of the first factor goes to place `i + shift`. -/
def partialProduct (width shift : Nat) (sel : GateId) : Nat → Bits → Bits → GateM Bits
  | _, out, [] => pure out
  | i, out, abit :: a =>
    if i + shift < width then do
      let bit ← and abit sel
      partialProduct width shift sel (i + 1) (out.set (i + shift) bit) a
    else partialProduct width shift sel (i + 1) out a

/-- The outer loop of `mul_width`, over the bits of the second factor from bit `shift` on. -/
def mulWidthFrom (width : Nat) (a : Bits) : Nat → Bits → Bits → GateM Bits
  | _, acc, [] => pure acc
  | shift, acc, sel :: b => do
    let product ← partialProduct width shift sel 0 (zero width) a
    let acc ← add acc product
    mulWidthFrom width a (shift + 1) acc b

def mulWidth (a b : Bits) (width : Nat) : GateM Bits := mulWidthFrom width a 0 (zero width) b

def eqBits (a b : Bits) : GateM GateId := do
  let same ← (a.zip b).mapM fun pair => xnor pair.1 pair.2
  andMany same

/-- One round of `ult`: whether the bits seen so far are less, and whether they are equal. -/
def ultStep (state : GateId × GateId) (pair : GateId × GateId) : GateM (GateId × GateId) := do
  let notX ← GateArena.not pair.1
  let less ← and notX pair.2
  let eqAndLess ← and state.2 less
  let lt ← or state.1 eqAndLess
  let same ← xnor pair.1 pair.2
  let eq ← and state.2 same
  pure (lt, eq)

/-- From the most significant bit down. -/
def ult (a b : Bits) : GateM GateId := do
  let state ← (a.zip b).reverse.foldlM ultStep (falseGate, trueGate)
  pure state.1

/-- `*value.last().expect("non-empty bv")`. -/
def last (value : Bits) : GateM GateId := Grow.lift (expect value.getLast?)

def sext (value : Bits) (extra : Nat) : GateM Bits := do
  let sign ← last value
  pure (value ++ List.replicate extra sign)

/-! ## Overflow predicates -/

def uaddOverflow (a b : Bits) : GateM GateId := do
  let sum ← addWithCarry a b falseGate
  pure sum.2

def usubOverflow (a b : Bits) : GateM GateId := ult a b

def saddOverflow (a b : Bits) : GateM GateId := do
  let sum ← add a b
  let sa ← last a
  let sb ← last b
  let ss ← last sum
  let sameAb ← xnor sa sb
  let diffSum ← xor sa ss
  and sameAb diffSum

def ssubOverflow (a b : Bits) : GateM GateId := do
  let diff ← sub a b
  let sa ← last a
  let sb ← last b
  let sd ← last diff
  let diffAb ← xor sa sb
  let diffRes ← xor sa sd
  and diffAb diffRes

def umulOverflow (a b : Bits) : GateM GateId := do
  let n := a.length
  let product ← mulWidth (a ++ zero n) (b ++ zero n) (n * 2)
  orMany (product.drop n)

def smulOverflow (a b : Bits) : GateM GateId := do
  let n := a.length
  let aw ← sext a n
  let bw ← sext b n
  let product ← mulWidth aw bw (n * 2)
  let signExtendedLow ← sext (product.take n) n
  let equal ← eqBits product signExtendedLow
  GateArena.not equal

/-- `min[n - 1] = gates.true_gate()` on a vector of zeros; there is no such place in an empty one. -/
def minBits (n : Nat) : GateM Bits := do
  let _ ← (Grow.lift (expect (zero n)[n - 1]?) : GateM GateId)
  pure ((zero n).set (n - 1) trueGate)

def negOverflow (x : Bits) : GateM GateId := do
  let min ← minBits x.length
  eqBits x min

def sdivOverflow (a b : Bits) : GateM GateId := do
  let n := a.length
  let min ← minBits n
  let minusOne : Bits := List.replicate n trueGate
  let aMin ← eqBits a min
  let bMinusOne ← eqBits b minusOne
  and aMin bMinusOne

/-- The circuit for each predicate. -/
def overflow (a b : Bits) : Overflow → GateM GateId
  | .uadd => uaddOverflow a b
  | .usub => usubOverflow a b
  | .umul => umulOverflow a b
  | .sadd => saddOverflow a b
  | .ssub => ssubOverflow a b
  | .smul => smulOverflow a b
  | .neg => negOverflow a
  | .sdiv => sdivOverflow a b

/-! ## What the circuits compute -/

variable {s s' : GateArena} {inputs : Nat → Bool} {g : GateId} {p q r : Bool} {a b : Bits}
  {ps qs : List Bool}

theorem computesAll_replicate (h : s.Computes inputs g p) (n : Nat) :
    s.ComputesAll inputs (List.replicate n g) (List.replicate n p) := by
  induction n with
  | zero => exact .nil
  | succ n ih => exact .cons h ih

theorem computesAll_set (ha : s.ComputesAll inputs a ps) (hg : s.Computes inputs g p) (i : Nat) :
    s.ComputesAll inputs (a.set i g) (ps.set i p) := by
  induction a generalizing ps i with
  | nil =>
    cases ha
    exact .nil
  | cons x a ih =>
    obtain ⟨q, ps, hx, hxs, rfl⟩ := List.forall₂_cons_left_iff.mp ha
    cases i with
    | zero => exact .cons hg hxs
    | succ i => exact .cons hx (ih hxs i)

theorem computesAll_zero (hs : s.Inv) (n : Nat) :
    s.ComputesAll inputs (zero n) (List.replicate n false) :=
  computesAll_replicate hs.computes_false n

/-- A circuit for each place, one after the other. -/
theorem mapM_spec {α : Type} {f : α → GateM GateId} {xs : List α}
    (h : List.Forall₂ (fun x p => ∀ s', s ≤ s' → Spec (f x) s' fun g t => t.Computes inputs g p)
      xs ps) : Spec (xs.mapM f) s fun out s' => s'.ComputesAll inputs out ps := by
  induction xs generalizing s ps with
  | nil =>
    cases h
    exact spec_pure fun _ => .nil
  | cons x xs ih =>
    obtain ⟨p, ps, hx, hxs, rfl⟩ := List.forall₂_cons_left_iff.mp h
    rw [List.mapM_cons]
    refine (hx s le_rfl).bind fun y s' hle _ hy => ?_
    have hxs' := hxs.imp fun _ _ hf t hle' => hf t (hle.trans hle')
    refine (ih hxs').bind fun out s'' hle' _ hout => ?_
    exact spec_pure fun _ => .cons (hy.mono hle') hout

theorem bitwiseNot_spec (ha : s.ComputesAll inputs a ps) :
    Spec (bitwiseNot a) s fun out s' => s'.ComputesAll inputs out (ps.map (!·)) := by
  refine mapM_spec (List.forall₂_map_right_iff.mpr ?_)
  exact List.Forall₂.imp (fun _ _ hx _ hle => not_spec (Computes.mono hx hle)) ha

theorem addWithCarry_spec {carry : GateId} (ha : s.ComputesAll inputs a ps)
    (hb : s.ComputesAll inputs b qs) (hc : s.Computes inputs carry r) :
    Spec (addWithCarry a b carry) s fun out s' =>
      s'.ComputesAll inputs out.1 (BitList.addCarry ps qs r).1 ∧
        s'.Computes inputs out.2 (BitList.addCarry ps qs r).2 := by
  induction a generalizing s ps b qs carry r with
  | nil =>
    cases ha
    exact spec_pure fun _ => ⟨.nil, hc⟩
  | cons x a ih =>
    obtain ⟨p, ps, hx, hxs, rfl⟩ := List.forall₂_cons_left_iff.mp ha
    cases hb with
    | nil => exact spec_pure fun _ => ⟨.nil, hc⟩
    | @cons y q b qs hy hys =>
      rw [addWithCarry]
      refine (xor_spec hx hy).bind fun axb s₁ h₁ _ haxb => ?_
      refine (xor_spec haxb (hc.mono h₁)).bind fun sum s₂ h₂ _ hsum => ?_
      have h₁₂ := h₁.trans h₂
      refine (and_spec (hx.mono h₁₂) (hy.mono h₁₂)).bind fun xy s₃ h₃ _ hxy => ?_
      have h₁₃ := h₁₂.trans h₃
      refine (and_spec (hc.mono h₁₃) (haxb.mono (h₂.trans h₃))).bind fun cx s₄ h₄ _ hcx => ?_
      refine (or_spec (hxy.mono h₄) hcx).bind fun carry s₅ h₅ _ hcarry => ?_
      have h₁₅ := (h₁₃.trans h₄).trans h₅
      refine (ih (ComputesAll.mono hxs h₁₅) (ComputesAll.mono hys h₁₅) hcarry).bind
        fun rest s₆ h₆ _ hrest => ?_
      have h₂₆ := ((h₃.trans h₄).trans h₅).trans h₆
      exact spec_pure fun _ => ⟨.cons (hsum.mono h₂₆) hrest.1, hrest.2⟩

theorem add_spec (ha : s.ComputesAll inputs a ps) (hb : s.ComputesAll inputs b qs) :
    Spec (add a b) s fun out s' => s'.ComputesAll inputs out (BitList.add ps qs) := by
  refine spec_inv fun hs => ?_
  refine (addWithCarry_spec ha hb hs.computes_false).bind fun sum s' _ _ h => ?_
  exact spec_pure fun _ => h.1

theorem sub_spec (ha : s.ComputesAll inputs a ps) (hb : s.ComputesAll inputs b qs) :
    Spec (sub a b) s fun out s' => s'.ComputesAll inputs out (BitList.sub ps qs) := by
  refine (bitwiseNot_spec hb).bind fun notB s' hle hs' hnot => ?_
  refine (addWithCarry_spec (ComputesAll.mono ha hle) hnot hs'.computes_true).bind
    fun sum s'' _ _ h => ?_
  exact spec_pure fun _ => h.1

/-- What is written into the row so far is `low`; the rest of it is zeros. -/
theorem partialProduct_spec {width shift i : Nat} {sel : GateId} {out : Bits} {low : List Bool}
    (hsel : s.Computes inputs sel r) (ha : s.ComputesAll inputs a ps)
    (hlow : low.length = i + shift) (hout : s.ComputesAll inputs out (BitList.resize width low)) :
    Spec (partialProduct width shift sel i out a) s fun out s' =>
      s'.ComputesAll inputs out (BitList.resize width (low ++ ps.map (· && r))) := by
  induction a generalizing s ps i out low with
  | nil =>
    cases ha
    exact spec_pure fun _ => by simpa using hout
  | cons x a ih =>
    obtain ⟨p, ps, hx, hxs, rfl⟩ := List.forall₂_cons_left_iff.mp ha
    have hmap : low ++ (p :: ps).map (· && r) = (low ++ [p && r]) ++ ps.map (· && r) := by simp
    have hlen : (low ++ [p && r]).length = i + 1 + shift := by
      simp only [List.length_append, List.length_singleton, hlow]
      omega
    rw [partialProduct, hmap]
    by_cases hlt : i + shift < width
    · rw [if_pos hlt]
      refine (and_spec hx hsel).bind fun bit s' hle _ hbit => ?_
      refine ih (hsel.mono hle) (ComputesAll.mono hxs hle) hlen ?_
      have hset : BitList.resize width (low ++ [p && r]) =
          (BitList.resize width low).set (i + shift) (p && r) := by
        rw [← hlow, BitList.resize_snoc (hlow ▸ hlt)]
      rw [hset]
      exact computesAll_set (ComputesAll.mono hout hle) hbit _
    · rw [if_neg hlt]
      refine ih hsel hxs hlen ?_
      rwa [BitList.resize_append_of_le (by omega)]

theorem resize_nil (width : Nat) : BitList.resize width [] = List.replicate width false := by
  simp [BitList.resize]

theorem mulWidthFrom_spec {width shift : Nat} {acc : Bits} {cs : List Bool}
    (ha : s.ComputesAll inputs a ps) (hacc : s.ComputesAll inputs acc cs)
    (hb : s.ComputesAll inputs b qs) :
    Spec (mulWidthFrom width a shift acc b) s fun out s' =>
      s'.ComputesAll inputs out (BitList.mulFrom width ps shift cs qs) := by
  induction b generalizing s qs shift acc cs with
  | nil =>
    cases hb
    exact spec_pure fun _ => hacc
  | cons sel b ih =>
    obtain ⟨q, qs, hsel, hys, rfl⟩ := List.forall₂_cons_left_iff.mp hb
    refine spec_inv fun hs => ?_
    rw [mulWidthFrom]
    have hzero : s.ComputesAll inputs (zero width)
        (BitList.resize width (List.replicate shift false)) := by
      rw [BitList.resize_replicate]
      exact computesAll_zero hs width
    refine (partialProduct_spec hsel ha (by simp) hzero).bind fun product s₁ h₁ _ hproduct => ?_
    refine (add_spec (ComputesAll.mono hacc h₁) hproduct).bind fun acc s₂ h₂ _ hacc => ?_
    have h₁₂ := h₁.trans h₂
    exact ih (ComputesAll.mono ha h₁₂) hacc (ComputesAll.mono hys h₁₂)

theorem mulWidth_spec (ha : s.ComputesAll inputs a ps) (hb : s.ComputesAll inputs b qs)
    (width : Nat) : Spec (mulWidth a b width) s fun out s' =>
      s'.ComputesAll inputs out (BitList.mul width ps qs) := by
  refine spec_inv fun hs => ?_
  exact mulWidthFrom_spec ha (computesAll_zero hs width) hb

/-- A circuit for each pair of bits. -/
theorem zip_spec {f : GateId × GateId → GateM GateId} {op : Bool → Bool → Bool}
    (hf : ∀ x y p q s', s ≤ s' → s'.Computes inputs x p → s'.Computes inputs y q →
      Spec (f (x, y)) s' fun g t => t.Computes inputs g (op p q))
    (ha : s.ComputesAll inputs a ps) (hb : s.ComputesAll inputs b qs) :
    Spec ((a.zip b).mapM f) s fun out s' => s'.ComputesAll inputs out (List.zipWith op ps qs) := by
  refine mapM_spec ?_
  induction a generalizing ps b qs with
  | nil =>
    cases ha
    exact .nil
  | cons x a ih =>
    obtain ⟨p, ps, hx, hxs, rfl⟩ := List.forall₂_cons_left_iff.mp ha
    cases hb with
    | nil => exact .nil
    | cons hy hys =>
      exact .cons (fun t hle => hf _ _ _ _ t hle (hx.mono hle) (hy.mono hle)) (ih hxs hys)

theorem eqBits_spec (ha : s.ComputesAll inputs a ps) (hb : s.ComputesAll inputs b qs)
    (hlen : ps.length = qs.length) :
    Spec (eqBits a b) s fun g s' => s'.Computes inputs g (ps == qs) := by
  refine (zip_spec (fun _ _ _ _ _ _ hx hy => xnor_spec hx hy) ha hb).bind
    fun same s' _ _ hsame => ?_
  refine (andMany_spec hsame).mono fun g t _ _ h => h.congr fun _ => ?_
  clear hsame ha hb h
  induction ps generalizing qs with
  | nil =>
    obtain rfl := List.length_eq_zero_iff.mp hlen.symm
    rfl
  | cons p ps ih =>
    match qs with
    | [] => cases hlen
    | q :: qs =>
      rw [List.zipWith_cons_cons, List.all_cons, ih (by simpa using hlen), List.cons_beq_cons]
      rfl

/-- Less on the high bits seen so far, and equal on them. -/
theorem ultStep_spec {state pair : GateId × GateId} {x y : Bool}
    (hlen : ps.length = qs.length)
    (hlt : s.Computes inputs state.1 (decide (BitList.toNat ps < BitList.toNat qs)))
    (heq : s.Computes inputs state.2 (ps == qs)) (hx : s.Computes inputs pair.1 x)
    (hy : s.Computes inputs pair.2 y) :
    Spec (ultStep state pair) s fun state s' =>
      s'.Computes inputs state.1
        (decide (BitList.toNat (x :: ps) < BitList.toNat (y :: qs))) ∧
      s'.Computes inputs state.2 (x :: ps == y :: qs) := by
  rw [ultStep]
  refine (not_spec hx).bind fun notX s₁ h₁ _ hnotX => ?_
  refine (and_spec hnotX (hy.mono h₁)).bind fun less s₂ h₂ _ hless => ?_
  have h₁₂ := h₁.trans h₂
  refine (and_spec (heq.mono h₁₂) hless).bind fun both s₃ h₃ _ hboth => ?_
  have h₁₃ := h₁₂.trans h₃
  refine (or_spec (hlt.mono h₁₃) hboth).bind fun lt s₄ h₄ _ hltOut => ?_
  have h₁₄ := h₁₃.trans h₄
  refine (xnor_spec (hx.mono h₁₄) (hy.mono h₁₄)).bind fun same s₅ h₅ _ hsame => ?_
  refine (and_spec (heq.mono (h₁₄.trans h₅)) hsame).bind fun eq s₆ h₆ _ heqOut => ?_
  refine spec_pure fun _ => ⟨(hltOut.mono (h₅.trans h₆)).congr fun _ => ?_, heqOut.congr fun _ => ?_⟩
  · rw [Bool.eq_iff_iff, decide_eq_true_eq, BitList.toNat_cons_lt hlen]
    cases x <;> cases y <;> simp
  · rw [List.cons_beq_cons, Bool.and_comm]

theorem ult_spec (ha : s.ComputesAll inputs a ps) (hb : s.ComputesAll inputs b qs)
    (hlen : ps.length = qs.length) : Spec (ult a b) s fun g s' =>
      s'.Computes inputs g (decide (BitList.toNat ps < BitList.toNat qs)) := by
  have hloop : Spec ((a.zip b).reverse.foldlM ultStep (falseGate, trueGate)) s fun state s' =>
      s'.Computes inputs state.1 (decide (BitList.toNat ps < BitList.toNat qs)) ∧
        s'.Computes inputs state.2 (ps == qs) := by
    induction a generalizing ps b qs with
    | nil =>
      cases ha
      obtain rfl := List.length_eq_zero_iff.mp hlen.symm
      exact spec_pure fun hs => ⟨hs.computes_false, hs.computes_true⟩
    | cons x a ih =>
      obtain ⟨p, ps, hx, hxs, rfl⟩ := List.forall₂_cons_left_iff.mp ha
      match qs, hb with
      | [], _ => cases hlen
      | q :: qs, hb =>
        obtain ⟨y, b, hy, hys, rfl⟩ := List.forall₂_cons_right_iff.mp hb
        have hlen' : ps.length = qs.length := by simpa using hlen
        rw [List.zip_cons_cons, List.reverse_cons, List.foldlM_append]
        refine (ih hxs hys hlen').bind fun state s' hle _ h => ?_
        rw [List.foldlM_cons]
        refine (ultStep_spec hlen' h.1 h.2 (Computes.mono hx hle)
          (Computes.mono hy hle)).bind fun state s'' _ _ h' => ?_
        exact spec_pure fun _ => h'
  exact hloop.bind fun state s' _ _ h => spec_pure fun _ => h.1

theorem getLast?_of_computesAll (ha : s.ComputesAll inputs a ps) (hps : ps ≠ []) :
    ∃ g, a.getLast? = some g ∧ s.Computes inputs g (BitList.sign ps) := by
  induction a generalizing ps with
  | nil =>
    cases ha
    exact absurd rfl hps
  | cons x a ih =>
    obtain ⟨p, ps, hx, hxs, rfl⟩ := List.forall₂_cons_left_iff.mp ha
    cases hxs with
    | nil => exact ⟨x, rfl, hx⟩
    | cons hy hys =>
      obtain ⟨g, hlast, hg⟩ := ih (.cons hy hys) (by simp)
      exact ⟨g, by rw [List.getLast?_cons_cons, hlast], hg⟩

theorem spec_last {α : Type} {f : GateId → GateM α} {Q : α → GateArena → Prop}
    (ha : s.ComputesAll inputs a ps) (hps : ps ≠ [])
    (hf : ∀ g, s.Computes inputs g (BitList.sign ps) → Spec (f g) s Q) :
    Spec (last a >>= f) s Q := by
  obtain ⟨g, hlast, hg⟩ := getLast?_of_computesAll ha hps
  refine Grow.spec_read (by simp [hlast]) (by simp [hlast]) fun g' hg' => ?_
  rw [hlast, expect_some] at hg'
  exact Outcome.ok.inj hg' ▸ hf g hg

theorem sext_spec (ha : s.ComputesAll inputs a ps) (hps : ps ≠ []) (extra : Nat) :
    Spec (sext a extra) s fun out s' =>
      s'.ComputesAll inputs out (BitList.signExtend extra ps) := by
  refine spec_last ha hps fun sign hsign => spec_pure fun _ => ?_
  exact List.rel_append ha (computesAll_replicate hsign extra)

theorem minBits_spec (inputs : Nat → Bool) {n : Nat} (hn : 0 < n) : Spec (minBits n) s fun out s' =>
    s'.ComputesAll inputs out (BitList.bits (BitVec.intMin n)) := by
  have hget : (zero n)[n - 1]? = some falseGate := by
    rw [zero, List.getElem?_replicate, if_pos (by omega)]
  refine Grow.spec_read (by simp [hget]) (by simp [hget]) fun _ _ => ?_
  refine spec_pure fun hs => ?_
  rw [← BitList.bits_intMin hn]
  exact computesAll_set (computesAll_zero hs n) hs.computes_true _

/-! ## The overflow predicates -/

section Overflow

variable {w : Nat} {x y : BitVec w} (ha : s.ComputesAll inputs a (BitList.bits x))
  (hb : s.ComputesAll inputs b (BitList.bits y)) (hw : 0 < w)

include ha

theorem length_of_bits : a.length = w := by
  rw [List.Forall₂.length_eq ha, BitList.length_bits]

include hb

theorem uaddOverflow_spec :
    Spec (uaddOverflow a b) s fun g s' => s'.Computes inputs g (x.uaddOverflow y) := by
  refine spec_inv fun hs => ?_
  refine (addWithCarry_spec ha hb hs.computes_false).bind fun sum s' _ _ h => ?_
  refine spec_pure fun _ => h.2.congr fun _ => ?_
  rw [BitList.addCarry_carry (by simp), Bool.toNat_false, Nat.add_zero, BitList.length_bits,
    BitList.toNat_bits, BitList.toNat_bits]
  rfl

theorem usubOverflow_spec :
    Spec (usubOverflow a b) s fun g s' => s'.Computes inputs g (x.usubOverflow y) := by
  refine (ult_spec ha hb (by simp)).mono fun g s' _ _ h => h.congr fun _ => ?_
  rw [BitList.toNat_bits, BitList.toNat_bits]
  rfl

include hw

theorem saddOverflow_spec :
    Spec (saddOverflow a b) s fun g s' => s'.Computes inputs g (x.saddOverflow y) := by
  refine (add_spec ha hb).bind fun sum s₁ h₁ _ hadd => ?_
  rw [BitList.add_bits] at hadd
  refine spec_last (ComputesAll.mono ha h₁) (BitList.bits_ne_nil hw) fun sa hsa => ?_
  refine spec_last (ComputesAll.mono hb h₁) (BitList.bits_ne_nil hw) fun sb hsb => ?_
  refine spec_last hadd (BitList.bits_ne_nil hw) fun ss hss => ?_
  rw [BitList.sign_bits hw] at hsa hsb hss
  refine (xnor_spec hsa hsb).bind fun same s₂ h₂ _ hsame => ?_
  refine (xor_spec (hsa.mono h₂) (hss.mono h₂)).bind fun diff s₃ h₃ _ hdiff => ?_
  refine (and_spec (hsame.mono h₃) hdiff).mono fun g s' _ _ h => h.congr fun _ => ?_
  rw [BitVec.saddOverflow_eq]
  cases x.msb <;> cases y.msb <;> cases (x + y).msb <;> rfl

theorem ssubOverflow_spec :
    Spec (ssubOverflow a b) s fun g s' => s'.Computes inputs g (x.ssubOverflow y) := by
  refine (sub_spec ha hb).bind fun diff s₁ h₁ _ hsub => ?_
  rw [BitList.sub_bits] at hsub
  refine spec_last (ComputesAll.mono ha h₁) (BitList.bits_ne_nil hw) fun sa hsa => ?_
  refine spec_last (ComputesAll.mono hb h₁) (BitList.bits_ne_nil hw) fun sb hsb => ?_
  refine spec_last hsub (BitList.bits_ne_nil hw) fun sd hsd => ?_
  rw [BitList.sign_bits hw] at hsa hsb hsd
  refine (xor_spec hsa hsb).bind fun diff s₂ h₂ _ hdiffAb => ?_
  refine (xor_spec (hsa.mono h₂) (hsd.mono h₂)).bind fun res s₃ h₃ _ hdiffRes => ?_
  refine (and_spec (hdiffAb.mono h₃) hdiffRes).mono fun g s' _ _ h => h.congr fun _ => ?_
  rw [BitVec.ssubOverflow_eq]
  cases x.msb <;> cases y.msb <;> cases (x - y).msb <;> rfl

omit hw in
theorem umulOverflow_spec :
    Spec (umulOverflow a b) s fun g s' => s'.Computes inputs g (x.umulOverflow y) := by
  refine spec_inv fun hs => ?_
  rw [umulOverflow, length_of_bits ha]
  have hwide : ∀ {c : Bits} {z : BitVec w}, s.ComputesAll inputs c (BitList.bits z) →
      s.ComputesAll inputs (c ++ zero w) (BitList.bits (z.setWidth (w * 2))) := by
    intro c z hc
    rw [BitList.bits_setWidth (by omega), show w * 2 - w = w by omega]
    exact List.rel_append hc (computesAll_zero hs w)
  refine (mulWidth_spec (hwide ha) (hwide hb) (w * 2)).bind fun product s₁ _ _ hproduct => ?_
  rw [BitList.mul_bits] at hproduct
  refine (orMany_spec (List.forall₂_drop w hproduct)).mono fun g s' _ _ h => h.congr fun _ => ?_
  rw [Bool.eq_iff_iff, ← not_iff_not, Bool.not_eq_true, Bool.not_eq_true, ← BitList.toNat_eq_zero,
    BitList.toNat_drop, BitList.toNat_bits, Nat.mul_two, Overflow.toNat_product,
    BitVec.umulOverflow]
  simp [Nat.div_eq_zero_iff]

theorem smulOverflow_spec :
    Spec (smulOverflow a b) s fun g s' => s'.Computes inputs g (x.smulOverflow y) := by
  rw [smulOverflow, length_of_bits ha]
  refine (sext_spec ha (BitList.bits_ne_nil hw) w).bind fun aw s₁ h₁ _ haw => ?_
  refine (sext_spec (ComputesAll.mono hb h₁) (BitList.bits_ne_nil hw) w).bind
    fun bw s₂ h₂ _ hbw => ?_
  rw [BitList.signExtend_bits hw] at haw hbw
  refine (mulWidth_spec (ComputesAll.mono haw h₂) hbw (w * 2)).bind
    fun product s₃ _ _ hproduct => ?_
  rw [Nat.mul_two, BitList.mul_bits] at hproduct
  have hlow := List.forall₂_take w hproduct
  rw [BitList.bits_take (Nat.le_add_left w w)] at hlow
  refine (sext_spec hlow (BitList.bits_ne_nil hw) w).bind fun low s₄ h₄ _ hext => ?_
  rw [BitList.signExtend_bits hw] at hext
  refine (eqBits_spec (ComputesAll.mono hproduct h₄) hext (by simp)).bind
    fun equal s₅ _ _ hequal => ?_
  refine (not_spec hequal).mono fun g s' _ _ h => h.congr fun _ => ?_
  rw [Bool.eq_iff_iff, Bool.not_eq_true', beq_eq_false_iff_ne, Ne, BitList.bits_inj,
    Overflow.signExtend_low_eq hw, Bool.not_eq_false]

omit hb in
theorem negOverflow_spec :
    Spec (negOverflow a) s fun g s' => s'.Computes inputs g x.negOverflow := by
  rw [negOverflow, length_of_bits ha]
  refine (minBits_spec inputs hw).bind fun min s₁ h₁ _ hmin => ?_
  refine (eqBits_spec (ComputesAll.mono ha h₁) hmin (by simp)).mono
    fun g s' _ _ h => h.congr fun _ => ?_
  rw [← Overflow.beq_intMin hw, Bool.eq_iff_iff, beq_iff_eq, beq_iff_eq, BitList.bits_inj]

theorem sdivOverflow_spec :
    Spec (sdivOverflow a b) s fun g s' => s'.Computes inputs g (x.sdivOverflow y) := by
  rw [sdivOverflow, length_of_bits ha]
  refine (minBits_spec inputs hw).bind fun min s₁ h₁ _ hmin => ?_
  refine (eqBits_spec (ComputesAll.mono ha h₁) hmin (by simp)).bind
    fun aMin s₂ h₂ hs₂ haMin => ?_
  have hones : s₂.ComputesAll inputs (List.replicate w trueGate)
      (BitList.bits (BitVec.allOnes w)) := by
    rw [← BitList.replicate_true]
    exact computesAll_replicate hs₂.computes_true w
  refine (eqBits_spec (ComputesAll.mono hb (h₁.trans h₂)) hones (by simp)).bind
    fun bOnes s₃ h₃ _ hbOnes => ?_
  refine (and_spec (haMin.mono h₃) hbOnes).mono fun g s' _ _ h => h.congr fun _ => ?_
  rw [← Overflow.beq_intMin_allOnes hw, Bool.eq_iff_iff, Bool.and_eq_true, Bool.and_eq_true,
    beq_iff_eq, beq_iff_eq, beq_iff_eq, beq_iff_eq, BitList.bits_inj, BitList.bits_inj]

/-- The circuit of an overflow predicate computes the predicate. -/
theorem overflow_spec (op : Overflow) :
    Spec (overflow a b op) s fun g s' => s'.Computes inputs g (op.test x y) := by
  cases op with
  | uadd => exact uaddOverflow_spec ha hb
  | usub => exact usubOverflow_spec ha hb
  | umul => exact umulOverflow_spec ha hb
  | sadd => exact saddOverflow_spec ha hb hw
  | ssub => exact ssubOverflow_spec ha hb hw
  | smul => exact smulOverflow_spec ha hb hw
  | neg => exact negOverflow_spec ha hw
  | sdiv => exact sdivOverflow_spec ha hb hw

end Overflow

end Circuits
end Qfbv
end SmtServer
