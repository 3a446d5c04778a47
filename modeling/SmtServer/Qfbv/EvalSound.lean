import Mathlib.Data.List.Forall2
import SmtServer.Qfbv.EvalBytes
import SmtServer.Qfbv.Query

/-!
# The evaluator computes the meaning

Under an assignment that an environment reads (`EvalAssignment.ReadBy`) a round of the pass finds
the value of its node (`evaluateNode_answers`), and the pass the values of all terms
(`evaluate_cases`), except that it refuses a multiplication whose double width is no width
(`Query.EvalWidths`). Every assignment that is in range is read by an environment
(`EvalAssignment.readBy_env`): so a query that the evaluator finds satisfied is satisfiable.
-/

namespace SmtServer
namespace Qfbv

open Lib Outcome
open Lib.Smt (Value)

namespace Eval

open Arena (SortOk)
open Bytes

variable {w : Nat}

/-! ## Nodes -/

/-- The evaluator's value is the value. -/
inductive Means : EvalValue → Value → Prop
  | bool (u : Bool) : Means (.bool u) (.bool u)
  | bv {w : Nat} {bytes : List UInt8} {x : BitVec w} (h : Spells bytes x) :
      Means (.bv w bytes) (.bv w x)

/-- The values found so far are those of the terms that are there so far. -/
def Agree (values : List EvalValue) (srt : TermId → Option TermSort) (look : TermId → Value) :
    Prop :=
  ∀ t σ, srt t = some σ → valueSort (look t) = σ ∧ ∃ v, values[t]? = some v ∧ Means v (look t)

section Node

variable {values : List EvalValue} {srt : TermId → Option TermSort} {look : TermId → Value}
  {t c d : TermId} {σ : TermSort} {Q : EvalValue → Prop}

theorem Agree.bool (h : Agree values srt look) (ht : srt t = some .bool) :
    ∃ u, boolAt values t = ok u ∧ look t = .bool u := by
  obtain ⟨hsort, v, hv, hm⟩ := h t _ ht
  rw [boolAt, hv]
  generalize look t = u at hsort hm
  cases hm with
  | bool u => exact ⟨u, rfl, rfl⟩
  | bv => cases hsort

theorem Agree.bv (h : Agree values srt look) (ht : srt t = some (.bv w)) :
    ∃ (bytes : List UInt8) (x : BitVec w), bvAt values t = ok (w, bytes) ∧ Spells bytes x ∧
      look t = .bv w x := by
  obtain ⟨hsort, v, hv, hm⟩ := h t _ ht
  rw [bvAt, hv]
  generalize look t = u at hsort hm
  cases hm with
  | bool => cases hsort
  | bv hs =>
    obtain rfl := TermSort.bv.inj hsort
    exact ⟨_, _, rfl, hs, rfl⟩

theorem Agree.expect (h : Agree values srt look) (ht : srt t = some σ) :
    Answers (Outcome.expect values[t]? : Result EvalValue) fun v => Means v (look t) := by
  obtain ⟨-, v, hv, hm⟩ := h t _ ht
  exact ⟨v, by rw [hv]; rfl, hm⟩

theorem unaryBv_answers (h : Agree values srt look) (hc : srt c = some (.bv w))
    {f : List UInt8 → Nat → List UInt8} (op : Value → Value)
    (hf : ∀ {bytes : List UInt8} {x : BitVec w}, Spells bytes x →
      ∃ z : BitVec w, Spells (f bytes w) z ∧ op (.bv w x) = .bv w z) :
    Answers (unaryBv values c f) fun v => Means v (op (look c)) := by
  obtain ⟨bytes, x, hat, hs, hx⟩ := h.bv hc
  obtain ⟨z, hz, hop⟩ := hf hs
  rw [unaryBv, hat, hx, hop]
  exact answers_ok (.bv hz)

theorem binaryBv_answers (h : Agree values srt look) (hc : srt c = some (.bv w))
    (hd : srt d = some (.bv w)) {f : List UInt8 → List UInt8 → Nat → List UInt8}
    (op : Value → Value → Value)
    (hf : ∀ {a b : List UInt8} {x y : BitVec w}, Spells a x → Spells b y →
      ∃ z : BitVec w, Spells (f a b w) z ∧ op (.bv w x) (.bv w y) = .bv w z) :
    Answers (binaryBv values c d f) fun v => Means v (op (look c) (look d)) := by
  obtain ⟨a, x, hat, hs, hx⟩ := h.bv hc
  obtain ⟨b, y, hbt, hs', hy⟩ := h.bv hd
  obtain ⟨z, hz, hop⟩ := hf hs hs'
  rw [binaryBv, hat, hx, hy, hop, ok_bind]
  dsimp only
  rw [hbt]
  exact answers_ok (.bv hz)

theorem binaryBool_answers (h : Agree values srt look) (hc : srt c = some (.bv w))
    (hd : srt d = some (.bv w)) {f : List UInt8 → List UInt8 → Nat → Bool}
    (op : Value → Value → Value)
    (hf : ∀ {a b : List UInt8} {x y : BitVec w}, Spells a x → Spells b y →
      op (.bv w x) (.bv w y) = .bool (f a b w)) :
    Answers (binaryBool values c d f) fun v => Means v (op (look c) (look d)) := by
  obtain ⟨a, x, hat, hs, hx⟩ := h.bv hc
  obtain ⟨b, y, hbt, hs', hy⟩ := h.bv hd
  rw [binaryBool, hat, hx, hy, hf hs hs', ok_bind]
  dsimp only
  rw [hbt]
  exact answers_ok (.bool _)

theorem shiftValue_answers (h : Agree values srt look) (hw : w ≤ maxBvWidth)
    (hc : srt c = some (.bv w)) (hd : srt d = some (.bv w))
    {f : List UInt8 → Nat → Nat → List UInt8} (op : Value → Value → Value)
    (hf : ∀ {a : List UInt8} {x y : BitVec w}, Spells a x →
      ∃ z : BitVec w, Spells (f a w (min y.toNat w)) z ∧ op (.bv w x) (.bv w y) = .bv w z) :
    Answers (shiftValue values c d f) fun v => Means v (op (look c) (look d)) := by
  refine binaryBv_answers h hc hd op fun ha hb => ?_
  rw [bytesToBoundedUsize_width hw hb]
  exact hf ha

theorem udivUremValue_answers (h : Agree values srt look) (hw : SortOk (.bv w))
    (hc : srt c = some (.bv w)) (hd : srt d = some (.bv w)) :
    Answers (udivUremValue values c d) fun (q, r) =>
      Means q (Smt.bvudiv (look c) (look d)) ∧ Means r (Smt.bvurem (look c) (look d)) := by
  obtain ⟨a, x, hat, hs, hx⟩ := h.bv hc
  obtain ⟨b, y, hbt, hs', hy⟩ := h.bv hd
  rw [udivUremValue, hat, hx, hy, ok_bind]
  dsimp only
  rw [hbt, ok_bind]
  dsimp only
  refine (udivUremBytes_answers hw hs hs').bind ?_
  rintro ⟨q, r⟩ ⟨hq, hr⟩
  rw [Smt.bvudiv, Value.map₂_bv, Smt.bvurem, Value.map₂_bv]
  exact answers_ok ⟨.bv hq, .bv hr⟩

theorem signedDivRemValue_answers (h : Agree values srt look) (hw : SortOk (.bv w))
    (hc : srt c = some (.bv w)) (hd : srt d = some (.bv w)) (kind : SignedDivKind)
    (op : Value → Value → Value)
    (hop : ∀ x y : BitVec w, op (.bv w x) (.bv w y) = .bv w (signedOp x y kind)) :
    Answers (signedDivRemValue values c d kind) fun v => Means v (op (look c) (look d)) := by
  obtain ⟨a, x, hat, hs, hx⟩ := h.bv hc
  obtain ⟨b, y, hbt, hs', hy⟩ := h.bv hd
  rw [signedDivRemValue, hat, hx, hy, hop, ok_bind]
  dsimp only
  rw [hbt, ok_bind]
  dsimp only
  refine (udivUremBytes_answers hw (spells_absBytes hs) (spells_absBytes hs')).bind ?_
  rintro ⟨q, r⟩ ⟨hq, hr⟩
  rw [getBit_msb hs, getBit_msb hs']
  exact answers_ok (.bv (spells_signedResult hs' hq hr kind))

theorem unsignedMulOverflowValue_answers (h : Agree values srt look)
    (hw : SortOk (.bv (w * 2))) (hc : srt c = some (.bv w)) (hd : srt d = some (.bv w)) :
    Answers (unsignedMulOverflowValue values c d) fun v =>
      Means v (Smt.bvumulo (look c) (look d)) := by
  obtain ⟨a, x, hat, hs, hx⟩ := h.bv hc
  obtain ⟨b, y, hbt, hs', hy⟩ := h.bv hd
  have hlen := Arena.bytesForWidth_ok hw
  rw [unsignedMulOverflowValue, hat, hx, hy, ok_bind, Smt.bvumulo, Value.rel₂_bv,
    ← unsigned_product hs hs']
  dsimp only
  rw [hbt, ok_bind]
  dsimp only
  rw [hlen]
  exact answers_ok (.bool _)

theorem negOverflowValue_answers (h : Agree values srt look) (hw : 1 ≤ w)
    (hc : srt c = some (.bv w)) :
    Answers (negOverflowValue values c) fun v => Means v (Smt.bvnego (look c)) := by
  obtain ⟨a, x, hat, hs, hx⟩ := h.bv hc
  have hmin : Smt.bvnego (.bv w x) = .bool (isMinBytes a w) := by
    rw [Smt.bvnego, Value.bits_bv, minBytes_iff hs hw]
    refine congrArg Value.bool ((BitVec.negOverflow_eq x).trans ?_)
    rw [decide_eq_true (show 0 < w from hw), Bool.true_and]
    rfl
  rw [negOverflowValue, hat, hx, hmin]
  exact answers_ok (.bool _)

theorem signedDivOverflowValue_answers (h : Agree values srt look) (hw : SortOk (.bv w))
    (hc : srt c = some (.bv w)) (hd : srt d = some (.bv w)) :
    Answers (signedDivOverflowValue values c d) fun v =>
      Means v (Smt.bvsdivo (look c) (look d)) := by
  obtain ⟨a, x, hat, hs, hx⟩ := h.bv hc
  obtain ⟨b, y, hbt, hs', hy⟩ := h.bv hd
  obtain ⟨ones, hones, hso⟩ := spells_constantBytes hw true
  have hmin : (isMinBytes a w && b == ones) = x.sdivOverflow y := by
    have hpos : 1 ≤ w := hw.1
    rw [minBytes_iff hs hpos, BitVec.sdivOverflow_eq, decide_eq_true (show 0 < w from hpos),
      Bool.true_and, Bool.eq_iff_iff, Bool.and_eq_true, Bool.and_eq_true, beq_iff_eq,
      hs'.inj hso, if_pos rfl, decide_eq_true_eq, decide_eq_true_eq]
  rw [signedDivOverflowValue, hat, hx, hy, ok_bind, Smt.bvsdivo, Value.rel₂_bv, ← hmin]
  dsimp only
  rw [hbt, ok_bind]
  dsimp only
  rw [hones]
  exact answers_ok (.bool _)

theorem selected_answers (h : Agree values srt look) {default : TermId}
    {cases : List (TermId × TermId)} (hsel : ∀ p ∈ cases, srt p.1 = some .bool) :
    Answers (selected values default cases) fun t => (t = default ∨ ∃ p ∈ cases, t = p.2) ∧
      look t = Smt.select (cases.map fun (c, v) => (look c, look v)) (look default) := by
  induction cases with
  | nil => exact answers_ok ⟨.inl rfl, rfl⟩
  | cons p cases ih =>
    obtain ⟨u, hu, hlook⟩ := h.bool (hsel p (by simp))
    rw [selected, hu, ok_bind, List.map_cons, Smt.select, hlook, Value.toBool_bool]
    cases u with
    | true => exact answers_ok ⟨.inr ⟨p, by simp, rfl⟩, rfl⟩
    | false =>
      refine (ih fun q hq => hsel q (by simp [hq])).mono ?_
      rintro t ⟨ht | ⟨q, hq, ht⟩, hv⟩
      · exact ⟨.inl ht, hv⟩
      · exact ⟨.inr ⟨q, by simp [hq], ht⟩, hv⟩

theorem iteValue_answers (h : Agree values srt look) {e : TermId} {τ : TermSort}
    (hc : srt c = some .bool) (hd : srt d = some σ) (he : srt e = some τ) :
    Answers (do if ← boolAt values c then Outcome.expect values[d]? else Outcome.expect values[e]?)
      fun v => Means v (Smt.ite (look c) (look d) (look e)) := by
  obtain ⟨u, hu, hlook⟩ := h.bool hc
  rw [hu, ok_bind, hlook, Smt.ite, Value.toBool_bool]
  cases u with
  | true => exact h.expect hd
  | false => exact h.expect he

/-- The environment gives a variable the value that the assignment gives it. -/
def Reads (assignment : EvalAssignment) (ρ : Env) (index : Nat) : NodeKind → Prop
  | .bvVar width name external => ∃ bytes,
      bvVarBytes assignment index width name external = ok bytes ∧
        Spells bytes (BitVec.ofNat width (ρ.bv index))
  | .boolVar name external => boolVarValue assignment index name external = ρ.bool index
  | _ => True

/-- The operands of a multiplication whose overflow is asked for are at most half as wide as the
widest vector. -/
def Evaluable (srt : TermId → Option TermSort) : NodeKind → Prop
  | .uMulOverflow a _ => ∀ w, srt a = some (.bv w) → w * 2 ≤ maxBvWidth
  | _ => True

/-- A round of the pass finds the value of its node. -/
theorem evaluateNode_answers (h : Agree values srt look)
    (hok : ∀ {t σ}, srt t = some σ → SortOk σ) {assignment : EvalAssignment} {ρ : Env}
    {index : Nat} {k : NodeKind} (hk : k.HasSort srt σ) (hσ : SortOk σ)
    (hreads : Reads assignment ρ index k) (heval : Evaluable srt k) :
    Answers (evaluateNode values assignment index k) fun v => Means v (k.sem ρ index look) := by
  cases k with
  | boolConst value => exact answers_ok (.bool _)
  | boolVar name external =>
    rw [evaluateNode, show boolVarValue assignment index name external = _ from hreads]
    exact answers_ok (.bool _)
  | bvConst width bytes =>
    obtain ⟨-, hlen, hlt⟩ := hk
    exact answers_ok (.bv (spells_of_lt hlen hlt))
  | bvVar width name external =>
    obtain ⟨bytes, hb, hs⟩ := hreads
    rw [evaluateNode, hb]
    exact answers_ok (.bv hs)
  | bvNot x =>
    obtain ⟨w, -, hx⟩ := hk
    exact unaryBv_answers h hx Smt.bvnot fun hs => ⟨_, hs.notBytes, Value.map_bv ..⟩
  | bvNeg x =>
    obtain ⟨w, -, hx⟩ := hk
    exact unaryBv_answers h hx Smt.bvneg fun hs => ⟨_, hs.negBytes, Value.map_bv ..⟩
  | bvAnd a b =>
    obtain ⟨w, -, ha, hb⟩ := hk
    rw [evaluateNode, bitwiseBv, NodeKind.sem]
    exact binaryBv_answers h ha hb Smt.bvand fun hs hs' => ⟨_, hs.andBytes hs', Value.map₂_bv ..⟩
  | bvOr a b =>
    obtain ⟨w, -, ha, hb⟩ := hk
    rw [evaluateNode, bitwiseBv, NodeKind.sem]
    exact binaryBv_answers h ha hb Smt.bvor fun hs hs' => ⟨_, hs.orBytes hs', Value.map₂_bv ..⟩
  | bvXor a b =>
    obtain ⟨w, -, ha, hb⟩ := hk
    rw [evaluateNode, bitwiseBv, NodeKind.sem]
    exact binaryBv_answers h ha hb Smt.bvxor fun hs hs' => ⟨_, hs.xorBytes hs', Value.map₂_bv ..⟩
  | bvAdd a b =>
    obtain ⟨w, -, ha, hb⟩ := hk
    exact binaryBv_answers h ha hb Smt.bvadd fun hs hs' => ⟨_, hs.addBytes hs', Value.map₂_bv ..⟩
  | bvSub a b =>
    obtain ⟨w, -, ha, hb⟩ := hk
    exact binaryBv_answers h ha hb Smt.bvsub fun hs hs' => ⟨_, hs.subBytes hs', Value.map₂_bv ..⟩
  | bvMul a b =>
    obtain ⟨w, -, ha, hb⟩ := hk
    exact binaryBv_answers h ha hb Smt.bvmul fun hs hs' => ⟨_, hs.mulBytes hs', Value.map₂_bv ..⟩
  | bvUDiv a b =>
    obtain ⟨w, -, ha, hb⟩ := hk
    refine (udivUremValue_answers h (hok ha) ha hb).bind ?_
    rintro ⟨q, r⟩ ⟨hq, -⟩
    exact answers_ok hq
  | bvURem a b =>
    obtain ⟨w, -, ha, hb⟩ := hk
    refine (udivUremValue_answers h (hok ha) ha hb).bind ?_
    rintro ⟨q, r⟩ ⟨-, hr⟩
    exact answers_ok hr
  | bvSDiv a b =>
    obtain ⟨w, -, ha, hb⟩ := hk
    exact signedDivRemValue_answers h (hok ha) ha hb .div Smt.bvsdiv fun x y =>
      Value.map₂_bv _ x y
  | bvSRem a b =>
    obtain ⟨w, -, ha, hb⟩ := hk
    exact signedDivRemValue_answers h (hok ha) ha hb .rem Smt.bvsrem fun x y =>
      Value.map₂_bv _ x y
  | bvSMod a b =>
    obtain ⟨w, -, ha, hb⟩ := hk
    exact signedDivRemValue_answers h (hok ha) ha hb .mod Smt.bvsmod fun x y =>
      Value.map₂_bv _ x y
  | bvShl a b =>
    obtain ⟨w, -, ha, hb⟩ := hk
    refine shiftValue_answers h (hok ha).2 ha hb Smt.bvshl fun hs => ⟨_, hs.shlBytes _, ?_⟩
    rw [Smt.bvshl, Value.map₂_bv, shiftLeft_min, BitVec.shiftLeft_eq']
  | bvLShr a b =>
    obtain ⟨w, -, ha, hb⟩ := hk
    refine shiftValue_answers h (hok ha).2 ha hb Smt.bvlshr fun hs => ⟨_, hs.lshrBytes _, ?_⟩
    rw [Smt.bvlshr, Value.map₂_bv, ushiftRight_min, BitVec.ushiftRight_eq']
  | bvAShr a b =>
    obtain ⟨w, -, ha, hb⟩ := hk
    refine shiftValue_answers h (hok ha).2 ha hb Smt.bvashr fun hs => ⟨_, hs.ashrBytes _, ?_⟩
    rw [Smt.bvashr, Value.map₂_bv, sshiftRight_min, BitVec.sshiftRight_eq']
  | bvExtract child high low =>
    obtain ⟨w, -, hc, -, -⟩ := hk
    obtain ⟨bytes, x, hat, hs, hx⟩ := h.bv hc
    rw [evaluateNode, hat, NodeKind.sem, hx, Smt.extract_bv]
    exact answers_ok (.bv (hs.extractBytes low (high - low + 1)))
  | bvConcat high low =>
    obtain ⟨hw, lw, -, hh, hl⟩ := hk
    obtain ⟨bytes, x, hat, hs, hx⟩ := h.bv hh
    obtain ⟨bytes', y, hbt, hs', hy⟩ := h.bv hl
    rw [evaluateNode, hat, NodeKind.sem, hx, hy, Smt.concat_bv, ok_bind]
    dsimp only
    rw [hbt]
    exact answers_ok (.bv (hs.concatBytes hs'))
  | bvZeroExtend child extra =>
    obtain ⟨w, rfl, hc⟩ := hk
    obtain ⟨bytes, x, hat, hs, hx⟩ := h.bv hc
    have hlen := Arena.bytesForWidth_ok hσ
    rw [evaluateNode, hat, NodeKind.sem, hx, Smt.zeroExtend_bv, ok_bind]
    dsimp only
    rw [hlen, ok_bind, (hs.zextBytes extra).mask]
    exact answers_ok (.bv (hs.zextBytes extra))
  | bvSignExtend child extra =>
    obtain ⟨w, -, hc⟩ := hk
    obtain ⟨bytes, x, hat, hs, hx⟩ := h.bv hc
    rw [evaluateNode, hat, NodeKind.sem, hx, Smt.signExtend_bv]
    exact answers_ok (.bv (hs.sextBytes extra))
  | bvRepeat child count =>
    obtain ⟨w, -, hc⟩ := hk
    obtain ⟨bytes, x, hat, hs, hx⟩ := h.bv hc
    rw [evaluateNode, hat, NodeKind.sem, hx, Smt.repeated_bv]
    exact answers_ok (.bv (hs.repeatBytes count))
  | bvRotateLeft child amount =>
    obtain ⟨w, -, hc⟩ := hk
    rw [evaluateNode, NodeKind.sem]
    have hpos : 0 < w := (hok hc).1
    refine unaryBv_answers h hc (Smt.rotateLeft amount) fun hs => ⟨_, hs.rotateLeftBytes (Nat.mod_lt amount hpos), ?_⟩
    rw [Smt.rotateLeft, Value.map_bv, BitVec.rotateLeft_mod_eq_rotateLeft]
  | bvRotateRight child amount =>
    obtain ⟨w, -, hc⟩ := hk
    rw [evaluateNode, NodeKind.sem]
    have hpos : 0 < w := (hok hc).1
    refine unaryBv_answers h hc (Smt.rotateRight amount) fun hs => ⟨_, hs.rotateRightBytes (Nat.mod_lt amount hpos), ?_⟩
    rw [Smt.rotateRight, Value.map_bv, BitVec.rotateRight_mod_eq_rotateRight]
  | bvIte c x y =>
    obtain ⟨w, -, hc, hx, hy⟩ := hk
    exact iteValue_answers h hc hx hy
  | boolIte c x y =>
    obtain ⟨-, hc, hx, hy⟩ := hk
    exact iteValue_answers h hc hx hy
  | bvSelect cases default =>
    obtain ⟨w, -, hd, hcases⟩ := hk
    refine (selected_answers h fun p hp => (hcases p hp).1).bind ?_
    rintro t ⟨ht, hv⟩
    rw [NodeKind.sem, ← hv]
    rcases ht with rfl | ⟨p, hp, rfl⟩
    · exact h.expect hd
    · exact h.expect (hcases p hp).2
  | boolNot x =>
    obtain ⟨-, hx⟩ := hk
    obtain ⟨u, hu, hlook⟩ := h.bool hx
    rw [evaluateNode, hu, NodeKind.sem, hlook]
    exact answers_ok (.bool _)
  | boolAnd a b =>
    obtain ⟨-, ha, hb⟩ := hk
    obtain ⟨u, hu, hlu⟩ := h.bool ha
    obtain ⟨v, hv, hlv⟩ := h.bool hb
    rw [evaluateNode, hu, hv, NodeKind.sem, hlu, hlv]
    cases u <;> exact answers_ok (.bool _)
  | boolOr a b =>
    obtain ⟨-, ha, hb⟩ := hk
    obtain ⟨u, hu, hlu⟩ := h.bool ha
    obtain ⟨v, hv, hlv⟩ := h.bool hb
    rw [evaluateNode, hu, hv, NodeKind.sem, hlu, hlv]
    cases u <;> exact answers_ok (.bool _)
  | boolImplies a b =>
    obtain ⟨-, ha, hb⟩ := hk
    obtain ⟨u, hu, hlu⟩ := h.bool ha
    obtain ⟨v, hv, hlv⟩ := h.bool hb
    rw [evaluateNode, hu, hv, NodeKind.sem, hlu, hlv]
    cases u <;> exact answers_ok (.bool _)
  | boolEq a b =>
    obtain ⟨-, ha, hb⟩ := hk
    obtain ⟨u, hu, hlu⟩ := h.bool ha
    obtain ⟨v, hv, hlv⟩ := h.bool hb
    rw [evaluateNode, hu, hv, NodeKind.sem, hlu, hlv]
    exact answers_ok (.bool _)
  | bvEq a b =>
    obtain ⟨w, -, ha, hb⟩ := hk
    rw [evaluateNode, NodeKind.sem]
    refine binaryBool_answers h ha hb Smt.bveq fun hs hs' => ?_
    rw [Smt.bveq, Value.rel₂_bv, Value.bool.injEq, Bool.eq_iff_iff, beq_iff_eq, beq_iff_eq,
      hs.inj hs']
  | bvUlt a b =>
    obtain ⟨w, -, ha, hb⟩ := hk
    rw [evaluateNode, unsignedCmpValue, NodeKind.sem]
    refine binaryBool_answers h ha hb Smt.bvult fun hs hs' => ?_
    rw [Smt.bvult, Value.rel₂_bv, if_pos rfl, cmp_lt hs hs']
  | bvUle a b =>
    obtain ⟨w, -, ha, hb⟩ := hk
    rw [evaluateNode, unsignedCmpValue, NodeKind.sem]
    refine binaryBool_answers h ha hb Smt.bvule fun hs hs' => ?_
    rw [Smt.bvule, Value.rel₂_bv, if_neg (by simp), cmp_le hs hs']
  | bvSlt a b =>
    obtain ⟨w, -, ha, hb⟩ := hk
    rw [evaluateNode, signedCmpValue, NodeKind.sem]
    refine binaryBool_answers h ha hb Smt.bvslt fun hs hs' => ?_
    rw [Smt.bvslt, Value.rel₂_bv, if_pos rfl, hs.signedLessThan hs']
  | bvSle a b =>
    obtain ⟨w, -, ha, hb⟩ := hk
    rw [evaluateNode, signedCmpValue, NodeKind.sem]
    refine binaryBool_answers h ha hb Smt.bvsle fun hs hs' => ?_
    rw [Smt.bvsle, Value.rel₂_bv, if_neg (by simp), hs'.signedLessThan hs, BitVec.sle_eq_not_slt]
  | uAddOverflow a b =>
    obtain ⟨w, -, ha, hb⟩ := hk
    rw [evaluateNode, unsignedAddOverflowValue, NodeKind.sem]
    refine binaryBool_answers h ha hb Smt.bvuaddo fun hs hs' => ?_
    rw [Smt.bvuaddo, Value.rel₂_bv, cmp_lt (hs.addBytes hs') hs, add_ult_self]
  | sAddOverflow a b =>
    obtain ⟨w, -, ha, hb⟩ := hk
    rw [evaluateNode, signedAddOverflowValue, NodeKind.sem]
    refine binaryBool_answers h ha hb Smt.bvsaddo fun hs hs' => ?_
    rw [Smt.bvsaddo, Value.rel₂_bv, BitVec.saddOverflow_eq, getBit_msb hs, getBit_msb hs',
      getBit_msb (hs.addBytes hs')]
    cases BitVec.msb _ <;> cases BitVec.msb _ <;> cases BitVec.msb _ <;> rfl
  | uSubOverflow a b =>
    obtain ⟨w, -, ha, hb⟩ := hk
    rw [evaluateNode, unsignedCmpValue, NodeKind.sem]
    refine binaryBool_answers h ha hb Smt.bvusubo fun hs hs' => ?_
    rw [Smt.bvusubo, Value.rel₂_bv, if_pos rfl, cmp_lt hs hs']
    rfl
  | sSubOverflow a b =>
    obtain ⟨w, -, ha, hb⟩ := hk
    rw [evaluateNode, signedSubOverflowValue, NodeKind.sem]
    refine binaryBool_answers h ha hb Smt.bvssubo fun hs hs' => ?_
    rw [Smt.bvssubo, Value.rel₂_bv, BitVec.ssubOverflow_eq, getBit_msb hs, getBit_msb hs',
      getBit_msb (hs.subBytes hs')]
    cases BitVec.msb _ <;> cases BitVec.msb _ <;> cases BitVec.msb _ <;> rfl
  | uMulOverflow a b =>
    obtain ⟨w, -, ha, hb⟩ := hk
    have hw : 1 ≤ w := (hok ha).1
    exact unsignedMulOverflowValue_answers h ⟨by omega, heval w ha⟩ ha hb
  | sMulOverflow a b =>
    obtain ⟨w, -, ha, hb⟩ := hk
    rw [evaluateNode, signedMulOverflowValue, NodeKind.sem]
    refine binaryBool_answers h ha hb Smt.bvsmulo fun hs hs' => ?_
    rw [Smt.bvsmulo, Value.rel₂_bv, ← signed_product (hok ha).1 hs hs']
  | negOverflow x =>
    obtain ⟨w, -, hx⟩ := hk
    exact negOverflowValue_answers h (hok hx).1 hx
  | sDivOverflow a b =>
    obtain ⟨w, -, ha, hb⟩ := hk
    exact signedDivOverflowValue_answers h (hok ha) ha hb

/-- A product that is too wide is an error. -/
theorem evaluateNode_not_evaluable (h : Agree values srt look) (assignment : EvalAssignment)
    (index : Nat) {k : NodeKind} (hk : k.HasSort srt σ) (heval : ¬Evaluable srt k) :
    ∃ e, evaluateNode values assignment index k = err e := by
  cases k with
  | uMulOverflow a b =>
    simp only [Evaluable, not_forall] at heval
    obtain ⟨v, hv, hwide⟩ := heval
    obtain ⟨w, -, ha, hb⟩ := hk
    obtain rfl : v = w := by simpa using hv.symm.trans ha
    obtain ⟨bytes, x, hat, -, -⟩ := h.bv ha
    obtain ⟨bytes', y, hbt, -, -⟩ := h.bv hb
    rw [evaluateNode, unsignedMulOverflowValue, hat, ok_bind]
    dsimp only
    rw [hbt, ok_bind]
    dsimp only
    rw [bytesForWidth, validateBvWidth, ensure, if_neg (fun hw => hwide hw.2)]
    exact ⟨_, rfl⟩
  | _ => exact absurd trivial heval

end Node

end Eval

/-! ## The pass -/

open Eval

/-- The environment gives every variable the value that the assignment gives it. -/
def EvalAssignment.ReadBy (assignment : EvalAssignment) (q : Query) (ρ : Env) : Prop :=
  ∀ (t : TermId) (n : Node), q.arena.nodes[t]? = some n → Reads assignment ρ t n.kind

/-- No multiplication whose overflow is asked for is too wide for the evaluator. -/
def Query.EvalWidths (q : Query) : Prop :=
  ∀ (t : TermId) (n : Node), q.arena.nodes[t]? = some n → Evaluable q.arena.sortAt n.kind

variable {q : Query} {assignment : EvalAssignment} {ρ : Env}

/-- The sorts of the first terms. -/
def Arena.sortBefore (s : Arena) (i : Nat) (t : TermId) : Option TermSort :=
  if t < i then s.sortAt t else none

theorem Arena.sortBefore_le {s : Arena} {i : Nat} {t : TermId} {σ : TermSort}
    (h : s.sortBefore i t = some σ) : t < i ∧ s.sortAt t = some σ := by
  unfold sortBefore at h
  split at h
  · exact ⟨‹_›, h⟩
  · cases h

theorem evaluable_before {s : Arena} {i : Nat} {k : NodeKind} (h : ∀ j ∈ k.children, j < i) :
    Evaluable (s.sortBefore i) k ↔ Evaluable s.sortAt k := by
  cases k with
  | uMulOverflow a b =>
    have ha : a < i := h a (by simp [NodeKind.children])
    simp only [Evaluable, Arena.sortBefore, if_pos ha]
  | _ => exact Iff.rfl

/-- One round: the values of the terms so far, and the value of the next one. -/
theorem evaluate_step (hs : q.arena.Inv) {values : List EvalValue} {n : Node}
    (hn : q.arena.nodes[values.length]? = some n)
    (h : Agree values (q.arena.sortBefore values.length) (q.arena.value ρ)) {v : EvalValue}
    (hv : Means v (q.arena.value ρ values.length)) :
    Agree (values ++ [v]) (q.arena.sortBefore (values ++ [v]).length) (q.arena.value ρ) := by
  intro t σ ht
  obtain ⟨hlt, hσ⟩ := Arena.sortBefore_le ht
  refine ⟨hs.value_sort hσ, ?_⟩
  rw [List.length_append, List.length_singleton] at hlt
  rcases Nat.lt_succ_iff_lt_or_eq.mp hlt with hold | rfl
  · obtain ⟨-, u, hu, hm⟩ := h t σ (by rw [Arena.sortBefore, if_pos hold, hσ])
    exact ⟨u, by rw [List.getElem?_append_left hold, hu], hm⟩
  · exact ⟨v, by simp, hv⟩

/-- The pass finds the values of all terms, or refuses a product that is too wide. -/
theorem evaluate_cases (hs : q.arena.Inv) (hr : assignment.ReadBy q ρ) :
    (q.EvalWidths ∧ Answers (evaluate q assignment) fun values =>
      Agree values q.arena.sortAt (q.arena.value ρ)) ∨
    (¬q.EvalWidths ∧ ∃ e, evaluate q assignment = err e) := by
  have hrow : ∀ {done : List (Node × Nat)} {x : Node × Nat}, done ++ [x] <+: q.arena.nodes.zipIdx →
      q.arena.nodes[done.length]? = some x.1 ∧ x.2 = done.length := by
    intro done x hx
    have hget : q.arena.nodes.zipIdx[done.length]? = some x := by
      obtain ⟨rest, hrest⟩ := hx
      rw [← hrest]
      simp
    rw [List.getElem?_zipIdx, Option.map_eq_some_iff] at hget
    obtain ⟨n, hn, rfl⟩ := hget
    exact ⟨hn, by simp⟩
  have hfold := @foldlM_cases _ _ _
    (fun values (p : Node × Nat) => do
      let value ← evaluateNode values assignment p.2 p.1.kind
      pure (values ++ [value])) q.arena.nodes.zipIdx []
    (fun done values => (∀ p ∈ done, Evaluable q.arena.sortAt p.1.kind) ∧
      values.length = done.length ∧
      Agree values (q.arena.sortBefore values.length) (q.arena.value ρ))
    (fun _ => ¬q.EvalWidths)
    ⟨by simp, rfl, fun t σ ht => absurd (Arena.sortBefore_le ht).1 (Nat.not_lt_zero t)⟩ ?_
  · rcases hfold with ⟨values, hvalues, hdone, hlen, h⟩ | ⟨e, he, hwide⟩
    · refine .inl ⟨?_, values, hvalues, ?_⟩
      · intro t n hn
        exact hdone (n, t) (List.mem_zipIdx_iff_getElem?.mpr hn)
      · intro t σ ht
        refine h t σ ?_
        rw [Arena.sortBefore, if_pos, ht]
        rw [hlen, List.length_zipIdx]
        exact Arena.lt_of_sortAt ht
    · exact .inr ⟨hwide, e, he⟩
  · rintro done ⟨n, i⟩ values hx ⟨hdone, hlen, h⟩
    obtain ⟨hn, rfl⟩ := hrow hx
    rw [← hlen] at hn
    dsimp only at hn ⊢
    have hbefore := hs.ordered _ n hn
    have hk : n.kind.HasSort (q.arena.sortBefore values.length) n.sort := by
      refine (hs.sorted _ n hn).mono fun j hj τ hτ => ?_
      rwa [Arena.sortBefore, if_pos (hbefore j hj)]
    rw [← hlen]
    by_cases heval : Evaluable q.arena.sortAt n.kind
    · left
      refine (evaluateNode_answers h (fun ht => hs.sortOk (Arena.sortBefore_le ht).2) hk
        (hs.sortOk (Arena.sortAt_eq_some.mpr ⟨n, hn, rfl⟩)) (hr _ n hn)
        ((evaluable_before hbefore).mpr heval)).bind fun v hv => ?_
      rw [← hs.value_eq hn] at hv
      refine answers_ok ⟨?_, by simp [hlen], evaluate_step hs hn h hv⟩
      exact List.forall_mem_append.mpr ⟨hdone, by simpa using heval⟩
    · right
      obtain ⟨e, he⟩ := evaluateNode_not_evaluable h assignment values.length
        hk (mt (evaluable_before hbefore).mp heval)
      rw [he]
      exact ⟨e, rfl, fun hall => heval (hall _ n hn)⟩

/-- Under an assignment that an environment reads, the evaluator decides whether the query
holds. -/
theorem querySatisfiedBy_answers (h : q.WellFormed) (hr : assignment.ReadBy q ρ)
    (hw : q.EvalWidths) :
    Answers (querySatisfiedBy q assignment) fun found => found = true ↔ q.Holds ρ := by
  rcases evaluate_cases h.arena hr with ⟨-, hvalues⟩ | ⟨hwide, -⟩
  · refine hvalues.bind fun values hagree => ?_
    have hroot : ∀ t ∈ q.assertionsAndAssumptions,
        boolAt values t = ok (q.arena.value ρ t).toBool := by
      intro t ht
      obtain ⟨u, hu, hlook⟩ := hagree.bool (h.roots t ht)
      rw [hu, hlook, Value.toBool_bool]
    unfold Query.Holds
    revert hroot
    induction q.assertionsAndAssumptions with
    | nil => exact fun _ => answers_ok (by simp)
    | cons t roots ih =>
      intro hroot
      rw [List.forall_mem_cons] at hroot
      rw [List.allM, hroot.1, ok_bind]
      cases hv : (q.arena.value ρ t).toBool with
      | false => exact answers_ok (by simp [hv])
      | true => simpa [hv] using ih hroot.2
  · exact absurd hw hwide

/-- It does not answer a query with a product that is too wide. -/
theorem querySatisfiedBy_refuses (h : q.WellFormed) (hr : assignment.ReadBy q ρ)
    (hw : ¬q.EvalWidths) : ∃ e, querySatisfiedBy q assignment = err e := by
  rcases evaluate_cases h.arena hr with ⟨hwidths, -⟩ | ⟨-, e, he⟩
  · exact absurd hwidths hw
  · exact ⟨e, by rw [querySatisfiedBy, he]; rfl⟩

theorem querySatisfiedBy_only (h : q.WellFormed) (hr : assignment.ReadBy q ρ) :
    Only (querySatisfiedBy q assignment) fun found => found = true ↔ q.Holds ρ := by
  intro found hfound
  by_cases hw : q.EvalWidths
  · exact (querySatisfiedBy_answers h hr hw).of_eq hfound
  · obtain ⟨e, he⟩ := querySatisfiedBy_refuses h hr hw
    rw [he] at hfound
    cases hfound

/-! ## Environments -/

/-- The values of a table have the length of their variable and fit into its width. -/
def EvalAssignment.InRange (q : Query) : EvalAssignment → Prop
  | .constant _ | .seed _ => True
  | .explicit values => ∀ t w name external, q.arena.kindAt t = some (.bvVar w name external) →
      ∀ bytes, values t = some bytes → bytes.length = divCeil8 w ∧ leNat bytes < 2 ^ w

/-- The environment that reads an assignment. -/
def EvalAssignment.env (assignment : EvalAssignment) (q : Query) : Env where
  bv t :=
    match q.arena.kindAt t with
    | some (.bvVar width name external) =>
      match bvVarBytes assignment t width name external with
      | .ok bytes => leNat bytes
      | _ => 0
    | _ => 0
  bool t :=
    match q.arena.kindAt t with
    | some (.boolVar name external) => boolVarValue assignment t name external
    | _ => false

theorem bvVarBytes_inRange {t : TermId} {w : Nat} {name : String} {external : Option Nat}
    (hk : q.arena.kindAt t = some (.bvVar w name external)) (hw : Arena.SortOk (.bv w))
    (hin : assignment.InRange q) : ∃ bytes, bvVarBytes assignment t w name external = ok bytes ∧
      bytes.length = divCeil8 w ∧ leNat bytes < 2 ^ w := by
  have hlen := Arena.bytesForWidth_ok hw
  cases assignment with
  | constant value =>
    obtain ⟨bytes, hb, hs⟩ := spells_constantBytes hw value
    exact ⟨bytes, hb, hs.length, by rw [hs.toNat]; exact BitVec.isLt _⟩
  | seed seed =>
    rw [bvVarBytes, seededBytes, hlen, ok_bind]
    refine ⟨_, rfl, ?_⟩
    have hl : ∀ words : List UInt8, divCeil8 w ≤ words.length →
        (maskUnusedHighBits (words.take (divCeil8 w)) w).length = divCeil8 w ∧
          leNat (maskUnusedHighBits (words.take (divCeil8 w)) w) < 2 ^ w := by
      intro words hle
      have hl : (words.take (divCeil8 w)).length = divCeil8 w := by simp [hle]
      refine ⟨by rw [Bytes.length_maskUnusedHighBits, hl], ?_⟩
      rw [Bytes.leNat_maskUnusedHighBits hl]
      exact Nat.mod_lt _ (Nat.two_pow_pos w)
    refine hl _ ?_
    simp only [List.length_flatMap, length_leBytes, List.map_const', List.length_range,
      List.sum_replicate_nat]
    omega
  | explicit values =>
    rw [bvVarBytes, hlen]
    refine ⟨_, rfl, ?_⟩
    cases hv : values t with
    | none => simp
    | some bytes => exact hin t w name external hk bytes hv

theorem EvalAssignment.readBy_env (hs : q.arena.Inv) (hin : assignment.InRange q) :
    assignment.ReadBy q (assignment.env q) := by
  intro t n hn
  have hk : q.arena.kindAt t = some n.kind := by rw [Arena.kindAt, hn]; rfl
  have hsort := hs.sorted t n hn
  have hok := hs.sortOk (Arena.sortAt_eq_some.mpr ⟨n, hn, rfl⟩)
  generalize n.kind = k at hk hsort
  cases k with
  | bvVar w name external =>
    rw [show n.sort = .bv w from hsort] at hok
    obtain ⟨bytes, hb, hl, hlt⟩ := bvVarBytes_inRange hk hok hin
    refine ⟨bytes, hb, ?_⟩
    simp only [EvalAssignment.env, hk, hb]
    exact Bytes.spells_of_lt hl hlt
  | boolVar name external => simp only [Reads, EvalAssignment.env, hk]
  | _ => trivial

/-- An assignment in range that the evaluator accepts satisfies the query. -/
theorem holds_of_querySatisfiedBy (h : q.WellFormed) (hin : assignment.InRange q)
    (hsat : querySatisfiedBy q assignment = ok true) : q.Holds (assignment.env q) :=
  (querySatisfiedBy_only h (assignment.readBy_env h.arena hin) true hsat).mp rfl

end Qfbv
end SmtServer
