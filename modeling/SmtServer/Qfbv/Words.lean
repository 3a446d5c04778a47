import SmtServer.Qfbv.Bits

/-!
# Terms as words

Where an argument is about the arithmetic of a whole expression, its terms are words of one known
width (`Arena.bv`), and each operator of a term is the operator of `BitVec` of that name.
-/

namespace SmtServer
namespace Qfbv

open Lib
open Lib.Smt (Value)

namespace Arena

/-- The word that a vector of width `w` stands for. -/
def bv (s : Arena) (ρ : Env) (t : TermId) (w : Nat) : BitVec w := (s.value ρ t).toBv w

variable {s : Arena} {ρ : Env} {t a b c : TermId} {w v : Nat} {k : NodeKind} {i : Nat}

theorem IsBv.value_eq (hs : s.Inv) (h : s.IsBv t w) : s.value ρ t = .bv w (s.bv ρ t w) :=
  (h.denotes hs).value

theorem IsBv.num_eq (hs : s.Inv) (h : s.IsBv t w) : s.num ρ t = (s.bv ρ t w).toNat :=
  (h.denotes hs).num

theorem IsBv.getLsbD (hs : s.Inv) (h : s.IsBv t w) : (s.bv ρ t w).getLsbD i = s.bit ρ t i :=
  (h.denotes hs).bit.symm

theorem value_eq_iff_bv (hs : s.Inv) (ha : s.IsBv a w) (hb : s.IsBv b w) :
    s.value ρ a = s.value ρ b ↔ s.bv ρ a w = s.bv ρ b w := by
  rw [ha.value_eq hs, hb.value_eq hs, Value.bv_inj]

/-! ## Operators -/

theorem bv_unary {f : ∀ {w : Nat}, BitVec w → BitVec w} (hs : s.Inv)
    (hk : s.kindAt t = some k) (hw : s.IsBv t w)
    (hsort : ∀ {srt σ}, k.HasSort srt σ → ∃ w, σ = .bv w ∧ srt a = some (.bv w))
    (hsem : ∀ {ρ id look}, k.sem ρ id look = Value.map f (look a)) :
    s.IsBv a w ∧ s.bv ρ t w = f (s.bv ρ a w) := by
  obtain ⟨y, hy, hx⟩ := hs.unary (hw.denotes (ρ := ρ) hs) hk hsort hsem
  exact ⟨hy.sort, hx.trans (congrArg f hy.toBv.symm)⟩

theorem bv_binary {f : ∀ {w : Nat}, BitVec w → BitVec w → BitVec w} (hs : s.Inv)
    (hk : s.kindAt t = some k) (hw : s.IsBv t w)
    (hsort : ∀ {srt σ}, k.HasSort srt σ →
      ∃ w, σ = .bv w ∧ srt a = some (.bv w) ∧ srt b = some (.bv w))
    (hsem : ∀ {ρ id look}, k.sem ρ id look = Value.map₂ f (look a) (look b)) :
    s.IsBv a w ∧ s.IsBv b w ∧ s.bv ρ t w = f (s.bv ρ a w) (s.bv ρ b w) := by
  obtain ⟨y, z, hy, hz, hx⟩ := hs.binary (hw.denotes (ρ := ρ) hs) hk hsort hsem
  exact ⟨hy.sort, hz.sort, hx.trans (congrArg₂ f hy.toBv.symm hz.toBv.symm)⟩

/-! The operands have the width of the result, and so are words of it. -/

theorem bv_bvNot (hs : s.Inv) (hk : s.kindAt t = some (.bvNot a)) (hw : s.IsBv t w) :
    s.IsBv a w ∧ s.bv ρ t w = ~~~s.bv ρ a w :=
  bv_unary (f := fun y => ~~~y) hs hk hw id rfl

theorem bv_bvNeg (hs : s.Inv) (hk : s.kindAt t = some (.bvNeg a)) (hw : s.IsBv t w) :
    s.IsBv a w ∧ s.bv ρ t w = -s.bv ρ a w :=
  bv_unary (f := fun y => -y) hs hk hw id rfl

theorem bv_bvRotateLeft {n : Nat} (hs : s.Inv) (hk : s.kindAt t = some (.bvRotateLeft a n))
    (hw : s.IsBv t w) : s.IsBv a w ∧ s.bv ρ t w = (s.bv ρ a w).rotateLeft n :=
  bv_unary (f := fun y => y.rotateLeft n) hs hk hw id rfl

theorem bv_bvRotateRight {n : Nat} (hs : s.Inv) (hk : s.kindAt t = some (.bvRotateRight a n))
    (hw : s.IsBv t w) : s.IsBv a w ∧ s.bv ρ t w = (s.bv ρ a w).rotateRight n :=
  bv_unary (f := fun y => y.rotateRight n) hs hk hw id rfl

theorem bv_bvAnd (hs : s.Inv) (hk : s.kindAt t = some (.bvAnd a b)) (hw : s.IsBv t w) :
    s.IsBv a w ∧ s.IsBv b w ∧ s.bv ρ t w = s.bv ρ a w &&& s.bv ρ b w :=
  bv_binary (f := fun y z => y &&& z) hs hk hw id rfl

theorem bv_bvOr (hs : s.Inv) (hk : s.kindAt t = some (.bvOr a b)) (hw : s.IsBv t w) :
    s.IsBv a w ∧ s.IsBv b w ∧ s.bv ρ t w = s.bv ρ a w ||| s.bv ρ b w :=
  bv_binary (f := fun y z => y ||| z) hs hk hw id rfl

theorem bv_bvXor (hs : s.Inv) (hk : s.kindAt t = some (.bvXor a b)) (hw : s.IsBv t w) :
    s.IsBv a w ∧ s.IsBv b w ∧ s.bv ρ t w = s.bv ρ a w ^^^ s.bv ρ b w :=
  bv_binary (f := fun y z => y ^^^ z) hs hk hw id rfl

theorem bv_bvAdd (hs : s.Inv) (hk : s.kindAt t = some (.bvAdd a b)) (hw : s.IsBv t w) :
    s.IsBv a w ∧ s.IsBv b w ∧ s.bv ρ t w = s.bv ρ a w + s.bv ρ b w :=
  bv_binary (f := fun y z => y + z) hs hk hw id rfl

theorem bv_bvSub (hs : s.Inv) (hk : s.kindAt t = some (.bvSub a b)) (hw : s.IsBv t w) :
    s.IsBv a w ∧ s.IsBv b w ∧ s.bv ρ t w = s.bv ρ a w - s.bv ρ b w :=
  bv_binary (f := fun y z => y - z) hs hk hw id rfl

theorem bv_bvMul (hs : s.Inv) (hk : s.kindAt t = some (.bvMul a b)) (hw : s.IsBv t w) :
    s.IsBv a w ∧ s.IsBv b w ∧ s.bv ρ t w = s.bv ρ a w * s.bv ρ b w :=
  bv_binary (f := fun y z => y * z) hs hk hw id rfl

theorem bv_bvUDiv (hs : s.Inv) (hk : s.kindAt t = some (.bvUDiv a b)) (hw : s.IsBv t w) :
    s.IsBv a w ∧ s.IsBv b w ∧ s.bv ρ t w = (s.bv ρ a w).smtUDiv (s.bv ρ b w) :=
  bv_binary (f := fun y z => y.smtUDiv z) hs hk hw id rfl

theorem bv_bvURem (hs : s.Inv) (hk : s.kindAt t = some (.bvURem a b)) (hw : s.IsBv t w) :
    s.IsBv a w ∧ s.IsBv b w ∧ s.bv ρ t w = (s.bv ρ a w).umod (s.bv ρ b w) :=
  bv_binary (f := fun y z => y.umod z) hs hk hw id rfl

theorem bv_bvSDiv (hs : s.Inv) (hk : s.kindAt t = some (.bvSDiv a b)) (hw : s.IsBv t w) :
    s.IsBv a w ∧ s.IsBv b w ∧ s.bv ρ t w = (s.bv ρ a w).smtSDiv (s.bv ρ b w) :=
  bv_binary (f := fun y z => y.smtSDiv z) hs hk hw id rfl

theorem bv_bvShl (hs : s.Inv) (hk : s.kindAt t = some (.bvShl a b)) (hw : s.IsBv t w) :
    s.IsBv a w ∧ s.IsBv b w ∧ s.bv ρ t w = s.bv ρ a w <<< s.bv ρ b w :=
  bv_binary (f := fun y z => y <<< z) hs hk hw id rfl

theorem bv_bvLShr (hs : s.Inv) (hk : s.kindAt t = some (.bvLShr a b)) (hw : s.IsBv t w) :
    s.IsBv a w ∧ s.IsBv b w ∧ s.bv ρ t w = s.bv ρ a w >>> s.bv ρ b w :=
  bv_binary (f := fun y z => y >>> z) hs hk hw id rfl

theorem bv_bvAShr (hs : s.Inv) (hk : s.kindAt t = some (.bvAShr a b)) (hw : s.IsBv t w) :
    s.IsBv a w ∧ s.IsBv b w ∧ s.bv ρ t w = (s.bv ρ a w).sshiftRight' (s.bv ρ b w) :=
  bv_binary (f := fun y z => y.sshiftRight' z) hs hk hw id rfl

/-- The sorts of a choice. -/
theorem Inv.bvIte_sort (hs : s.Inv) (hk : s.kindAt t = some (.bvIte c a b)) (hw : s.IsBv t w) :
    s.sortAt c = some .bool ∧ s.IsBv a w ∧ s.IsBv b w := by
  obtain ⟨v, hv, hc, ha, hb⟩ := hs.sort_kind hk hw
  obtain rfl : w = v := by simpa using hv
  exact ⟨hc, ha, hb⟩

theorem bv_bvIte (hs : s.Inv) (hk : s.kindAt t = some (.bvIte c a b)) :
    s.bv ρ t w = if s.IsTrue ρ c then s.bv ρ a w else s.bv ρ b w := by
  rw [bv, value_bvIte hs hk, apply_ite (Value.toBv w)]
  rfl

/-- The extension of a word of width `v`. -/
theorem bv_bvSignExtend {extra : Nat} (hs : s.Inv) (hk : s.kindAt t = some (.bvSignExtend c extra))
    (hc : s.IsBv c v) :
    s.IsBv t (v + extra) ∧ s.bv ρ t (v + extra) = (s.bv ρ c v).signExtend (v + extra) := by
  obtain ⟨σ, ht, v', rfl, hc'⟩ := hs.hasSort hk
  obtain rfl := hc.inj hc'
  refine ⟨ht, ?_⟩
  rw [bv, hs.value_kind hk, NodeKind.sem, hc.value_eq hs, Smt.signExtend_bv, Value.toBv_bv]

theorem bv_bvZeroExtend {extra : Nat} (hs : s.Inv) (hk : s.kindAt t = some (.bvZeroExtend c extra))
    (hc : s.IsBv c v) :
    s.IsBv t (v + extra) ∧ s.bv ρ t (v + extra) = (s.bv ρ c v).setWidth (v + extra) := by
  obtain ⟨σ, ht, v', rfl, hc'⟩ := hs.hasSort hk
  obtain rfl := hc.inj hc'
  refine ⟨ht, ?_⟩
  rw [bv, hs.value_kind hk, NodeKind.sem, hc.value_eq hs, Smt.zeroExtend_bv, Value.toBv_bv]

/-! ## Comparisons -/

theorem isTrue_bvEq_bv (hs : s.Inv) (hk : s.kindAt t = some (.bvEq a b)) (ha : s.IsBv a w) :
    s.IsBv b w ∧ (s.IsTrue ρ t ↔ s.bv ρ a w = s.bv ρ b w) := by
  obtain ⟨v, ha', hb⟩ := hs.bvEq_sort hk
  obtain rfl := ha.inj ha'
  exact ⟨hb, (isTrue_bvEq hs hk).trans (value_eq_iff_bv hs ha hb)⟩

/-- The operands of a comparison are vectors of one width. -/
theorem Inv.bvUlt_sort (hs : s.Inv) (hk : s.kindAt t = some (.bvUlt a b)) :
    ∃ w, s.IsBv a w ∧ s.IsBv b w := by
  obtain ⟨σ, -, w, -, ha, hb⟩ := hs.hasSort hk
  exact ⟨w, ha, hb⟩

theorem isTrue_bvUlt (hs : s.Inv) (hk : s.kindAt t = some (.bvUlt a b)) :
    s.IsTrue ρ t ↔ s.num ρ a < s.num ρ b := by
  obtain ⟨w, ha, hb⟩ := hs.bvUlt_sort hk
  have hda := ha.denotes (ρ := ρ) hs
  have hdb := hb.denotes (ρ := ρ) hs
  simp only [IsTrue, hs.value_kind hk, NodeKind.sem, Smt.bvult]
  rw [hda.value, hdb.value, Value.rel₂_bv, Value.toBool_bool, BitVec.ult_iff_lt, BitVec.lt_def,
    hda.num, hdb.num]

end Arena
end Qfbv
end SmtServer
