import SmtServer.Qfbv.Builder.Sound

/-!
# Shifts and products mean what they say

A negation is pulled out of a left shift, so a shift calls itself on an operand that comes earlier
in the arena; a product does the same with the negations and the shifts of its factors.

Nested right shifts are put in the order of their amounts. The second of the two shifts this takes
is by the larger amount, and it stops at once: nothing a right shift returns has an outer amount
above the amounts it was made of (`OuterLe`).
-/

namespace SmtServer
namespace Qfbv

open Lib Outcome Bytes
open Lib.Smt (Value)

namespace Builder

variable {V : NodeKind → Prop} {s s' : Arena} {ρ : Env}
variable {t a b : TermId} {w : Nat} {x y z : BitVec w}

/-! ## Shifts by constants -/

theorem toNat_zero : (0 : BitVec w).toNat = 0 := BitVec.toNat_zero

theorem eq_zero_of_toNat (h : y.toNat = 0) : y = 0 := BitVec.eq_of_toNat_eq (h.trans toNat_zero.symm)

/-- The block that left and right shifts share. -/
theorem shiftByConst_spec {fold : List UInt8 → Nat → Nat → List UInt8} {Q : TermId → Arena → Prop}
    {r : BitVec w} (ha : s.Denotes ρ a x) (hb : s.Denotes ρ b y)
    (hzero : y = 0 → Q a s) (hbig : w ≤ y.toNat → r = 0)
    (hfold : ∀ bytes, Spells bytes x → y.toNat < w → Spells (fold bytes w y.toNat) r)
    (hconst : ∀ t s', ConstTerm s' t r → Built V s' → Q t s') :
    Spec V (shiftByConst a b w fold) s fun found s' =>
      (∀ t, found = some t → Q t s') ∧ (found = none → s' = s ∧
        ∀ j k, s.kindAt a = some j → s.kindAt b = some k → ¬(j.IsConst ∧ k.IsConst)) := by
  refine Spec.intro fun hs => ?_
  have hw := hs.inv.denotes_sortOk ha
  refine spec_shiftAmount hs.inv hb (fun bytes hkb => ?_) fun hkb => ?_
  · dsimp only
    split
    · rename_i hamount
      have hy : y = 0 := eq_zero_of_toNat (by have := hw.1; omega)
      refine spec_pure ⟨?_, nofun⟩
      rintro _ ⟨⟩
      exact hzero hy
    split
    · rename_i hamount
      refine (zero_spec hw).bind fun t s' _ hs' ht => spec_pure ⟨?_, nofun⟩
      rintro _ ⟨⟩
      exact hconst t s' (hbig (by omega) ▸ ht) hs'
    rename_i hamount
    rw [Nat.min_eq_left (by omega)]
    refine spec_constValue hs.inv ha (fun bytes _ hbytes => ?_) fun hka => ?_
    · refine (bvConstBytes_spec hw (hfold bytes hbytes (by omega))).bind fun t s' _ hs' ht => ?_
      refine spec_pure ⟨?_, nofun⟩
      rintro _ ⟨⟩
      exact hconst t s' ht hs'
    · exact spec_pure ⟨nofun, fun _ => ⟨rfl, fun j k hj _ hc => hka j hj hc.1⟩⟩
  · exact spec_pure ⟨nofun, fun _ => ⟨rfl, fun j k _ hk hc => hkb k hk hc.2⟩⟩

theorem shl_zero (x : BitVec w) : x <<< (0 : BitVec w) = x := by
  rw [BitVec.shiftLeft_eq', toNat_zero, BitVec.shiftLeft_zero]

theorem lshr_zero (x : BitVec w) : x >>> (0 : BitVec w) = x := by
  rw [BitVec.ushiftRight_eq', toNat_zero, BitVec.ushiftRight_zero]

theorem zero_shl (y : BitVec w) : (0 : BitVec w) <<< y = 0 := by
  rw [BitVec.shiftLeft_eq']
  exact BitVec.zero_shiftLeft _

theorem zero_lshr (y : BitVec w) : (0 : BitVec w) >>> y = 0 := by
  rw [BitVec.ushiftRight_eq']
  exact BitVec.zero_ushiftRight

/-- A left shift is a product with a power of two. -/
theorem shl_eq_mul (x y : BitVec w) : x <<< y = x * BitVec.twoPow w y.toNat := by
  rw [BitVec.shiftLeft_eq', BitVec.shiftLeft_eq_mul_twoPow]

theorem neg_shl (x y : BitVec w) : (-x) <<< y = -(x <<< y) := by
  rw [shl_eq_mul, shl_eq_mul, BitVec.neg_mul]

theorem shl_mul (x y z : BitVec w) : (x <<< y) * z = (x * z) <<< y := by
  rw [shl_eq_mul, shl_eq_mul, BitVec.mul_assoc, BitVec.mul_comm _ z, BitVec.mul_assoc]

theorem mul_shl (x y z : BitVec w) : x * (y <<< z) = (x * y) <<< z := by
  rw [shl_eq_mul, shl_eq_mul, BitVec.mul_assoc]

theorem bvShlRounds_spec {rounds : Nat} (ha : s.Denotes ρ a x) (hb : s.Denotes ρ b y)
    (hrounds : a < rounds) :
    Spec V (bvShlRounds rounds a b) s fun t s' => s'.Denotes ρ t (x <<< y) := by
  induction rounds generalizing a x with
  | zero => exact absurd hrounds (Nat.not_lt_zero a)
  | succ rounds ih =>
    refine Spec.intro fun hs => ?_
    have hw := hs.inv.denotes_sortOk ha
    refine spec_read (Arena.expectSameBv_of_sort ha.sort hb.sort) ?_
    refine spec_tells (tells_isZero ha) (fun hz => ?_) fun _ => ?_
    · obtain rfl := hz.eq hs.inv ha
      exact (zero_spec hw).const (zero_shl y).symm
    refine (shiftByConst_spec (Q := fun t s' => s'.Denotes ρ t (x <<< y)) (r := x <<< y) ha hb
      (fun hy => by rw [hy, shl_zero]; exact ha)
      (fun hbig => BitVec.shiftLeft_eq_zero hbig)
      (fun bytes hbytes _ => hbytes.shlBytes y.toNat)
      (fun t s' ht hs' => ht.denotes hs'.inv)).bind ?_
    rintro (_ | folded) s' - hs' ⟨hsome, hnone⟩
    · obtain ⟨rfl, hconst⟩ := hnone rfl
      refine spec_look ha.sort (fun k inner hk hf => ?_) fun k hk hf => ?_
      · -- the negation of an earlier term
        rw [NodeKind.bvNeg?_eq.mp hf] at hk
        obtain ⟨z, hz, rfl⟩ := hs.inv.bvNeg ha hk
        have hlt : inner < a := hs.inv.child_lt hk (by simp [NodeKind.children])
        refine (ih hz (lt_of_lt_of_le hlt (Nat.le_of_lt_succ hrounds))).bind fun shifted s₁ _ _ hshifted => ?_
        rw [neg_shl]
        exact bvNeg_spec hshifted
      · exact Spec.binaryNode (k := .bvShl a b) (f := fun y z => y <<< z) ha hb
          (fun hca hcb => ⟨_, rfl, hca, hcb⟩) rfl hconst
    · exact spec_pure (hsome folded rfl)

theorem bvShl_spec (ha : s.Denotes ρ a x) (hb : s.Denotes ρ b y) :
    Spec V (bvShl a b) s fun t s' => s'.Denotes ρ t (x <<< y) :=
  bvShlRounds_spec ha hb (Nat.lt_succ_self a)

/-! ## Right shifts -/

/-- A term that is a right shift is one by an amount of at most this id. -/
def OuterLe (s : Arena) (t : TermId) (bound : TermId) : Prop :=
  ∀ inner amount, s.kindAt t = some (.bvLShr inner amount) → amount ≤ bound

theorem ConstTerm.outerLe {bound : TermId} (h : ConstTerm s t x) : OuterLe s t bound := by
  intro inner amount hk
  obtain ⟨bytes, hk'⟩ := h.kind
  rw [hk'] at hk
  cases hk

theorem lshr_lshr (x y z : BitVec w) : (x >>> y) >>> z = (x >>> z) >>> y := by
  simp only [BitVec.ushiftRight_eq']
  rw [← BitVec.shiftRight_add, ← BitVec.shiftRight_add, Nat.add_comm]

theorem lshr_self (x : BitVec w) : x >>> x = 0 := by
  refine BitVec.eq_of_toNat_eq ?_
  rw [BitVec.ushiftRight_eq', BitVec.toNat_ushiftRight, Nat.shiftRight_eq_div_pow,
    Nat.div_eq_of_lt Nat.lt_two_pow_self, toNat_zero]

/-- What a right shift returns: the shifted vector, with no outer amount above those it has. -/
def LshrResult (s : Arena) (ρ : Env) (a b : TermId) {w : Nat} (x y : BitVec w) (t : TermId)
    (s' : Arena) : Prop :=
  s'.Denotes ρ t (x >>> y) ∧ ∀ bound, b ≤ bound → OuterLe s a bound → OuterLe s' t bound

theorem ConstTerm.lshr {r : BitVec w} (h : ConstTerm s' t r) (hs' : s'.Inv) (hr : r = x >>> y) :
    LshrResult s ρ a b x y t s' :=
  ⟨hr ▸ h.denotes hs', fun _ _ _ => h.outerLe⟩

theorem bvLshrRounds_spec {rounds : Nat} (ha : s.Denotes ρ a x) (hb : s.Denotes ρ b y)
    (hrounds : a < rounds ∨ (0 < rounds ∧ OuterLe s a b)) :
    Spec V (bvLshrRounds rounds a b) s (LshrResult s ρ a b x y) := by
  induction rounds generalizing s a b x y with
  | zero =>
    rcases hrounds with h | h
    · exact absurd h (Nat.not_lt_zero a)
    · exact absurd h.1 (lt_irrefl 0)
  | succ rounds ih =>
    refine Spec.intro fun hs => ?_
    have hw := hs.inv.denotes_sortOk ha
    refine spec_read (Arena.expectSameBv_of_sort ha.sort hb.sort) ?_
    obtain ⟨v, hv, hzero⟩ := tells_isZero ha
    refine spec_read hv ?_
    split
    · rename_i hor
      refine (zero_spec hw).mono fun t s' _ hs' ht => ht.lshr hs'.inv ?_
      rcases hor with rfl | hor
      · rw [ha.inj hb, lshr_self]
      · rw [(hzero.mp hor).eq hs.inv ha, zero_lshr]
    refine (shiftByConst_spec (Q := LshrResult s ρ a b x y) (r := x >>> y) ha hb
      (fun hy => ⟨by rw [hy, lshr_zero]; exact ha, fun _ _ h => h⟩)
      (fun hbig => BitVec.ushiftRight_eq_zero hbig)
      (fun bytes hbytes _ => hbytes.lshrBytes y.toNat)
      (fun t s' ht hs' => ht.lshr hs'.inv rfl)).bind ?_
    rintro (_ | folded) s' - hs' ⟨hsome, hnone⟩
    swap
    · exact spec_pure (hsome folded rfl)
    obtain ⟨rfl, -⟩ := hnone rfl
    -- a node, if the amounts are in order
    have hnode (hc : ∀ inner amount, s'.kindAt a = some (.bvLShr inner amount) → amount ≤ b) :
        Spec V (Arena.add (.bvLShr a b) (.bv w)) s' (LshrResult s' ρ a b x y) := by
      refine (spec_add (k := .bvLShr a b) hw ⟨w, rfl, ha.sort, hb.sort⟩ hc).mono ?_
      intro t s₁ hle hs₁ hn
      refine ⟨hs₁.inv.denotes hn ?_, fun bound hbound _ inner amount hk => ?_⟩
      · rw [NodeKind.sem, (ha.mono hle).value, (hb.mono hle).value, Smt.bvlshr, Value.map₂_bv]
      · rw [Arena.kindAt_of_node hn] at hk
        cases hk
        exact hbound
    refine spec_look ha.sort (fun k p hk hf => ?_) fun k hk hf => ?_
    · obtain ⟨inner, innerAmount⟩ := p
      rw [NodeKind.bvLShr?_eq.mp hf] at hk
      dsimp only
      split
      · -- the amounts are put in order
        rename_i hlt
        obtain ⟨x', y', hx', hy', rfl⟩ := hs.inv.bvLShr ha hk
        have hinner : inner < a := hs.inv.child_lt hk (by simp [NodeKind.children])
        have hdeep : a < rounds + 1 := by
          rcases hrounds with h | ⟨-, h⟩
          · exact h
          · exact absurd (h inner innerAmount hk) (not_le.mpr hlt)
        have hmore : inner < rounds := lt_of_lt_of_le hinner (Nat.le_of_lt_succ hdeep)
        have hcanon : OuterLe s' inner innerAmount := hs.canonical a _ hk
        refine (ih hx' hb (.inl hmore)).bind fun shifted s₁ hle hs₁ hshifted => ?_
        have houter := hshifted.2 innerAmount hlt.le hcanon
        refine (ih hshifted.1 (hy'.mono hle) (.inr ⟨Nat.zero_lt_of_lt hmore, houter⟩)).mono ?_
        intro t s₂ _ _ ht
        refine ⟨lshr_lshr x' y' y ▸ ht.1, fun bound _ hbound => ?_⟩
        have hle' := hbound inner innerAmount hk
        exact ht.2 bound hle' fun i m hm => (houter i m hm).trans hle'
      · rename_i hlt
        refine hnode fun i m hm => ?_
        obtain ⟨rfl, rfl⟩ : inner = i ∧ innerAmount = m := by
          simpa using Option.some.inj (hk.symm.trans hm)
        exact not_lt.mp hlt
    · refine hnode fun i m hm => ?_
      obtain rfl := Option.some.inj (hk.symm.trans hm)
      simp [NodeKind.bvLShr?] at hf

theorem bvLshr_spec (ha : s.Denotes ρ a x) (hb : s.Denotes ρ b y) :
    Spec V (bvLshr a b) s fun t s' => s'.Denotes ρ t (x >>> y) :=
  (bvLshrRounds_spec ha hb (.inl (Nat.lt_add_of_pos_right (by decide)))).mono fun _ _ _ _ h => h.1

theorem ashr_zero (x : BitVec w) : x.sshiftRight' (0 : BitVec w) = x := by
  rw [BitVec.sshiftRight_eq', toNat_zero]
  exact BitVec.sshiftRight_zero

theorem bvAshr_spec (ha : s.Denotes ρ a x) (hb : s.Denotes ρ b y) :
    Spec V (bvAshr a b) s fun t s' => s'.Denotes ρ t (x.sshiftRight' y) := by
  refine Spec.intro fun hs => ?_
  have hw := hs.inv.denotes_sortOk ha
  have hnode : Spec V (Arena.add (.bvAShr a b) (.bv w)) s fun t s' =>
      s'.Denotes ρ t (x.sshiftRight' y) :=
    Spec.binaryNode (k := .bvAShr a b) (f := fun y z => y.sshiftRight' z) ha hb
      (fun hca hcb => ⟨_, rfl, hca, hcb⟩) rfl trivial
  refine spec_read (Arena.expectSameBv_of_sort ha.sort hb.sort) ?_
  refine spec_shiftAmount hs.inv hb (fun bytes _ => ?_) fun _ => hnode
  dsimp only
  split
  · rename_i hamount
    have hy : y = 0 := eq_zero_of_toNat (by have := hw.1; omega)
    refine spec_pure ?_
    rwa [hy, ashr_zero]
  refine spec_constValue hs.inv ha (fun bytes _ hbytes => ?_) fun _ => hnode
  refine (bvConstBytes_spec hw (hbytes.ashrBytes _)).const (ashr_min x y)

end Builder
end Qfbv
end SmtServer
