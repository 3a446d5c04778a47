import SmtServer.Qfbv.Builder.Masks

/-!
# Leaves, shifts and divisions mean what they say

One specification for each method: from an arena the builder built it does not panic, the arena it
leaves is one the builder could have built, and the term it returns denotes the result of the
operation. Rewriting is invisible in what they state.

Right shifts need one thing more. A nested right shift is taken apart and put together with its
amounts in order, and the second step stops because no result has an outer amount that is above
both amounts it was made of (`OuterLe`).
-/

namespace SmtServer
namespace Qfbv

open Lib Outcome Bytes
open Lib.Smt (Value)

namespace Builder

variable {V : NodeKind → Prop} {s s' : Arena} {ρ : Env}
variable {t a b : TermId} {w : Nat} {x y : BitVec w} {k : NodeKind}
  {bytes : List UInt8}

/-! ## Leaves -/

/-- The term is a constant, whatever the assignment. -/
def ConstTerm (s : Arena) (t : TermId) {w : Nat} (x : BitVec w) : Prop :=
  ∃ bytes, s.nodes[t]? = some ⟨.bvConst w bytes, .bv w⟩ ∧ Spells bytes x

theorem ConstTerm.kind (h : ConstTerm s t x) : ∃ bytes, s.kindAt t = some (.bvConst w bytes) := by
  obtain ⟨bytes, hn, -⟩ := h
  exact ⟨bytes, Arena.kindAt_of_node hn⟩

theorem ConstTerm.denotes (h : ConstTerm s t x) (hs : s.Inv) : s.Denotes ρ t x := by
  obtain ⟨bytes, hn, hb⟩ := h
  refine hs.denotes hn ?_
  rw [NodeKind.sem, hb.ofNat_leNat]

theorem normalizedBytes_ok (hw : Arena.SortOk (.bv w)) (h : Spells bytes x) :
    normalizedBytes bytes w = ok bytes := by
  simp [normalizedBytes, Arena.bytesForWidth_ok hw, Outcome.ensure, h.length, h.mask]

theorem bvConstBytes_spec (hw : Arena.SortOk (.bv w)) (h : Spells bytes x) :
    Spec V (bvConstBytes bytes w) s fun t s' => ConstTerm s' t x := by
  refine spec_read (normalizedBytes_ok hw h) ?_
  have hlt : leNat bytes < 2 ^ w := h.toNat ▸ x.isLt
  exact (spec_add (k := .bvConst w bytes) hw ⟨rfl, h.length, hlt⟩ trivial).mono fun t s' _ _ hn => ⟨bytes, hn, h⟩

theorem zero_spec (hw : Arena.SortOk (.bv w)) :
    Spec V (zero w) s fun t s' => ConstTerm s' t (0 : BitVec w) :=
  spec_read (Arena.bytesForWidth_ok hw) (bvConstBytes_spec hw (spells_zeros w))

theorem allOnes_spec (hw : Arena.SortOk (.bv w)) :
    Spec V (allOnes w) s fun t s' => ConstTerm s' t (BitVec.allOnes w) :=
  spec_read (Arena.bytesForWidth_ok hw) (bvConstBytes_spec hw (Spells.allOnes w))

theorem bvConst_spec (value : UInt64) (hw : Arena.SortOk (.bv w)) :
    Spec V (bvConst value w) s fun t s' => ConstTerm s' t (BitVec.ofNat w value.toNat) := by
  have hvalid : validateBvWidth w "BV constant width" = ok () := by
    simp [validateBvWidth, Outcome.ensure, hw.1, hw.2]
  refine spec_read hvalid (spec_read (Arena.bytesForWidth_ok hw) (bvConstBytes_spec hw ?_))
  have hraw : leNat (resize ((leBytes 8 value.toNat).take (divCeil8 w)) (divCeil8 w)) % 2 ^ w =
      value.toNat % 2 ^ w := by
    rw [leNat_resize (by rw [List.length_take]; omega), leNat_take, leNat_leBytes,
      Nat.mod_eq_of_lt (show value.toNat < 256 ^ 8 from value.toNat_lt),
      Nat.mod_mod_of_dvd _ (dvd_bytes w)]
  refine ⟨by rw [length_maskUnusedHighBits, length_resize], ?_⟩
  rw [leNat_maskUnusedHighBits (length_resize _ _), hraw, BitVec.toNat_ofNat]

/-- A folded result. -/
theorem Spec.const {m : ArenaM TermId} (h : Spec V m s fun t s' => ConstTerm s' t x) (hxy : x = y) :
    Spec V m s fun t s' => s'.Denotes ρ t y :=
  h.mono fun _ _ _ hs' hc => hxy ▸ hc.denotes hs'.inv

theorem boolConst_spec (v : Bool) :
    Spec V (boolConst v) s fun t s' => ∀ ρ, s'.DenotesBool ρ t v :=
  (spec_add (k := .boolConst v) (σ := .bool) trivial rfl trivial).mono fun _ _ _ hs' hn _ => hs'.inv.denotesBool hn rfl

/-! ## Negation, subtraction and division -/

theorem bvNot_spec (h : s.Denotes ρ t x) :
    Spec V (bvNot t) s fun t' s' => s'.Denotes ρ t' (~~~x) := by
  refine Spec.intro fun hs => ?_
  have hw := hs.inv.denotes_sortOk h
  refine spec_constValue hs.inv h (fun bytes _ hb => ?_) fun _ => ?_
  · exact (bvConstBytes_spec hw hb.notBytes).const rfl
  refine spec_look h.sort (fun k inner hk hf => ?_) fun k hk hf => ?_
  · rw [NodeKind.bvNot?_eq.mp hf] at hk
    obtain ⟨y, hy, rfl⟩ := hs.inv.bvNot h hk
    exact spec_pure (by rwa [BitVec.not_not])
  · refine spec_read (Arena.expectBv_of_sort h.sort) ?_
    exact Spec.unaryNode (k := .bvNot t) (f := fun y => ~~~y) h (fun hc => ⟨_, rfl, hc⟩) rfl trivial

theorem bvNeg_spec (h : s.Denotes ρ t x) : Spec V (bvNeg t) s fun t' s' => s'.Denotes ρ t' (-x) := by
  refine Spec.intro fun hs => ?_
  have hw := hs.inv.denotes_sortOk h
  refine spec_constValue hs.inv h (fun bytes _ hb => ?_) fun _ => ?_
  · exact (bvConstBytes_spec hw hb.negBytes).const rfl
  refine spec_look h.sort (fun k inner hk hf => ?_) fun k hk hf => ?_
  · rw [NodeKind.bvNeg?_eq.mp hf] at hk
    obtain ⟨y, hy, rfl⟩ := hs.inv.bvNeg h hk
    exact spec_pure (by rwa [BitVec.neg_neg])
  · refine spec_read (Arena.expectBv_of_sort h.sort) ?_
    exact Spec.unaryNode (k := .bvNeg t) (f := fun y => -y) h (fun hc => ⟨_, rfl, hc⟩) rfl trivial

theorem bvSub_spec (ha : s.Denotes ρ a x) (hb : s.Denotes ρ b y) :
    Spec V (bvSub a b) s fun t s' => s'.Denotes ρ t (x - y) := by
  refine Spec.intro fun hs => ?_
  have hw := hs.inv.denotes_sortOk ha
  refine spec_read (Arena.expectSameBv_of_sort ha.sort hb.sort) ?_
  obtain ⟨v, hv, hzeros⟩ := (tells_isZero ha).and (tells_isZero hb)
  refine spec_read hv ?_
  split
  · rename_i hor
    refine (zero_spec hw).const ?_
    rcases hor with rfl | hor
    · rw [ha.inj hb, BitVec.sub_self]
      rfl
    · obtain ⟨hza, hzb⟩ := hzeros.mp hor
      obtain rfl := hza.eq hs.inv ha
      obtain rfl := hzb.eq hs.inv hb
      exact (BitVec.sub_zero _).symm
  refine spec_tells (tells_isZero hb) (fun hz => ?_) fun _ => ?_
  · obtain rfl := hz.eq hs.inv hb
    refine spec_pure ?_
    rwa [show x - 0 = x from BitVec.sub_zero x]
  refine spec_constPair hs.inv ha hb (fun av bv hav hbv => ?_) fun _ => ?_
  · exact (bvConstBytes_spec hw (hav.subBytes hbv)).const rfl
  · exact Spec.binaryNode (k := .bvSub a b) (f := fun y z => y - z) ha hb
      (fun hca hcb => ⟨_, rfl, hca, hcb⟩) rfl trivial

theorem one_ne_zero (hw : Arena.SortOk (.bv w)) : (1 : BitVec w) ≠ 0 := by
  intro h
  have htoNat := congrArg BitVec.toNat h
  rw [show (1 : BitVec w).toNat = 1 from BitVec.toNat_one hw.1] at htoNat
  simp at htoNat

theorem bvUdiv_spec (ha : s.Denotes ρ a x) (hb : s.Denotes ρ b y) :
    Spec V (bvUdiv a b) s fun t s' => s'.Denotes ρ t (x.smtUDiv y) := by
  refine Spec.intro fun hs => ?_
  have hw := hs.inv.denotes_sortOk ha
  refine spec_read (Arena.expectSameBv_of_sort ha.sort hb.sort) ?_
  refine spec_tells (tells_isZero hb) (fun hz => ?_) fun _ => ?_
  · obtain rfl := hz.eq hs.inv hb
    exact (allOnes_spec hw).const BitVec.smtUDiv_zero.symm
  refine spec_tells (tells_isOne hb) (fun ho => ?_) fun _ => ?_
  · obtain rfl := ho.eq hs.inv hb
    refine spec_pure ?_
    have hne : (1 : BitVec w) ≠ 0#w := one_ne_zero hw
    rwa [BitVec.smtUDiv_eq, if_neg hne, show x / 1 = x from BitVec.udiv_one]
  obtain ⟨v, hv, hzero⟩ := tells_isZero ha
  have hnode : Spec V (Arena.add (.bvUDiv a b) (.bv w)) s fun t s' =>
      s'.Denotes ρ t (x.smtUDiv y) :=
    Spec.binaryNode (k := .bvUDiv a b) (f := fun y z => y.smtUDiv z) ha hb
      (fun hca hcb => ⟨_, rfl, hca, hcb⟩) rfl trivial
  refine spec_read hv (spec_constValue hs.inv hb (fun bytes hk hbytes => ?_) fun _ => ?_)
  · split
    · -- zero by a constant that is not zero
      rename_i hand
      obtain rfl := (hzero.mp hand.1).eq hs.inv ha
      have hne : y ≠ 0#w := fun hy => ‹¬ZeroAt s b› ⟨w, bytes, hk, hbytes.isZeroBytes.mpr hy⟩
      refine (zero_spec hw).const ?_
      rw [BitVec.smtUDiv_eq, if_neg hne]
      exact BitVec.zero_udiv.symm
    · exact hnode
  · rw [if_neg fun hand => by simpa using hand.2]
    exact hnode

theorem bvUrem_spec (ha : s.Denotes ρ a x) (hb : s.Denotes ρ b y) :
    Spec V (bvUrem a b) s fun t s' => s'.Denotes ρ t (x.umod y) := by
  refine Spec.intro fun hs => ?_
  have hw := hs.inv.denotes_sortOk ha
  refine spec_read (Arena.expectSameBv_of_sort ha.sort hb.sort) ?_
  refine spec_tells ((tells_isZero ha).or (tells_isOne hb)) (fun hor => ?_) fun _ => ?_
  · refine (zero_spec hw).const ?_
    rcases hor with hz | ho
    · obtain rfl := hz.eq hs.inv ha
      exact BitVec.zero_umod.symm
    · obtain rfl := ho.eq hs.inv hb
      exact BitVec.umod_one.symm
  refine spec_tells (tells_isZero hb) (fun hz => ?_) fun _ => ?_
  · obtain rfl := hz.eq hs.inv hb
    refine spec_pure ?_
    rwa [show x.umod 0 = x from BitVec.umod_zero]
  · exact Spec.binaryNode (k := .bvURem a b) (f := fun y z => y.umod z) ha hb
      (fun hca hcb => ⟨_, rfl, hca, hcb⟩) rfl trivial

theorem bvBinary_spec {f : TermId → TermId → NodeKind}
    {o : ∀ {w : Nat}, BitVec w → BitVec w → BitVec w} (ha : s.Denotes ρ a x)
    (hb : s.Denotes ρ b y)
    (hsort : ∀ {srt w}, srt a = some (.bv w) → srt b = some (.bv w) → (f a b).HasSort srt (.bv w))
    (hsem : ∀ {ρ id look}, (f a b).sem ρ id look = Value.map₂ o (look a) (look b))
    (hc : (f a b).Canonical V s.kindAt) :
    Spec V (bvBinary a b f) s fun t s' => s'.Denotes ρ t (o x y) :=
  spec_read (Arena.expectSameBv_of_sort ha.sort hb.sort) (Spec.binaryNode ha hb hsort hsem hc)

theorem bvSdiv_spec (ha : s.Denotes ρ a x) (hb : s.Denotes ρ b y) :
    Spec V (bvSdiv a b) s fun t s' => s'.Denotes ρ t (x.smtSDiv y) :=
  bvBinary_spec (f := .bvSDiv) (o := fun y z => y.smtSDiv z) ha hb
    (fun hca hcb => ⟨_, rfl, hca, hcb⟩) rfl trivial

theorem bvSrem_spec (ha : s.Denotes ρ a x) (hb : s.Denotes ρ b y) :
    Spec V (bvSrem a b) s fun t s' => s'.Denotes ρ t (x.srem y) :=
  bvBinary_spec (f := .bvSRem) (o := fun y z => y.srem z) ha hb
    (fun hca hcb => ⟨_, rfl, hca, hcb⟩) rfl trivial

theorem bvSmod_spec (ha : s.Denotes ρ a x) (hb : s.Denotes ρ b y) :
    Spec V (bvSmod a b) s fun t s' => s'.Denotes ρ t (x.smod y) :=
  bvBinary_spec (f := .bvSMod) (o := fun y z => y.smod z) ha hb
    (fun hca hcb => ⟨_, rfl, hca, hcb⟩) rfl trivial

end Builder
end Qfbv
end SmtServer
