import SmtServer.Qfbv.Builder.Reads

/-!
# Bits that may be set

`possible_bit_mask_bytes` computes, for a term, a vector that has every bit set that the term can
have set, whatever the assignment (`possibleBitMaskBytes_covers`). Two terms whose masks have no bit
in common are disjoint, and disjoint vectors are added, or-ed and xor-ed alike.
-/

namespace SmtServer
namespace Qfbv

open Lib Outcome Bytes
open Lib.Smt (Value)

namespace Builder

variable {s : Arena} {ρ : Env} {t a b : TermId} {w v : Nat} {x y m n : BitVec w}

/-- Every bit set in `x` is set in `m`. -/
def Covers (m x : BitVec w) : Prop := ∀ i, x.getLsbD i = true → m.getLsbD i = true

/-- A mask, where there is one, covers `x`. -/
def Masks (r : Option (List UInt8)) (x : BitVec w) : Prop :=
  ∀ mask, r = some mask → ∃ m : BitVec w, Spells mask m ∧ Covers m x

theorem masks_none : Masks none x := nofun

theorem masks_some {mask : List UInt8} (hm : Spells mask m) (hc : Covers m x) :
    Masks (some mask) x := by
  rintro _ ⟨⟩
  exact ⟨m, hm, hc⟩

theorem Masks.map {r : Option (List UInt8)} {f : List UInt8 → List UInt8} {z : BitVec v}
    (h : Masks r z)
    (hf : ∀ mask (m : BitVec v), Spells mask m → Covers m z → Masks (some (f mask)) x) :
    Masks (r.map f) x := by
  cases r with
  | none => exact masks_none
  | some mask =>
    obtain ⟨m, hm, hc⟩ := h mask rfl
    exact hf mask m hm hc

theorem Covers.and_left (h : Covers m x) : Covers m (x &&& y) := by
  intro i hi
  rw [BitVec.getLsbD_and, Bool.and_eq_true] at hi
  exact h i hi.1

theorem Covers.and_right (h : Covers m y) : Covers m (x &&& y) := by
  intro i hi
  rw [BitVec.getLsbD_and, Bool.and_eq_true] at hi
  exact h i hi.2

theorem Covers.and (hm : Covers m x) (hn : Covers n y) : Covers (m &&& n) (x &&& y) := by
  intro i hi
  rw [BitVec.getLsbD_and, hm.and_left i hi, hn.and_right i hi, Bool.and_self]

theorem Covers.or (hm : Covers m x) (hn : Covers n y) : Covers (m ||| n) (x ||| y) := by
  intro i hi
  rw [BitVec.getLsbD_or, Bool.or_eq_true] at hi ⊢
  exact hi.imp (hm i) (hn i)

theorem Covers.xor (hm : Covers m x) (hn : Covers n y) : Covers (m ||| n) (x ^^^ y) := by
  intro i hi
  rw [BitVec.getLsbD_or, Bool.or_eq_true]
  rw [BitVec.getLsbD_xor] at hi
  cases hx : x.getLsbD i with
  | true => exact .inl (hm i hx)
  | false =>
    rw [hx, Bool.false_xor] at hi
    exact .inr (hn i hi)

theorem Covers.shl (h : Covers m x) (amount : Nat) : Covers (m <<< amount) (x <<< amount) := by
  intro i hi
  rw [BitVec.getLsbD_shiftLeft] at hi ⊢
  rw [Bool.and_eq_true] at hi ⊢
  exact ⟨hi.1, h _ hi.2⟩

theorem Covers.lshr (h : Covers m x) (amount : Nat) : Covers (m >>> amount) (x >>> amount) := by
  intro i hi
  rw [BitVec.getLsbD_ushiftRight] at hi ⊢
  exact h _ hi

theorem covers_allOnes (x : BitVec w) : Covers (.allOnes w) x := by
  intro i hi
  rw [BitVec.getLsbD_allOnes, decide_eq_true_iff]
  exact BitVec.lt_of_getLsbD hi

/-- Two masks for the two operands. -/
theorem masks_zip {l r : Option (List UInt8)} {f : List UInt8 → List UInt8 → List UInt8}
    {u : Nat} {y : BitVec u} {z : BitVec v} : Masks l y → Masks r z →
    (∀ lm rm (m : BitVec u) (n : BitVec v), Spells lm m → Spells rm n → Covers m y → Covers n z →
      Masks (some (f lm rm)) x) →
    Reads (match l, r with
      | some lm, some rm => pure (some (f lm rm))
      | _, _ => pure none : ArenaR (Option (List UInt8))) s fun r => Masks r x := by
  intro hl hr hf
  cases l with
  | none => exact reads_pure masks_none
  | some lm =>
    cases r with
    | none => exact reads_pure masks_none
    | some rm =>
      obtain ⟨m, hm, hcm⟩ := hl lm rfl
      obtain ⟨n, hn, hcn⟩ := hr rm rfl
      exact reads_pure (hf lm rm m n hm hn hcm hcn)

/-- The masks of a term that is cut, joined or shifted, from the masks of its parts. -/
theorem possibleBitMaskBytes_covers (hs : s.Inv) (rounds : Nat) (h : s.Denotes ρ t x) :
    Reads (possibleBitMaskBytes rounds t w) s fun r => Masks r x := by
  induction rounds generalizing t w with
  | zero => exact reads_pure masks_none
  | succ rounds ih =>
    rw [possibleBitMaskBytes]
    split
    · exact reads_pure masks_none
    obtain ⟨k, hk⟩ := kind_of_sort h.sort
    obtain ⟨node, hnode, rfl⟩ := node_of_kind hk
    refine reads_bind (Arena.bytesForWidth_ok (hs.width h)) (reads_bind hnode ?_)
    split
    case h_1 actualWidth bytes heq =>
      rw [heq] at hk
      obtain ⟨rfl, hb⟩ := hs.bvConst h hk
      rw [if_pos rfl]
      refine reads_pure (masks_some ?_ fun i hi => hi)
      have hr : resize bytes (divCeil8 actualWidth) = bytes := by
        rw [resize, ← hb.length, List.take_length, Nat.sub_self, List.replicate_zero,
          List.append_nil]
      rw [hr, hb.mask]
      exact hb
    case h_2 actual name external heq =>
      rw [heq] at hk
      split
      · exact reads_pure (masks_some (Spells.allOnes w) (covers_allOnes x))
      · exact reads_pure masks_none
    case h_3 child extra heq =>
      rw [heq] at hk
      obtain ⟨v, z, rfl, hz, hbits⟩ := hs.bvZeroExtend h hk
      refine reads_bind (Arena.sort_eq_ok.mpr hz.sort) ?_
      dsimp only
      rw [if_pos rfl]
      refine (ih hz).bind fun r hr => reads_pure (hr.map fun mask m hm hc => ?_)
      have hext := hm.zextBytes extra
      rw [hext.mask]
      refine masks_some hext fun i hi => ?_
      rw [BitVec.getLsbD_setWidth, Bool.and_eq_true, decide_eq_true_iff]
      exact ⟨BitVec.lt_of_getLsbD hi, hc i (hbits i ▸ hi)⟩
    case h_4 value amount heq =>
      rw [heq] at hk
      obtain ⟨y, z, hy, hz, rfl⟩ := hs.bvShl h hk
      rcases constShiftAmount_cases hs hz with ⟨-, hrun⟩ | ⟨-, hrun⟩
      · refine reads_bind hrun ((ih hy).bind fun r hr => reads_pure (hr.map fun mask m hm hc => ?_))
        rw [← shl_min]
        exact masks_some (hm.shlBytes _) (hc.shl _)
      · exact reads_bind hrun (reads_pure masks_none)
    case h_5 value amount heq =>
      rw [heq] at hk
      obtain ⟨y, z, hy, hz, rfl⟩ := hs.bvLShr h hk
      rcases constShiftAmount_cases hs hz with ⟨-, hrun⟩ | ⟨-, hrun⟩
      · refine reads_bind hrun ((ih hy).bind fun r hr => reads_pure (hr.map fun mask m hm hc => ?_))
        rw [← lshr_min]
        exact masks_some (hm.lshrBytes _) (hc.lshr _)
      · exact reads_bind hrun (reads_pure masks_none)
    case h_6 child high low heq =>
      rw [heq] at hk
      obtain ⟨v, z, rfl, -, -, hz, hbits⟩ := hs.bvExtract h hk
      refine reads_bind (Arena.sort_eq_ok.mpr hz.sort) ?_
      dsimp only
      rw [if_neg (not_not_intro rfl)]
      refine (ih hz).bind fun r hr => reads_pure (hr.map fun mask m hm hc => ?_)
      refine masks_some (hm.extractBytes low _) fun i hi => ?_
      have hlt := BitVec.lt_of_getLsbD hi
      rw [BitVec.getLsbD_extractLsb', Bool.and_eq_true, decide_eq_true_iff]
      exact ⟨hlt, hc _ (hbits i hlt ▸ hi)⟩
    case h_7 high low heq =>
      rw [heq] at hk
      obtain ⟨hw, lw, y, z, rfl, hy, hz, hbits⟩ := hs.bvConcat h hk
      refine reads_bind (Arena.sort_eq_ok.mpr hy.sort) (reads_bind (Arena.sort_eq_ok.mpr hz.sort) ?_)
      dsimp only
      rw [if_neg (not_not_intro rfl)]
      refine (ih hy).bind fun l hl => (ih hz).bind fun r hr => ?_
      refine masks_zip hl hr fun hm lm m n hhm hlm hcm hcn => ?_
      refine masks_some (hhm.concatBytes hlm) fun i hi => ?_
      rw [hbits] at hi
      rw [BitVec.getLsbD_append]
      split at hi
      · rw [if_pos ‹_›]
        exact hcn i hi
      · rw [if_neg ‹_›]
        exact hcm _ hi
    case h_8 left right heq =>
      rw [heq] at hk
      obtain ⟨y, z, hy, hz, rfl⟩ := hs.bvAnd h hk
      refine (ih hy).bind fun l hl => (ih hz).bind fun r hr => ?_
      -- one mask is enough
      split
      · obtain ⟨m, hm, hcm⟩ := hl _ rfl
        obtain ⟨n, hn, hcn⟩ := hr _ rfl
        exact reads_pure (masks_some (hm.andBytes hn) (hcm.and hcn))
      · obtain ⟨m, hm, hcm⟩ := hl _ rfl
        exact reads_pure (masks_some hm hcm.and_left)
      · obtain ⟨n, hn, hcn⟩ := hr _ rfl
        exact reads_pure (masks_some hn hcn.and_right)
      · exact reads_pure masks_none
    case h_9 left right heq =>
      rw [heq] at hk
      obtain ⟨y, z, hy, hz, rfl⟩ := hs.bvOr h hk
      refine (ih hy).bind fun l hl => (ih hz).bind fun r hr => ?_
      exact masks_zip hl hr fun lm rm m n hm hn hcm hcn => masks_some (hm.orBytes hn) (hcm.or hcn)
    case h_10 left right heq =>
      rw [heq] at hk
      obtain ⟨y, z, hy, hz, rfl⟩ := hs.bvXor h hk
      refine (ih hy).bind fun l hl => (ih hz).bind fun r hr => ?_
      exact masks_zip hl hr fun lm rm m n hm hn hcm hcn => masks_some (hm.orBytes hn) (hcm.xor hcn)
    case h_11 =>
      exact reads_pure masks_none

/-! ## Disjoint terms -/

/-- Two terms with no bit in common. -/
theorem haveDisjointPossibleBits_spec (hs : s.Inv) (ha : s.Denotes ρ a x) (hb : s.Denotes ρ b y) :
    Reads (haveDisjointPossibleBits a b w) s fun d => d = true → x &&& y = 0 := by
  rw [haveDisjointPossibleBits]
  split
  · exact reads_pure nofun
  refine (possibleBitMaskBytes_covers hs 65 ha).bind fun l hl => ?_
  refine (possibleBitMaskBytes_covers hs 65 hb).bind fun r hr => ?_
  split
  · obtain ⟨m, hm, hcm⟩ := hl _ rfl
    obtain ⟨n, hn, hcn⟩ := hr _ rfl
    refine reads_pure fun hzero => ?_
    have hmn : m &&& n = 0 := (hm.andBytes hn).isZeroBytes.mp hzero
    refine BitVec.eq_of_getLsbD_eq fun i _ => ?_
    have hcover := (hcm.and hcn) i
    rw [hmn] at hcover
    simpa using hcover
  · exact reads_pure nofun

theorem add_eq_or (h : x &&& y = 0) : x + y = x ||| y := BitVec.add_eq_or_of_and_eq_zero x y h

theorem xor_eq_or (h : x &&& y = 0) : x ^^^ y = x ||| y := by
  refine BitVec.eq_of_getLsbD_eq fun i _ => ?_
  have hi := congrArg (fun z : BitVec w => z.getLsbD i) h
  rw [BitVec.getLsbD_xor, BitVec.getLsbD_or]
  revert hi
  cases hx : x.getLsbD i <;> cases hy : y.getLsbD i <;> simp [hx, hy]

/-- A vector has no bit in common with itself shifted left by itself: its bits are below its
value. -/
theorem and_shl_self (x : BitVec w) : x &&& (x <<< x) = 0 := by
  refine BitVec.eq_of_getLsbD_eq fun i hi => ?_
  rw [BitVec.shiftLeft_eq', BitVec.getLsbD_and, BitVec.getLsbD_shiftLeft]
  by_cases hlt : i < x.toNat
  · simp [hlt]
  · have hbit : x.getLsbD i = false := by
      rw [← BitVec.testBit_toNat]
      exact Nat.testBit_lt_two_pow (lt_of_le_of_lt (not_lt.mp hlt) Nat.lt_two_pow_self)
    simp [hbit]

end Builder
end Qfbv
end SmtServer
