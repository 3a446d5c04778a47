import SmtServer.Qfbv.Builder.Sums

/-!
# Sums and bitwise operations mean what they say

Sums and disjunctions call each other: a sum of disjoint vectors is their disjunction, and the
disjunction of `x` and `x << x` is their sum. That stops because a term `x << x` has no mask, `x`
not being a constant; and a sum calls a sum only with a constant, where nothing is left to rewrite.
-/

namespace SmtServer
namespace Qfbv

open Lib Outcome Bytes
open Lib.Smt (Value)

namespace Builder

variable {V : NodeKind → Prop} {s s' : Arena} {ρ : Env}
variable {t a b c : TermId} {w : Nat} {x y z : BitVec w}

/-! ## Complements and absorption -/

/-- One of the two terms is the complement of the other. -/
theorem eq_not_of_pair (hs : s.Inv) (ha : s.Denotes ρ a x) (hb : s.Denotes ρ b y)
    (h : s.kindAt a = some (.bvNot b) ∨ s.kindAt b = some (.bvNot a)) : y = ~~~x := by
  rcases h with h | h
  · obtain ⟨z, hz, rfl⟩ := hs.bvNot ha h
    rw [hz.inj hb, BitVec.not_not]
  · obtain ⟨z, hz, rfl⟩ := hs.bvNot hb h
    rw [hz.inj ha]

theorem xor_not (x : BitVec w) : x ^^^ ~~~x = .allOnes w := by
  refine BitVec.eq_of_getLsbD_eq fun i hi => ?_
  rw [BitVec.getLsbD_xor, BitVec.getLsbD_not, BitVec.getLsbD_allOnes, decide_eq_true hi,
    Bool.true_and]
  cases x.getLsbD i <;> rfl

theorem or_not (x : BitVec w) : x ||| ~~~x = .allOnes w := by
  refine BitVec.eq_of_getLsbD_eq fun i hi => ?_
  rw [BitVec.getLsbD_or, BitVec.getLsbD_not, BitVec.getLsbD_allOnes, decide_eq_true hi,
    Bool.true_and]
  cases x.getLsbD i <;> rfl

theorem and_not (x : BitVec w) : x &&& ~~~x = 0 := by
  refine BitVec.eq_of_getLsbD_eq fun i hi => ?_
  rw [BitVec.getLsbD_and, BitVec.getLsbD_not, decide_eq_true hi, Bool.true_and]
  cases x.getLsbD i <;> simp

theorem or_absorb (hs : s.Inv) (ha : s.Denotes ρ a x) (hb : s.Denotes ρ b y)
    (h : ∃ c d, s.kindAt a = some (.bvAnd c d) ∧ (c = b ∨ d = b)) : x ||| y = y := by
  obtain ⟨c, d, hk, hor⟩ := h
  obtain ⟨u, v, hu, hv, rfl⟩ := hs.bvAnd ha hk
  refine BitVec.eq_of_getLsbD_eq fun i _ => ?_
  rw [BitVec.getLsbD_or, BitVec.getLsbD_and]
  rcases hor with rfl | rfl
  · rw [hu.inj hb]
    cases y.getLsbD i <;> simp
  · rw [hv.inj hb]
    cases y.getLsbD i <;> simp

theorem and_absorb (hs : s.Inv) (ha : s.Denotes ρ a x) (hb : s.Denotes ρ b y)
    (h : ∃ c d, s.kindAt a = some (.bvOr c d) ∧ (c = b ∨ d = b)) : x &&& y = y := by
  obtain ⟨c, d, hk, hor⟩ := h
  obtain ⟨u, v, hu, hv, rfl⟩ := hs.bvOr ha hk
  refine BitVec.eq_of_getLsbD_eq fun i _ => ?_
  rw [BitVec.getLsbD_and, BitVec.getLsbD_or]
  rcases hor with rfl | rfl
  · rw [hu.inj hb]
    cases y.getLsbD i <;> simp
  · rw [hv.inj hb]
    cases y.getLsbD i <;> simp

theorem and_allOnes (x : BitVec w) : x &&& .allOnes w = x := BitVec.and_allOnes

theorem or_allOnes (x : BitVec w) : x ||| .allOnes w = .allOnes w := BitVec.or_allOnes

theorem or_zero (x : BitVec w) : x ||| 0 = x := BitVec.or_zero

theorem and_zero (x : BitVec w) : x &&& 0 = 0 := BitVec.and_zero

theorem xor_zero (x : BitVec w) : x ^^^ 0 = x := BitVec.xor_zero

/-! ## Disjunction -/

/-- A disjunction, if the sum it may become means what it says. -/
theorem bvOrWith_spec {add : TermId → TermId → ArenaM TermId} (ha : s.Denotes ρ a x)
    (hb : s.Denotes ρ b y)
    (hadd : ∀ {c d : TermId} {u v : BitVec w}, s.Denotes ρ c u → s.Denotes ρ d v →
      orderPair a b = (c, d) →
      s.kindAt c = some (.bvShl d d) ∨ s.kindAt d = some (.bvShl c c) →
      Spec V (add c d) s fun t s' => s'.Denotes ρ t (u + v)) :
    Spec V (bvOrWith add a b) s fun t s' => s'.Denotes ρ t (x ||| y) := by
  refine Spec.intro fun hs => ?_
  have hw := hs.inv.denotes_sortOk ha
  obtain ⟨x', y', ha', hb', hxy, -⟩ := orderPair_denotes (f := (· ||| ·)) BitVec.or_comm ha hb
  rw [show x ||| y = x' ||| y' from hxy, bvOrWith]
  generalize orderPair a b = p at ha' hb' hadd ⊢
  obtain ⟨a', b'⟩ := p
  dsimp only at ha' hb' ⊢
  refine spec_read (Arena.expectSameBv_of_sort ha'.sort hb'.sort) ?_
  split
  · subst b'
    rw [ha'.inj hb', BitVec.or_self]
    exact spec_pure hb'
  refine spec_tells ((tells_isZero ha').or (tells_isZero hb')) (fun hz => ?_) fun _ => ?_
  · refine spec_pick (tells_isZero ha') (fun h => ?_) fun h => ?_
    · rwa [h.eq hs.inv ha', BitVec.or_comm, or_zero]
    · rwa [(hz.resolve_left h).eq hs.inv hb', or_zero]
  refine spec_tells ((tells_isAllOnes ha').or (tells_isAllOnes hb')) (fun ho => ?_) fun _ => ?_
  · refine spec_pick (tells_isAllOnes ha') (fun h => ?_) fun h => ?_
    · obtain rfl := h.eq hs.inv ha'
      rwa [BitVec.or_comm, or_allOnes]
    · obtain rfl := (ho.resolve_left h).eq hs.inv hb'
      rwa [or_allOnes]
  refine spec_constPair hs.inv ha' hb' (fun av bv hav hbv => ?_) fun _ => ?_
  · exact (bvConstBytes_spec hw (hav.orBytes hbv)).const rfl
  refine spec_tells (tells_isBvNegationPair ha' hb') (fun h => ?_) fun _ => ?_
  · obtain rfl := eq_not_of_pair hs.inv ha' hb' h
    exact (allOnes_spec hw).const (or_not _).symm
  refine spec_tells (tells_bvAndContains ha') (fun h => ?_) fun _ => ?_
  · refine spec_pure ?_
    rwa [or_absorb hs.inv ha' hb' h]
  refine spec_tells (tells_bvAndContains hb') (fun h => ?_) fun _ => ?_
  · refine spec_pure ?_
    rwa [BitVec.or_comm, or_absorb hs.inv hb' ha' h]
  refine spec_tells (tells_selfShiftLeftPair ha' hb') (fun h => ?_) fun _ => ?_
  · have hdisjoint : x' &&& y' = 0 := by
      rcases h with hk | hk
      · obtain ⟨u, v, hu, hv, rfl⟩ := hs.inv.bvShl ha' hk
        rw [hu.inj hb', hv.inj hb', BitVec.and_comm, and_shl_self]
      · obtain ⟨u, v, hu, hv, rfl⟩ := hs.inv.bvShl hb' hk
        rw [hu.inj ha', hv.inj ha', and_shl_self]
    rw [← add_eq_or hdisjoint]
    exact hadd ha' hb' rfl h
  · exact Spec.binaryNode (k := .bvOr a' b') (f := fun y z => y ||| z) ha' hb'
      (fun hca hcb => ⟨_, rfl, hca, hcb⟩) rfl trivial

/-! ## Sums -/

/-- The term is a constant. -/
def ConstantAt (s : Arena) (t : TermId) : Prop := ∃ k, s.kindAt t = some k ∧ k.IsConst

theorem ConstTerm.constantAt (h : ConstTerm s t x) : ConstantAt s t := by
  obtain ⟨bytes, hk⟩ := h.kind
  exact ⟨_, hk, trivial⟩

theorem ConstantAt.mono (h : ConstantAt s t) (hle : s ≤ s') : ConstantAt s' t := by
  obtain ⟨k, hk, hc⟩ := h
  exact ⟨k, Arena.kindAt_mono hle hk, hc⟩

theorem not_constantAt_shl (hk : s.kindAt t = some (.bvShl a b)) : ¬ConstantAt s t := by
  rintro ⟨k, hk', hc⟩
  obtain rfl := Option.some.inj (hk.symm.trans hk')
  exact hc

/-- A shift by something that is not a constant has no mask. -/
theorem possibleBitMaskBytes_shl (hs : s.Inv) (rounds : Nat) (h : s.Denotes ρ t x)
    (hk : s.kindAt t = some (.bvShl a b)) (hb : ¬ConstantAt s b) :
    possibleBitMaskBytes (rounds + 1) t w s = ok none := by
  rw [possibleBitMaskBytes]
  split
  · rfl
  obtain ⟨node, hnode, hkind⟩ := node_of_kind hk
  obtain ⟨y, z, hy, hz, rfl⟩ := hs.bvShl h hk
  rw [bind_apply, show ((bytesForWidth w : Result Nat) : ArenaR Nat) s = ok (divCeil8 w) from
    Arena.bytesForWidth_ok (hs.width h), ok_bind, bind_apply, hnode, ok_bind, hkind]
  dsimp only
  rcases constShiftAmount_cases hs hz with ⟨⟨bytes, hconst⟩, -⟩ | ⟨-, hrun⟩
  · exact absurd ⟨_, hconst, trivial⟩ hb
  · rw [bind_apply, hrun]
    rfl

/-- A term shifted by itself is not disjoint from anything, as far as the masks can tell. -/
theorem not_disjoint_selfShift (hs : Built V s) (ha : s.Denotes ρ a x) (hb : s.Denotes ρ b y)
    (h : s.kindAt a = some (.bvShl b b) ∨ s.kindAt b = some (.bvShl a a)) :
    haveDisjointPossibleBits a b w s = ok false := by
  have hconst {c d : TermId} (hk : s.kindAt c = some (.bvShl d d)) : ¬ConstantAt s d := by
    rintro ⟨k, hk', hc⟩
    exact hs.canonical c _ hk k k hk' hk' ⟨hc, hc⟩
  rw [haveDisjointPossibleBits]
  split
  · rfl
  obtain ⟨l, hl, -⟩ := possibleBitMaskBytes_covers hs.inv 65 ha
  obtain ⟨r, hr, -⟩ := possibleBitMaskBytes_covers hs.inv 65 hb
  rcases h with hk | hk
  · have hnone := possibleBitMaskBytes_shl hs.inv 64 ha hk (hconst hk)
    rw [bind_apply, hnone, ok_bind, bind_apply, hr, ok_bind]
    rfl
  · have hnone := possibleBitMaskBytes_shl hs.inv 64 hb hk (hconst hk)
    rw [bind_apply, hl, ok_bind, bind_apply, hnone, ok_bind]
    cases l <;> rfl

/-- The second half of `shiftedSameAddParts`. -/
def secondShiftedParts (a b : TermId) : ArenaR (Option (TermId × TermId)) := do
  if let some (value, amount) ← bvShlParts b then
    if value = a ∧ (← bvConstValue value).isNone then
      return some (value, amount)
  return none

/-- One of the two terms is the other one shifted left, and that one is not a constant. -/
theorem shiftedSameAddParts_spec (hs : s.Inv) (ha : s.Denotes ρ a x) (hb : s.Denotes ρ b y) :
    Reads (shiftedSameAddParts a b) s fun r => ∀ value amount, r = some (value, amount) →
      ¬ConstantAt s value ∧
        ((s.kindAt a = some (.bvShl value amount) ∧ value = b) ∨
          (s.kindAt b = some (.bvShl value amount) ∧ value = a)) := by
  obtain ⟨ka, hka⟩ := kind_of_sort ha.sort
  obtain ⟨kb, hkb⟩ := kind_of_sort hb.sort
  -- whether a shifted term is a constant
  have hconst {c : TermId} {k : NodeKind} (hk : s.kindAt c = some k) :
      bvConstValue c s = ok k.bvConst? ∧ (k.bvConst?.isNone = true → ¬ConstantAt s c) := by
    refine ⟨look_eq hk, fun hnone hc => ?_⟩
    obtain ⟨j, hj, hcj⟩ := hc
    obtain rfl := Option.some.inj (hk.symm.trans hj)
    obtain ⟨v, bytes, rfl⟩ := NodeKind.isConst_iff.mp hcj
    simp [NodeKind.bvConst?] at hnone
  have hsecond : Reads (secondShiftedParts a b) s fun r => ∀ value amount,
      r = some (value, amount) → ¬ConstantAt s value ∧
        ((s.kindAt a = some (.bvShl value amount) ∧ value = b) ∨
          (s.kindAt b = some (.bvShl value amount) ∧ value = a)) := by
    unfold secondShiftedParts
    refine reads_bind (look_eq hkb) ?_
    cases hf : kb.bvShl? with
    | none => exact reads_pure (by rintro _ _ ⟨⟩)
    | some p =>
      obtain ⟨value, amount⟩ := p
      rw [NodeKind.bvShl?_eq.mp hf] at hkb
      obtain ⟨u, v, hu, hv, -⟩ := hs.bvShl hb hkb
      obtain ⟨kv, hkv⟩ := kind_of_sort hu.sort
      refine reads_bind (hconst hkv).1 ?_
      split
      · rename_i hcond
        refine reads_pure ?_
        rintro _ _ ⟨⟩
        exact ⟨(hconst hkv).2 hcond.2, .inr ⟨hkb, hcond.1⟩⟩
      · exact reads_pure (by rintro _ _ ⟨⟩)
  refine reads_bind (look_eq hka) ?_
  cases hf : ka.bvShl? with
  | none => exact hsecond
  | some p =>
    obtain ⟨value, amount⟩ := p
    rw [NodeKind.bvShl?_eq.mp hf] at hka
    obtain ⟨u, v, hu, hv, -⟩ := hs.bvShl ha hka
    obtain ⟨kv, hkv⟩ := kind_of_sort hu.sort
    refine reads_bind (hconst hkv).1 ?_
    split
    · rename_i hcond
      refine reads_pure ?_
      rintro _ _ ⟨⟩
      exact ⟨(hconst hkv).2 hcond.2, .inl ⟨hka, hcond.1⟩⟩
    · exact hsecond

/-- One round of a sum, if the rounds below can add to a constant where neither operand is one. -/
theorem bvAddRounds_succ {rounds : Nat} (ha : s.Denotes ρ a x) (hb : s.Denotes ρ b y)
    (hrec : ¬ConstantAt s a → ¬ConstantAt s b → ∀ {s₁ : Arena} {c d : TermId} {u v : BitVec w},
      s₁.Denotes ρ c u → s₁.Denotes ρ d v → ConstantAt s₁ c →
      Spec V (bvAddRounds rounds c d) s₁ fun t s' => s'.Denotes ρ t (u + v)) :
    Spec V (bvAddRounds (rounds + 1) a b) s fun t s' => s'.Denotes ρ t (x + y) := by
  refine Spec.intro fun hs => ?_
  have hw := hs.inv.denotes_sortOk ha
  obtain ⟨x', y', ha', hb', hxy, hpair⟩ := orderPair_denotes (f := (· + ·)) BitVec.add_comm ha hb
  have hrec' : ¬ConstantAt s (orderPair a b).1 → ¬ConstantAt s (orderPair a b).2 →
      ∀ {s₁ : Arena} {c d : TermId} {u v : BitVec w}, s₁.Denotes ρ c u → s₁.Denotes ρ d v →
        ConstantAt s₁ c → Spec V (bvAddRounds rounds c d) s₁ fun t s' => s'.Denotes ρ t (u + v) := by
    rcases hpair with h | h <;> rw [h]
    · exact hrec
    · exact fun h₁ h₂ => hrec h₂ h₁
  rw [show x + y = x' + y' from hxy, bvAddRounds]
  clear hrec hpair
  generalize orderPair a b = p at ha' hb' hrec' ⊢
  obtain ⟨a', b'⟩ := p
  dsimp only at ha' hb' hrec' ⊢
  refine spec_read (Arena.expectSameBv_of_sort ha'.sort hb'.sort) ?_
  refine spec_tells ((tells_isZero ha').or (tells_isZero hb')) (fun hz => ?_) fun _ => ?_
  · refine spec_pick (tells_isZero ha') (fun h => ?_) fun h => ?_
    · rwa [h.eq hs.inv ha', zero_add]
    · rwa [(hz.resolve_left h).eq hs.inv hb', add_zero]
  refine spec_constPair hs.inv ha' hb' (fun av bv hav hbv => ?_) fun _ => ?_
  · exact (bvConstBytes_spec hw (hav.addBytes hbv)).const rfl
  obtain ⟨disjoint, hdisjoint, hbits⟩ := haveDisjointPossibleBits_spec hs.inv ha' hb'
  refine spec_read hdisjoint ?_
  split
  · -- the disjunction does not come back to a sum
    rename_i htrue
    rw [add_eq_or (hbits htrue)]
    refine bvOrWith_spec ha' hb' fun {c d} u v hc hd hcd hself => ?_
    have hself' : s.kindAt a' = some (.bvShl b' b') ∨ s.kindAt b' = some (.bvShl a' a') := by
      rw [orderPair] at hcd
      split at hcd
      · obtain ⟨rfl, rfl⟩ := Prod.mk.inj hcd
        exact hself
      · obtain ⟨rfl, rfl⟩ := Prod.mk.inj hcd
        exact hself.symm
    rw [not_disjoint_selfShift hs ha' hb' hself'] at hdisjoint
    rw [← Outcome.ok.inj hdisjoint] at htrue
    cases htrue
  refine (canonicalBvAdd_spec ha' hb').bind ?_
  rintro (_ | canonical) s₁ hle hs₁ hcanonical
  swap
  · exact spec_pure (hcanonical canonical rfl)
  replace ha' := ha'.mono hle
  replace hb' := hb'.mono hle
  obtain ⟨parts, hparts, hshape⟩ := shiftedSameAddParts_spec hs₁.inv ha' hb'
  refine spec_read hparts ?_
  cases parts with
  | none => exact bvAddNode_spec ha' hb'
  | some p =>
    obtain ⟨value, amount⟩ := p
    obtain ⟨hnot, hor⟩ := hshape value amount rfl
    -- `x + (x << n) = x * (1 + (1 << n))`
    obtain ⟨u, v, hu, hv, hna, hnb, hval⟩ : ∃ u v : BitVec w, s₁.Denotes ρ value u ∧
        s₁.Denotes ρ amount v ∧ ¬ConstantAt s₁ a' ∧ ¬ConstantAt s₁ b' ∧
        x' + y' = u + u <<< v := by
      rcases hor with ⟨hk, rfl⟩ | ⟨hk, rfl⟩
      · obtain ⟨u, v, hu, hv, rfl⟩ := hs₁.inv.bvShl ha' hk
        exact ⟨u, v, hu, hv, not_constantAt_shl hk, hnot, by rw [hu.inj hb', add_comm]⟩
      · obtain ⟨u, v, hu, hv, rfl⟩ := hs₁.inv.bvShl hb' hk
        exact ⟨u, v, hu, hv, hnot, not_constantAt_shl hk, by rw [hu.inj ha']⟩
    have hsum : x' + y' = u * (1 + (1 : BitVec w) <<< v) := by
      rw [hval, mul_add, mul_one, mul_shl, mul_one]
    rw [hsum]
    refine (bvConst_spec 1 hw).bind fun one s₂ hle₂ hs₂ hone => ?_
    have hone' : s₂.Denotes ρ one (1 : BitVec w) := hone.denotes hs₂.inv
    refine (bvShl_spec hone' (hv.mono hle₂)).bind fun shifted s₃ hle₃ hs₃ hshifted => ?_
    have hadd := hrec' (fun h => hna (h.mono hle)) (fun h => hnb (h.mono hle)) (hone'.mono hle₃)
      hshifted (hone.constantAt.mono hle₃)
    refine hadd.bind fun factor s₄ hle₄ hs₄ hfactor => ?_
    exact bvMul_spec ((hu.mono (le_trans hle₂ hle₃)).mono hle₄) hfactor

/-- A sum with a constant takes one round. -/
theorem bvAddRounds_const {rounds : Nat} (ha : s.Denotes ρ a x) (hb : s.Denotes ρ b y)
    (hconst : ConstantAt s a) :
    Spec V (bvAddRounds (rounds + 1) a b) s fun t s' => s'.Denotes ρ t (x + y) :=
  bvAddRounds_succ ha hb fun h => absurd hconst h

theorem bvAdd_spec (ha : s.Denotes ρ a x) (hb : s.Denotes ρ b y) :
    Spec V (bvAdd a b) s fun t s' => s'.Denotes ρ t (x + y) :=
  bvAddRounds_succ ha hb fun _ _ _ _ _ _ _ hc hd hconst => bvAddRounds_const hc hd hconst

/-! ## Bitwise operations -/

theorem bvOr_spec (ha : s.Denotes ρ a x) (hb : s.Denotes ρ b y) :
    Spec V (bvOr a b) s fun t s' => s'.Denotes ρ t (x ||| y) :=
  bvOrWith_spec ha hb fun hc hd _ _ => bvAdd_spec hc hd

theorem bvAnd_spec (ha : s.Denotes ρ a x) (hb : s.Denotes ρ b y) :
    Spec V (bvAnd a b) s fun t s' => s'.Denotes ρ t (x &&& y) := by
  refine Spec.intro fun hs => ?_
  have hw := hs.inv.denotes_sortOk ha
  obtain ⟨x', y', ha', hb', hxy, -⟩ := orderPair_denotes (f := (· &&& ·)) BitVec.and_comm ha hb
  rw [show x &&& y = x' &&& y' from hxy, bvAnd]
  generalize orderPair a b = p at ha' hb' ⊢
  obtain ⟨a', b'⟩ := p
  dsimp only at ha' hb' ⊢
  refine spec_read (Arena.expectSameBv_of_sort ha'.sort hb'.sort) ?_
  split
  · subst b'
    rw [ha'.inj hb', BitVec.and_self]
    exact spec_pure hb'
  refine spec_tells ((tells_isZero ha').or (tells_isZero hb')) (fun hz => ?_) fun _ => ?_
  · refine spec_pick (tells_isZero ha') (fun h => ?_) fun h => ?_
    · obtain rfl := h.eq hs.inv ha'
      rwa [BitVec.and_comm, and_zero]
    · obtain rfl := (hz.resolve_left h).eq hs.inv hb'
      rwa [and_zero]
  refine spec_tells ((tells_isAllOnes ha').or (tells_isAllOnes hb')) (fun ho => ?_) fun _ => ?_
  · refine spec_pick (tells_isAllOnes ha') (fun h => ?_) fun h => ?_
    · rwa [h.eq hs.inv ha', BitVec.and_comm, and_allOnes]
    · rwa [(ho.resolve_left h).eq hs.inv hb', and_allOnes]
  refine spec_constPair hs.inv ha' hb' (fun av bv hav hbv => ?_) fun _ => ?_
  · exact (bvConstBytes_spec hw (hav.andBytes hbv)).const rfl
  refine spec_tells (tells_isBvNegationPair ha' hb') (fun h => ?_) fun _ => ?_
  · obtain rfl := eq_not_of_pair hs.inv ha' hb' h
    exact (zero_spec hw).const (and_not _).symm
  obtain ⟨disjoint, hdisjoint, hbits⟩ := haveDisjointPossibleBits_spec hs.inv ha' hb'
  refine spec_read hdisjoint ?_
  split
  · rename_i htrue
    exact (zero_spec hw).const (hbits htrue).symm
  refine spec_tells (tells_bvOrContains ha') (fun h => ?_) fun _ => ?_
  · refine spec_pure ?_
    rwa [and_absorb hs.inv ha' hb' h]
  refine spec_tells (tells_bvOrContains hb') (fun h => ?_) fun _ => ?_
  · refine spec_pure ?_
    rwa [BitVec.and_comm, and_absorb hs.inv hb' ha' h]
  · exact Spec.binaryNode (k := .bvAnd a' b') (f := fun y z => y &&& z) ha' hb'
      (fun hca hcb => ⟨_, rfl, hca, hcb⟩) rfl trivial

theorem bvXor_spec (ha : s.Denotes ρ a x) (hb : s.Denotes ρ b y) :
    Spec V (bvXor a b) s fun t s' => s'.Denotes ρ t (x ^^^ y) := by
  refine Spec.intro fun hs => ?_
  have hw := hs.inv.denotes_sortOk ha
  obtain ⟨x', y', ha', hb', hxy, -⟩ := orderPair_denotes (f := (· ^^^ ·)) BitVec.xor_comm ha hb
  rw [show x ^^^ y = x' ^^^ y' from hxy, bvXor]
  generalize orderPair a b = p at ha' hb' ⊢
  obtain ⟨a', b'⟩ := p
  dsimp only at ha' hb' ⊢
  refine spec_read (Arena.expectSameBv_of_sort ha'.sort hb'.sort) ?_
  split
  · subst b'
    refine (zero_spec hw).const ?_
    rw [ha'.inj hb', BitVec.xor_self]
    rfl
  refine spec_tells ((tells_isZero ha').or (tells_isZero hb')) (fun hz => ?_) fun _ => ?_
  · refine spec_pick (tells_isZero ha') (fun h => ?_) fun h => ?_
    · rwa [h.eq hs.inv ha', BitVec.xor_comm, xor_zero]
    · rwa [(hz.resolve_left h).eq hs.inv hb', xor_zero]
  refine spec_constPair hs.inv ha' hb' (fun av bv hav hbv => ?_) fun _ => ?_
  · exact (bvConstBytes_spec hw (hav.xorBytes hbv)).const rfl
  refine spec_tells (tells_isBvNegationPair ha' hb') (fun h => ?_) fun _ => ?_
  · obtain rfl := eq_not_of_pair hs.inv ha' hb' h
    exact (allOnes_spec hw).const (xor_not _).symm
  obtain ⟨disjoint, hdisjoint, hbits⟩ := haveDisjointPossibleBits_spec hs.inv ha' hb'
  refine spec_read hdisjoint ?_
  split
  · rename_i htrue
    rw [xor_eq_or (hbits htrue)]
    exact bvOr_spec ha' hb'
  · exact Spec.binaryNode (k := .bvXor a' b') (f := fun y z => y ^^^ z) ha' hb'
      (fun hca hcb => ⟨_, rfl, hca, hcb⟩) rfl trivial

end Builder
end Qfbv
end SmtServer
