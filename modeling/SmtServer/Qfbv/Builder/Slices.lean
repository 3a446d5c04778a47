import SmtServer.Qfbv.Builder.Bitwise
import SmtServer.Qfbv.Builder.Structure

/-!
# Slices, extensions and rotations mean what they say

An extract calls itself on the children of concatenations and extracts, which come earlier in the
arena, and on the two extracts it has split itself into, through a concatenation. Those sit on terms
that no extract looks through, so one more round is enough for them.
-/

namespace SmtServer
namespace Qfbv

open Lib Outcome Bytes
open Lib.Smt (Value)

namespace Builder

variable {V : NodeKind → Prop} {s s' : Arena} {ρ : Env}
variable {t a b c child : TermId} {w v : Nat} {x y : BitVec w}
  {z : BitVec v} {high low extra count amount rounds : Nat}

/-! ## Widths that are written in two ways -/

theorem denotes_of_bits (h : s.Denotes ρ t x) (hw : w = v)
    (hbits : ∀ i, i < v → x.getLsbD i = z.getLsbD i) : s.Denotes ρ t z := by
  subst hw
  rwa [← BitVec.eq_of_getLsbD_eq hbits]

theorem spec_ensure {β : Type} {p : Prop} [Decidable p] {e : Error} {g : Unit → ArenaM β}
    {Q : β → Arena → Prop} (hp : p) (hg : Spec V (g ()) s Q) :
    Spec V (Grow.lift (.ensure p e) >>= g) s Q :=
  spec_read (ensure_eq_ok.mpr hp) hg

theorem spec_validate {β : Type} {what : String} {g : Unit → ArenaM β} {Q : β → Arena → Prop}
    (hw : Arena.SortOk (.bv w)) (hg : Spec V (g ()) s Q) :
    Spec V (Grow.lift (validateBvWidth w what) >>= g) s Q :=
  spec_read (ensure_eq_ok.mpr hw) hg

theorem lt_u32 (hw : Arena.SortOk (.bv w)) : w < 2 ^ 32 := lt_of_le_of_lt hw.2 (by decide)

/-! ## Extracts and concatenations -/

/-- No extract looks through the term. -/
def Whole (s : Arena) (t : TermId) : Prop := ∀ k, s.kindAt t = some k → ¬k.IsSliced

theorem Whole.mono {σ : TermSort} (h : Whole s t) (ht : s.sortAt t = some σ) (hle : s ≤ s') :
    Whole s' t := by
  obtain ⟨k, hk⟩ := kind_of_sort ht
  intro j hj
  obtain rfl := Option.some.inj ((Arena.kindAt_mono hle hk).symm.trans hj)
  exact h k hk

/-- The end of `bvConcatWith`: two neighbours of one term are fused. -/
def fuseSlices (extract : TermId → Nat → Nat → ArenaM TermId) (a b : TermId) (width : Nat) :
    ArenaM TermId := do
  if let some (highChild, highHi, highLo) ← Grow.read (bvExtractParts a) then
    if let some (lowChild, lowHi, lowLo) ← Grow.read (bvExtractParts b) then
      if highChild = lowChild ∧ lowHi + 1 = highLo then
        return ← extract highChild highHi lowLo
  Arena.add (.bvConcat a b) (.bv width)

theorem bvConcatWith_spec {extract : TermId → Nat → Nat → ArenaM TermId} (hx : s.Denotes ρ a x)
    (hz : s.Denotes ρ b z) (hw : Arena.SortOk (.bv (w + v)))
    (hextract : ∀ {c : TermId} {u : Nat} {y : BitVec u} {high low : Nat}, s.Denotes ρ c y →
      Whole s c → low ≤ high → high < u → Spec V (extract c high low) s fun t s' =>
        s'.Denotes ρ t (y.extractLsb' low (high - low + 1))) :
    Spec V (bvConcatWith extract a b) s fun t s' => s'.Denotes ρ t (x ++ z) := by
  refine Spec.intro fun hs => ?_
  refine spec_read (Arena.expectBv_of_sort hx.sort) (spec_read (Arena.expectBv_of_sort hz.sort) ?_)
  refine spec_ensure (lt_u32 hw) (spec_validate hw ?_)
  have hnode : Spec V (Arena.add (.bvConcat a b) (.bv (w + v))) s fun t s' =>
      s'.Denotes ρ t (x ++ z) := by
    refine (spec_add (k := .bvConcat a b) hw ⟨w, v, rfl, hx.sort, hz.sort⟩ trivial).mono fun t s' hle hs' hn => ?_
    refine hs'.inv.denotes hn ?_
    rw [NodeKind.sem, (hx.mono hle).value, (hz.mono hle).value, Smt.concat_bv]
  obtain ⟨ka, hka⟩ := kind_of_sort hx.sort
  obtain ⟨kb, hkb⟩ := kind_of_sort hz.sort
  have hfuse : Spec V (fuseSlices extract a b (w + v)) s fun t s' => s'.Denotes ρ t (x ++ z) := by
    unfold fuseSlices
    refine spec_read (look_eq hka) ?_
    cases hfa : ka.bvExtract? with
    | none => exact hnode
    | some p =>
      obtain ⟨highChild, highHi, highLo⟩ := p
      refine spec_read (look_eq hkb) ?_
      cases hfb : kb.bvExtract? with
      | none => exact hnode
      | some q =>
        obtain ⟨lowChild, lowHi, lowLo⟩ := q
        dsimp only
        split
        · -- two neighbours
          rename_i hnext
          obtain ⟨rfl, rfl⟩ := hnext
          rw [NodeKind.bvExtract?_eq.mp hfa] at hka
          rw [NodeKind.bvExtract?_eq.mp hfb] at hkb
          dsimp only at hka hkb
          obtain ⟨u, y, rfl, hle, hlt, hy, hxbits⟩ := hs.inv.bvExtract hx hka
          obtain ⟨u', y', rfl, hle', hlt', hy', hzbits⟩ := hs.inv.bvExtract hz hkb
          obtain rfl := hy.width hy'
          obtain rfl := hy.inj hy'
          refine (hextract hy (hs.canonical a _ hka) (by omega) hlt).mono fun t s' _ _ ht => ?_
          refine denotes_of_bits ht (by omega) fun i hi => ?_
          rw [BitVec.getLsbD_extractLsb', BitVec.getLsbD_append]
          split
          · rw [hzbits i ‹_›]
            simp [show i < highHi - lowLo + 1 by omega]
          · rw [hxbits _ (by omega), show lowHi + 1 + (i - (lowHi - lowLo + 1)) = lowLo + i by omega]
            simp [show i < highHi - lowLo + 1 by omega]
        · exact hnode
  -- two constants make one
  by_cases hconst : ka.IsConst ∧ kb.IsConst
  · obtain ⟨⟨u, abytes, rfl⟩, ⟨u', bbytes, rfl⟩⟩ :=
      And.intro (NodeKind.isConst_iff.mp hconst.1) (NodeKind.isConst_iff.mp hconst.2)
    obtain ⟨rfl, ha⟩ := hs.inv.bvConst hx hka
    obtain ⟨rfl, hb⟩ := hs.inv.bvConst hz hkb
    have hpair : bvConstPair a b s = ok (some (abytes, bbytes)) := by
      simp only [bvConstPair, bind_apply, bvConstValue, look_eq hka, look_eq hkb, ok_bind]
      rfl
    exact spec_read hpair ((bvConstBytes_spec hw (ha.concatBytes hb)).const rfl)
  · have hpair : bvConstPair a b s = ok none := by
      simp only [bvConstPair, bind_apply, bvConstValue, look_eq hka, look_eq hkb, ok_bind]
      cases hfa : ka.bvConst? with
      | none => rfl
      | some p =>
        cases hfb : kb.bvConst? with
        | none => rfl
        | some q =>
          exact absurd ⟨NodeKind.isConst_iff.mpr ⟨_, _, NodeKind.bvConst?_eq.mp hfa⟩,
            NodeKind.isConst_iff.mpr ⟨_, _, NodeKind.bvConst?_eq.mp hfb⟩⟩ hconst
    exact spec_read hpair hfuse

/-- A slice of a slice. -/
theorem getLsbD_slice (y : BitVec v) (start len : Nat) {i : Nat} (hi : i < len) :
    (y.extractLsb' start len).getLsbD i = y.getLsbD (start + i) := by
  rw [BitVec.getLsbD_extractLsb']
  simp [hi]

theorem bvExtractRounds_spec (hx : s.Denotes ρ child x) (hle : low ≤ high) (hlt : high < w)
    (hrounds : child < rounds ∨ (0 < rounds ∧ Whole s child)) :
    Spec V (bvExtractRounds rounds child high low) s fun t s' =>
      s'.Denotes ρ t (x.extractLsb' low (high - low + 1)) := by
  induction rounds generalizing s child w x high low with
  | zero =>
    rcases hrounds with h | h
    · exact absurd h (Nat.not_lt_zero child)
    · exact absurd h.1 (lt_irrefl 0)
  | succ rounds ih =>
    refine Spec.intro fun hs => ?_
    have hwx := hs.inv.denotes_sortOk hx
    have hw : Arena.SortOk (.bv (high - low + 1)) :=
      ⟨Nat.le_add_left 1 _, by have := hwx.2; omega⟩
    refine spec_read (Arena.expectBv_of_sort hx.sort) (spec_ensure ⟨hle, hlt⟩ ?_)
    split
    · rename_i hall
      obtain ⟨rfl, hall⟩ := hall
      refine spec_pure (denotes_of_bits hx (by omega) fun i hi => ?_)
      rw [getLsbD_slice x 0 _ hi, Nat.zero_add]
    refine spec_constValue hs.inv hx (fun bytes _ hbytes => ?_) fun hnotConst => ?_
    · exact (bvConstBytes_spec hw (hbytes.extractBytes low _)).const rfl
    -- below a term that is looked through, there are rounds enough
    have hless {k : NodeKind} (hk : s.kindAt child = some k) (hsliced : k.IsSliced) :
        ∀ j ∈ k.children, j < rounds := fun j hj =>
      lt_of_lt_of_le (hs.inv.child_lt hk hj) (Nat.le_of_lt_succ
        (hrounds.resolve_right fun h => h.2 k hk hsliced))
    refine spec_look hx.sort (fun k p hk hf => ?_) fun k hk hf => ?_
    · obtain ⟨inner, innerHigh, innerLow⟩ := p
      rw [NodeKind.bvExtract?_eq.mp hf] at hk
      dsimp only at hk ⊢
      obtain ⟨u, y, rfl, hle', hlt', hy, hbits⟩ := hs.inv.bvExtract hx hk
      refine (ih hy (by omega) (by omega)
        (.inl (hless hk trivial inner (by simp [NodeKind.children])))).mono fun t s' _ _ ht => ?_
      refine denotes_of_bits ht (by omega) fun i hi => ?_
      rw [getLsbD_slice y _ _ (by omega), getLsbD_slice x _ _ hi, hbits _ (by omega), Nat.add_assoc]
    refine spec_look hx.sort (fun k' p hk' hf' => ?_) fun k' hk' hf' => ?_
    · obtain ⟨highChild, lowChild⟩ := p
      rw [NodeKind.bvConcat?_eq.mp hf'] at hk'
      dsimp only at hk' ⊢
      obtain ⟨hiw, low', y, z', rfl, hy, hz', hbits⟩ := hs.inv.bvConcat hx hk'
      have hmore := hless hk' trivial
      refine spec_read (Arena.expectBv_of_sort hz'.sort) ?_
      split
      · refine (ih hz' hle ‹_› (.inl (hmore lowChild (by simp [NodeKind.children])))).mono ?_
        intro t s' _ _ ht
        refine denotes_of_bits ht rfl fun i hi => ?_
        rw [getLsbD_slice z' _ _ hi, getLsbD_slice x _ _ hi, hbits, if_pos (by omega)]
      split
      · refine (ih hy (by omega) (by omega)
          (.inl (hmore highChild (by simp [NodeKind.children])))).mono fun t s' _ _ ht => ?_
        refine denotes_of_bits ht (by omega) fun i hi => ?_
        rw [getLsbD_slice y _ _ (by omega), getLsbD_slice x _ _ hi, hbits, if_neg (by omega)]
        congr 1
        omega
      -- the slice lies across the boundary
      refine (ih hz' (show low ≤ low' - 1 by omega) (by omega)
        (.inl (hmore lowChild (by simp [NodeKind.children])))).bind fun lowPart s₁ hle₁ _ hlow => ?_
      refine (ih (hy.mono hle₁) (Nat.zero_le _) (by omega)
        (.inl (hmore highChild (by simp [NodeKind.children])))).bind ?_
      intro highPart s₂ hle₂ _ hhigh
      refine (bvConcatWith_spec hhigh (hlow.mono hle₂) ?_ fun {c u} y' {hi lo} hc hwhole h₁ h₂ =>
        ih hc h₁ h₂ (.inr ⟨Nat.zero_lt_of_lt (hmore lowChild (by simp [NodeKind.children])),
          hwhole⟩)).mono fun t s' _ _ ht => ?_
      · rwa [show high - low' - 0 + 1 + (low' - 1 - low + 1) = high - low + 1 by omega]
      · refine denotes_of_bits ht (by omega) fun i hi => ?_
        rw [BitVec.getLsbD_append, getLsbD_slice x _ _ hi, hbits]
        split
        · rw [getLsbD_slice z' _ _ ‹_›, if_pos (by omega)]
        · rw [getLsbD_slice y _ _ (by omega), if_neg (by omega)]
          congr 1
          omega
    · obtain rfl := Option.some.inj (hk.symm.trans hk')
      have hwhole : Whole s child := by
        intro j hj
        obtain rfl := Option.some.inj (hk.symm.trans hj)
        intro hsliced
        cases k with
        | bvConst u bytes => exact hnotConst _ hk trivial
        | bvExtract c h l => simp [NodeKind.bvExtract?] at hf
        | bvConcat h l => simp [NodeKind.bvConcat?] at hf'
        | _ => exact hsliced
      refine (spec_add (k := .bvExtract child high low) hw ⟨w, rfl, hx.sort, hle, hlt⟩
        hwhole).mono fun t s' hle' hs' hn => ?_
      refine hs'.inv.denotes hn ?_
      rw [NodeKind.sem, (hx.mono hle').value, Smt.extract_bv]
      rfl

theorem bvExtract_spec (hx : s.Denotes ρ child x) (hle : low ≤ high) (hlt : high < w) :
    Spec V (bvExtract child high low) s fun t s' => s'.Denotes ρ t (x.extractLsb high low) :=
  bvExtractRounds_spec hx hle hlt (.inl (Nat.lt_succ_self child))

theorem bvConcat_spec (hx : s.Denotes ρ a x) (hz : s.Denotes ρ b z)
    (hw : Arena.SortOk (.bv (w + v))) :
    Spec V (bvConcat a b) s fun t s' => s'.Denotes ρ t (x ++ z) :=
  bvConcatWith_spec hx hz hw fun hc _ hle hlt => bvExtract_spec hc hle hlt

/-! ## Extensions, repetitions and rotations -/

theorem bvExtend_spec {what : String} {node : TermId → Nat → NodeKind}
    {fold : List UInt8 → Nat → Nat → List UInt8} {y : BitVec (w + extra)}
    (hx : s.Denotes ρ child x) (hw : Arena.SortOk (.bv (w + extra)))
    (hzero : extra = 0 → ∀ i, i < w + extra → x.getLsbD i = y.getLsbD i)
    (hfold : ∀ bytes, Spells bytes x → Spells (fold bytes w extra) y)
    (hsort : ∀ {srt}, srt child = some (.bv w) → (node child extra).HasSort srt (.bv (w + extra)))
    (hsem : ∀ {id look}, look child = .bv w x → (node child extra).sem ρ id look = .bv (w + extra) y)
    (hcanonical : (node child extra).Canonical V s.kindAt) :
    Spec V (bvExtend what node fold child extra) s fun t s' => s'.Denotes ρ t y := by
  refine Spec.intro fun hs => ?_
  refine spec_read (Arena.expectBv_of_sort hx.sort) (spec_ensure (lt_u32 hw) (spec_validate hw ?_))
  split
  · rename_i hextra
    exact spec_pure (denotes_of_bits hx (by omega) (hzero hextra))
  refine spec_constValue hs.inv hx (fun bytes _ hbytes => ?_) fun _ => ?_
  · exact (bvConstBytes_spec hw (hfold bytes hbytes)).const rfl
  refine (spec_add hw (hsort hx.sort) hcanonical).mono fun t s' hle hs' hn => ?_
  exact hs'.inv.denotes hn (hsem (hx.mono hle).value)

theorem bvZext_spec (hx : s.Denotes ρ child x) (hw : Arena.SortOk (.bv (w + extra))) :
    Spec V (bvZext child extra) s fun t s' => s'.Denotes ρ t (x.setWidth (w + extra)) := by
  refine bvExtend_spec hx hw (fun _ i hi => ?_) (fun bytes hb => hb.zextBytes extra)
    (fun h => ⟨w, rfl, h⟩) (fun h => ?_) trivial
  · rw [BitVec.getLsbD_setWidth, decide_eq_true hi, Bool.true_and]
  · rw [NodeKind.sem, h, Smt.zeroExtend_bv]

theorem bvSext_spec (hx : s.Denotes ρ child x) (hw : Arena.SortOk (.bv (w + extra))) :
    Spec V (bvSext child extra) s fun t s' => s'.Denotes ρ t (x.signExtend (w + extra)) := by
  refine bvExtend_spec hx hw (fun hzero i hi => ?_) (fun bytes hb => hb.sextBytes extra)
    (fun h => ⟨w, rfl, h⟩) (fun h => ?_) trivial
  · rw [BitVec.getLsbD_signExtend, decide_eq_true hi, Bool.true_and, if_pos (by omega)]
  · rw [NodeKind.sem, h, Smt.signExtend_bv]

theorem bvRepeat_spec (hx : s.Denotes ρ child x) (hcount : count ≠ 0)
    (hw : Arena.SortOk (.bv (w * count))) :
    Spec V (bvRepeat child count) s fun t s' => s'.Denotes ρ t (x.replicate count) := by
  refine Spec.intro fun hs => ?_
  refine spec_ensure hcount (spec_read (Arena.expectBv_of_sort hx.sort) ?_)
  refine spec_ensure (lt_u32 hw) (spec_validate hw ?_)
  split
  · rename_i hone
    refine spec_pure (denotes_of_bits hx (by rw [hone, Nat.mul_one]) fun i hi => ?_)
    rw [BitVec.getLsbD_replicate, decide_eq_true hi, Bool.true_and]
    rw [hone, Nat.mul_one] at hi
    rw [Nat.mod_eq_of_lt hi]
  refine spec_constValue hs.inv hx (fun bytes _ hbytes => ?_) fun _ => ?_
  · exact (bvConstBytes_spec hw (hbytes.repeatBytes count)).const rfl
  refine (spec_add (k := .bvRepeat child count) hw ⟨w, rfl, hx.sort⟩ trivial).mono ?_
  intro t s' hle hs' hn
  refine hs'.inv.denotes hn ?_
  rw [NodeKind.sem, (hx.mono hle).value, Smt.repeated_bv]

theorem bvRotate_spec {what : String} {node : TermId → Nat → NodeKind}
    {fold : List UInt8 → Nat → Nat → List UInt8} (f : ∀ {w : Nat}, BitVec w → Nat → BitVec w)
    (hx : s.Denotes ρ child x) (hmod : f x (amount % w) = f x amount) (hzero : f x 0 = x)
    (hfold : ∀ bytes amount, amount < w → Spells bytes x → Spells (fold bytes w amount) (f x amount))
    (hsort : ∀ {srt amount}, srt child = some (.bv w) → (node child amount).HasSort srt (.bv w))
    (hsem : ∀ {id look amount},
      (node child amount).sem ρ id look = Value.map (fun x => f x amount) (look child))
    (hcanonical : ∀ amount, (node child amount).Canonical V s.kindAt) :
    Spec V (bvRotate what node fold child amount) s fun t s' => s'.Denotes ρ t (f x amount) := by
  refine Spec.intro fun hs => ?_
  have hw := hs.inv.denotes_sortOk hx
  refine spec_read (Arena.expectBv_of_sort hx.sort) ?_
  rw [← hmod]
  dsimp only
  split
  · rename_i hnone
    rw [hnone, hzero]
    exact spec_pure hx
  refine spec_constValue hs.inv hx (fun bytes _ hbytes => ?_) fun _ => ?_
  · exact (bvConstBytes_spec hw (hfold bytes _ (Nat.mod_lt _ hw.1) hbytes)).const rfl
  refine (spec_add hw (hsort hx.sort) (hcanonical _)).mono fun t s' hle hs' hn => ?_
  refine hs'.inv.denotes hn ?_
  rw [hsem, (hx.mono hle).value, Value.map_bv]

theorem bvRotateLeft_spec (hx : s.Denotes ρ child x) :
    Spec V (bvRotateLeft child amount) s fun t s' => s'.Denotes ρ t (x.rotateLeft amount) := by
  refine bvRotate_spec (fun x n => x.rotateLeft n) hx ?_ ?_
    (fun bytes n hn hb => hb.rotateLeftBytes hn) (fun h => ⟨w, rfl, h⟩) rfl fun _ => trivial
  · simp only [BitVec.rotateLeft, Nat.mod_mod]
  · refine BitVec.eq_of_getLsbD_eq fun i hi => ?_
    rw [BitVec.getLsbD_rotateLeft, Nat.zero_mod]
    simp [hi]

theorem bvRotateRight_spec (hx : s.Denotes ρ child x) :
    Spec V (bvRotateRight child amount) s fun t s' => s'.Denotes ρ t (x.rotateRight amount) := by
  refine bvRotate_spec (fun x n => x.rotateRight n) hx ?_ ?_
    (fun bytes n hn hb => hb.rotateRightBytes hn) (fun h => ⟨w, rfl, h⟩) rfl fun _ => trivial
  · simp only [BitVec.rotateRight, Nat.mod_mod]
  · refine BitVec.eq_of_getLsbD_eq fun i hi => ?_
    rw [BitVec.getLsbD_rotateRight, Nat.zero_mod]
    simp [hi]

end Builder
end Qfbv
end SmtServer
