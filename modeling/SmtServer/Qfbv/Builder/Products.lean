import Mathlib.Algebra.BigOperators.Group.List.Basic
import Mathlib.Data.BitVec
import Mathlib.Tactic.Ring
import SmtServer.Qfbv.Builder.Shifts

/-!
# Products mean what they say

The factors of nested products are collected, the constants among them are multiplied, and what is
left is sorted by id and chained up again. Vectors of one width are a commutative ring, so the order
of the factors does not matter.
-/

namespace SmtServer
namespace Qfbv

open Lib Outcome Bytes
open Lib.Smt (Value)

/-- The term, read as a vector of width `w`. -/
def Arena.bvAt (s : Arena) (ρ : Env) (w : Nat) (t : TermId) : BitVec w := (s.value ρ t).toBv w

/-- The terms are vectors of width `w`. -/
def Arena.Vectors (s : Arena) (w : Nat) (ts : List TermId) : Prop :=
  ∀ t ∈ ts, s.sortAt t = some (.bv w)

namespace Builder

variable {V : NodeKind → Prop} {s s' : Arena} {ρ : Env}
variable {t a b : TermId} {w : Nat} {x y z : BitVec w}
  {ts us : List TermId} {bytes : List UInt8}

/-! ## Lists of terms -/

theorem denotes_bvAt (hs : s.Inv) (h : s.sortAt t = some (.bv w)) :
    s.Denotes ρ t (s.bvAt ρ w t) :=
  hs.denotes_of_sort h

theorem bvAt_eq (h : s.Denotes ρ t x) : s.bvAt ρ w t = x := h.toBv

theorem bvAt_mono (hle : s ≤ s') (h : s.sortAt t = some (.bv w)) :
    s'.bvAt ρ w t = s.bvAt ρ w t := by
  rw [Arena.bvAt, Arena.value_mono hle h, Arena.bvAt]

theorem map_bvAt_mono (hle : s ≤ s') (h : s.Vectors w ts) :
    ts.map (s'.bvAt ρ w) = ts.map (s.bvAt ρ w) :=
  List.map_congr_left fun t ht => bvAt_mono hle (h t ht)

theorem Vectors.mono (h : s.Vectors w ts) (hle : s ≤ s') : s'.Vectors w ts :=
  fun t ht => Arena.sortAt_mono hle (h t ht)

theorem Vectors.append (hts : s.Vectors w ts) (hus : s.Vectors w us) : s.Vectors w (ts ++ us) :=
  fun t ht => (List.mem_append.mp ht).elim (hts t) (hus t)

theorem Vectors.perm (h : s.Vectors w ts) (hp : us.Perm ts) : s.Vectors w us :=
  fun t ht => h t (hp.mem_iff.mp ht)

theorem Vectors.tail (h : s.Vectors w (t :: ts)) : s.Vectors w ts :=
  fun u hu => h u (List.mem_cons_of_mem t hu)

theorem vectors_nil : s.Vectors w [] := fun _ ht => nomatch ht

theorem vectors_singleton (h : s.sortAt t = some (.bv w)) : s.Vectors w [t] :=
  fun _ ht => List.mem_singleton.mp ht ▸ h

/-! ## Pairs in order -/

/-- The operands of a commutative operation may be swapped. -/
theorem orderPair_denotes {f : BitVec w → BitVec w → BitVec w} (hf : ∀ x y, f x y = f y x)
    (ha : s.Denotes ρ a x) (hb : s.Denotes ρ b y) :
    ∃ x' y', s.Denotes ρ (orderPair a b).1 x' ∧ s.Denotes ρ (orderPair a b).2 y' ∧
      f x y = f x' y' ∧ (orderPair a b = (a, b) ∨ orderPair a b = (b, a)) := by
  rw [orderPair]
  split
  · exact ⟨x, y, ha, hb, rfl, .inl rfl⟩
  · exact ⟨y, x, hb, ha, hf x y, .inr rfl⟩

theorem bvMulNode_spec (ha : s.Denotes ρ a x) (hb : s.Denotes ρ b y) :
    Spec V (bvMulNode a b w) s fun t s' => s'.Denotes ρ t (x * y) := by
  obtain ⟨x', y', ha', hb', hxy, -⟩ := orderPair_denotes (f := (· * ·)) BitVec.mul_comm ha hb
  rw [show x * y = x' * y' from hxy]
  exact Spec.binaryNode (f := fun y z => y * z) ha' hb' (fun hca hcb => ⟨_, rfl, hca, hcb⟩) rfl
    trivial

theorem bvAddNode_spec (ha : s.Denotes ρ a x) (hb : s.Denotes ρ b y) :
    Spec V (bvAddNode a b w) s fun t s' => s'.Denotes ρ t (x + y) := by
  obtain ⟨x', y', ha', hb', hxy, -⟩ := orderPair_denotes (f := (· + ·)) BitVec.add_comm ha hb
  rw [show x + y = x' + y' from hxy]
  exact Spec.binaryNode (f := fun y z => y + z) ha' hb' (fun hca hcb => ⟨_, rfl, hca, hcb⟩) rfl
    trivial

/-- Terms chained up by one operation. -/
theorem chain_spec {f : TermId → TermId → Nat → ArenaM TermId}
    {o : BitVec w → BitVec w → BitVec w}
    (hf : ∀ {s a b} {x y : BitVec w}, s.Denotes ρ a x → s.Denotes ρ b y →
      Spec V (f a b w) s fun t s' => s'.Denotes ρ t (o x y))
    (hts : s.Vectors w ts) (ha : s.Denotes ρ a x) :
    Spec V (chain f w a ts) s fun t s' => s'.Denotes ρ t ((ts.map (s.bvAt ρ w)).foldl o x) := by
  rw [chain]
  induction ts generalizing s a x with
  | nil => exact spec_pure ha
  | cons u us ih =>
    refine Spec.intro fun hs => ?_
    rw [List.foldlM_cons]
    refine (hf ha (denotes_bvAt hs.inv (hts u List.mem_cons_self))).bind fun t s' hle _ ht => ?_
    rw [List.map_cons, List.foldl_cons, ← map_bvAt_mono hle (Vectors.tail hts)]
    exact ih (Vectors.mono (Vectors.tail hts) hle) ht

/-! ## Collecting factors -/

/-- The terms are factors of `x`. -/
def Factors (s : Arena) (ρ : Env) (ts : List TermId) (x : BitVec w) : Prop :=
  s.Vectors w ts ∧ (ts.map (s.bvAt ρ w)).prod = x

theorem Factors.append (hts : Factors s ρ ts x) (hus : Factors s ρ us y) :
    Factors s ρ (ts ++ us) (x * y) := by
  refine ⟨Vectors.append hts.1 hus.1, ?_⟩
  rw [List.map_append, List.prod_append, hts.2, hus.2]

theorem factors_singleton (h : s.Denotes ρ t x) : Factors s ρ [t] x := by
  refine ⟨vectors_singleton h.sort, ?_⟩
  rw [List.map_singleton, List.prod_singleton, bvAt_eq h]

theorem collectBvMul_spec (hs : s.Inv) {rounds : Nat} (h : s.Denotes ρ t x) (ht : t < rounds) :
    Reads (collectBvMul rounds t) s fun ts => Factors s ρ ts x := by
  induction rounds generalizing t x with
  | zero => exact absurd ht (Nat.not_lt_zero t)
  | succ rounds ih =>
    obtain ⟨k, hk⟩ := kind_of_sort h.sort
    obtain ⟨node, hnode, rfl⟩ := node_of_kind hk
    refine reads_bind hnode ?_
    split
    · rename_i a b heq
      rw [heq] at hk
      obtain ⟨y, z, hy, hz, rfl⟩ := hs.bvMul h hk
      have hlt : ∀ c ∈ [a, b], c < rounds := fun c hc =>
        lt_of_lt_of_le (hs.child_lt hk hc) (Nat.le_of_lt_succ ht)
      refine (ih hy (hlt a (by simp))).bind fun l hl => ?_
      refine (ih hz (hlt b (by simp))).bind fun r hr => ?_
      exact reads_pure (hl.append hr)
    · exact reads_pure (factors_singleton h)

/-- A constant's bytes spell what the term denotes. -/
theorem reads_constValue (hs : s.Inv) (h : s.Denotes ρ t x) :
    Reads (bvConstValue t) s fun c => ∀ p, c = some p → p.1 = w ∧ Spells p.2 x := by
  obtain ⟨k, hk⟩ := kind_of_sort h.sort
  refine ⟨_, look_eq hk, fun p hp => ?_⟩
  rw [NodeKind.bvConst?_eq.mp hp] at hk
  obtain ⟨rfl, hb⟩ := hs.bvConst h hk
  exact ⟨rfl, hb⟩

theorem splitFactors_spec (hs : s.Inv) {constant : List UInt8} {k : BitVec w}
    (hts : s.Vectors w ts) (hus : s.Vectors w us) (hk : Spells constant k) :
    Reads (splitFactors w ts constant us) s fun r =>
      (∀ p, r = some p → s.Vectors w p.2 ∧ ∃ k' : BitVec w, Spells p.1 k' ∧
        k' * (p.2.map (s.bvAt ρ w)).prod =
          k * ((ts.map (s.bvAt ρ w)).prod * (us.map (s.bvAt ρ w)).prod)) ∧
      (r = none → (ts.map (s.bvAt ρ w)).prod = 0) := by
  induction ts generalizing constant us k with
  | nil =>
    refine reads_pure ⟨?_, nofun⟩
    rintro _ ⟨⟩
    exact ⟨hus, k, hk, by rw [List.map_nil, List.prod_nil, one_mul]⟩
  | cons t ts ih =>
    have ht := denotes_bvAt (ρ := ρ) hs (hts t List.mem_cons_self)
    refine (reads_constValue hs ht).bind fun c hc => ?_
    rw [List.map_cons, List.prod_cons]
    cases c with
    | some p =>
      obtain ⟨-, hb⟩ := hc p rfl
      dsimp only
      split
      · rename_i hzero
        refine reads_pure ⟨nofun, fun _ => ?_⟩
        rw [hb.isZeroBytes.mp hzero, zero_mul]
      · obtain ⟨r, hr, hsome, hnone⟩ := ih (Vectors.tail hts) hus (hk.mulBytes hb)
        refine ⟨r, hr, fun q hq => ?_, fun hr => by rw [hnone hr, mul_zero]⟩
        obtain ⟨hq, k', hk', heq⟩ := hsome q hq
        exact ⟨hq, k', hk', heq.trans (by ring)⟩
    | none =>
      obtain ⟨r, hr, hsome, hnone⟩ := ih (Vectors.tail hts)
        (Vectors.append hus (vectors_singleton ht.sort)) hk
      refine ⟨r, hr, fun q hq => ?_, fun hr => by rw [hnone hr, mul_zero]⟩
      obtain ⟨hq, k', hk', heq⟩ := hsome q hq
      refine ⟨hq, k', hk', heq.trans ?_⟩
      rw [List.map_append, List.prod_append, List.map_singleton, List.prod_singleton]
      ring

/-! ## Products -/

theorem foldl_mul (l : List (BitVec w)) (x : BitVec w) : l.foldl (· * ·) x = x * l.prod := by
  induction l generalizing x with
  | nil => rw [List.foldl_nil, List.prod_nil, mul_one]
  | cons y l ih => rw [List.foldl_cons, ih, List.prod_cons, mul_assoc]

theorem rebuildBvMul_spec (hw : Arena.SortOk (.bv w)) (h : Factors s ρ ts x) :
    Spec V (rebuildBvMul ts w) s fun t s' => s'.Denotes ρ t x := by
  refine Spec.intro fun hs => ?_
  have hperm := List.mergeSort_perm ts (· ≤ ·)
  have hsort : Factors s ρ (ts.mergeSort (· ≤ ·)) x :=
    ⟨Vectors.perm h.1 hperm, ((hperm.map _).prod_eq).trans h.2⟩
  rw [rebuildBvMul]
  revert hsort
  cases ts.mergeSort (· ≤ ·) with
  | nil =>
    rintro ⟨-, rfl⟩
    exact (bvConst_spec 1 hw).const rfl
  | cons first rest =>
    rintro ⟨hv, rfl⟩
    have hfirst := denotes_bvAt (ρ := ρ) hs.inv (hv first List.mem_cons_self)
    refine (chain_spec (o := (· * ·)) bvMulNode_spec (Vectors.tail hv) hfirst).mono ?_
    intro t s' _ _ ht
    rw [List.map_cons, List.prod_cons]
    rwa [foldl_mul] at ht

theorem oneBytes_ok (hw : Arena.SortOk (.bv w)) :
    ∃ bytes, oneBytes w = ok bytes ∧ Spells bytes (1 : BitVec w) := by
  have hlen : 0 < divCeil8 w := by
    have := hw.1
    rw [divCeil8]
    omega
  refine ⟨(List.replicate (divCeil8 w) 0).set 0 1, ?_, ?_⟩
  · rw [oneBytes, Arena.bytesForWidth_ok hw, ok_bind, if_pos hlen]
    rfl
  · have hnum : leNat ((List.replicate (divCeil8 w) 0).set 0 1) = 1 := by
      obtain ⟨n, hn⟩ : ∃ n, divCeil8 w = n + 1 := ⟨divCeil8 w - 1, by omega⟩
      rw [hn, List.replicate_succ, List.set_cons_zero, leNat_cons, leNat_replicate_zero]
      rfl
    have hone : (1 : BitVec w) = BitVec.ofNat w 1 := rfl
    have hpow : 1 < 2 ^ w := Nat.one_lt_two_pow (by have := hw.1; omega)
    refine ⟨by rw [List.length_set, List.length_replicate], ?_⟩
    rw [hnum, hone, BitVec.toNat_ofNat, Nat.mod_eq_of_lt hpow]

/-- The rebuilt product of two terms, where there are more than two factors. -/
theorem canonicalBvMul_spec (ha : s.Denotes ρ a x) (hb : s.Denotes ρ b y) :
    Spec V (canonicalBvMul a b w) s fun found s' =>
      (∀ t, found = some t → s'.Denotes ρ t (x * y)) ∧ (found = none → s' = s) := by
  refine Spec.intro fun hs => ?_
  have hw := hs.inv.denotes_sortOk ha
  obtain ⟨left, hleft, hl⟩ := collectBvMul_spec hs.inv ha (Nat.lt_succ_self a)
  obtain ⟨right, hright, hr⟩ := collectBvMul_spec hs.inv hb (Nat.lt_succ_self b)
  refine spec_read hleft (spec_read hright ?_)
  dsimp only
  split
  · exact spec_pure ⟨nofun, fun _ => rfl⟩
  have hall := hl.append hr
  obtain ⟨one, hone, hspells⟩ := oneBytes_ok hw
  obtain ⟨r, hsplit, hsome, hnone⟩ := splitFactors_spec (ρ := ρ) hs.inv hall.1 vectors_nil hspells
  refine spec_read hone (spec_read hsplit ?_)
  have hfound {m : ArenaM TermId} (h : Spec V m s fun t s' => s'.Denotes ρ t (x * y)) :
      Spec V (m >>= fun t => pure (some t)) s fun found s' =>
        (∀ t, found = some t → s'.Denotes ρ t (x * y)) ∧ (found = none → s' = s) := by
    refine h.bind fun t s' _ _ ht => spec_pure ⟨?_, nofun⟩
    rintro _ ⟨⟩
    exact ht
  cases r with
  | none =>
    -- one factor is zero
    refine hfound ((zero_spec hw).const ?_)
    rw [← hall.2, hnone rfl]
  | some p =>
    obtain ⟨hrest, k, hk, hprod⟩ := hsome p rfl
    rw [List.map_nil, List.prod_nil, mul_one, one_mul, hall.2] at hprod
    dsimp only
    split
    · rename_i hisOne
      rw [(hk.isOneBytes hw.1).mp hisOne] at hprod
      exact hfound (rebuildBvMul_spec hw ⟨hrest, by rw [← hprod]; exact (one_mul _).symm⟩)
    · refine (bvConstBytes_spec hw hk).bind fun c s₁ hle hs₁ hc => ?_
      have hcv : s₁.Denotes ρ c k := hc.denotes hs₁.inv
      refine (rebuildBvMul_spec (ρ := ρ) (x := x * y) hw ⟨Vectors.append (Vectors.mono hrest hle)
        (vectors_singleton hcv.sort), ?_⟩).bind fun t s' _ _ ht => spec_pure ⟨?_, nofun⟩
      · rw [List.map_append, List.prod_append, List.map_singleton, List.prod_singleton,
          bvAt_eq hcv, map_bvAt_mono hle hrest, mul_comm, hprod]
      · rintro _ ⟨⟩
        exact ht

theorem allOnes_eq_neg_one (w : Nat) : BitVec.allOnes w = -1 := BitVec.neg_one_eq_allOnes.symm

theorem bvMulRounds_spec {rounds : Nat} (ha : s.Denotes ρ a x) (hb : s.Denotes ρ b y)
    (hrounds : a + b < rounds) :
    Spec V (bvMulRounds rounds a b) s fun t s' => s'.Denotes ρ t (x * y) := by
  induction rounds generalizing a b x y with
  | zero => exact absurd hrounds (Nat.not_lt_zero _)
  | succ rounds ih =>
    refine Spec.intro fun hs => ?_
    have hw := hs.inv.denotes_sortOk ha
    obtain ⟨x', y', ha', hb', hxy, hpair⟩ :=
      orderPair_denotes (f := (· * ·)) BitVec.mul_comm ha hb
    rw [show x * y = x' * y' from hxy]
    have hsum : (orderPair a b).1 + (orderPair a b).2 < rounds + 1 := by
      rcases hpair with h | h <;> rw [h]
      · exact hrounds
      · rwa [Nat.add_comm]
    rw [bvMulRounds]
    clear hpair hxy ha hb hrounds
    generalize orderPair a b = p at ha' hb' hsum
    obtain ⟨a, b⟩ := p
    rename_i x₀ y₀
    clear x₀ y₀
    dsimp only at ha' hb' hsum ⊢
    rename' x' => x, y' => y, ha' => ha, hb' => hb
    have hless {c : TermId} (h : c < a) : c + b < rounds :=
      lt_of_lt_of_le (Nat.add_lt_add_right h b) (Nat.le_of_lt_succ hsum)
    have hless' {c : TermId} (h : c < b) : a + c < rounds :=
      lt_of_lt_of_le (Nat.add_lt_add_left h a) (Nat.le_of_lt_succ hsum)
    refine spec_read (Arena.expectSameBv_of_sort ha.sort hb.sort) ?_
    refine spec_tells ((tells_isZero ha).or (tells_isZero hb)) (fun hz => ?_) fun _ => ?_
    · refine (zero_spec hw).const ?_
      rcases hz with hz | hz
      · rw [hz.eq hs.inv ha, zero_mul]
      · rw [hz.eq hs.inv hb, mul_zero]
    refine spec_tells ((tells_isOne ha).or (tells_isOne hb)) (fun ho => ?_) fun _ => ?_
    · refine spec_pick (tells_isOne ha) (fun h => ?_) fun h => ?_
      · rwa [h.eq hs.inv ha, one_mul]
      · rwa [(ho.resolve_left h).eq hs.inv hb, mul_one]
    refine spec_tells ((tells_isAllOnes ha).or (tells_isAllOnes hb)) (fun ho => ?_) fun _ => ?_
    · obtain ⟨v, hv, hones⟩ := tells_isAllOnes ha
      refine spec_read hv ?_
      split
      · rw [(hones.mp ‹_›).eq hs.inv ha, allOnes_eq_neg_one, neg_one_mul]
        exact bvNeg_spec hb
      · rw [(ho.resolve_left fun h => ‹¬_› (hones.mpr h)).eq hs.inv hb, allOnes_eq_neg_one,
          mul_neg_one]
        exact bvNeg_spec ha
    -- negations
    refine spec_look ha.sort (fun k inner hk hf => ?_) fun _ _ _ => ?_
    · rw [NodeKind.bvNeg?_eq.mp hf] at hk
      obtain ⟨z, hz, rfl⟩ := hs.inv.bvNeg ha hk
      refine (ih hz hb (hless (hs.inv.child_lt hk (by simp [NodeKind.children])))).bind ?_
      intro product s₁ _ _ hproduct
      rw [neg_mul]
      exact bvNeg_spec hproduct
    refine spec_look hb.sort (fun k inner hk hf => ?_) fun _ _ _ => ?_
    · rw [NodeKind.bvNeg?_eq.mp hf] at hk
      obtain ⟨z, hz, rfl⟩ := hs.inv.bvNeg hb hk
      refine (ih ha hz (hless' (hs.inv.child_lt hk (by simp [NodeKind.children])))).bind ?_
      intro product s₁ _ _ hproduct
      rw [mul_neg]
      exact bvNeg_spec hproduct
    refine spec_constPair hs.inv ha hb (fun av bv hav hbv => ?_) fun _ => ?_
    · exact (bvConstBytes_spec hw (hav.mulBytes hbv)).const rfl
    -- shifts
    refine spec_look ha.sort (fun k p hk hf => ?_) fun _ _ _ => ?_
    · obtain ⟨value, amount⟩ := p
      rw [NodeKind.bvShl?_eq.mp hf] at hk
      obtain ⟨y', z', hy', hz', rfl⟩ := hs.inv.bvShl ha hk
      refine (ih hy' hb (hless (hs.inv.child_lt hk (by simp [NodeKind.children])))).bind ?_
      intro product s₁ hle _ hproduct
      rw [shl_mul]
      exact bvShl_spec hproduct (hz'.mono hle)
    refine spec_look hb.sort (fun k p hk hf => ?_) fun _ _ _ => ?_
    · obtain ⟨value, amount⟩ := p
      rw [NodeKind.bvShl?_eq.mp hf] at hk
      obtain ⟨y', z', hy', hz', rfl⟩ := hs.inv.bvShl hb hk
      refine (ih ha hy' (hless' (hs.inv.child_lt hk (by simp [NodeKind.children])))).bind ?_
      intro product s₁ hle _ hproduct
      rw [mul_shl]
      exact bvShl_spec hproduct (hz'.mono hle)
    refine (canonicalBvMul_spec ha hb).bind ?_
    rintro (_ | t) s' - hs' ⟨hsome, hnone⟩
    · obtain rfl := hnone rfl
      exact bvMulNode_spec ha hb
    · exact spec_pure (hsome t rfl)

theorem bvMul_spec (ha : s.Denotes ρ a x) (hb : s.Denotes ρ b y) :
    Spec V (bvMul a b) s fun t s' => s'.Denotes ρ t (x * y) :=
  bvMulRounds_spec ha hb (Nat.lt_succ_self _)

end Builder
end Qfbv
end SmtServer
