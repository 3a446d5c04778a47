import Mathlib.Algebra.BigOperators.Ring.List
import Mathlib.Data.List.SplitBy
import SmtServer.Qfbv.Builder.Products

/-!
# Regrouped sums mean what they say

A sum is flattened, its constants are added up, its other summands are grouped by what they are
multiples of, and what is left is chained up again.
-/

namespace SmtServer
namespace Qfbv

open Lib Outcome Bytes
open Lib.Smt (Value)

namespace Builder

variable {V : NodeKind → Prop} {s s' : Arena} {ρ : Env}
variable {t a b : TermId} {w : Nat} {x y z : BitVec w}
  {ts us : List TermId} {bytes : List UInt8}

/-! ## Collecting summands -/

/-- The terms are summands of `x`. -/
def Summands (s : Arena) (ρ : Env) (ts : List TermId) (x : BitVec w) : Prop :=
  s.Vectors w ts ∧ (ts.map (s.bvAt ρ w)).sum = x

theorem Summands.append (hts : Summands s ρ ts x) (hus : Summands s ρ us y) :
    Summands s ρ (ts ++ us) (x + y) := by
  refine ⟨Vectors.append hts.1 hus.1, ?_⟩
  rw [List.map_append, List.sum_append, hts.2, hus.2]

theorem summands_nil : Summands s ρ [] (0 : BitVec w) := ⟨vectors_nil, rfl⟩

theorem summands_singleton (h : s.Denotes ρ t x) : Summands s ρ [t] x := by
  refine ⟨vectors_singleton h.sort, ?_⟩
  rw [List.map_singleton, List.sum_singleton, bvAt_eq h]

theorem Summands.mono (h : Summands s ρ ts x) (hle : s ≤ s') : Summands s' ρ ts x :=
  ⟨Vectors.mono h.1 hle, by rw [map_bvAt_mono hle h.1, h.2]⟩

theorem collectBvAdd_spec (hs : s.Inv) {rounds : Nat} (h : s.Denotes ρ t x) (ht : t < rounds) :
    Reads (collectBvAdd rounds t) s fun ts => Summands s ρ ts x := by
  induction rounds generalizing t x with
  | zero => exact absurd ht (Nat.not_lt_zero t)
  | succ rounds ih =>
    obtain ⟨k, hk⟩ := kind_of_sort h.sort
    obtain ⟨node, hnode, rfl⟩ := node_of_kind hk
    refine reads_bind hnode ?_
    split
    · rename_i a b heq
      rw [heq] at hk
      obtain ⟨y, z, hy, hz, rfl⟩ := hs.bvAdd h hk
      have hlt : ∀ c ∈ [a, b], c < rounds := fun c hc =>
        lt_of_lt_of_le (hs.child_lt hk hc) (Nat.le_of_lt_succ ht)
      refine (ih hy (hlt a (by simp))).bind fun l hl => ?_
      refine (ih hz (hlt b (by simp))).bind fun r hr => ?_
      exact reads_pure (hl.append hr)
    · exact reads_pure (summands_singleton h)

theorem splitSummands_spec (hs : s.Inv) {constant : List UInt8} {k : BitVec w}
    (hts : s.Vectors w ts) (hus : Summands s ρ us y) (hk : Spells constant k) :
    Reads (splitSummands w ts constant us) s fun r =>
      ∃ k' y' : BitVec w, Spells r.1 k' ∧ Summands s ρ r.2 y' ∧
        k' + y' = k + ((ts.map (s.bvAt ρ w)).sum + y) := by
  induction ts generalizing constant us k y with
  | nil => exact reads_pure ⟨k, y, hk, hus, by rw [List.map_nil, List.sum_nil, zero_add]⟩
  | cons t ts ih =>
    have ht := denotes_bvAt (ρ := ρ) hs (hts t List.mem_cons_self)
    refine (reads_constValue hs ht).bind fun c hc => ?_
    rw [List.map_cons, List.sum_cons]
    cases c with
    | some p =>
      obtain ⟨-, hb⟩ := hc p rfl
      obtain ⟨r, hr, k', y', hk', hy', heq⟩ := ih (Vectors.tail hts) hus (hk.addBytes hb)
      exact ⟨r, hr, k', y', hk', hy', heq.trans (by ring)⟩
    | none =>
      obtain ⟨r, hr, k', y', hk', hy', heq⟩ := ih (Vectors.tail hts)
        (hus.append (summands_singleton ht)) hk
      exact ⟨r, hr, k', y', hk', hy', heq.trans (by ring)⟩

/-! ## Multiples -/

/-- The bytes of a coefficient, as a vector. -/
def coeffAt (w : Nat) (p : TermId × List UInt8) : BitVec w := .ofNat w (leNat p.2)

/-- The pairs are terms of width `w` with coefficients. -/
def Multiples (s : Arena) (w : Nat) (ps : List (TermId × List UInt8)) : Prop :=
  ∀ p ∈ ps, s.sortAt p.1 = some (.bv w) ∧ Spells p.2 (coeffAt w p)

/-- The sum of the multiples. -/
def multiplesSum (s : Arena) (ρ : Env) (w : Nat) (ps : List (TermId × List UInt8)) : BitVec w :=
  (ps.map fun p => s.bvAt ρ w p.1 * coeffAt w p).sum

theorem Spells.coeffAt {p : TermId × List UInt8} (h : Spells p.2 x) : coeffAt w p = x :=
  h.ofNat_leNat

theorem scaledAddTerm_spec (hs : s.Inv) (h : s.Denotes ρ t x) :
    Reads (scaledAddTerm t w) s fun p => s.sortAt p.1 = some (.bv w) ∧
      Spells p.2 (coeffAt w p) ∧ s.bvAt ρ w p.1 * coeffAt w p = x := by
  obtain ⟨one, hone, hspells⟩ := oneBytes_ok (hs.denotes_sortOk h)
  have hself : s.sortAt t = some (.bv w) ∧ Spells one (coeffAt w (t, one)) ∧
      s.bvAt ρ w t * coeffAt w (t, one) = x := by
    rw [show coeffAt w (t, one) = 1 from hspells.ofNat_leNat]
    exact ⟨h.sort, hspells, by rw [bvAt_eq h]; exact mul_one x⟩
  -- a product with a constant on one side
  have hpair {c : TermId} {bytes : List UInt8} {u v : BitVec w} (hc : s.Denotes ρ c u)
      (hv : Spells bytes v) (huv : u * v = x) :
      s.sortAt c = some (.bv w) ∧ Spells bytes (coeffAt w (c, bytes)) ∧
        s.bvAt ρ w c * coeffAt w (c, bytes) = x := by
    rw [show coeffAt w (c, bytes) = v from hv.ofNat_leNat]
    exact ⟨hc.sort, hv, by rw [bvAt_eq hc, huv]⟩
  obtain ⟨k, hk⟩ := kind_of_sort h.sort
  refine reads_bind hone (reads_bind (look_eq hk) ?_)
  cases hf : k.bvMul? with
  | none => exact reads_pure hself
  | some p =>
    obtain ⟨a, b⟩ := p
    rw [NodeKind.bvMul?_eq.mp hf] at hk
    obtain ⟨y, z, hy, hz, hyz⟩ := hs.bvMul h hk
    refine (reads_constValue hs hy).bind fun c hc => ?_
    cases c with
    | some q =>
      obtain ⟨rfl, hb⟩ := hc q rfl
      exact reads_pure (hpair hz hb (by rw [hyz, mul_comm]))
    | none =>
      refine (reads_constValue hs hz).bind fun c hc => ?_
      cases c with
      | some q =>
        obtain ⟨rfl, hb⟩ := hc q rfl
        exact reads_pure (hpair hy hb hyz.symm)
      | none => exact reads_pure hself

theorem scaled_spec (hs : s.Inv) (h : Summands s ρ ts x) :
    Spec V (ts.mapM fun term => Grow.read (scaledAddTerm term w)) s fun ps s' => s' = s ∧
      Multiples s w ps ∧ multiplesSum s ρ w ps = x := by
  obtain ⟨hts, rfl⟩ := h
  induction ts with
  | nil =>
    rw [List.mapM_nil]
    exact spec_pure ⟨rfl, fun _ hp => absurd hp List.not_mem_nil, rfl⟩
  | cons t ts ih =>
    rw [List.mapM_cons]
    have ht := denotes_bvAt (ρ := ρ) hs (hts t List.mem_cons_self)
    obtain ⟨p, hp, hsort, hc, hprod⟩ := scaledAddTerm_spec hs ht
    refine spec_read hp ((ih (Vectors.tail hts)).bind fun ps s' _ _ hps => spec_pure ?_)
    obtain ⟨rfl, hmany, hsum⟩ := hps
    refine ⟨rfl, ?_, ?_⟩
    · intro q hq
      rcases List.mem_cons.mp hq with rfl | hq
      · exact ⟨hsort, hc⟩
      · exact hmany q hq
    · rw [multiplesSum, List.map_cons, List.sum_cons, List.map_cons, List.sum_cons, hprod, ← hsum]
      rfl

theorem Multiples.mono {ps : List (TermId × List UInt8)} (h : Multiples s w ps) (hle : s ≤ s') :
    Multiples s' w ps :=
  fun p hp => ⟨Arena.sortAt_mono hle (h p hp).1, (h p hp).2⟩

theorem multiplesSum_mono {ps : List (TermId × List UInt8)} (h : Multiples s w ps)
    (hle : s ≤ s') : multiplesSum s' ρ w ps = multiplesSum s ρ w ps := by
  refine congrArg List.sum (List.map_congr_left fun p hp => ?_)
  rw [bvAt_mono hle (h p hp).1]

/-- The coefficients of a run, added up. -/
theorem runCoefficient {ps : List (TermId × List UInt8)} (h : Multiples s w ps)
    {sum : List UInt8} {k : BitVec w} (hk : Spells sum k) :
    Spells (ps.foldl (fun sum p => addBytes sum p.2 w) sum) (k + (ps.map (coeffAt w)).sum) := by
  induction ps generalizing sum k with
  | nil => rwa [List.foldl_nil, List.map_nil, List.sum_nil, add_zero]
  | cons p ps ih =>
    have hp := (h p List.mem_cons_self).2
    rw [List.foldl_cons, List.map_cons, List.sum_cons, ← add_assoc]
    exact ih (fun q hq => h q (List.mem_cons_of_mem p hq)) (hk.addBytes hp)

/-- A run is made of multiples of one term. -/
def SameBase (ps : List (TermId × List UInt8)) : Prop :=
  ∀ base first rest, ps = (base, first) :: rest → ∀ p ∈ ps, p.1 = base

theorem multiplesSum_run {base : TermId} {ps : List (TermId × List UInt8)}
    (h : ∀ p ∈ ps, p.1 = base) :
    multiplesSum s ρ w ps = s.bvAt ρ w base * (ps.map (coeffAt w)).sum := by
  rw [multiplesSum, ← List.sum_map_mul_left]
  refine congrArg List.sum (List.map_congr_left fun p hp => ?_)
  rw [h p hp]

theorem groupRun_spec {grouped : List TermId} {run : List (TermId × List UInt8)}
    (hg : Summands s ρ grouped x) (hrun : Multiples s w run) (hsame : SameBase run) :
    Spec V (groupRun w grouped run) s fun out s' =>
      Summands s' ρ out (x + multiplesSum s ρ w run) := by
  refine Spec.intro fun hs => ?_
  unfold groupRun
  split
  · refine spec_pure ?_
    rwa [multiplesSum, List.map_nil, List.sum_nil, add_zero]
  rename_i base first rest
  have hbase := denotes_bvAt (ρ := ρ) hs.inv (hrun (base, first) List.mem_cons_self).1
  have hw := hs.inv.denotes_sortOk hbase
  have hcoeff := runCoefficient hrun (spells_zeros w)
  rw [zero_add] at hcoeff
  rw [multiplesSum_run (hsame base first rest rfl)]
  dsimp only
  split
  · rename_i hzero
    refine spec_pure ?_
    rwa [hcoeff.isZeroBytes.mp hzero, mul_zero, add_zero]
  split
  · rename_i hone
    refine spec_pure ?_
    rw [(hcoeff.isOneBytes hw.1).mp hone]
    exact (mul_one (s.bvAt ρ w base)).symm ▸ hg.append (summands_singleton hbase)
  refine (bvConstBytes_spec hw hcoeff).bind fun c s₁ hle hs₁ hc => ?_
  refine (bvMul_spec (hbase.mono hle) (hc.denotes hs₁.inv)).bind fun t s₂ hle' _ ht => ?_
  exact spec_pure ((hg.mono (le_trans hle hle')).append (summands_singleton ht))

theorem groupRuns_spec {grouped : List TermId} {runs : List (List (TermId × List UInt8))}
    (hg : Summands s ρ grouped x) (hruns : ∀ run ∈ runs, Multiples s w run ∧ SameBase run) :
    Spec V (runs.foldlM (groupRun w) grouped) s fun out s' =>
      Summands s' ρ out (x + (runs.map (multiplesSum s ρ w)).sum) := by
  induction runs generalizing s grouped x with
  | nil =>
    refine spec_pure ?_
    rwa [List.map_nil, List.sum_nil, add_zero]
  | cons run runs ih =>
    obtain ⟨hrun, hsame⟩ := hruns run List.mem_cons_self
    have hrest : ∀ r ∈ runs, Multiples s w r ∧ SameBase r := fun r hr =>
      hruns r (List.mem_cons_of_mem run hr)
    rw [List.foldlM_cons]
    refine (groupRun_spec hg hrun hsame).bind fun out s₁ hle _ hout => ?_
    have hsum : runs.map (multiplesSum s₁ ρ w) = runs.map (multiplesSum s ρ w) :=
      List.map_congr_left fun r hr => multiplesSum_mono (hrest r hr).1 hle
    refine (ih hout fun r hr => ⟨(hrest r hr).1.mono hle, (hrest r hr).2⟩).mono ?_
    intro out' s₂ _ _ hout'
    rwa [hsum, add_assoc, ← List.sum_cons, ← List.map_cons] at hout'

theorem sameBase_of_mem_splitBy {ps run : List (TermId × List UInt8)}
    (h : run ∈ ps.splitBy fun p q => p.1 == q.1) : SameBase run := by
  have hchain := List.isChain_of_mem_splitBy h
  clear h
  induction run with
  | nil => exact fun _ _ _ h => nomatch h
  | cons p run ih =>
    intro base first rest heq q hq
    obtain ⟨rfl, rfl⟩ := List.cons.inj heq
    rcases List.mem_cons.mp hq with rfl | hq
    · rfl
    cases run with
    | nil => exact nomatch hq
    | cons p' run' =>
      rw [List.isChain_cons_cons] at hchain
      obtain ⟨base', first'⟩ := p'
      rw [ih hchain.2 base' first' run' rfl q hq]
      exact (beq_iff_eq.mp hchain.1).symm

/-! ## The canonical sum -/

theorem foldl_add (l : List (BitVec w)) (x : BitVec w) : l.foldl (· + ·) x = x + l.sum := by
  induction l generalizing x with
  | nil => rw [List.foldl_nil, List.sum_nil, add_zero]
  | cons y l ih => rw [List.foldl_cons, ih, List.sum_cons, add_assoc]

theorem rebuildBvAdd_spec (hw : Arena.SortOk (.bv w)) (h : Summands s ρ ts x) :
    Spec V (rebuildBvAdd ts w) s fun t s' => s'.Denotes ρ t x := by
  refine Spec.intro fun hs => ?_
  have hperm := List.mergeSort_perm ts (· ≤ ·)
  have hsort : Summands s ρ (ts.mergeSort (· ≤ ·)) x :=
    ⟨Vectors.perm h.1 hperm, ((hperm.map _).sum_eq).trans h.2⟩
  rw [rebuildBvAdd]
  revert hsort
  cases ts.mergeSort (· ≤ ·) with
  | nil =>
    rintro ⟨-, rfl⟩
    exact (zero_spec hw).const rfl
  | cons first rest =>
    rintro ⟨hv, rfl⟩
    have hfirst := denotes_bvAt (ρ := ρ) hs.inv (hv first List.mem_cons_self)
    refine (chain_spec (o := (· + ·)) bvAddNode_spec (Vectors.tail hv) hfirst).mono ?_
    intro t s' _ _ ht
    rw [List.map_cons, List.sum_cons]
    rwa [foldl_add] at ht

/-- The regrouped sum of two terms, where there is something to regroup. -/
theorem canonicalBvAdd_spec (ha : s.Denotes ρ a x) (hb : s.Denotes ρ b y) :
    Spec V (canonicalBvAdd a b w) s fun found s' =>
      ∀ t, found = some t → s'.Denotes ρ t (x + y) := by
  refine Spec.intro fun hs => ?_
  have hw := hs.inv.denotes_sortOk ha
  obtain ⟨left, hleft, hl⟩ := collectBvAdd_spec hs.inv ha (Nat.lt_succ_self a)
  obtain ⟨right, hright, hr⟩ := collectBvAdd_spec hs.inv hb (Nat.lt_succ_self b)
  have hall := hl.append hr
  refine spec_read hleft (spec_read hright (spec_read (Arena.bytesForWidth_ok hw) ?_))
  obtain ⟨p, hsplit, k, y', hk, hy', heq⟩ :=
    splitSummands_spec hs.inv hall.1 summands_nil (spells_zeros w)
  rw [hall.2, add_zero, zero_add] at heq
  refine spec_read hsplit ?_
  obtain ⟨constant, nonConst⟩ := p
  refine (scaled_spec hs.inv hy').bind ?_
  rintro scaled s' - hs' ⟨rfl, hmany, hsum⟩
  dsimp only
  -- the multiples, in the order of their terms and cut into runs
  have hperm := List.mergeSort_perm scaled fun p q => p.1 ≤ q.1
  generalize scaled.mergeSort (fun p q => p.1 ≤ q.1) = sorted at hperm
  have hflat := List.flatten_splitBy (fun p q => p.1 == q.1) sorted
  have hruns : ∀ run ∈ sorted.splitBy fun p q => p.1 == q.1,
      Multiples s' w run ∧ SameBase run := by
    refine fun run hrun => ⟨fun p hp => hmany p (hperm.mem_iff.mp ?_), sameBase_of_mem_splitBy hrun⟩
    rw [← hflat]
    exact List.mem_flatten.mpr ⟨run, hrun, hp⟩
  have htotal : ((sorted.splitBy fun p q => p.1 == q.1).map (multiplesSum s' ρ w)).sum = y' := by
    rw [← hsum, multiplesSum, ← (hperm.map _).sum_eq]
    conv_rhs => rw [← hflat, List.map_flatten, List.sum_flatten, List.map_map]
    rfl
  refine (groupRuns_spec (ρ := ρ) summands_nil hruns).bind fun grouped s₁ _ _ hgrouped => ?_
  rw [htotal, zero_add] at hgrouped
  have hend {s₂ : Arena} {out : List TermId} {c : Prop} [Decidable c]
      (h : Summands s₂ ρ out (x + y)) :
      Spec V (if c then pure none else do return some (← rebuildBvAdd out w) : ArenaM _) s₂
        fun found s' => ∀ t, found = some t → s'.Denotes ρ t (x + y) := by
    split
    · exact spec_pure nofun
    · refine (rebuildBvAdd_spec hw h).bind fun t s₃ _ _ ht => spec_pure ?_
      rintro _ ⟨⟩
      exact ht
  split
  · rename_i hzero
    refine hend ?_
    rwa [← heq, hk.isZeroBytes.mp hzero, zero_add]
  · refine (bvConstBytes_spec hw hk).bind fun c s₂ hle hs₂ hc => hend ?_
    rw [← heq, add_comm]
    exact (hgrouped.mono hle).append (summands_singleton (hc.denotes hs₂.inv))

end Builder
end Qfbv
end SmtServer
