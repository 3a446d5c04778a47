import SmtServer.Qfbv.Query

/-!
# Checking an arena

`NodeKind.HasSort` says which sorts a node may have; `NodeKind.sortOf` computes the one it has. So
the representation invariant of a given arena, and that a given query is well formed, can be run.
-/

namespace SmtServer
namespace Qfbv

open Lib
open Lib.Smt (Value)

/-- The width of a term that is there and is a vector. -/
def bvWidth? : Option TermSort → Option Nat
  | some (.bv w) => some w
  | _ => none

theorem bvWidth?_eq {o : Option TermSort} {w : Nat} : bvWidth? o = some w ↔ o = some (.bv w) := by
  unfold bvWidth?
  split <;> simp_all

namespace NodeKind

/-- The sort of a node, from the sorts of its children. -/
def sortOf (srt : TermId → Option TermSort) : NodeKind → Option TermSort
  | .bvConst w bytes => if bytes.length = divCeil8 w ∧ leNat bytes < 2 ^ w then some (.bv w) else none
  | .bvVar w _ _ => some (.bv w)
  | .boolConst _ | .boolVar _ _ => some .bool
  | .bvNot x | .bvNeg x | .bvRotateLeft x _ | .bvRotateRight x _ =>
      (bvWidth? (srt x)).map .bv
  | .bvAnd a b | .bvOr a b | .bvXor a b | .bvAdd a b | .bvSub a b | .bvMul a b | .bvUDiv a b
  | .bvURem a b | .bvSDiv a b | .bvSRem a b | .bvSMod a b | .bvShl a b | .bvLShr a b
  | .bvAShr a b => do
      let w ← bvWidth? (srt a)
      if srt b = some (.bv w) then some (.bv w) else none
  | .bvExtract c high low => do
      let w ← bvWidth? (srt c)
      if low ≤ high ∧ high < w then some (.bv (high - low + 1)) else none
  | .bvConcat h l => do
      let hw ← bvWidth? (srt h)
      let lw ← bvWidth? (srt l)
      some (.bv (hw + lw))
  | .bvZeroExtend c extra | .bvSignExtend c extra =>
      (bvWidth? (srt c)).map fun w => .bv (w + extra)
  | .bvRepeat c count => (bvWidth? (srt c)).map fun w => .bv (w * count)
  | .bvIte c x y => do
      let w ← bvWidth? (srt x)
      if srt c = some .bool ∧ srt y = some (.bv w) then some (.bv w) else none
  | .bvSelect cases default => do
      let w ← bvWidth? (srt default)
      if ∀ p ∈ cases, srt p.1 = some .bool ∧ srt p.2 = some (.bv w) then some (.bv w) else none
  | .boolNot x => if srt x = some .bool then some .bool else none
  | .boolAnd a b | .boolOr a b | .boolImplies a b | .boolEq a b =>
      if srt a = some .bool ∧ srt b = some .bool then some .bool else none
  | .boolIte c x y =>
      if srt c = some .bool ∧ srt x = some .bool ∧ srt y = some .bool then some .bool else none
  | .bvEq a b | .bvUlt a b | .bvUle a b | .bvSlt a b | .bvSle a b | .uAddOverflow a b
  | .sAddOverflow a b | .uSubOverflow a b | .sSubOverflow a b | .uMulOverflow a b
  | .sMulOverflow a b | .sDivOverflow a b => do
      let w ← bvWidth? (srt a)
      if srt b = some (.bv w) then some .bool else none
  | .negOverflow x => (bvWidth? (srt x)).map fun _ => .bool

theorem hasSort_of_sortOf {srt : TermId → Option TermSort} {k : NodeKind} {σ : TermSort}
    (h : k.sortOf srt = some σ) : k.HasSort srt σ := by
  cases k with
  | bvConst | bvVar | boolConst | boolVar | boolNot | boolAnd | boolOr | boolImplies | boolEq
  | boolIte =>
    simp only [sortOf, Option.ite_none_right_eq_some, Option.some.injEq] at h
    simp only [HasSort]
    grind
  | bvNot | bvNeg | bvRotateLeft | bvRotateRight | bvZeroExtend | bvSignExtend | bvRepeat
  | negOverflow =>
    simp only [sortOf, Option.map_eq_some_iff, bvWidth?_eq] at h
    obtain ⟨w, hw, rfl⟩ := h
    exact ⟨w, rfl, hw⟩
  | _ =>
    simp only [sortOf, Option.bind_eq_bind, Option.bind_eq_some_iff, bvWidth?_eq,
      Option.ite_none_right_eq_some, Option.some.injEq] at h
    simp only [HasSort]
    grind

end NodeKind

namespace Arena

/-- Every row is in order, and is a node of its sort. -/
def WellSorted (s : Arena) : Prop :=
  (∀ p ∈ s.nodes.zipIdx, (∀ j ∈ p.1.kind.children, j < p.2) ∧
    p.1.kind.sortOf s.sortAt = some p.1.sort ∧
    (bvWidth? p.1.sort).all fun w => 1 ≤ w ∧ w ≤ maxBvWidth) ∧
  s.nodes.Nodup ∧ s.nodes.length ≤ 2 ^ 32

instance (s : Arena) : Decidable s.WellSorted := by
  unfold WellSorted
  infer_instance

theorem WellSorted.inv {s : Arena} (h : s.WellSorted) : s.Inv := by
  obtain ⟨hrows, hnodup, hlen⟩ := h
  have hrow : ∀ {i : Nat} {n : Node}, s.nodes[i]? = some n →
      (∀ j ∈ n.kind.children, j < i) ∧
      n.kind.sortOf s.sortAt = some n.sort ∧
      (bvWidth? n.sort).all fun w => 1 ≤ w ∧ w ≤ maxBvWidth := by
    intro i n hn
    exact hrows (n, i) (List.mem_zipIdx_iff_getElem?.mpr hn)
  refine ⟨?_, ?_, ?_, hnodup, hlen⟩
  · intro i n hn
    exact (hrow hn).1
  · intro t n hn
    exact NodeKind.hasSort_of_sortOf (hrow hn).2.1
  · intro t w ht
    obtain ⟨n, hn, hsort⟩ := sortAt_eq_some.mp ht
    have hw := (hrow hn).2.2
    rw [hsort] at hw
    simpa [bvWidth?] using hw

end Arena

/-! ### Rows that differ

To compare every row with every other one is too slow for the larger examples. Rows with different
numbers differ, and the numbers that have been seen fit into one more. -/

/-- The numbers differ from each other and from the bits that are set. -/
def distinctFrom : (seen : Nat) → List Nat → Bool
  | _, [] => true
  | seen, code :: codes => !seen.testBit code && distinctFrom (seen ||| 1 <<< code) codes

theorem of_distinctFrom {codes : List Nat} {seen : Nat} (h : distinctFrom seen codes = true) :
    codes.Nodup ∧ ∀ code ∈ codes, seen.testBit code = false := by
  induction codes generalizing seen with
  | nil => simp
  | cons code codes ih =>
    rw [distinctFrom, Bool.and_eq_true, Bool.not_eq_true'] at h
    obtain ⟨hnodup, hrest⟩ := ih h.2
    have hbit : (1 <<< code).testBit code = true := by simp [Nat.testBit_shiftLeft]
    simp only [Nat.testBit_or, Bool.or_eq_false_iff] at hrest
    refine ⟨List.nodup_cons.mpr ⟨fun hmem => ?_, hnodup⟩,
      List.forall_mem_cons.mpr ⟨h.1, fun other hother => (hrest other hother).1⟩⟩
    cases hbit.symm.trans (hrest code hmem).2

theorem nodup_of_codes {α : Type} {l : List α} (code : α → Nat)
    (h : distinctFrom 0 (l.map code) = true) : l.Nodup :=
  (of_distinctFrom h).1.of_map code

theorem Query.wellFormed_of_check {q : Query} (ha : q.arena.WellSorted)
    (hr : ∀ t ∈ q.assertionsAndAssumptions, q.arena.sortAt t = some .bool) : q.WellFormed :=
  ⟨ha.inv, hr⟩

end Qfbv
end SmtServer
