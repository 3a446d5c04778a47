import SmtServer.Wire.BuilderInv

/-!
# Values have the sort their node says

The value of a node of a well-formed expression is a Bool or a vector of the node's width, as
its tag says. This is what lets the meaning of an operator be read on plain bit-vectors: no
operand is ever converted.
-/

namespace SmtServer
namespace Wire

open Lib Outcome
open Lib.Smt (Value)

/-- A value of a sort; the width of a Bool says nothing. -/
def Shaped (σ : WireSort) (w : Nat) (v : Value) : Prop :=
  match σ with
  | .bool => ∃ b, v = .bool b
  | .bv => ∃ x : BitVec w, v = .bv w x

namespace Shaped

variable {w : Nat} {x y : Value}

/-- A vector as wide as one of width `w`. -/
theorem like (hx : Shaped .bv w x) (z : BitVec x.width) : Shaped .bv w (.bv x.width z) := by
  obtain ⟨x, rfl⟩ := hx
  exact ⟨z, rfl⟩

theorem concat {v : Nat} (hx : Shaped .bv w x) (hy : Shaped .bv v y) :
    Shaped .bv (w + v) (Smt.concat x y) := by
  obtain ⟨x, rfl⟩ := hx
  obtain ⟨y, rfl⟩ := hy
  exact ⟨_, rfl⟩

theorem zeroExtend {extra : Nat} (hx : Shaped .bv w x) :
    Shaped .bv (w + extra) (Smt.zeroExtend extra x) := by
  obtain ⟨x, rfl⟩ := hx
  exact ⟨_, rfl⟩

theorem signExtend {extra : Nat} (hx : Shaped .bv w x) :
    Shaped .bv (w + extra) (Smt.signExtend extra x) := by
  obtain ⟨x, rfl⟩ := hx
  exact ⟨_, rfl⟩

theorem ite {c : Value} (hx : Shaped .bv w x) (hy : Shaped .bv w y) :
    Shaped .bv w (Smt.ite c x y) := by
  unfold Smt.ite
  split
  · exact hx
  · exact hy

theorem select {cases : List (Value × Value)} (hcases : ∀ c ∈ cases, Shaped .bv w c.2)
    (hx : Shaped .bv w x) : Shaped .bv w (Smt.select cases x) := by
  induction cases with
  | nil => exact hx
  | cons c rest ih =>
    unfold Smt.select
    split
    · exact hcases c List.mem_cons_self
    · exact ih fun c hc => hcases c (List.mem_cons_of_mem _ hc)

end Shaped

namespace Parts

variable {p : Parts} {ρ : Env} {i : Nat} {n : RawNode} {t : Tag} {args : List Value}

/-- The meaning of a tag has the sort of the tag, once the operands have theirs. -/
theorem NodeRule.shaped (h : p.NodeRule i n t) (hargs : ∀ k < n.arity.toNat, ∀ {σ w},
      p.Operand i n k σ w → Shaped σ w (args.getD k default)) :
    Shaped t.resultSort n.width.toNat (p.semTag ρ n args t) := by
  have ho := h.operands
  have ha := h.arity
  have fixed : ∀ {c : UInt8}, t.fixedArity = some c → n.arity.toNat = c.toNat := by
    intro c hc
    rw [ArityRule, hc] at ha
    rw [ha]
  cases t with
  | bvVar | bvConst | boolTrue | boolFalse | boolVar => exact ⟨_, rfl⟩
  | bvNot | bvNeg => exact (hargs 0 (by rw [fixed rfl]; decide) ho).like _
  | bvAnd | bvOr | bvXor | bvAdd | bvSub | bvMul | bvUdiv | bvUrem | bvSdiv | bvSrem | bvSmod
  | bvShl | bvLshr | bvAshr => exact (hargs 0 (by rw [fixed rfl]; decide) ho.1).like _
  | bvExtract =>
    obtain ⟨w, -, -, -, hw⟩ := ho
    show Shaped .bv n.width.toNat _
    rw [hw]
    exact ⟨_, rfl⟩
  | bvConcat =>
    have ha2 : n.arity.toNat = 2 := fixed rfl
    obtain ⟨hi, lo, h0, h1, hw⟩ := ho
    show Shaped .bv n.width.toNat _
    rw [hw]
    exact (hargs 0 (by omega) h0).concat (hargs 1 (by omega) h1)
  | bvZext =>
    obtain ⟨w, h0, hw⟩ := ho
    show Shaped .bv n.width.toNat _
    rw [hw]
    exact (hargs 0 (by rw [fixed rfl]; decide) h0).zeroExtend
  | bvSext =>
    obtain ⟨w, h0, hw⟩ := ho
    show Shaped .bv n.width.toNat _
    rw [hw]
    exact (hargs 0 (by rw [fixed rfl]; decide) h0).signExtend
  | bvIte =>
    have ha3 : n.arity.toNat = 3 := fixed rfl
    exact (hargs 1 (by omega) ho.2.1).ite (hargs 2 (by omega) ho.2.2)
  | bvSelect =>
    have hodd : n.arity.toNat % 2 = 1 := ha
    obtain ⟨haux, hdefault, hpairs⟩ := ho
    refine Shaped.select ?_ (hargs _ (by omega) hdefault)
    intro c hc
    obtain ⟨k, hk, rfl⟩ := List.mem_map.mp hc
    have hk := List.mem_range.mp hk
    exact hargs _ (by omega) (hpairs k hk).2
  | _ => exact ⟨_, rfl⟩

theorem length_of_blobAt {r : BlobRef} {s : List UInt8} (h : p.blobAt r = some s) :
    s.length = r.len.toNat := by
  unfold blobAt at h
  split at h
  · rw [← Option.some.inj h, List.length_take, List.length_drop]
    omega
  · cases h

/-- The value of an operand, among the values of all of them. -/
theorem Operand.exists_ref {k w : Nat} {σ : WireSort} (h : p.Operand i n k σ w)
    (hk : k < n.arity.toNat) (f : NodeRef → Value) : ∃ r m u, p.nodes[r.idx]? = some m ∧
      r.idx < i ∧ Tag.tryFrom m.tag = some u ∧ u.resultSort = σ ∧ m.width.toNat = w ∧
      ((p.operands n).map f).getD k default = f r := by
  obtain ⟨r, m, u, hr, -, hlt, hm, hu, hσ, hw⟩ := h
  refine ⟨r, m, u, hm, hlt, hu, hσ, hw, ?_⟩
  rw [List.getD_eq_getElem?_getD, List.getElem?_map, Parts.getElem?_operands hk, hr]
  rfl

theorem WellFormed.value_shaped (h : p.WellFormed) (hn : p.nodes[i]? = some n)
    (ht : Tag.tryFrom n.tag = some t) : Shaped t.resultSort n.width.toNat (p.value ρ i) := by
  induction i using Nat.strong_induction_on generalizing n t with
  | _ i ih =>
    obtain ⟨u, hu, hrule⟩ := h.node i n hn
    obtain rfl : u = t := Option.some.inj (hu.symm.trans ht)
    rw [h.value_eq hn, sem, hu]
    refine hrule.shaped ?_
    intro k hk σ w ho
    obtain ⟨r, m, u, hm, hlt, hu, rfl, rfl, heq⟩ := ho.exists_ref hk fun r => p.value ρ r.idx
    rw [heq]
    exact ih r.idx hlt hm hu

/-! ## Extensions keep values -/

/-- A tag's meaning looks at the blob only for the name of a variable and for a wide constant. -/
theorem semTag_congr {q : Parts} (hname : t = .bvVar ∨ t = .boolVar → p.symbol n = q.symbol n)
    (hconst : t = .bvConst → p.constant n = q.constant n) :
    p.semTag ρ n args t = q.semTag ρ n args t := by
  cases t with
  | bvVar | boolVar =>
    have h := hname (by simp)
    simp only [semTag, h]
  | bvConst => simp only [semTag, hconst rfl]
  | _ => rfl

theorem NodeRule.semTag_extends {q : Parts} (h : p.Extends q) (hr : p.NodeRule i n t) :
    q.semTag ρ n args t = p.semTag ρ n args t := by
  refine (semTag_congr ?_ ?_).symm
  · intro ht
    obtain ⟨s, hs⟩ := hr.blob.name ht
    rw [symbol, symbol, hs, textAt_mono h hs]
  · intro ht
    unfold constant
    split
    · rfl
    · rename_i hw
      obtain ⟨-, s, hs⟩ := hr.blob.const ht (by omega)
      rw [hs, blobAt_mono h hs]

theorem WellFormed.operands_extends {q : Parts} (hp : p.WellFormed) (h : p.Extends q)
    (hn : p.nodes[i]? = some n) : q.operands n = p.operands n := by
  obtain ⟨t, -, hrule⟩ := hp.node i n hn
  refine List.map_congr_left fun k hk => ?_
  obtain ⟨σ, w, ho⟩ := hrule.operand (List.mem_range.mp hk)
  obtain ⟨r, m, u, hr, -⟩ := ho
  rw [hr, getElem?_of_extends h.children hr]

/-- The nodes of an expression mean in an extension what they meant before. -/
theorem WellFormed.value_extends {q : Parts} (hp : p.WellFormed) (hq : q.WellFormed)
    (h : p.Extends q) (hi : i < p.nodes.length) : q.value ρ i = p.value ρ i := by
  induction i using Nat.strong_induction_on with
  | _ i ih =>
    have hn : p.nodes[i]? = some p.nodes[i] := List.getElem?_eq_getElem hi
    obtain ⟨t, ht, hrule⟩ := hp.node i _ hn
    have hargs : (p.operands p.nodes[i]).map (fun r => q.value ρ r.idx) =
        (p.operands p.nodes[i]).map fun r => p.value ρ r.idx := by
      refine List.map_congr_left fun r hr => ?_
      have hlt := hp.operand_lt hn hr
      exact ih r.idx hlt (by omega)
    rw [hp.value_eq hn, hq.value_eq (getElem?_of_extends h.nodes hn), sem, sem, ht,
      hp.operands_extends h hn, hargs]
    exact hrule.semTag_extends h

end Parts
end Wire
end SmtServer
