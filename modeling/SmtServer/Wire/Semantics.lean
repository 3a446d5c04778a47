import SmtServer.Lib.Dag
import SmtServer.Lib.Smt
import SmtServer.Wire.WellFormed

/-!
# What a wire expression means

The value of a wire node under an assignment to the **names** of the expression: operands
first, each operator by its SMT-LIB meaning (`Lib.Smt`). Two nodes that carry the same name
are the same variable, which is the difference from the solver's own terms.

Constants of up to 64 bits are their payload modulo `2 ^ width`, wider ones the low `width` bits
of their blob entry, and `BV_SELECT` is the value of the first selector that holds.
-/

namespace SmtServer
namespace Wire

open Lib Outcome
open Lib.Smt (Value)

/-- An assignment to variable names. A bit-vector variable of width `w` has the value of the
given number modulo `2 ^ w`. -/
structure Env where
  bv : String → Nat
  bool : String → Bool

namespace Parts

variable (p : Parts)

/-- The references a node holds, in order. -/
def operands (n : RawNode) : List NodeRef :=
  (List.range n.arity.toNat).map fun k => (p.children[n.children.toNat + k]?).getD ⟨0⟩

/-- The number a constant node stands for, before reduction to its width. -/
def constant (n : RawNode) : Nat :=
  if n.width.toNat ≤ 64 then n.payload.toNat else leNat ((p.blobAt n.blobRef).getD [])

/-- The name of a variable node. -/
def symbol (n : RawNode) : String := (p.textAt n.blobRef).getD ""

/-- The meaning of a node with tag `t`, given the values of its operands. -/
def semTag (ρ : Env) (n : RawNode) (args : List Value) (t : Tag) : Value :=
  let arg k := args.getD k default
  match t with
  | .bvVar => .bv n.width.toNat (.ofNat _ (ρ.bv (p.symbol n)))
  | .bvConst => .bv n.width.toNat (.ofNat _ (p.constant n))
  | .bvNot => Smt.bvnot (arg 0)
  | .bvNeg => Smt.bvneg (arg 0)
  | .bvAnd => Smt.bvand (arg 0) (arg 1)
  | .bvOr => Smt.bvor (arg 0) (arg 1)
  | .bvXor => Smt.bvxor (arg 0) (arg 1)
  | .bvAdd => Smt.bvadd (arg 0) (arg 1)
  | .bvSub => Smt.bvsub (arg 0) (arg 1)
  | .bvMul => Smt.bvmul (arg 0) (arg 1)
  | .bvUdiv => Smt.bvudiv (arg 0) (arg 1)
  | .bvUrem => Smt.bvurem (arg 0) (arg 1)
  | .bvSdiv => Smt.bvsdiv (arg 0) (arg 1)
  | .bvSrem => Smt.bvsrem (arg 0) (arg 1)
  | .bvSmod => Smt.bvsmod (arg 0) (arg 1)
  | .bvShl => Smt.bvshl (arg 0) (arg 1)
  | .bvLshr => Smt.bvlshr (arg 0) (arg 1)
  | .bvAshr => Smt.bvashr (arg 0) (arg 1)
  | .bvExtract => Smt.extract n.auxHi.toNat n.auxLo.toNat (arg 0)
  | .bvConcat => Smt.concat (arg 0) (arg 1)
  | .bvZext => Smt.zeroExtend n.auxHi.toNat (arg 0)
  | .bvSext => Smt.signExtend n.auxHi.toNat (arg 0)
  | .bvIte => Smt.ite (arg 0) (arg 1) (arg 2)
  | .bvSelect =>
      Smt.select ((List.range n.auxHi.toNat).map fun k => (arg (k * 2), arg (k * 2 + 1)))
        (arg (n.auxHi.toNat * 2))
  | .boolTrue => .bool true
  | .boolFalse => .bool false
  | .boolVar => .bool (ρ.bool (p.symbol n))
  | .boolNot => Smt.not (arg 0)
  | .boolAnd => Smt.and (arg 0) (arg 1)
  | .boolOr => Smt.or (arg 0) (arg 1)
  | .boolImplies => Smt.implies (arg 0) (arg 1)
  | .bvEq => Smt.bveq (arg 0) (arg 1)
  | .bvUlt => Smt.bvult (arg 0) (arg 1)
  | .bvUle => Smt.bvule (arg 0) (arg 1)
  | .bvSlt => Smt.bvslt (arg 0) (arg 1)
  | .bvSle => Smt.bvsle (arg 0) (arg 1)
  | .uaddOvf => Smt.bvuaddo (arg 0) (arg 1)
  | .saddOvf => Smt.bvsaddo (arg 0) (arg 1)
  | .usubOvf => Smt.bvusubo (arg 0) (arg 1)
  | .ssubOvf => Smt.bvssubo (arg 0) (arg 1)
  | .umulOvf => Smt.bvumulo (arg 0) (arg 1)
  | .smulOvf => Smt.bvsmulo (arg 0) (arg 1)
  | .negOvf => Smt.bvnego (arg 0)
  | .sdivOvf => Smt.bvsdivo (arg 0) (arg 1)

/-- The meaning of a node, given the values of its operands. -/
def sem (ρ : Env) (n : RawNode) (args : List Value) : Value :=
  match Tag.tryFrom n.tag with
  | some t => p.semTag ρ n args t
  | none => default

/-- The value of node `i` under an assignment. -/
def value (ρ : Env) (i : Nat) : Value :=
  Dag.value (fun _ (n : RawNode) look => p.sem ρ n ((p.operands n).map fun r => look r.idx))
    default p.nodes i

/-! ## The defining equation -/

variable {p} {ρ : Env} {i k : Nat} {n : RawNode}

theorem local_sem :
    Dag.Local (fun _ (n : RawNode) look => p.sem ρ n ((p.operands n).map fun r => look r.idx))
      (fun n => (p.operands n).map (·.idx)) := by
  intro i n g h hgh
  have hargs : (p.operands n).map (fun r => g r.idx) = (p.operands n).map fun r => h r.idx :=
    List.map_congr_left fun r hr => hgh _ (List.mem_map_of_mem hr)
  show p.sem ρ n _ = p.sem ρ n _
  rw [hargs]

theorem getElem?_operands (hk : k < n.arity.toNat) :
    (p.operands n)[k]? = some ((p.children[n.children.toNat + k]?).getD ⟨0⟩) := by
  simp [operands, hk]

/-- Every operand of a node that meets its rule is an earlier node of the sort and width the
rule asks for. -/
theorem NodeRule.operand {t : Tag} (h : p.NodeRule i n t) (hk : k < n.arity.toNat) :
    ∃ σ w, p.Operand i n k σ w := by
  have ha := h.arity
  have ho := h.operands
  have fixed : ∀ {m : UInt8}, t.fixedArity = some m → k < m.toNat := by
    intro m hm
    rw [ArityRule, hm] at ha
    exact ha ▸ hk
  cases t with
  | bvVar | bvConst | boolTrue | boolFalse | boolVar => exact absurd (fixed rfl) (by simp)
  | bvNot | bvNeg =>
    obtain rfl : k = 0 := by have := fixed rfl; simpa using this
    exact ⟨_, _, ho⟩
  | boolNot =>
    obtain rfl : k = 0 := by have := fixed rfl; simpa using this
    obtain ⟨w, ho⟩ := ho
    exact ⟨_, w, ho⟩
  | bvExtract | bvZext | bvSext =>
    obtain rfl : k = 0 := by have := fixed rfl; simpa using this
    obtain ⟨w, ho, -⟩ := ho
    exact ⟨_, w, ho⟩
  | negOvf =>
    obtain rfl : k = 0 := by have := fixed rfl; simpa using this
    obtain ⟨w, ho⟩ := ho
    exact ⟨_, w, ho⟩
  | bvIte =>
    obtain ⟨⟨w, h0⟩, h1, h2⟩ := ho
    have hk3 : k < 3 := fixed rfl
    obtain rfl | rfl | rfl : k = 0 ∨ k = 1 ∨ k = 2 := by omega
    · exact ⟨_, w, h0⟩
    · exact ⟨_, _, h1⟩
    · exact ⟨_, _, h2⟩
  | bvSelect =>
    obtain ⟨haux, hdefault, hpairs⟩ := ho
    have hodd : n.arity.toNat % 2 = 1 := ha
    -- position `k` is the default, a selector or a value
    by_cases hlast : k = n.auxHi.toNat * 2
    · exact ⟨_, _, hlast ▸ hdefault⟩
    · obtain ⟨⟨w, hc⟩, hv⟩ := hpairs (k / 2) (by omega)
      rcases Nat.mod_two_eq_zero_or_one k with hpar | hpar
      · have heq : k / 2 * 2 = k := by omega
        exact ⟨_, w, heq ▸ hc⟩
      · have heq : k / 2 * 2 + 1 = k := by omega
        exact ⟨_, _, heq ▸ hv⟩
  | bvConcat =>
    obtain ⟨hw, lw, h0, h1, -⟩ := ho
    have hk2 : k < 2 := fixed rfl
    obtain rfl | rfl : k = 0 ∨ k = 1 := by omega
    · exact ⟨_, _, h0⟩
    · exact ⟨_, _, h1⟩
  | boolAnd | boolOr | boolImplies =>
    obtain ⟨⟨w₀, h0⟩, w₁, h1⟩ := ho
    have hk2 : k < 2 := fixed rfl
    obtain rfl | rfl : k = 0 ∨ k = 1 := by omega
    · exact ⟨_, _, h0⟩
    · exact ⟨_, _, h1⟩
  | bvEq | bvUlt | bvUle | bvSlt | bvSle | uaddOvf | saddOvf | usubOvf | ssubOvf | umulOvf
  | smulOvf | sdivOvf =>
    obtain ⟨w, h0, h1⟩ := ho
    have hk2 : k < 2 := fixed rfl
    obtain rfl | rfl : k = 0 ∨ k = 1 := by omega
    · exact ⟨_, _, h0⟩
    · exact ⟨_, _, h1⟩
  | _ =>
    obtain ⟨h0, h1⟩ := ho
    have hk2 : k < 2 := fixed rfl
    obtain rfl | rfl : k = 0 ∨ k = 1 := by omega
    · exact ⟨_, _, h0⟩
    · exact ⟨_, _, h1⟩

theorem Operand.getElem?_operands {σ : WireSort} {w : Nat} (h : p.Operand i n k σ w)
    (hk : k < n.arity.toNat) : ∃ r, (p.operands n)[k]? = some r ∧
      p.children[n.children.toNat + k]? = some r ∧ r.sort = σ ∧ r.idx < i := by
  obtain ⟨r, m, t, hr, hs, hi, -⟩ := h
  exact ⟨r, by rw [Parts.getElem?_operands hk, hr]; rfl, hr, hs, hi⟩

/-- The operands of a well-formed DAG come first. -/
theorem WellFormed.operand_lt (h : p.WellFormed) (hn : p.nodes[i]? = some n) {r : NodeRef}
    (hr : r ∈ p.operands n) : r.idx < i := by
  obtain ⟨t, -, hrule⟩ := h.node i n hn
  obtain ⟨k, hk, heq⟩ := List.getElem_of_mem hr
  have hk' : k < n.arity.toNat := by simpa [operands] using hk
  obtain ⟨σ, w, ho⟩ := hrule.operand hk'
  obtain ⟨r', hr', -, -, hlt⟩ := ho.getElem?_operands hk'
  rw [List.getElem?_eq_getElem hk, Option.some.injEq] at hr'
  rwa [← heq, hr']

theorem WellFormed.ordered (h : p.WellFormed) :
    Dag.Ordered (fun n => (p.operands n).map (·.idx)) p.nodes := by
  intro i n hn j hj
  obtain ⟨r, hr, rfl⟩ := List.mem_map.mp hj
  exact h.operand_lt hn hr

/-- The value of a node is the meaning of its tag at the values of its operands. -/
theorem WellFormed.value_eq (h : p.WellFormed) (hn : p.nodes[i]? = some n) :
    p.value ρ i = p.sem ρ n ((p.operands n).map fun r => p.value ρ r.idx) :=
  Dag.value_eq local_sem h.ordered hn

end Parts
end Wire
end SmtServer
