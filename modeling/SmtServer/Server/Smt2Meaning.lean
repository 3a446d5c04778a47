import SmtServer.Server.Smt2Printed

/-!
# Printed terms keep their meaning

The term a node is printed as has, in every plain reading in which the names of the expression
stand for the values of its variables, the value of the node (`WellFormed.printed_denotes`): one
case for each operator, on operands that have the sorts the node asks for.
-/

namespace SmtServer
namespace Server
namespace Smt2

open Lib Outcome Wire
open Lib.Smt (Value)
open Smtlib (IsToken Operation Printed Reading theory)

variable {R : Reading} {scope : Smtlib.Scope} {p : Parts} {ρ : Env} {i k w : Nat} {n : RawNode}
  {t : Tag} {σ : WireSort} {op : String} {a b c : Printed} {u v : Value}

/-- The names of the expression stand for the values of its variables, and the two constants for
themselves. -/
structure Binds (R : Reading) (scope : Smtlib.Scope) (p : Parts) (ρ : Env) : Prop where
  names : ∀ {i n t s}, p.Declares i n t s → R.atom scope s = some (p.semTag ρ n [] t)
  constTrue : R.atom scope "true" = some (.bool true)
  constFalse : R.atom scope "false" = some (.bool false)

/-! ## Operators on values of a sort -/

theorem denotes_onBv {g : Value → Value} (h : IsToken op) (hR : PlainReading R scope)
    (hop : theory.lookup op = some (Smtlib.onBv g)) (ha : Denotes R scope a u)
    (hu : Shaped .bv w u) : Denotes R scope (app op h [a]) (g u) := by
  obtain ⟨x, rfl⟩ := hu
  exact denotes_app hR hop (.cons ha .nil) rfl

theorem denotes_bvs {g : Value → Value → Value} (h : IsToken op) (hR : PlainReading R scope)
    (hop : theory.lookup op = some (Smtlib.onBvs g) ∨ theory.lookup op = some (Smtlib.foldBvs g))
    (ha : Denotes R scope a u) (hb : Denotes R scope b v) (hu : Shaped .bv w u)
    (hv : Shaped .bv w v) : Denotes R scope (app op h [a, b]) (g u v) := by
  obtain ⟨x, rfl⟩ := hu
  obtain ⟨y, rfl⟩ := hv
  rcases hop with hop | hop
  · exact denotes_onBvs hR hop ha hb
  · exact denotes_foldBvs hR hop ha hb

theorem denotes_bools {g : Value → Value → Value} (h : IsToken op) (hR : PlainReading R scope)
    {f : Operation} (hop : theory.lookup op = some f)
    (hf : ∀ p q, f [.bool p, .bool q] = some (g (.bool p) (.bool q)))
    (ha : Denotes R scope a u) (hb : Denotes R scope b v) {w w' : Nat} (hu : Shaped .bool w u)
    (hv : Shaped .bool w' v) : Denotes R scope (app op h [a, b]) (g u v) := by
  obtain ⟨x, rfl⟩ := hu
  obtain ⟨y, rfl⟩ := hv
  exact denotes_app₂ hR hop ha hb (hf x y)

theorem denotes_ite {r : Value} {w' : Nat} (hR : PlainReading R scope) (hc : Denotes R scope c r)
    (ha : Denotes R scope a u) (hb : Denotes R scope b v) (hr : Shaped .bool w' r)
    (hu : Shaped .bv w u) (hv : Shaped .bv w v) :
    Denotes R scope (app "ite" (by decide) [c, a, b]) (Smt.ite r u v) := by
  obtain ⟨q, rfl⟩ := hr
  obtain ⟨x, rfl⟩ := hu
  obtain ⟨y, rfl⟩ := hv
  exact denotes_app hR (f := Smtlib.iteValue) rfl (.cons hc (.cons ha (.cons hb .nil))) (if_pos rfl)

/-- Nested `ite` is selection. -/
theorem denotes_select (hR : PlainReading R scope) (arg : Nat → Printed) (val : Nat → Value)
    (hb : Denotes R scope b v) (hv : Shaped .bv w v) (ks : List Nat)
    (hks : ∀ k ∈ ks, (Denotes R scope (arg (k * 2)) (val (k * 2)) ∧
        ∃ w, Shaped .bool w (val (k * 2))) ∧
      Denotes R scope (arg (k * 2 + 1)) (val (k * 2 + 1)) ∧ Shaped .bv w (val (k * 2 + 1))) :
    Denotes R scope
        (ks.foldr (fun k rest => app "ite" (by decide) [arg (k * 2), arg (k * 2 + 1), rest]) b)
        (Smt.select (ks.map fun k => (val (k * 2), val (k * 2 + 1))) v) ∧
      Shaped .bv w (Smt.select (ks.map fun k => (val (k * 2), val (k * 2 + 1))) v) := by
  induction ks with
  | nil => exact ⟨hb, hv⟩
  | cons k ks ih =>
    obtain ⟨⟨hsel, w', hsel'⟩, hval, hval'⟩ := hks k List.mem_cons_self
    obtain ⟨hrest, hrest'⟩ := ih fun j hj => hks j (List.mem_cons_of_mem k hj)
    exact ⟨denotes_ite hR hsel hval hrest hsel' hval' hrest', hval'.ite hrest'⟩

/-! ## Operands -/

theorem Operand.operandWidth_eq (ho : p.Operand i n 0 σ w) (hk : 0 < n.arity.toNat) :
    p.operandWidth n = w := by
  obtain ⟨r, m, u, hr, -, -, hm, -, -, hw⟩ := ho
  rw [Parts.operandWidth, List.getD_eq_getElem?_getD, Parts.getElem?_operands hk, hr,
    Option.getD_some, Option.getD_some, hm]
  exact hw

theorem WellFormed.operand_width (hp : p.WellFormed) (ho : p.Operand i n k .bv w) :
    1 ≤ w ∧ w ≤ 65536 := by
  obtain ⟨r, m, u, -, -, -, hm, hu, hσ, rfl⟩ := ho
  obtain ⟨t, ht, hr⟩ := hp.node _ m hm
  obtain rfl : t = u := Option.some.inj (ht.symm.trans hu)
  have hwidth := hr.width
  rwa [Parts.WidthRule, hσ] at hwidth

/-! ## Nodes -/

variable {args : List Printed} {vals : List Value}

/-- The terms of the operands have the values of the operands, and these have their sorts. -/
def ArgsDenote (R : Reading) (scope : Smtlib.Scope) (p : Parts) (i : Nat) (n : RawNode)
    (args : List Printed) (vals : List Value) : Prop :=
  ∀ k < n.arity.toNat, ∀ σ w, p.Operand i n k σ w →
    Denotes R scope (args.getD k default) (vals.getD k default) ∧
      Shaped σ w (vals.getD k default)

/-- The theory's operator for each predicate. -/
def overflowValue (u v : Value) : Overflow → Value
  | .uadd => Smt.bvuaddo u v
  | .usub => Smt.bvusubo u v
  | .umul => Smt.bvumulo u v
  | .sadd => Smt.bvsaddo u v
  | .ssub => Smt.bvssubo u v
  | .smul => Smt.bvsmulo u v
  | .neg => Smt.bvnego u
  | .sdiv => Smt.bvsdivo u v

theorem overflowValue_bv (x y : BitVec w) (op : Overflow) :
    overflowValue (.bv w x) (.bv w y) op = .bool (op.test x y) := by
  cases op with
  | uadd => exact Value.rel₂_bv (fun x y => x.uaddOverflow y) x y
  | usub => exact Value.rel₂_bv (fun x y => x.usubOverflow y) x y
  | umul => exact Value.rel₂_bv (fun x y => x.umulOverflow y) x y
  | sadd => exact Value.rel₂_bv (fun x y => x.saddOverflow y) x y
  | ssub => exact Value.rel₂_bv (fun x y => x.ssubOverflow y) x y
  | smul => exact Value.rel₂_bv (fun x y => x.smulOverflow y) x y
  | neg =>
    rw [overflowValue, Smt.bvnego, Value.bits_bv, Overflow.test]
    rfl
  | sdiv => exact Value.rel₂_bv (fun x y => x.sdivOverflow y) x y

theorem overflowTerm_denotes (hR : PlainReading R scope) (hp : p.WellFormed)
    (hk : 0 < n.arity.toNat) (h0 : p.Operand i n 0 .bv w) (ha : Denotes R scope a u)
    (hb : Denotes R scope b v) (hu : Shaped .bv w u) (hv : Shaped .bv w v) (op : Overflow) :
    Denotes R scope (overflowTerm a b (p.operandWidth n) op) (overflowValue u v op) := by
  obtain ⟨x, rfl⟩ := hu
  obtain ⟨y, rfl⟩ := hv
  obtain ⟨hw, hlen⟩ := WellFormed.operand_width hp h0
  rw [overflowValue_bv, Operand.operandWidth_eq h0 hk]
  exact denotes_overflowTerm hR hw hlen ha hb op

/-- The term of a node has the meaning of the node's tag. -/
theorem printedTag_denotes (hR : PlainReading R scope) (hbinds : Binds R scope p ρ)
    (hp : p.WellFormed) (hr : p.NodeRule i n t)
    (hsymbol : t = .bvVar ∨ t = .boolVar →
      Denotes R scope (symbolTerm (p.symbol n)) (p.semTag ρ n vals t))
    (hargs : ArgsDenote R scope p i n args vals) :
    Denotes R scope (p.printedTag n args t) (p.semTag ρ n vals t) := by
  have ho := hr.operands
  have ha := hr.arity
  have hwidth := hr.width
  have fixed : ∀ {c : UInt8}, t.fixedArity = some c → n.arity.toNat = c.toNat := by
    intro c hc
    rw [Parts.ArityRule, hc] at ha
    rw [ha]
  cases t with
  | bvVar => exact hsymbol (.inl rfl)
  | boolVar => exact hsymbol (.inr rfl)
  | bvConst =>
    obtain ⟨hw, hlen⟩ : 1 ≤ n.width.toNat ∧ n.width.toNat ≤ 65536 := hwidth
    have hlit := denotes_bits hR hw hlen (x := .ofNat n.width.toNat (p.constant n))
      (BitList.eq_bits BitList.length_ofNat (by rw [BitList.toNat_ofNat, BitVec.toNat_ofNat]))
    exact hlit
  | boolTrue => exact hbinds.constTrue
  | boolFalse => exact hbinds.constFalse
  | bvNot | bvNeg =>
    have hk : n.arity.toNat = 1 := fixed rfl
    obtain ⟨ha, hx⟩ := hargs 0 (by omega) _ _ ho
    simp only [Parts.semTag, Parts.printedTag]
    refine denotes_onBv _ hR ?_ ha hx
    rfl
  | boolNot =>
    have hk : n.arity.toNat = 1 := fixed rfl
    obtain ⟨w, ho⟩ := ho
    obtain ⟨ha, q, hq⟩ := hargs 0 (by omega) _ _ ho
    show Denotes R scope _ (Smt.not (vals.getD 0 default))
    rw [hq] at ha ⊢
    exact denotes_not hR ha
  | bvExtract =>
    have hk : n.arity.toNat = 1 := fixed rfl
    obtain ⟨w, ho, hle, hlt, -⟩ := ho
    obtain ⟨ha, x, hx⟩ := hargs 0 (by omega) _ _ ho
    obtain ⟨-, hlen⟩ := WellFormed.operand_width hp ho
    show Denotes R scope _ (Smt.extract n.auxHi.toNat n.auxLo.toNat (vals.getD 0 default))
    rw [hx] at ha ⊢
    rw [Smt.extract_eq rfl]
    exact denotes_extract _ _ ha hle hlt (by omega) rfl
  | bvZext =>
    have hk : n.arity.toNat = 1 := fixed rfl
    obtain ⟨w, ho, -⟩ := ho
    obtain ⟨ha, x, hx⟩ := hargs 0 (by omega) _ _ ho
    show Denotes R scope _ (Smt.zeroExtend n.auxHi.toNat (vals.getD 0 default))
    rw [hx] at ha ⊢
    exact denotes_indexed rfl (by have := n.auxHi.toNat_lt; omega) ha rfl
  | bvSext =>
    have hk : n.arity.toNat = 1 := fixed rfl
    obtain ⟨w, ho, -⟩ := ho
    obtain ⟨ha, x, hx⟩ := hargs 0 (by omega) _ _ ho
    show Denotes R scope _ (Smt.signExtend n.auxHi.toNat (vals.getD 0 default))
    rw [hx] at ha ⊢
    exact denotes_indexed rfl (by have := n.auxHi.toNat_lt; omega) ha rfl
  | bvConcat =>
    have hk : n.arity.toNat = 2 := fixed rfl
    obtain ⟨_, _, h0, h1, -⟩ := ho
    obtain ⟨ha, x, hx⟩ := hargs 0 (by omega) _ _ h0
    obtain ⟨hb, y, hy⟩ := hargs 1 (by omega) _ _ h1
    show Denotes R scope _ (Smt.concat (vals.getD 0 default) (vals.getD 1 default))
    rw [hx] at ha ⊢
    rw [hy] at hb ⊢
    exact denotes_app₂ hR (f := Smtlib.concatValue) rfl ha hb rfl
  | bvIte =>
    have hk : n.arity.toNat = 3 := fixed rfl
    obtain ⟨⟨_, h0⟩, h1, h2⟩ := ho
    obtain ⟨hc, hc'⟩ := hargs 0 (by omega) _ _ h0
    obtain ⟨ha, hx⟩ := hargs 1 (by omega) _ _ h1
    obtain ⟨hb, hy⟩ := hargs 2 (by omega) _ _ h2
    exact denotes_ite hR hc ha hb hc' hx hy
  | bvSelect =>
    have hodd : n.arity.toNat % 2 = 1 := ha
    obtain ⟨haux, hdefault, hpairs⟩ := ho
    obtain ⟨hb, hv⟩ := hargs _ (by omega) _ _ hdefault
    refine (denotes_select hR (fun k => args.getD k default) (fun k => vals.getD k default) hb hv
      (List.range n.auxHi.toNat) fun k hk => ?_).1
    have hk := List.mem_range.mp hk
    obtain ⟨⟨_, hc⟩, hx⟩ := hpairs k hk
    obtain ⟨hsel, hsel'⟩ := hargs _ (by omega) _ _ hc
    exact ⟨⟨hsel, _, hsel'⟩, hargs _ (by omega) _ _ hx⟩
  | boolAnd =>
    have hk : n.arity.toNat = 2 := fixed rfl
    obtain ⟨⟨_, h0⟩, _, h1⟩ := ho
    obtain ⟨ha, hx⟩ := hargs 0 (by omega) _ _ h0
    obtain ⟨hb, hy⟩ := hargs 1 (by omega) _ _ h1
    simp only [Parts.semTag, Parts.printedTag]
    refine denotes_bools _ hR (f := Smtlib.foldBools true Smt.and) ?_ (fun x y => ?_) ha hb hx hy
    · rfl
    · cases x <;> rfl
  | boolOr =>
    have hk : n.arity.toNat = 2 := fixed rfl
    obtain ⟨⟨_, h0⟩, _, h1⟩ := ho
    obtain ⟨ha, hx⟩ := hargs 0 (by omega) _ _ h0
    obtain ⟨hb, hy⟩ := hargs 1 (by omega) _ _ h1
    simp only [Parts.semTag, Parts.printedTag]
    refine denotes_bools _ hR (f := Smtlib.foldBools false Smt.or) ?_ (fun x y => ?_) ha hb hx hy
    · rfl
    · cases x <;> rfl
  | boolImplies =>
    have hk : n.arity.toNat = 2 := fixed rfl
    obtain ⟨⟨_, h0⟩, _, h1⟩ := ho
    obtain ⟨ha, hx⟩ := hargs 0 (by omega) _ _ h0
    obtain ⟨hb, hy⟩ := hargs 1 (by omega) _ _ h1
    simp only [Parts.semTag, Parts.printedTag]
    refine denotes_bools _ hR (f := Smtlib.onBools Smt.implies) ?_ (fun _ _ => rfl) ha hb hx hy
    rfl
  | bvEq =>
    have hk : n.arity.toNat = 2 := fixed rfl
    obtain ⟨_, h0, h1⟩ := ho
    obtain ⟨ha, x, hx⟩ := hargs 0 (by omega) _ _ h0
    obtain ⟨hb, y, hy⟩ := hargs 1 (by omega) _ _ h1
    show Denotes R scope _ (Smt.bveq (vals.getD 0 default) (vals.getD 1 default))
    rw [hx] at ha ⊢
    rw [hy] at hb ⊢
    rw [Smt.bveq, Value.rel₂_bv]
    exact denotes_equal hR ha hb
  | bvUlt | bvUle | bvSlt | bvSle =>
    have hk : n.arity.toNat = 2 := fixed rfl
    obtain ⟨_, h0, h1⟩ := ho
    obtain ⟨ha, hx⟩ := hargs 0 (by omega) _ _ h0
    obtain ⟨hb, hy⟩ := hargs 1 (by omega) _ _ h1
    simp only [Parts.semTag, Parts.printedTag]
    refine denotes_bvs _ hR (.inl ?_) ha hb hx hy
    rfl
  | uaddOvf | saddOvf | usubOvf | ssubOvf | umulOvf | smulOvf | sdivOvf =>
    have hk : n.arity.toNat = 2 := fixed rfl
    obtain ⟨_, h0, h1⟩ := ho
    obtain ⟨ha, hx⟩ := hargs 0 (by omega) _ _ h0
    obtain ⟨hb, hy⟩ := hargs 1 (by omega) _ _ h1
    exact overflowTerm_denotes hR hp (by omega) h0 ha hb hx hy _
  | negOvf =>
    have hk : n.arity.toNat = 1 := fixed rfl
    obtain ⟨_, h0⟩ := ho
    obtain ⟨ha, hx⟩ := hargs 0 (by omega) _ _ h0
    exact overflowTerm_denotes hR hp (by omega) h0 ha ha hx hx .neg
  | bvAnd | bvOr | bvXor | bvAdd | bvMul =>
    have hk : n.arity.toNat = 2 := fixed rfl
    obtain ⟨ha, hx⟩ := hargs 0 (by omega) _ _ ho.1
    obtain ⟨hb, hy⟩ := hargs 1 (by omega) _ _ ho.2
    simp only [Parts.semTag, Parts.printedTag]
    refine denotes_bvs _ hR (.inr ?_) ha hb hx hy
    rfl
  | bvSub | bvUdiv | bvUrem | bvSdiv | bvSrem | bvSmod | bvShl | bvLshr | bvAshr =>
    have hk : n.arity.toNat = 2 := fixed rfl
    obtain ⟨ha, hx⟩ := hargs 0 (by omega) _ _ ho.1
    obtain ⟨hb, hy⟩ := hargs 1 (by omega) _ _ ho.2
    simp only [Parts.semTag, Parts.printedTag]
    refine denotes_bvs _ hR (.inl ?_) ha hb hx hy
    rfl

/-- **A printed term means what its node means.** -/
theorem printed_denotes (hR : PlainReading R scope) (hbinds : Binds R scope p ρ)
    (hp : p.WellFormed) (hplain : p.PlainNames) (hi : i < p.nodes.length) :
    Denotes R scope (p.printed i) (p.value ρ i) := by
  induction i using Nat.strong_induction_on with
  | _ i ih =>
    have hn : p.nodes[i]? = some p.nodes[i] := List.getElem?_eq_getElem hi
    obtain ⟨t, ht, hr⟩ := hp.node i _ hn
    rw [hp.printed_eq hn ht, hp.value_eq hn, Parts.sem, ht]
    refine printedTag_denotes hR hbinds hp hr ?_ ?_
    · intro hvar
      obtain ⟨s, hs⟩ := hr.blob.name hvar
      have hd : p.Declares i p.nodes[i] t s := ⟨hn, ht, hvar, hs⟩
      have hsymbol : p.symbol p.nodes[i] = s := by rw [Parts.symbol, hs, Option.getD_some]
      have hatom := hbinds.names hd
      rw [hsymbol, symbolTerm_of_plain (hplain i _ t s hd)]
      rcases hvar with rfl | rfl
      · exact hatom
      · exact hatom
    · intro k hk σ w ho
      obtain ⟨r, hop, -, -, hlt⟩ := ho.getElem?_operands hk
      obtain ⟨r', m, u, hm, -, hu, rfl, rfl, heq⟩ := ho.exists_ref hk fun r => p.value ρ r.idx
      have hget : ∀ {α : Type} [Inhabited α] (f : NodeRef → α),
          ((p.operands p.nodes[i]).map f).getD k default = f r := by
        intro α _ f
        rw [List.getD_eq_getElem?_getD, List.getElem?_map, hop]
        rfl
      rw [hget] at heq
      rw [hget, hget]
      refine ⟨ih r.idx hlt (by omega), ?_⟩
      rw [heq]
      exact hp.value_shaped hm hu

end Smt2
end Server
end SmtServer
