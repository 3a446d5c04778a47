import SmtServer.Wire.Builder
import SmtServer.Wire.Semantics
import SmtServer.Wire.Validate

/-!
# The representation invariant of `ExprBuilder`

Whatever sequence of methods has been called, successful or not, the builder's nodes, children
and blob form a well-formed DAG, its `meta` table says of every node what the node itself says,
and its symbol table knows every declared name (`Inv`).

A method that fails half-way has already appended — a name to the blob, references to the child
array. So the invariant is asked of the state on **every** exit (`Keeps`), and the reason it
holds is always the same: an extension changes no rule of a node that is already there
(`Parts.NodeRule.mono`), and a node is only appended after its rule has been checked
(`pushNode_spec`).
-/

namespace SmtServer
namespace Wire

open Lib Outcome

/-! ## Extending the parts of an expression -/

namespace Parts

/-- Every table of `p` is a prefix of the same table of `q`. -/
structure Extends (p q : Parts) : Prop where
  nodes : p.nodes <+: q.nodes
  children : p.children <+: q.children
  blob : p.blob <+: q.blob

variable {p q : Parts} {i k : Nat} {n : RawNode} {t : Tag}

theorem getElem?_of_extends {α : Type} {xs ys : List α} {a : α} (h : xs <+: ys)
    (ha : xs[i]? = some a) : ys[i]? = some a := by
  obtain ⟨zs, rfl⟩ := h
  rw [List.getElem?_append_left (List.getElem?_eq_some_iff.mp ha).1, ha]

theorem blobAt_mono (h : p.Extends q) {r : BlobRef} {s : List UInt8}
    (hs : p.blobAt r = some s) : q.blobAt r = some s := by
  obtain ⟨zs, hz⟩ := h.blob
  unfold blobAt at hs ⊢
  split at hs
  · rename_i hle
    rw [if_pos (by rw [← hz, List.length_append]; omega), ← hz, List.drop_append_of_le_length (by omega),
      List.take_append_of_le_length (by rw [List.length_drop]; omega), hs]
  · cases hs

theorem textAt_mono (h : p.Extends q) {r : BlobRef} {s : String}
    (hs : p.textAt r = some s) : q.textAt r = some s := by
  obtain ⟨bs, hb, hs⟩ := Option.bind_eq_some_iff.mp hs
  exact Option.bind_eq_some_iff.mpr ⟨bs, blobAt_mono h hb, hs⟩

theorem Operand.mono (h : p.Extends q) {σ : WireSort} {w : Nat} (ho : p.Operand i n k σ w) :
    q.Operand i n k σ w := by
  obtain ⟨r, m, u, hr, hs, hi, hm, ht⟩ := ho
  exact ⟨r, m, u, getElem?_of_extends h.children hr, hs, hi, getElem?_of_extends h.nodes hm, ht⟩

/-- The operand rule of a node holds of any node with the same data whose operands are of the
same sorts and widths. -/
theorem OperandRule.transport {j : Nat} {m : RawNode} (ha : ArityRule n t)
    (ho : p.OperandRule i n t) (harity : m.arity = n.arity) (hwidth : m.width = n.width)
    (hhi : m.auxHi = n.auxHi) (hlo : m.auxLo = n.auxLo)
    (hop : ∀ k < n.arity.toNat, ∀ {σ w}, p.Operand i n k σ w → q.Operand j m k σ w) :
    q.OperandRule j m t := by
  have hbool : ∀ k < n.arity.toNat, p.BoolOperand i n k → q.BoolOperand j m k := by
    intro k hk h
    obtain ⟨w, h⟩ := h
    exact ⟨w, hop k hk h⟩
  have fixed : ∀ {c : UInt8}, t.fixedArity = some c → n.arity.toNat = c.toNat := by
    intro c hc
    rw [ArityRule, hc] at ha
    rw [ha]
  cases t with
  | bvVar | bvConst | boolTrue | boolFalse | boolVar => trivial
  | bvNot | bvNeg =>
    show q.Operand j m 0 .bv m.width.toNat
    rw [hwidth]
    exact hop 0 (by rw [fixed rfl]; decide) ho
  | boolNot => exact hbool 0 (by rw [fixed rfl]; decide) ho
  | bvExtract | bvZext | bvSext =>
    obtain ⟨w, h0, hw⟩ := ho
    refine ⟨w, hop 0 (by rw [fixed rfl]; decide) h0, ?_⟩
    simpa only [hwidth, hhi, hlo] using hw
  | bvConcat =>
    have ha2 : n.arity.toNat = 2 := fixed rfl
    obtain ⟨hw, lw, h0, h1, he⟩ := ho
    exact ⟨hw, lw, hop 0 (by omega) h0, hop 1 (by omega) h1, by rw [hwidth, he]⟩
  | bvIte =>
    have ha3 : n.arity.toNat = 3 := fixed rfl
    obtain ⟨h0, h1, h2⟩ := ho
    rw [← hwidth] at h1 h2
    exact ⟨hbool 0 (by omega) h0, hop 1 (by omega) h1, hop 2 (by omega) h2⟩
  | bvSelect =>
    have hodd : n.arity.toNat % 2 = 1 := ha
    obtain ⟨haux, hd, hpairs⟩ := ho
    rw [← hwidth] at hd hpairs
    refine ⟨by rw [hhi, harity, haux], ?_, ?_⟩
    · rw [hhi]
      exact hop _ (by omega) hd
    · intro k hk
      rw [hhi] at hk
      exact ⟨hbool _ (by omega) (hpairs k hk).1, hop _ (by omega) (hpairs k hk).2⟩
  | negOvf =>
    obtain ⟨w, h0⟩ := ho
    exact ⟨w, hop 0 (by rw [fixed rfl]; decide) h0⟩
  | boolAnd | boolOr | boolImplies =>
    have ha2 : n.arity.toNat = 2 := fixed rfl
    exact ⟨hbool 0 (by omega) ho.1, hbool 1 (by omega) ho.2⟩
  | bvEq | bvUlt | bvUle | bvSlt | bvSle | uaddOvf | saddOvf | usubOvf | ssubOvf | umulOvf
  | smulOvf | sdivOvf =>
    have ha2 : n.arity.toNat = 2 := fixed rfl
    obtain ⟨w, h0, h1⟩ := ho
    exact ⟨w, hop 0 (by omega) h0, hop 1 (by omega) h1⟩
  | _ =>
    have ha2 : n.arity.toNat = 2 := fixed rfl
    obtain ⟨h0, h1⟩ := ho
    rw [← hwidth] at h0 h1
    exact ⟨hop 0 (by omega) h0, hop 1 (by omega) h1⟩

theorem BlobRule.mono (h : p.Extends q) (hb : p.BlobRule n t) : q.BlobRule n t := by
  refine ⟨?_, ?_⟩
  · intro ht
    obtain ⟨s, hs⟩ := hb.name ht
    exact ⟨s, textAt_mono h hs⟩
  · intro ht hw
    obtain ⟨hlen, s, hs⟩ := hb.const ht hw
    exact ⟨hlen, s, blobAt_mono h hs⟩

/-- A node's rule survives every extension. -/
theorem NodeRule.mono (h : p.Extends q) (hr : p.NodeRule i n t) : q.NodeRule i n t :=
  ⟨hr.arity, hr.width, hr.blob.mono h,
    fun hn => (hr.range hn).trans h.children.length_le,
    hr.operands.transport hr.arity rfl rfl rfl rfl fun _ _ _ _ ho => ho.mono h⟩

/-- What a node of `p` declares in an extension it declares in `p`. -/
theorem Declares.of_extends (hp : p.WellFormed) (h : p.Extends q) (hi : p.nodes[i]? = some n)
    {s : String} (hd : q.Declares i n t s) : p.Declares i n t s := by
  obtain ⟨-, ht, hvar, hs⟩ := hd
  obtain ⟨u, hu, hrule⟩ := hp.node i n hi
  obtain rfl : t = u := Option.some.inj (ht.symm.trans hu)
  obtain ⟨s', hs'⟩ := hrule.blob.name hvar
  obtain rfl : s' = s := Option.some.inj ((textAt_mono h hs').symm.trans hs)
  exact ⟨hi, ht, hvar, hs'⟩

end Parts

namespace ExprBuilder

/-! ## The invariant -/

/-- `r` is a reference to a node of the builder, with its sort and width. -/
def HasRef (s : ExprBuilder) (r : NodeRef) (m : NodeMeta) : Prop :=
  s.metas[r.idx]? = some m ∧ m.sort = r.sort

/-- A Bool reference to a node of the builder. -/
def HasBool (s : ExprBuilder) (r : NodeRef) : Prop := ∃ w, s.HasRef r ⟨.bool, w⟩

structure Inv (s : ExprBuilder) : Prop where
  wf : s.parts.WellFormed
  metas : s.metas.length = s.nodes.length
  meta_eq : ∀ (i : Nat) (n : RawNode) (t : Tag), s.nodes[i]? = some n →
    Tag.tryFrom n.tag = some t → s.metas[i]? = some ⟨t.resultSort, n.width⟩
  nodes_le : s.nodes.length ≤ 2 ^ 31
  blob_lt : s.blob.length < 2 ^ 32
  symbols : ∀ {i n t name}, s.parts.Declares i n t name →
    s.symbols.lookup name = some ⟨t.resultSort, n.width⟩
  assertions : ∀ a ∈ s.assertions, s.HasBool a.root ∧
    ∀ r, a.name = some r → ∃ text, s.parts.textAt r = some text
  assumptions : ∀ r ∈ s.assumptions, s.HasBool r

theorem inv_new : new.Inv := by
  refine ⟨⟨?_, ?_⟩, rfl, ?_, by simp [new], by simp [new], ?_, ?_, ?_⟩
  · intro i n hn
    simp [parts, new] at hn
  · intro i j n m t u s hd
    simp [Parts.Declares, parts, new] at hd
  · intro i n t hn
    simp [new] at hn
  · intro i n t name hd
    simp [Parts.Declares, parts, new] at hd
  · intro a ha
    simp [new] at ha
  · intro r hr
    simp [new] at hr

variable {s s' : ExprBuilder} {r : NodeRef} {m : NodeMeta}

theorem extends_of_le (h : s ≤ s') : s.parts.Extends s'.parts := ⟨h.1, h.2.1, h.2.2.1⟩

theorem HasRef.mono (h : s ≤ s') (hr : s.HasRef r m) : s'.HasRef r m :=
  ⟨Parts.getElem?_of_extends h.2.2.2 hr.1, hr.2⟩

theorem HasBool.mono (h : s ≤ s') (hr : s.HasBool r) : s'.HasBool r := by
  obtain ⟨w, hr⟩ := hr
  exact ⟨w, hr.mono h⟩

/-- The node behind a reference. -/
theorem Inv.node_of_hasRef (hs : s.Inv) (hr : s.HasRef r m) : ∃ n t, s.nodes[r.idx]? = some n ∧
    Tag.tryFrom n.tag = some t ∧ t.resultSort = r.sort ∧ n.width = m.width := by
  have hlt : r.idx < s.nodes.length := by
    rw [← hs.metas]
    exact (List.getElem?_eq_some_iff.mp hr.1).1
  have hn : s.nodes[r.idx]? = some s.nodes[r.idx] := List.getElem?_eq_getElem hlt
  obtain ⟨t, ht, -⟩ := hs.wf.node _ _ hn
  have hm := hs.meta_eq _ _ t hn ht
  rw [hr.1, Option.some.injEq] at hm
  subst hm
  exact ⟨_, t, hn, ht, hr.2, rfl⟩

/-- A bit-vector reference has a legal width. -/
theorem Inv.width_of_hasRef (hs : s.Inv) {w : UInt32} (hr : s.HasRef r ⟨.bv, w⟩) :
    1 ≤ w.toNat ∧ w.toNat ≤ maxBvWidth := by
  obtain ⟨n, t, hn, ht, hsort, rfl⟩ := hs.node_of_hasRef hr
  obtain ⟨u, hu, hrule⟩ := hs.wf.node _ _ hn
  obtain rfl : t = u := Option.some.inj (ht.symm.trans hu)
  have hw := hrule.width
  rw [Parts.WidthRule, hsort, ← hr.2] at hw
  exact hw

/-- The child array and the blob may grow by anything, and what is not referred to may change
freely as long as it keeps what the invariant says of it. -/
theorem Inv.extend (hs : s.Inv) (h : s ≤ s') (hnodes : s'.nodes = s.nodes)
    (hmetas : s'.metas = s.metas) (hblob : s'.blob.length < 2 ^ 32)
    (hsym : ∀ name m, s.symbols.lookup name = some m → s'.symbols.lookup name = some m)
    (hassert : ∀ a ∈ s'.assertions, a ∈ s.assertions ∨ (s'.HasBool a.root ∧
      ∀ r, a.name = some r → ∃ text, s'.parts.textAt r = some text))
    (hassume : ∀ r ∈ s'.assumptions, r ∈ s.assumptions ∨ s'.HasBool r) : s'.Inv := by
  have hext := extends_of_le h
  -- every declaration of the extension is an old one
  have hdecl : ∀ {i n t name}, s'.parts.Declares i n t name → s.parts.Declares i n t name := by
    intro i n t name hd
    have hn : s.parts.nodes[i]? = some n := by
      show s.nodes[i]? = some n
      rw [← hnodes]
      exact hd.1
    exact hd.of_extends hs.wf hext hn
  refine ⟨⟨?_, ?_⟩, by rw [hmetas, hnodes, hs.metas], ?_, by rw [hnodes]; exact hs.nodes_le,
    hblob, ?_, ?_, ?_⟩
  · intro i n hn
    obtain ⟨t, ht, hrule⟩ := hs.wf.node i n (by
      show s.nodes[i]? = some n
      rw [← hnodes]
      exact hn)
    exact ⟨t, ht, hrule.mono hext⟩
  · intro i j n m t u name hi hj
    exact hs.wf.symbols (hdecl hi) (hdecl hj)
  · rw [hmetas, hnodes]
    exact hs.meta_eq
  · intro i n t name hd
    exact hsym _ _ (hs.symbols (hdecl hd))
  · intro a ha
    rcases hassert a ha with hold | hnew
    · obtain ⟨hroot, hname⟩ := hs.assertions a hold
      refine ⟨hroot.mono h, ?_⟩
      intro r hr
      obtain ⟨text, ht⟩ := hname r hr
      exact ⟨text, Parts.textAt_mono hext ht⟩
    · exact hnew
  · intro r hr
    rcases hassume r hr with hold | hnew
    · exact (hs.assumptions r hold).mono h
    · exact hnew

/-- Appending a node that meets its rule, with the `meta` entry that says so. -/
theorem Inv.snoc (hs : s.Inv) {n : RawNode} {t : Tag} (ht : Tag.tryFrom n.tag = some t)
    (hs' : s' = { s with nodes := s.nodes ++ [n], metas := s.metas ++ [⟨t.resultSort, n.width⟩] })
    (hrule : s'.parts.NodeRule s.nodes.length n t) (hlt : s.nodes.length < 2 ^ 31)
    (hsym : t = .bvVar ∨ t = .boolVar → ∀ name, s.parts.textAt n.blobRef = some name →
      s.symbols.lookup name = some ⟨t.resultSort, n.width⟩) : s'.Inv := by
  have h : s ≤ s' := by
    subst hs'
    exact ⟨List.prefix_append _ _, List.prefix_refl _, List.prefix_refl _, List.prefix_append _ _⟩
  have hext := extends_of_le h
  -- a row of the new table is an old row or the new one
  have hrow : ∀ {i m}, s'.nodes[i]? = some m →
      s.nodes[i]? = some m ∨ (i = s.nodes.length ∧ m = n) := by
    intro i m hm
    subst hs'
    rw [List.getElem?_append] at hm
    split at hm
    · exact .inl hm
    · rename_i hge
      rw [List.getElem?_singleton] at hm
      split at hm
      · exact .inr ⟨by omega, (Option.some.inj hm).symm⟩
      · cases hm
  have hlook : ∀ {i m u name}, s'.parts.Declares i m u name →
      s'.symbols.lookup name = some ⟨u.resultSort, m.width⟩ := by
    intro i m u name hd
    have hsame : s'.symbols = s.symbols := by rw [hs']
    rw [hsame]
    rcases hrow hd.1 with hold | ⟨rfl, rfl⟩
    · exact hs.symbols (hd.of_extends hs.wf hext hold)
    · obtain rfl : u = t := Option.some.inj (hd.2.1.symm.trans ht)
      have htext : s'.parts.textAt m.blobRef = s.parts.textAt m.blobRef := by rw [hs']; rfl
      exact hsym hd.2.2.1 name (htext ▸ hd.2.2.2)
  refine ⟨⟨?_, ?_⟩, by rw [hs']; simp [hs.metas], ?_, by rw [hs']; simp; omega,
    by rw [hs']; exact hs.blob_lt, hlook, ?_, ?_⟩
  · intro i m hm
    rcases hrow hm with hold | ⟨rfl, rfl⟩
    · obtain ⟨u, hu, hrule⟩ := hs.wf.node i m hold
      exact ⟨u, hu, hrule.mono hext⟩
    · exact ⟨t, ht, hrule⟩
  · intro i j m m' u u' name hi hj
    have heq := (hlook hi).symm.trans (hlook hj)
    rw [Option.some.injEq, NodeMeta.mk.injEq] at heq
    exact heq
  · intro i m u hm hu
    rcases hrow hm with hold | ⟨rfl, rfl⟩
    · exact Parts.getElem?_of_extends h.2.2.2 (hs.meta_eq i m u hold hu)
    · obtain rfl : u = t := Option.some.inj (hu.symm.trans ht)
      rw [hs', ← hs.metas]
      simp
  · intro a ha
    have ha' : a ∈ s.assertions := by rw [hs'] at ha; exact ha
    obtain ⟨hroot, hname⟩ := hs.assertions a ha'
    refine ⟨hroot.mono h, ?_⟩
    intro r hr
    obtain ⟨text, htext⟩ := hname r hr
    exact ⟨text, Parts.textAt_mono hext htext⟩
  · intro r hr
    have hr' : r ∈ s.assumptions := by rw [hs'] at hr; exact hr
    exact (hs.assumptions r hr').mono h

end ExprBuilder
end Wire
end SmtServer
