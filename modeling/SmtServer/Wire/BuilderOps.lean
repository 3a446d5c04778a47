import SmtServer.Wire.BuilderInv

/-!
# Every method keeps the invariant

Specifications of the two functions that append, one lemma for each family of construction
methods, and then every method of the builder, collected as the operations (`Op`) that a client
can call in any order. `runOps_inv` is the result the rest of the development uses.
-/

namespace SmtServer
namespace Wire

open Lib Outcome

namespace ExprBuilder

/-! ## Reading -/

variable {s : ExprBuilder} {r a b : NodeRef}

theorem metaFor_eq_ok {m : NodeMeta} : s.metaFor r = ok m ↔ s.HasRef r m := by
  simp only [metaFor, bind_eq_ok, ofOption_eq_ok, ensure_eq_ok, exists_const, pure_eq,
    Outcome.ok.injEq, HasRef]
  constructor
  · rintro ⟨_, hm, hsort, rfl⟩
    exact ⟨hm, hsort⟩
  · rintro ⟨hm, hsort⟩
    exact ⟨m, hm, hsort, rfl⟩

theorem expectBv_eq_ok {w : UInt32} : s.expectBv r = ok w ↔ s.HasRef r ⟨.bv, w⟩ := by
  simp only [expectBv, bind_eq_ok, metaFor_eq_ok, ensure_eq_ok, exists_const, pure_eq,
    Outcome.ok.injEq]
  constructor
  · rintro ⟨⟨_, _⟩, hm, rfl, rfl⟩
    exact hm
  · intro hm
    exact ⟨_, hm, rfl, rfl⟩

theorem expectBool_eq_ok {u : Unit} : s.expectBool r = ok u ↔ s.HasBool r := by
  simp only [expectBool, bind_eq_ok, metaFor_eq_ok, ensure_eq_ok]
  constructor
  · rintro ⟨⟨_, w⟩, hm, rfl⟩
    exact ⟨w, hm⟩
  · rintro ⟨w, hm⟩
    exact ⟨_, hm, rfl⟩

theorem expectSameBvWidth_eq_ok {context : String} {w : UInt32} :
    s.expectSameBvWidth a b context = ok w ↔ s.HasRef a ⟨.bv, w⟩ ∧ s.HasRef b ⟨.bv, w⟩ := by
  simp only [expectSameBvWidth, bind_eq_ok, expectBv_eq_ok, ensure_eq_ok, exists_const, pure_eq,
    Outcome.ok.injEq]
  constructor
  · rintro ⟨_, ha, _, hb, rfl, rfl⟩
    exact ⟨ha, hb⟩
  · rintro ⟨ha, hb⟩
    exact ⟨_, ha, _, hb, rfl, rfl⟩

theorem safe_metaFor : Safe (s.metaFor r) :=
  safe_ofOption.bind fun _ _ => safe_ensure.bind fun _ _ => safe_ok _

theorem safe_expectBv : Safe (s.expectBv r) :=
  safe_metaFor.bind fun _ _ => safe_ensure.bind fun _ _ => safe_ok _

theorem safe_expectBool : Safe (s.expectBool r) :=
  safe_metaFor.bind fun _ _ => safe_ensure

theorem safe_expectSameBvWidth {context : String} : Safe (s.expectSameBvWidth a b context) :=
  safe_expectBv.bind fun _ _ => safe_expectBv.bind fun _ _ => safe_ensure.bind fun _ _ => safe_ok _

/-! ## Keeping the invariant -/

variable {α β : Type}

/-- From a state with the invariant, the run does not panic, leaves the invariant on every exit
and returns only what `Q` allows. -/
def Spec (m : BuilderM α) (s : ExprBuilder) (Q : α → ExprBuilder → Prop) : Prop :=
  Grow.Spec (fun _ => True) Inv (fun _ _ => True) m s Q

/-- The method keeps the invariant from every state that has it. -/
def Keeps (m : BuilderM α) : Prop := ∀ s, Spec m s fun _ _ => True

theorem Spec.bind {m : BuilderM α} {f : α → BuilderM β} {P : α → ExprBuilder → Prop}
    {Q : β → ExprBuilder → Prop} (hm : Spec m s P)
    (hf : ∀ a s', s ≤ s' → P a s' → Spec (f a) s' Q) : Spec (m >>= f) s Q :=
  Grow.Spec.bind (fun _ _ => trivial) hm hf

theorem spec_pure {a : α} {Q : α → ExprBuilder → Prop} (h : Q a s) :
    Spec (pure a : BuilderM α) s Q :=
  Grow.spec_pure h

theorem spec_read {f : ExprBuilder → Result α} {g : α → BuilderM β} {Q : β → ExprBuilder → Prop}
    (hsafe : Safe (f s)) (hg : ∀ a, f s = ok a → Spec (g a) s Q) :
    Spec (Grow.read f >>= g) s Q :=
  Grow.spec_read hsafe (fun _ _ => trivial) hg

theorem spec_lift {x : Result α} {g : α → BuilderM β} {Q : β → ExprBuilder → Prop}
    (hsafe : Safe x) (hg : ∀ a, x = ok a → Spec (g a) s Q) : Spec (Grow.lift x >>= g) s Q :=
  @spec_read s α β (fun _ => x) g Q hsafe hg

theorem Spec.forget {m : BuilderM α} {Q : α → ExprBuilder → Prop} (h : Spec m s Q) :
    Spec m s fun _ _ => True :=
  Grow.Spec.mono h fun _ _ _ _ _ => trivial

theorem Keeps.bind {m : BuilderM α} {f : α → BuilderM β} (hm : Keeps m) (hf : ∀ a, Keeps (f a)) :
    Keeps (m >>= f) := by
  intro s
  exact (hm s).bind fun a s' _ _ => hf a s'

theorem keeps_pure (a : α) : Keeps (pure a) := fun _ => spec_pure trivial

/-- A step of `remember` that keeps the invariant. -/
theorem spec_remember {f : ExprBuilder → ExprBuilder} {h} {Q : Unit → ExprBuilder → Prop}
    (hf : s.Inv → (f s).Inv ∧ Q () (f s)) : Spec (remember f h) s Q := by
  intro hs _
  exact hf hs

/-! ## The two functions that append -/

/-- `push_blob` appends the bytes and returns a reference that reads them back. -/
theorem pushBlob_spec {bytes : List UInt8} : Spec (pushBlob bytes) s fun r s' =>
    s' = { s with blob := s.blob ++ bytes } ∧ s'.parts.blobAt r = some bytes ∧
      r.len.toNat = bytes.length := by
  refine spec_read (by simp) ?_
  intro offset hoff
  obtain rfl := Outcome.ok.inj hoff
  refine spec_lift safe_ensure fun _ ho => spec_lift safe_ensure fun _ hb => ?_
  refine spec_lift safe_checkedAdd32 fun total hsum => ?_
  have hsum' : s.blob.length + bytes.length < 2 ^ 32 := by
    unfold checkedAdd32 at hsum
    split at hsum
    · assumption
    · cases hsum
  intro hs
  refine Grow.wp_bind_modify (Grow.wp_pure fun _ => ⟨?_, rfl, ?_, ?_⟩)
  · refine hs.extend ⟨List.prefix_refl _, List.prefix_refl _, List.prefix_append _ _,
      List.prefix_refl _⟩ rfl rfl ?_ (fun _ _ h => h) (fun _ h => .inl h) (fun _ h => .inl h)
    simpa using hsum'
  · have ho' : (UInt32.ofNat s.blob.length).toNat = s.blob.length := by
      rw [UInt32.toNat_ofNat']
      exact Nat.mod_eq_of_lt (by omega)
    have hb' : (UInt32.ofNat bytes.length).toNat = bytes.length := by
      rw [UInt32.toNat_ofNat']
      exact Nat.mod_eq_of_lt (by omega)
    simp [Parts.blobAt, parts, ho', hb']
  · rw [UInt32.toNat_ofNat']
    exact Nat.mod_eq_of_lt (by omega)

/-- What an operator's rule asks of a list of references, in the terms of the builder: whatever
node has these operands and this width and `aux` meets the operand rule. -/
def Fits (s : ExprBuilder) (t : Tag) (width : UInt32) (children : List NodeRef) (auxHi : UInt16)
    (auxLo : UInt32) : Prop :=
  ∀ (p : Parts) (i : Nat) (n : RawNode),
    (∀ (k : Nat) (r : NodeRef) (m : NodeMeta), children[k]? = some r → s.HasRef r m →
      p.Operand i n k m.sort m.width.toNat) →
    n.width = width → n.auxHi = auxHi → n.auxLo = auxLo → n.arity.toNat = children.length →
    p.OperandRule i n t

/-- The number of operands of each operator. -/
def FitsArity (t : Tag) (children : List NodeRef) : Prop :=
  match t.fixedArity with
  | some k => children.length = k.toNat
  | none => children.length % 2 = 1

/-- The width class of each operator. -/
def FitsWidth (t : Tag) (width : UInt32) : Prop :=
  match t.resultSort with
  | .bool => width = 0
  | .bv => 1 ≤ width.toNat ∧ width.toNat ≤ maxBvWidth

/-- The blob rule, for the payload a node is about to get. -/
structure FitsBlob (s : ExprBuilder) (t : Tag) (width : UInt32) (payload : UInt64) : Prop where
  name : t = .bvVar ∨ t = .boolVar → ∃ name,
    s.parts.textAt (BlobRef.fromPayload payload) = some name ∧
      s.symbols.lookup name = some ⟨t.resultSort, width⟩
  const : t = .bvConst → 64 < width.toNat →
    (BlobRef.fromPayload payload).len.toNat = (width.toNat + 7) / 8 ∧
      ∃ bytes, s.parts.blobAt (BlobRef.fromPayload payload) = some bytes

/-- `r` is the node that `push_node` has just appended to `s`: the record it was given, holding
the references it was given. -/
structure Pushed (s : ExprBuilder) (t : Tag) (width : UInt32) (children : List NodeRef)
    (auxHi : UInt16) (auxLo : UInt32) (payload : UInt64) (r : NodeRef) (s' : ExprBuilder) :
    Prop where
  ref : s'.HasRef r ⟨t.resultSort, width⟩
  index : r.idx = s.nodes.length
  blob : s'.blob = s.blob
  node : ∃ arity start, s'.nodes[r.idx]? = some ⟨t.toByte, arity, auxHi, width, auxLo, start, payload⟩ ∧
    s'.parts.operands ⟨t.toByte, arity, auxHi, width, auxLo, start, payload⟩ = children

theorem pushNode_pushed {t : Tag} {width : UInt32} {children : List NodeRef} {auxHi : UInt16}
    {auxLo : UInt32} {payload : UInt64} (harity : FitsArity t children) (hwidth : FitsWidth t width)
    (hblob : FitsBlob s t width payload) (hfits : Fits s t width children auxHi auxLo) :
    Spec (pushNode t width children auxHi auxLo payload) s
      (Pushed s t width children auxHi auxLo payload) := by
  refine spec_lift safe_ensure fun _ hlen => ?_
  have hlen := ensure_eq_ok.mp hlen
  refine spec_read (safe_forM fun child _ => safe_metaFor.bind fun _ _ => safe_ok _) ?_
  intro _ hrefs
  rw [forM_eq_ok] at hrefs
  refine spec_read (by simp) fun start hstart => ?_
  obtain rfl := Outcome.ok.inj hstart
  refine spec_lift safe_ensure fun _ hstart => ?_
  have hstart := ensure_eq_ok.mp hstart
  intro hs
  refine Grow.wp_bind_modify ?_
  -- the references are in the child array, whatever happens to the node
  have hmid : s ≤ { s with children := s.children ++ children } :=
    ⟨List.prefix_refl _, List.prefix_append _ _, List.prefix_refl _, List.prefix_refl _⟩
  have hinv : ({ s with children := s.children ++ children } : ExprBuilder).Inv :=
    hs.extend hmid rfl rfl hs.blob_lt (fun _ _ h => h) (fun _ h => .inl h) (fun _ h => .inl h)
  refine spec_read (by simp) (fun index hindex => ?_) hinv
  obtain rfl := Outcome.ok.inj hindex
  refine spec_lift safe_ensure fun _ _ => ?_
  refine spec_lift (safe_ensure.bind fun _ _ => safe_ok _) fun id hid => ?_
  obtain ⟨hidx, rfl⟩ := NodeRef.new_eq_ok.mp hid
  have hnode : (UInt32.ofNat s.nodes.length).toNat = s.nodes.length := by
    rw [UInt32.toNat_ofNat']
    have := hs.nodes_le
    exact Nat.mod_eq_of_lt (by omega)
  rw [hnode] at hidx
  have hcs : (UInt8.ofNat children.length).toNat = children.length := by
    rw [UInt8.toNat_ofNat']
    exact Nat.mod_eq_of_lt hlen
  -- the position of an operand in the child array
  have hchild : ∀ k r, children[k]? = some r →
      (s.children ++ children)[(if UInt8.ofNat children.length = 0 then (0 : UInt32)
        else UInt32.ofNat s.children.length).toNat + k]? = some r := by
    intro k r hk
    have hk' := (List.getElem?_eq_some_iff.mp hk).1
    have hne : UInt8.ofNat children.length ≠ 0 := by
      intro h0
      rw [h0] at hcs
      simp at hcs
      omega
    rw [if_neg hne, UInt32.toNat_ofNat', Nat.mod_eq_of_lt hstart,
      List.getElem?_append_right (by omega), Nat.add_sub_cancel_left, hk]
  intro _
  refine Grow.wp_bind_modify (Grow.wp_pure fun _ => ⟨?_, ⟨?_, ?_, rfl, ?_⟩⟩)
  · refine hinv.snoc (Tag.tryFrom_toByte t) rfl ⟨?_, ?_, ?_, ?_, ?_⟩ hidx ?_
    · cases hk : t.fixedArity with
      | some k =>
        rw [FitsArity, hk] at harity
        rw [Parts.ArityRule, hk]
        exact UInt8.toNat_inj.mp (hcs.trans harity)
      | none =>
        rw [FitsArity, hk] at harity
        rw [Parts.ArityRule, hk]
        show (UInt8.ofNat children.length).toNat % 2 = 1
        rw [hcs]
        exact harity
    · cases hsort : t.resultSort with
      | bool =>
        rw [FitsWidth, hsort] at hwidth
        rw [Parts.WidthRule, hsort, hwidth]
        rfl
      | bv =>
        rw [FitsWidth, hsort] at hwidth
        rw [Parts.WidthRule, hsort]
        exact hwidth
    · refine ⟨?_, ?_⟩
      · intro ht
        obtain ⟨name, hname, -⟩ := hblob.name ht
        exact ⟨name, hname⟩
      · intro ht hw
        exact hblob.const ht hw
    · intro hne
      rw [if_neg hne]
      simp only [parts, List.length_append, UInt32.toNat_ofNat', Nat.mod_eq_of_lt hstart, hcs]
      omega
    · refine hfits _ _ _ ?_ rfl rfl rfl hcs
      intro k r m hk hr
      obtain ⟨n, u, hn, hu, hsort, hw⟩ := hs.node_of_hasRef hr
      refine ⟨r, n, u, hchild k r hk, hr.2.symm, ?_, ?_, hu, hsort.trans hr.2.symm, by rw [hw]⟩
      · exact (List.getElem?_eq_some_iff.mp hn).1
      · simp only [parts]
        rw [List.getElem?_append_left (List.getElem?_eq_some_iff.mp hn).1, hn]
    · intro ht name hname
      obtain ⟨name', hname', hlook⟩ := hblob.name ht
      obtain rfl : name' = name := Option.some.inj (hname'.symm.trans hname)
      exact hlook
  · rw [hnode]
    refine ⟨?_, ?_⟩
    · rw [NodeRef.idx_mk' hidx, ← hs.metas]
      simp
    · rw [NodeRef.sort_mk' hidx]
  · rw [hnode, NodeRef.idx_mk' hidx]
  · refine ⟨UInt8.ofNat children.length, if UInt8.ofNat children.length = 0 then (0 : UInt32)
      else UInt32.ofNat s.children.length, ?_, ?_⟩
    · rw [hnode, NodeRef.idx_mk' hidx]
      simp
    · refine List.ext_getElem? fun k => ?_
      simp only [Parts.operands, parts]
      by_cases hk : k < children.length
      · have hget : children[k]? = some children[k] := List.getElem?_eq_getElem hk
        rw [List.getElem?_map, List.getElem?_range (by omega), hget]
        simp only [Option.map_some, hchild k _ hget, Option.getD_some]
      · rw [List.getElem?_eq_none (by rw [List.length_map, List.length_range]; omega),
          List.getElem?_eq_none (by omega)]

theorem pushNode_spec {t : Tag} {width : UInt32} {children : List NodeRef} {auxHi : UInt16}
    {auxLo : UInt32} {payload : UInt64} (harity : FitsArity t children) (hwidth : FitsWidth t width)
    (hblob : FitsBlob s t width payload) (hfits : Fits s t width children auxHi auxLo) :
    Spec (pushNode t width children auxHi auxLo payload) s fun r s' =>
      s'.HasRef r ⟨t.resultSort, width⟩ :=
  (pushNode_pushed harity hwidth hblob hfits).mono fun _ _ _ _ h => h.ref

theorem spec_pushNode {t : Tag} {width : UInt32} {children : List NodeRef} {auxHi : UInt16}
    {auxLo : UInt32} {payload : UInt64} (harity : FitsArity t children) (hwidth : FitsWidth t width)
    (hblob : FitsBlob s t width payload) (hfits : Fits s t width children auxHi auxLo) :
    Spec (pushNode t width children auxHi auxLo payload) s fun _ _ => True :=
  (pushNode_spec harity hwidth hblob hfits).forget

/-! ## Families of construction methods -/

/-- An operator that neither names a symbol nor refers to the blob. -/
def Plain (t : Tag) : Prop := t ≠ .bvVar ∧ t ≠ .boolVar ∧ t ≠ .bvConst

theorem Plain.fitsBlob {t : Tag} (h : Plain t) {width : UInt32} {payload : UInt64} :
    FitsBlob s t width payload := by
  refine ⟨?_, fun ht => absurd ht h.2.2⟩
  rintro (ht | ht)
  · exact absurd ht h.1
  · exact absurd ht h.2.1

theorem keeps_bvUnary {t : Tag} {x : NodeRef} (hp : Plain t) (ha : t.fixedArity = some 1)
    (hsort : t.resultSort = .bv)
    (hrule : ∀ p i n, Parts.OperandRule p i n t ↔ p.Operand i n 0 .bv n.width.toNat) :
    Keeps (bvUnary t x) := by
  intro s
  refine spec_read safe_expectBv fun width hx => ?_
  rw [expectBv_eq_ok] at hx
  intro hs
  refine spec_pushNode ?_ ?_ hp.fitsBlob ?_ hs
  · rw [FitsArity, ha]
    rfl
  · rw [FitsWidth, hsort]
    exact hs.width_of_hasRef hx
  · intro p i n hop hw _ _ _
    rw [hrule, hw]
    exact hop 0 x _ rfl hx

theorem keeps_bvBinary {t : Tag} (hp : Plain t) (ha : t.fixedArity = some 2)
    (hsort : t.resultSort = .bv)
    (hrule : ∀ p i n, Parts.OperandRule p i n t ↔
      p.Operand i n 0 .bv n.width.toNat ∧ p.Operand i n 1 .bv n.width.toNat) :
    Keeps (bvBinary t a b) := by
  intro s
  refine spec_read safe_expectSameBvWidth fun width hab => ?_
  obtain ⟨ha', hb'⟩ := expectSameBvWidth_eq_ok.mp hab
  intro hs
  refine spec_pushNode ?_ ?_ hp.fitsBlob ?_ hs
  · rw [FitsArity, ha]
    rfl
  · rw [FitsWidth, hsort]
    exact hs.width_of_hasRef ha'
  · intro p i n hop hw _ _ _
    rw [hrule, hw]
    exact ⟨hop 0 a _ rfl ha', hop 1 b _ rfl hb'⟩

theorem keeps_bvComparison {t : Tag} (hp : Plain t) (ha : t.fixedArity = some 2)
    (hsort : t.resultSort = .bool)
    (hrule : ∀ p i n, Parts.OperandRule p i n t ↔
      ∃ w, p.Operand i n 0 .bv w ∧ p.Operand i n 1 .bv w) :
    Keeps (bvComparison t a b) := by
  intro s
  refine spec_read safe_expectSameBvWidth fun width hab => ?_
  obtain ⟨ha', hb'⟩ := expectSameBvWidth_eq_ok.mp hab
  refine spec_pushNode ?_ ?_ hp.fitsBlob ?_
  · rw [FitsArity, ha]
    rfl
  · rw [FitsWidth, hsort]
  · intro p i n hop _ _ _ _
    rw [hrule]
    exact ⟨_, hop 0 a _ rfl ha', hop 1 b _ rfl hb'⟩

theorem operand_of_hasBool {p : Parts} {i k : Nat} {n : RawNode} {children : List NodeRef}
    (hop : ∀ (k : Nat) (r : NodeRef) (m : NodeMeta), children[k]? = some r → s.HasRef r m →
      p.Operand i n k m.sort m.width.toNat) (hk : children[k]? = some r) (hr : s.HasBool r) :
    p.BoolOperand i n k := by
  obtain ⟨w, hr⟩ := hr
  exact ⟨_, hop k r _ hk hr⟩

theorem keeps_boolBinary {t : Tag} (hp : Plain t) (ha : t.fixedArity = some 2)
    (hsort : t.resultSort = .bool)
    (hrule : ∀ p i n, Parts.OperandRule p i n t ↔ p.BoolOperand i n 0 ∧ p.BoolOperand i n 1) :
    Keeps (boolBinary t a b) := by
  intro s
  refine spec_read safe_expectBool fun _ hx => ?_
  refine spec_read safe_expectBool fun _ hy => ?_
  rw [expectBool_eq_ok] at hx hy
  refine spec_pushNode ?_ ?_ hp.fitsBlob ?_
  · rw [FitsArity, ha]
    rfl
  · rw [FitsWidth, hsort]
  · intro p i n hop _ _ _ _
    rw [hrule]
    exact ⟨operand_of_hasBool hop rfl hx, operand_of_hasBool hop rfl hy⟩

/-- The width of an extension or a concatenation, once it has been checked. -/
theorem checked_width {x y w : Nat} {u : Unit} {c₁ c₂ : String} (hw : checkedAdd32 x y c₁ = ok w)
    (hv : validateBvWidthValue w c₂ = ok u) :
    w = x + y ∧ (UInt32.ofNat w).toNat = w ∧ 1 ≤ w ∧ w ≤ maxBvWidth := by
  have hv' := ensure_eq_ok.mp hv
  unfold checkedAdd32 at hw
  split at hw
  · rename_i hlt
    obtain rfl := Outcome.ok.inj hw
    refine ⟨rfl, ?_, hv'⟩
    rw [UInt32.toNat_ofNat']
    exact Nat.mod_eq_of_lt hlt
  · cases hw

theorem keeps_bvExtend {t : Tag} {x : NodeRef} {amount : UInt16} (hp : Plain t)
    (ha : t.fixedArity = some 1) (hsort : t.resultSort = .bv)
    (hrule : ∀ p i n, Parts.OperandRule p i n t ↔
      ∃ w, p.Operand i n 0 .bv w ∧ n.width.toNat = w + n.auxHi.toNat) :
    Keeps (bvExtend t x amount) := by
  intro s
  refine spec_read safe_expectBv fun childWidth hx => ?_
  rw [expectBv_eq_ok] at hx
  refine spec_lift safe_checkedAdd32 fun width hw => spec_lift safe_ensure fun _ hv => ?_
  obtain ⟨hsum, hnat, hle⟩ := checked_width hw hv
  refine spec_pushNode ?_ ?_ hp.fitsBlob ?_
  · rw [FitsArity, ha]
    rfl
  · rw [FitsWidth, hsort, hnat]
    exact hle
  · intro p i n hop hw' haux _ _
    rw [hrule, hw', hnat, haux]
    exact ⟨_, hop 0 x _ rfl hx, hsum⟩

/-! ## Variables and constants -/

/-- Tables that nothing refers to may change, as long as symbols are only added. -/
theorem Inv.side (hs : s.Inv) {s' : ExprBuilder} (hparts : s'.parts = s.parts)
    (hmetas : s'.metas = s.metas)
    (hsym : ∀ name m, s.symbols.lookup name = some m → s'.symbols.lookup name = some m)
    (hassert : ∀ a ∈ s'.assertions, a ∈ s.assertions ∨ (s.HasBool a.root ∧
      ∀ r, a.name = some r → ∃ text, s.parts.textAt r = some text))
    (hassume : ∀ r ∈ s'.assumptions, r ∈ s.assumptions ∨ s.HasBool r) : s'.Inv := by
  simp only [parts, Parts.mk.injEq] at hparts
  obtain ⟨h1, h2, h3⟩ := hparts
  have hle : s ≤ s' :=
    ⟨h1 ▸ List.prefix_refl _, h2 ▸ List.prefix_refl _, h3 ▸ List.prefix_refl _,
      hmetas ▸ List.prefix_refl _⟩
  refine hs.extend hle h1 hmetas (h3 ▸ hs.blob_lt) hsym ?_ ?_
  · intro a ha
    refine (hassert a ha).imp_right fun hnew => ⟨hnew.1.mono hle, ?_⟩
    intro r hr
    obtain ⟨text, htext⟩ := hnew.2 r hr
    exact ⟨text, Parts.textAt_mono (extends_of_le hle) htext⟩
  · intro r hr
    exact (hassume r hr).imp_right fun hnew => hnew.mono hle

/-- A name that has passed `expect_symbol_signature` is in the table with that signature. -/
theorem expectSymbolSignature_spec {name : String} {sig : NodeMeta} :
    Spec (expectSymbolSignature name sig) s fun _ s' => s'.symbols.lookup name = some sig := by
  have hsafe : Safe (checkSymbol name sig s) := by
    unfold checkSymbol
    split
    · exact safe_ensure
    · exact safe_ok _
  refine spec_read hsafe fun _ hcheck => spec_remember fun hs => ?_
  unfold checkSymbol at hcheck
  cases hl : s.symbols.lookup name with
  | some existing =>
    rw [hl] at hcheck
    obtain rfl := ensure_eq_ok.mp hcheck
    refine ⟨hs.side rfl rfl ?_ (fun _ h => .inl h) (fun _ h => .inl h), ?_⟩
    · intro name' m h
      simpa using h
    · simpa using hl
  | none =>
    refine ⟨hs.side rfl rfl ?_ (fun _ h => .inl h) (fun _ h => .inl h), by simp⟩
    intro name' m h
    have hne : (name' == name) = false := by
      rw [beq_eq_false_iff_ne]
      rintro rfl
      rw [hl] at h
      cases h
    simpa [List.lookup_cons, hne] using h

/-- Caching a reference changes nothing else. -/
theorem spec_cache {f : ExprBuilder → ExprBuilder} {h} (hparts : (f s).parts = s.parts)
    (hmetas : (f s).metas = s.metas) (hsym : (f s).symbols = s.symbols)
    (hassert : (f s).assertions = s.assertions) (hassume : (f s).assumptions = s.assumptions) :
    Spec (remember f h) s fun _ _ => True := by
  refine spec_remember fun hs => ⟨hs.side hparts hmetas ?_ ?_ ?_, trivial⟩
  · intro name m hl
    rwa [hsym]
  · intro a ha
    exact .inl (hassert ▸ ha)
  · intro r hr
    exact .inl (hassume ▸ hr)

theorem textAt_of_blobAt {p : Parts} {r : BlobRef} {name : String}
    (h : p.blobAt r = some (utf8 name)) : p.textAt r = some name := by
  rw [Parts.textAt, h]
  exact utf8?_eq_some.mpr rfl

/-- A node for a variable whose signature is in the table. -/
theorem pushSymbol_spec {t : Tag} {name : String} {width : UInt32} {r : BlobRef}
    (ht : t = .bvVar ∨ t = .boolVar) (hwidth : FitsWidth t width)
    (htext : s.parts.textAt r = some name)
    (hsym : s.symbols.lookup name = some ⟨t.resultSort, width⟩) :
    Spec (pushNode t width [] 0 0 r.toPayload) s fun _ _ => True := by
  refine spec_pushNode ?_ hwidth ⟨?_, ?_⟩ ?_
  · rcases ht with rfl | rfl <;> rfl
  · intro _
    rw [BlobRef.fromPayload_toPayload]
    exact ⟨name, htext, hsym⟩
  · rintro rfl
    simp at ht
  · intro p i n _ _ _ _ _
    rcases ht with rfl | rfl <;> trivial

theorem newBvVar_spec {name : String} {width : UInt32}
    (hw : 1 ≤ width.toNat ∧ width.toNat ≤ maxBvWidth)
    (hsym : s.symbols.lookup name = some ⟨.bv, width⟩) :
    Spec (newBvVar name width) s fun _ _ => True := by
  refine pushBlob_spec.bind fun r s' _ h => ?_
  obtain ⟨rfl, hblob, -⟩ := h
  refine (pushSymbol_spec (.inl rfl) hw (textAt_of_blobAt hblob) hsym).bind fun ref s'' _ _ => ?_
  exact (spec_cache rfl rfl rfl rfl rfl).bind fun _ _ _ _ => spec_pure trivial

theorem keeps_bvVar {name : String} {width : UInt32} : Keeps (bvVar name width) := by
  intro s
  refine spec_lift safe_ensure fun _ hw => ?_
  have hw := ensure_eq_ok.mp hw
  refine expectSymbolSignature_spec.bind fun _ s' _ hsym => ?_
  refine spec_read (by simp) fun cached _ => ?_
  cases cached with
  | some reference => exact spec_pure trivial
  | none => exact newBvVar_spec hw hsym

theorem newBoolVar_spec {name : String} (hsym : s.symbols.lookup name = some ⟨.bool, 0⟩) :
    Spec (newBoolVar name) s fun _ _ => True := by
  refine pushBlob_spec.bind fun r s' _ h => ?_
  obtain ⟨rfl, hblob, -⟩ := h
  refine (pushSymbol_spec (.inr rfl) rfl (textAt_of_blobAt hblob) hsym).bind fun ref s'' _ _ => ?_
  exact (spec_cache rfl rfl rfl rfl rfl).bind fun _ _ _ _ => spec_pure trivial

theorem keeps_boolVar {name : String} : Keeps (boolVar name) := by
  intro s
  refine expectSymbolSignature_spec.bind fun _ s' _ hsym => ?_
  refine spec_read (by simp) fun cached _ => ?_
  cases cached with
  | some reference => exact spec_pure trivial
  | none => exact newBoolVar_spec hsym

theorem length_maskUnusedHighBits (bytes : List UInt8) (width : Nat) :
    (maskUnusedHighBits bytes width).length = bytes.length := by
  unfold maskUnusedHighBits
  dsimp only
  split
  · rfl
  · simp

theorem bvConstBlob_spec {bytes : List UInt8} {width : UInt32}
    (hw : 1 ≤ width.toNat ∧ width.toNat ≤ maxBvWidth)
    (hlen : bytes.length = (width.toNat + 7) / 8) :
    Spec (bvConstBlob bytes width) s fun _ _ => True := by
  refine pushBlob_spec.bind fun r s' _ h => ?_
  obtain ⟨-, hblob, hr⟩ := h
  refine spec_pushNode rfl hw ⟨?_, ?_⟩ ?_
  · intro ht
    simp at ht
  · intro _ _
    rw [BlobRef.fromPayload_toPayload]
    exact ⟨hr.trans hlen, _, hblob⟩
  · intro p i n _ _ _ _ _
    trivial

theorem bytesForWidth_eq_ok {width len : Nat} :
    bytesForWidth width = ok len ↔ (1 ≤ width ∧ width ≤ maxBvWidth) ∧ len = (width + 7) / 8 := by
  simp only [bytesForWidth, validateBvWidthValue, bind_eq_ok, ensure_eq_ok, exists_const, pure_eq,
    Outcome.ok.injEq]
  exact and_congr_right' eq_comm

theorem safe_bytesForWidth {width : Nat} : Safe (bytesForWidth width) :=
  safe_ensure.bind fun _ _ => safe_ok _

theorem keeps_bvConst {value : UInt64} {width : UInt32} : Keeps (bvConst value width) := by
  intro s
  refine spec_lift safe_ensure fun _ hw => ?_
  have hw := ensure_eq_ok.mp hw
  split
  · rename_i hle
    refine spec_pushNode rfl hw ⟨?_, ?_⟩ ?_
    · intro ht
      simp at ht
    · intro _ hlt
      omega
    · intro p i n _ _ _ _ _
      trivial
  · rename_i hgt
    refine spec_lift safe_bytesForWidth fun len hlen => ?_
    obtain ⟨-, rfl⟩ := bytesForWidth_eq_ok.mp hlen
    refine bvConstBlob_spec hw ?_
    rw [length_maskUnusedHighBits]
    simp
    omega

theorem keeps_bvConstWide {bytes : List UInt8} {width : UInt32} :
    Keeps (bvConstWide bytes width) := by
  intro s
  refine spec_lift safe_ensure fun _ hw => ?_
  have hw := ensure_eq_ok.mp hw
  refine spec_lift safe_bytesForWidth fun expected he => spec_lift safe_ensure fun _ hlen => ?_
  obtain ⟨-, rfl⟩ := bytesForWidth_eq_ok.mp he
  have hlen := ensure_eq_ok.mp hlen
  split
  · exact keeps_bvConst s
  · refine bvConstBlob_spec hw ?_
    rw [length_maskUnusedHighBits, hlen]

/-! ## The remaining operators -/

theorem keeps_bvExtract {x : NodeRef} {hi lo : UInt32} : Keeps (bvExtract x hi lo) := by
  intro s
  refine spec_read safe_expectBv fun width hx => ?_
  rw [expectBv_eq_ok] at hx
  refine spec_lift safe_ensure fun _ h16 => spec_lift safe_ensure fun _ hbounds => ?_
  have h16 := ensure_eq_ok.mp h16
  have hbounds := ensure_eq_ok.mp hbounds
  have hle : lo.toNat ≤ hi.toNat := by omega
  rw [subU_of_le hle]
  refine spec_lift (safe_ok _) fun difference hd => ?_
  obtain rfl := Outcome.ok.inj hd
  rw [addU_of_lt (by omega)]
  refine spec_lift (safe_ok _) fun result hr => ?_
  obtain rfl := Outcome.ok.inj hr
  have hnat : (UInt32.ofNat (hi.toNat - lo.toNat + 1)).toNat = hi.toNat - lo.toNat + 1 := by
    rw [UInt32.toNat_ofNat']
    exact Nat.mod_eq_of_lt (by omega)
  have hhi : (UInt16.ofNat hi.toNat).toNat = hi.toNat := by
    rw [UInt16.toNat_ofNat']
    exact Nat.mod_eq_of_lt (by omega)
  intro hs
  have hw := hs.width_of_hasRef hx
  refine spec_pushNode rfl ?_ (Plain.fitsBlob ⟨by simp, by simp, by simp⟩) ?_ hs
  · show 1 ≤ _ ∧ _ ≤ maxBvWidth
    rw [hnat]
    simp only [maxBvWidth] at hw ⊢
    omega
  · intro p i n hop hw' hhi' hlo' _
    refine ⟨_, hop 0 x _ rfl hx, ?_⟩
    rw [hw', hnat, hhi', hlo', hhi]
    show _ ∧ hi.toNat < width.toNat ∧ _
    omega

theorem keeps_bvConcat {high low : NodeRef} : Keeps (bvConcat high low) := by
  intro s
  refine spec_read safe_expectBv fun highWidth hh => spec_read safe_expectBv fun lowWidth hl => ?_
  rw [expectBv_eq_ok] at hh hl
  refine spec_lift safe_checkedAdd32 fun width hw => spec_lift safe_ensure fun _ hv => ?_
  obtain ⟨hsum, hnat, hle⟩ := checked_width hw hv
  refine spec_pushNode rfl ?_ (Plain.fitsBlob ⟨by simp, by simp, by simp⟩) ?_
  · show 1 ≤ _ ∧ _ ≤ maxBvWidth
    rwa [hnat]
  · intro p i n hop hw' _ _ _
    exact ⟨_, _, hop 0 high _ rfl hh, hop 1 low _ rfl hl, by rw [hw', hnat, hsum]⟩

theorem keeps_bvIte {c x y : NodeRef} : Keeps (bvIte c x y) := by
  intro s
  refine spec_read safe_expectBool fun _ hc => ?_
  rw [expectBool_eq_ok] at hc
  refine spec_read safe_expectSameBvWidth fun width hxy => ?_
  obtain ⟨hx, hy⟩ := expectSameBvWidth_eq_ok.mp hxy
  intro hs
  refine spec_pushNode rfl (hs.width_of_hasRef hx) (Plain.fitsBlob ⟨by simp, by simp, by simp⟩)
    ?_ hs
  intro p i n hop hw _ _ _
  refine ⟨operand_of_hasBool hop rfl hc, ?_, ?_⟩
  · rw [hw]
    exact hop 1 x _ rfl hx
  · rw [hw]
    exact hop 2 y _ rfl hy

theorem getElem?_pairs {pairs : List (NodeRef × NodeRef)} {k : Nat} {pair : NodeRef × NodeRef}
    (h : pairs[k]? = some pair) (rest : List NodeRef) :
    (pairs.flatMap (fun pair => [pair.1, pair.2]) ++ rest)[k * 2]? = some pair.1 ∧
    (pairs.flatMap (fun pair => [pair.1, pair.2]) ++ rest)[k * 2 + 1]? = some pair.2 := by
  induction pairs generalizing k with
  | nil => simp at h
  | cons head tail ih =>
    cases k with
    | zero =>
      rw [List.getElem?_cons_zero, Option.some.injEq] at h
      subst h
      simp
    | succ k =>
      rw [List.getElem?_cons_succ] at h
      rw [Nat.succ_mul]
      exact ih h

theorem checkPair_eq_ok {width : UInt32} {pair : NodeRef × NodeRef} {u : Unit} :
    s.checkPair width pair = ok u ↔ s.HasBool pair.1 ∧ s.HasRef pair.2 ⟨.bv, width⟩ := by
  simp only [checkPair, bind_eq_ok, expectBool_eq_ok, expectBv_eq_ok, ensure_eq_ok, exists_const]
  constructor
  · rintro ⟨hb, _, hv, rfl⟩
    exact ⟨hb, hv⟩
  · rintro ⟨hb, hv⟩
    exact ⟨hb, _, hv, rfl⟩

theorem keeps_bvSelect {selectors values : List NodeRef} {default : NodeRef} :
    Keeps (bvSelect selectors values default) := by
  intro s
  refine spec_lift safe_ensure fun _ hlen => spec_lift safe_ensure fun _ hmax => ?_
  have hlen := ensure_eq_ok.mp hlen
  have hmax := ensure_eq_ok.mp hmax
  refine spec_read safe_expectBv fun width hd => ?_
  rw [expectBv_eq_ok] at hd
  refine spec_read (safe_forM fun pair _ => safe_expectBool.bind fun _ _ =>
    safe_expectBv.bind fun _ _ => safe_ensure) fun _ hpairs => ?_
  simp only [forM_eq_ok, checkPair_eq_ok] at hpairs
  have hzip : (selectors.zip values).length = selectors.length := by simp [hlen]
  have hflat : ((selectors.zip values).flatMap fun pair => [pair.1, pair.2]).length =
      selectors.length * 2 := by
    rw [@length_flatMap_const _ _ _ 2 (fun _ => rfl), hzip, Nat.mul_comm]
  have haux : (UInt16.ofNat selectors.length).toNat = selectors.length := by
    rw [UInt16.toNat_ofNat']
    exact Nat.mod_eq_of_lt (by omega)
  intro hs
  refine spec_pushNode ?_ (hs.width_of_hasRef hd) (Plain.fitsBlob ⟨by simp, by simp, by simp⟩)
    ?_ hs
  · show (_ : List NodeRef).length % 2 = 1
    rw [List.length_append, hflat, List.length_singleton]
    omega
  · intro p i n hop hw hhi _ harity
    rw [List.length_append, hflat, List.length_singleton] at harity
    refine ⟨?_, ?_, ?_⟩
    · rw [hhi, haux, harity]
      omega
    · rw [hw, hhi, haux]
      refine hop _ default _ ?_ hd
      rw [List.getElem?_append_right (by omega), hflat, Nat.sub_self]
      rfl
    · intro k hk
      rw [hhi, haux, ← hzip] at hk
      have hget : (selectors.zip values)[k]? = some (selectors.zip values)[k] :=
        List.getElem?_eq_getElem hk
      obtain ⟨hb, hv⟩ := hpairs _ (List.getElem_mem hk)
      obtain ⟨h0, h1⟩ := getElem?_pairs hget [default]
      rw [hw]
      exact ⟨operand_of_hasBool hop h0 hb, hop _ _ _ h1 hv⟩

theorem keeps_boolConst {t : Tag} (ht : t = .boolTrue ∨ t = .boolFalse) :
    Keeps (pushNode t 0 [] 0 0 0) := by
  intro s
  rcases ht with rfl | rfl
  · exact spec_pushNode rfl rfl (Plain.fitsBlob ⟨by simp, by simp, by simp⟩)
      fun _ _ _ _ _ _ _ _ => trivial
  · exact spec_pushNode rfl rfl (Plain.fitsBlob ⟨by simp, by simp, by simp⟩)
      fun _ _ _ _ _ _ _ _ => trivial

theorem keeps_boolNot {x : NodeRef} : Keeps (boolNot x) := by
  intro s
  refine spec_read safe_expectBool fun _ hx => ?_
  rw [expectBool_eq_ok] at hx
  refine spec_pushNode rfl rfl (Plain.fitsBlob ⟨by simp, by simp, by simp⟩) ?_
  intro p i n hop _ _ _ _
  exact operand_of_hasBool hop rfl hx

theorem keeps_negOvf {x : NodeRef} : Keeps (negOvf x) := by
  intro s
  refine spec_read safe_expectBv fun width hx => ?_
  rw [expectBv_eq_ok] at hx
  refine spec_pushNode rfl rfl (Plain.fitsBlob ⟨by simp, by simp, by simp⟩) ?_
  intro p i n hop _ _ _ _
  exact ⟨_, hop 0 x _ rfl hx⟩

/-! ## Derived operators -/

theorem keeps_bvOp {t : Tag} (ht : t = .bvAnd ∨ t = .bvOr ∨ t = .bvXor ∨ t = .bvAdd ∨ t = .bvSub ∨
    t = .bvMul ∨ t = .bvUdiv ∨ t = .bvUrem ∨ t = .bvSdiv ∨ t = .bvSrem ∨ t = .bvSmod ∨ t = .bvShl ∨
    t = .bvLshr ∨ t = .bvAshr) : Keeps (bvBinary t a b) := by
  rcases ht with rfl | rfl | rfl | rfl | rfl | rfl | rfl | rfl | rfl | rfl | rfl | rfl | rfl | rfl <;>
    exact keeps_bvBinary ⟨by simp, by simp, by simp⟩ rfl rfl fun _ _ _ => Iff.rfl

theorem keeps_bvPredicate {t : Tag} (ht : t = .bvEq ∨ t = .bvUlt ∨ t = .bvUle ∨ t = .bvSlt ∨
    t = .bvSle ∨ t = .uaddOvf ∨ t = .saddOvf ∨ t = .usubOvf ∨ t = .ssubOvf ∨ t = .umulOvf ∨
    t = .smulOvf ∨ t = .sdivOvf) : Keeps (bvComparison t a b) := by
  rcases ht with rfl | rfl | rfl | rfl | rfl | rfl | rfl | rfl | rfl | rfl | rfl | rfl <;>
    exact keeps_bvComparison ⟨by simp, by simp, by simp⟩ rfl rfl fun _ _ _ => Iff.rfl

theorem keeps_boolOp {t : Tag} (ht : t = .boolAnd ∨ t = .boolOr ∨ t = .boolImplies) :
    Keeps (boolBinary t a b) := by
  rcases ht with rfl | rfl | rfl <;>
    exact keeps_boolBinary ⟨by simp, by simp, by simp⟩ rfl rfl fun _ _ _ => Iff.rfl

theorem keeps_boolAnd : Keeps (boolAnd a b) := keeps_boolOp (by simp)
theorem keeps_boolOr : Keeps (boolOr a b) := keeps_boolOp (by simp)

/-- A check before the rest of a method. -/
theorem Keeps.check {f : ExprBuilder → Result α} {g : α → BuilderM β}
    (hsafe : ∀ s : ExprBuilder, s.Inv → Safe (f s)) (hg : ∀ a, Keeps (g a)) :
    Keeps (Grow.read f >>= g) := by
  intro s hs
  exact spec_read (hsafe s hs) (fun a _ => hg a s) hs

theorem keeps_bvNe : Keeps (bvNe a b) :=
  (keeps_bvPredicate (by simp)).bind fun _ => keeps_boolNot

theorem keeps_boolEq : Keeps (boolEq a b) :=
  Keeps.check (fun _ _ => safe_expectBool) fun _ => Keeps.check (fun _ _ => safe_expectBool) fun _ =>
    keeps_boolNot.bind fun _ => keeps_boolOr.bind fun _ => keeps_boolNot.bind fun _ =>
      keeps_boolOr.bind fun _ => keeps_boolAnd

theorem keeps_boolXor : Keeps (boolXor a b) := keeps_boolEq.bind fun _ => keeps_boolNot

theorem keeps_boolIte {c x y : NodeRef} : Keeps (boolIte c x y) :=
  Keeps.check (fun _ _ => safe_expectBool) fun _ => Keeps.check (fun _ _ => safe_expectBool) fun _ =>
    Keeps.check (fun _ _ => safe_expectBool) fun _ => keeps_boolAnd.bind fun _ =>
      keeps_boolNot.bind fun _ => keeps_boolAnd.bind fun _ => keeps_boolOr

/-- The width a rotation divides by is not zero. -/
theorem spec_rotate {x : NodeRef} {amount : UInt64} {g : UInt32 → Nat → BuilderM NodeRef}
    (hg : ∀ width amount, Keeps (g width amount)) :
    Keeps (do
      let width ← Grow.read (expectBv x)
      let amount ← Grow.lift (remU amount.toNat width.toNat)
      g width amount) := by
  intro s hs
  refine spec_read safe_expectBv (fun width hx => ?_) hs
  rw [expectBv_eq_ok] at hx
  have hw := (hs.width_of_hasRef hx).1
  have hrem : remU amount.toNat width.toNat = ok (amount.toNat % width.toNat) :=
    if_neg (by omega)
  rw [hrem]
  exact spec_lift (safe_ok _) fun amount _ => hg width amount s

theorem keeps_bvRotateLeft {x : NodeRef} {amount : UInt64} : Keeps (bvRotateLeft x amount) := by
  refine spec_rotate fun width amount => ?_
  split
  · exact keeps_pure x
  · exact keeps_bvConst.bind fun _ => keeps_bvConst.bind fun _ =>
      (keeps_bvOp (by simp)).bind fun _ => (keeps_bvOp (by simp)).bind fun _ =>
        keeps_bvOp (by simp)

theorem keeps_bvRotateRight {x : NodeRef} {amount : UInt64} : Keeps (bvRotateRight x amount) := by
  refine spec_rotate fun width amount => ?_
  split
  · exact keeps_pure x
  · exact keeps_bvConst.bind fun _ => keeps_bvConst.bind fun _ =>
      (keeps_bvOp (by simp)).bind fun _ => (keeps_bvOp (by simp)).bind fun _ =>
        keeps_bvOp (by simp)

/-! ## Assertions, assumptions, scopes -/

/-- An assertion or assumption list may shrink, or grow by what has been checked. -/
theorem keeps_assert {root : NodeRef} : Keeps (assert root) := by
  intro s
  refine spec_read safe_expectBool fun _ hroot => spec_remember fun hs => ⟨?_, trivial⟩
  rw [expectBool_eq_ok] at hroot
  refine hs.side rfl rfl (fun _ _ h => h) ?_ (fun _ h => .inl h)
  intro a ha
  rcases List.mem_append.mp ha with hold | hnew
  · exact .inl hold
  · rw [List.mem_singleton] at hnew
    subst hnew
    exact .inr ⟨hroot, by simp⟩

theorem assertNamed_spec {name : String} {root : NodeRef} :
    Spec (assertNamed name root) s fun _ s' => ∃ r, s'.assertions = s.assertions ++ [⟨root, some r⟩] ∧
      s'.parts.textAt r = some name := by
  refine spec_read safe_expectBool fun _ hroot => ?_
  rw [expectBool_eq_ok] at hroot
  refine pushBlob_spec.bind fun r s' hle h => spec_remember fun hs => ⟨?_, r, ?_, ?_⟩
  · obtain ⟨-, hblob, -⟩ := h
    refine hs.side rfl rfl (fun _ _ h => h) ?_ (fun _ h => .inl h)
    intro a ha
    rcases List.mem_append.mp ha with hold | hnew
    · exact .inl hold
    · rw [List.mem_singleton] at hnew
      subst hnew
      refine .inr ⟨hroot.mono hle, ?_⟩
      intro r' hr'
      obtain rfl := Option.some.inj hr'
      exact ⟨name, textAt_of_blobAt hblob⟩
  · rw [h.1]
  · exact textAt_of_blobAt h.2.1

theorem keeps_assume {root : NodeRef} : Keeps (assume root) := by
  intro s
  refine spec_read safe_expectBool fun _ hroot => spec_remember fun hs => ⟨?_, trivial⟩
  rw [expectBool_eq_ok] at hroot
  refine hs.side rfl rfl (fun _ _ h => h) (fun _ h => .inl h) ?_
  intro r hr
  rcases List.mem_append.mp hr with hold | hnew
  · exact .inl hold
  · rw [List.mem_singleton] at hnew
    exact .inr (hnew ▸ hroot)

theorem keeps_clearAssumptions : Keeps clearAssumptions := by
  intro s
  refine spec_remember fun hs => ⟨?_, trivial⟩
  exact hs.side rfl rfl (fun _ _ h => h) (fun _ h => .inl h) (fun _ h => by simp at h)

theorem keeps_push : Keeps push := fun _ => spec_cache rfl rfl rfl rfl rfl

theorem keeps_pop : Keeps pop := by
  intro s
  refine spec_read safe_ofOption fun len _ => spec_remember fun hs => ⟨?_, trivial⟩
  exact hs.side rfl rfl (fun _ _ h => h) (fun _ h => .inl (List.mem_of_mem_take h)) (fun _ h => .inl h)

theorem keeps_assertMutexWith {x : NodeRef} : ∀ rest, Keeps (assertMutexWith x rest) := by
  intro rest
  induction rest with
  | nil => exact keeps_pure ()
  | cons y rest ih =>
    exact keeps_boolAnd.bind fun _ => keeps_boolNot.bind fun _ => keeps_assert.bind fun _ => ih

theorem keeps_assertMutexPairs : ∀ selectors, Keeps (assertMutexPairs selectors) := by
  intro selectors
  induction selectors with
  | nil => exact keeps_pure ()
  | cons x rest ih => exact (keeps_assertMutexWith rest).bind fun _ => ih

theorem keeps_assertMutex {selectors : List NodeRef} : Keeps (assertMutex selectors) :=
  Keeps.check (fun _ _ => safe_forM fun _ _ => safe_expectBool) fun _ =>
    keeps_assertMutexPairs selectors

end ExprBuilder

/-! ## Sequences of calls -/

/-- A call of a method that takes `&mut self`. -/
inductive Op where
  | reset
  | bvVar (name : String) (width : UInt32)
  | boolVar (name : String)
  | bvConst (value : UInt64) (width : UInt32)
  | bvConstWide (bytes : List UInt8) (width : UInt32)
  | bvNot (x : NodeRef)
  | bvNeg (x : NodeRef)
  | bvAnd (a b : NodeRef)
  | bvOr (a b : NodeRef)
  | bvXor (a b : NodeRef)
  | bvAdd (a b : NodeRef)
  | bvSub (a b : NodeRef)
  | bvMul (a b : NodeRef)
  | bvUdiv (a b : NodeRef)
  | bvUrem (a b : NodeRef)
  | bvSdiv (a b : NodeRef)
  | bvSrem (a b : NodeRef)
  | bvSmod (a b : NodeRef)
  | bvShl (a b : NodeRef)
  | bvLshr (a b : NodeRef)
  | bvAshr (a b : NodeRef)
  | bvExtract (x : NodeRef) (hi lo : UInt32)
  | bvConcat (high low : NodeRef)
  | bvZext (x : NodeRef) (amount : UInt16)
  | bvSext (x : NodeRef) (amount : UInt16)
  | bvIte (cond thenValue elseValue : NodeRef)
  | bvSelect (selectors values : List NodeRef) (default : NodeRef)
  | boolTrue
  | boolFalse
  | boolNot (x : NodeRef)
  | boolAnd (a b : NodeRef)
  | boolOr (a b : NodeRef)
  | boolImplies (a b : NodeRef)
  | bvEq (a b : NodeRef)
  | bvUlt (a b : NodeRef)
  | bvUle (a b : NodeRef)
  | bvSlt (a b : NodeRef)
  | bvSle (a b : NodeRef)
  | uaddOvf (a b : NodeRef)
  | saddOvf (a b : NodeRef)
  | usubOvf (a b : NodeRef)
  | ssubOvf (a b : NodeRef)
  | umulOvf (a b : NodeRef)
  | smulOvf (a b : NodeRef)
  | sdivOvf (a b : NodeRef)
  | negOvf (x : NodeRef)
  | bvNe (a b : NodeRef)
  | bvUgt (a b : NodeRef)
  | bvUge (a b : NodeRef)
  | bvSgt (a b : NodeRef)
  | bvSge (a b : NodeRef)
  | boolEq (a b : NodeRef)
  | boolXor (a b : NodeRef)
  | boolIte (cond thenValue elseValue : NodeRef)
  | bvRotateLeft (x : NodeRef) (amount : UInt64)
  | bvRotateRight (x : NodeRef) (amount : UInt64)
  | assert (root : NodeRef)
  | assertNamed (name : String) (root : NodeRef)
  | assertMutex (selectors : List NodeRef)
  | assume (root : NodeRef)
  | clearAssumptions
  | push
  | pop

namespace Op

open ExprBuilder

/-- What a call returns, a reference or nothing, is for the caller to use. -/
def ignore {α : Type} (m : BuilderM α) : BuilderM Unit := do
  let _ ← m
  pure ()

/-- The method behind a call; `reset` is not one that only appends. -/
def method : Op → Option (BuilderM Unit)
  | .reset => none
  | .bvVar name width => some (ignore (ExprBuilder.bvVar name width))
  | .boolVar name => some (ignore (ExprBuilder.boolVar name))
  | .bvConst value width => some (ignore (ExprBuilder.bvConst value width))
  | .bvConstWide bytes width => some (ignore (ExprBuilder.bvConstWide bytes width))
  | .bvNot x => some (ignore (ExprBuilder.bvNot x))
  | .bvNeg x => some (ignore (ExprBuilder.bvNeg x))
  | .bvAnd a b => some (ignore (ExprBuilder.bvAnd a b))
  | .bvOr a b => some (ignore (ExprBuilder.bvOr a b))
  | .bvXor a b => some (ignore (ExprBuilder.bvXor a b))
  | .bvAdd a b => some (ignore (ExprBuilder.bvAdd a b))
  | .bvSub a b => some (ignore (ExprBuilder.bvSub a b))
  | .bvMul a b => some (ignore (ExprBuilder.bvMul a b))
  | .bvUdiv a b => some (ignore (ExprBuilder.bvUdiv a b))
  | .bvUrem a b => some (ignore (ExprBuilder.bvUrem a b))
  | .bvSdiv a b => some (ignore (ExprBuilder.bvSdiv a b))
  | .bvSrem a b => some (ignore (ExprBuilder.bvSrem a b))
  | .bvSmod a b => some (ignore (ExprBuilder.bvSmod a b))
  | .bvShl a b => some (ignore (ExprBuilder.bvShl a b))
  | .bvLshr a b => some (ignore (ExprBuilder.bvLshr a b))
  | .bvAshr a b => some (ignore (ExprBuilder.bvAshr a b))
  | .bvExtract x hi lo => some (ignore (ExprBuilder.bvExtract x hi lo))
  | .bvConcat high low => some (ignore (ExprBuilder.bvConcat high low))
  | .bvZext x amount => some (ignore (ExprBuilder.bvZext x amount))
  | .bvSext x amount => some (ignore (ExprBuilder.bvSext x amount))
  | .bvIte c x y => some (ignore (ExprBuilder.bvIte c x y))
  | .bvSelect selectors values default =>
    some (ignore (ExprBuilder.bvSelect selectors values default))
  | .boolTrue => some (ignore ExprBuilder.boolTrue)
  | .boolFalse => some (ignore ExprBuilder.boolFalse)
  | .boolNot x => some (ignore (ExprBuilder.boolNot x))
  | .boolAnd a b => some (ignore (ExprBuilder.boolAnd a b))
  | .boolOr a b => some (ignore (ExprBuilder.boolOr a b))
  | .boolImplies a b => some (ignore (ExprBuilder.boolImplies a b))
  | .bvEq a b => some (ignore (ExprBuilder.bvEq a b))
  | .bvUlt a b => some (ignore (ExprBuilder.bvUlt a b))
  | .bvUle a b => some (ignore (ExprBuilder.bvUle a b))
  | .bvSlt a b => some (ignore (ExprBuilder.bvSlt a b))
  | .bvSle a b => some (ignore (ExprBuilder.bvSle a b))
  | .uaddOvf a b => some (ignore (ExprBuilder.uaddOvf a b))
  | .saddOvf a b => some (ignore (ExprBuilder.saddOvf a b))
  | .usubOvf a b => some (ignore (ExprBuilder.usubOvf a b))
  | .ssubOvf a b => some (ignore (ExprBuilder.ssubOvf a b))
  | .umulOvf a b => some (ignore (ExprBuilder.umulOvf a b))
  | .smulOvf a b => some (ignore (ExprBuilder.smulOvf a b))
  | .sdivOvf a b => some (ignore (ExprBuilder.sdivOvf a b))
  | .negOvf x => some (ignore (ExprBuilder.negOvf x))
  | .bvNe a b => some (ignore (ExprBuilder.bvNe a b))
  | .bvUgt a b => some (ignore (ExprBuilder.bvUgt a b))
  | .bvUge a b => some (ignore (ExprBuilder.bvUge a b))
  | .bvSgt a b => some (ignore (ExprBuilder.bvSgt a b))
  | .bvSge a b => some (ignore (ExprBuilder.bvSge a b))
  | .boolEq a b => some (ignore (ExprBuilder.boolEq a b))
  | .boolXor a b => some (ignore (ExprBuilder.boolXor a b))
  | .boolIte c x y => some (ignore (ExprBuilder.boolIte c x y))
  | .bvRotateLeft x amount => some (ignore (ExprBuilder.bvRotateLeft x amount))
  | .bvRotateRight x amount => some (ignore (ExprBuilder.bvRotateRight x amount))
  | .assert root => some (ExprBuilder.assert root)
  | .assertNamed name root => some (ExprBuilder.assertNamed name root)
  | .assertMutex selectors => some (ExprBuilder.assertMutex selectors)
  | .assume root => some (ExprBuilder.assume root)
  | .clearAssumptions => some ExprBuilder.clearAssumptions
  | .push => some ExprBuilder.push
  | .pop => some ExprBuilder.pop

/-- A call, with the state it leaves whether or not it succeeds. -/
def run (op : Op) (s : ExprBuilder) : Outcome WireError Unit × ExprBuilder :=
  match op.method with
  | some m => m.run s
  | none => (.ok (), ExprBuilder.new)

theorem keeps_ignore {α : Type} {m : BuilderM α} (h : Keeps m) : Keeps (ignore m) :=
  h.bind fun _ => keeps_pure ()

/-- Every method keeps the invariant. -/
theorem keeps_method (op : Op) : Keeps (op.method.getD (pure ())) := by
  cases op with
  | reset => exact keeps_pure ()
  | bvVar => exact keeps_ignore keeps_bvVar
  | boolVar => exact keeps_ignore keeps_boolVar
  | bvConst => exact keeps_ignore keeps_bvConst
  | bvConstWide => exact keeps_ignore keeps_bvConstWide
  | bvNot | bvNeg =>
    exact keeps_ignore (keeps_bvUnary ⟨by simp, by simp, by simp⟩ rfl rfl fun _ _ _ => Iff.rfl)
  | bvAnd | bvOr | bvXor | bvAdd | bvSub | bvMul | bvUdiv | bvUrem | bvSdiv | bvSrem | bvSmod
  | bvShl | bvLshr | bvAshr =>
    exact keeps_ignore (keeps_bvOp (by simp))
  | bvExtract => exact keeps_ignore keeps_bvExtract
  | bvConcat => exact keeps_ignore keeps_bvConcat
  | bvZext | bvSext =>
    exact keeps_ignore (keeps_bvExtend ⟨by simp, by simp, by simp⟩ rfl rfl fun _ _ _ => Iff.rfl)
  | bvIte => exact keeps_ignore keeps_bvIte
  | bvSelect => exact keeps_ignore keeps_bvSelect
  | boolTrue | boolFalse => exact keeps_ignore (keeps_boolConst (by simp))
  | boolNot => exact keeps_ignore keeps_boolNot
  | boolAnd | boolOr | boolImplies => exact keeps_ignore (keeps_boolOp (by simp))
  | bvEq | bvUlt | bvUle | bvSlt | bvSle | uaddOvf | saddOvf | usubOvf | ssubOvf | umulOvf
  | smulOvf | sdivOvf | bvUgt | bvUge | bvSgt | bvSge =>
    exact keeps_ignore (keeps_bvPredicate (by simp))
  | negOvf => exact keeps_ignore keeps_negOvf
  | bvNe => exact keeps_ignore keeps_bvNe
  | boolEq => exact keeps_ignore keeps_boolEq
  | boolXor => exact keeps_ignore keeps_boolXor
  | boolIte => exact keeps_ignore keeps_boolIte
  | bvRotateLeft => exact keeps_ignore keeps_bvRotateLeft
  | bvRotateRight => exact keeps_ignore keeps_bvRotateRight
  | assert => exact keeps_assert
  | assertNamed => exact fun _ => assertNamed_spec.forget
  | assertMutex => exact keeps_assertMutex
  | assume => exact keeps_assume
  | clearAssumptions => exact keeps_clearAssumptions
  | push => exact keeps_push
  | pop => exact keeps_pop

/-- **One call.** It does not panic, and it leaves the invariant on every exit. -/
theorem run_inv (op : Op) {s : ExprBuilder} (hs : s.Inv) :
    Safe (op.run s).1 ∧ (op.run s).2.Inv := by
  unfold run
  cases hm : op.method with
  | none => exact ⟨safe_ok _, inv_new⟩
  | some m =>
    have h := keeps_method op s hs trivial
    rw [hm] at h
    revert h
    simp only [Option.getD_some]
    cases m.run s with
    | mk o s' =>
      cases o with
      | ok u => exact fun h => ⟨safe_ok _, h.1⟩
      | err e => exact fun h => ⟨safe_err _, h.2⟩
      | panic => exact fun h => absurd h id

end Op

/-- The builder after a sequence of calls. -/
def runOps (ops : List Op) : ExprBuilder :=
  ops.foldl (fun s op => (op.run s).2) ExprBuilder.new

/-- **Any sequence of calls** leaves the invariant. -/
theorem runOps_inv (ops : List Op) : (runOps ops).Inv := by
  have hstep : ∀ s : ExprBuilder, s.Inv → (ops.foldl (fun s op => (op.run s).2) s).Inv := by
    induction ops with
    | nil => exact fun s hs => hs
    | cons op rest ih => exact fun s hs => ih _ (op.run_inv hs).2
  exact hstep _ ExprBuilder.inv_new

end Wire
end SmtServer
