import SmtServer.Server.RumbaIsland
import SmtServer.Wire.BuildRequest

/-!
# Simplification preserves meaning

The walk keeps one invariant (`Walk`): the builder is sound, and every memoised reference
denotes the value of the node it was made from. Lowering an expression of `rumba_core` gives a
reference to its value (`lower_spec`), copying a node gives a reference to the node's value
(`copyNode_spec`), and by induction on the index so does processing any node of the request
(`process_spec`) — or the walk fails, and then the answer is the request's own expression.
-/

namespace SmtServer
namespace Server

open Lib Outcome Wire
open Lib.Smt (Value)

namespace IslandSimplifier

open IslandConversion (varValue Agrees)

variable {R : RumbaCore} {p : Parts} {view : ExprView} {w : UInt32} {bound : Nat}
  {s s' : IslandSimplifier} {α β : Type}

/-- `r'` stands in the new expression for the node `r` refers to in the old one. -/
def StandsFor (p : Parts) (b : ExprBuilder) (r' r : NodeRef) : Prop :=
  ∀ {n t}, RefersTo p r n t → b.Denotes r' ⟨r.sort, n.width⟩ fun ρ => p.value ρ r.idx

structure Walk (p : Parts) (s : IslandSimplifier) : Prop where
  sound : s.builder.Sound
  memo : ∀ {r r'}, s.memo.lookup r = some r' → StandsFor p s.builder r' r

theorem walk_new : Walk p new := ⟨ExprBuilder.sound_new, fun h => by simp [new] at h⟩

theorem Walk.denotes (hs : Walk p s) (hs' : Walk p s') (h : s ≤ s') {r : NodeRef} {m : NodeMeta}
    {v : Env → Value} (hr : s.builder.Denotes r m v) : s'.builder.Denotes r m v :=
  hr.mono hs.sound.inv hs'.sound.inv h

/-- A part of the walk that keeps the invariant. -/
def Simplifies (p : Parts) (m : SimplifyM α) (s : IslandSimplifier)
    (Q : α → IslandSimplifier → Prop) : Prop :=
  Grow.Spec (fun _ => True) (Walk p) (fun _ _ => True) m s Q

theorem simplifies_of_walk {m : SimplifyM α} {Q : α → IslandSimplifier → Prop}
    (h : Walk p s → Simplifies p m s Q) : Simplifies p m s Q := fun hs => h hs hs

theorem Simplifies.bind {m : SimplifyM α} {f : α → SimplifyM β}
    {P : α → IslandSimplifier → Prop} {Q : β → IslandSimplifier → Prop}
    (hm : Simplifies p m s P)
    (hf : ∀ a s', s ≤ s' → Walk p s → Walk p s' → P a s' → Simplifies p (f a) s' Q) :
    Simplifies p (m >>= f) s Q := by
  refine simplifies_of_walk fun hs => Grow.Spec.bind (fun _ _ => trivial) hm fun a s' hle hP => ?_
  exact simplifies_of_walk fun hs' => hf a s' hle hs hs' hP

theorem simplifies_pure {a : α} {Q : α → IslandSimplifier → Prop} (h : Q a s) :
    Simplifies p (pure a) s Q :=
  Grow.spec_pure h

theorem simplifies_read {f : IslandSimplifier → Result α} {g : α → SimplifyM β}
    {Q : β → IslandSimplifier → Prop} (hsafe : Safe (f s))
    (hg : ∀ a, f s = ok a → Simplifies p (g a) s Q) : Simplifies p (Grow.read f >>= g) s Q :=
  Grow.spec_read hsafe (fun _ _ => trivial) hg

theorem simplifies_lift {x : Result α} {g : α → SimplifyM β} {Q : β → IslandSimplifier → Prop}
    {a : α} (h : x = ok a) (hg : Simplifies p (g a) s Q) :
    Simplifies p (Grow.lift x >>= g) s Q := by
  subst h
  refine @simplifies_read p s α β (fun _ => ok a) g Q (safe_ok a) fun a' ha => ?_
  obtain rfl := Outcome.ok.inj ha
  exact hg

theorem simplifies_fail {e : WireError} {Q : α → IslandSimplifier → Prop} :
    Simplifies p (Grow.fail e : SimplifyM α) s Q := by
  intro hs
  exact Grow.wp_fail ⟨trivial, hs⟩

/-- A method of the builder leaves the memo, whose entries go on denoting. -/
theorem onBuilder_spec {m : BuilderM α} {Q : α → ExprBuilder → Prop}
    (h : ExprBuilder.Works m s.builder Q) :
    Simplifies p (onBuilder m) s fun a s' => Q a s'.builder := by
  intro hs _
  have hm := h hs.sound trivial
  have hle := m.grows s.builder
  have hrun : (onBuilder m).run s = ((m.run s.builder).1, { s with builder := (m.run s.builder).2 }) :=
    rfl
  rw [hrun]
  have hmemo : (m.run s.builder).2.Sound → Walk p { s with builder := (m.run s.builder).2 } := by
    intro hb
    refine ⟨hb, fun hl _ _ hr => ?_⟩
    exact (hs.memo hl hr).mono hs.sound.inv hb.inv hle
  revert hm hmemo
  cases m.run s.builder with
  | mk o b =>
    cases o with
    | ok a => exact fun hm hmemo => ⟨hmemo hm.1, hm.2⟩
    | err e => exact fun hm hmemo => ⟨trivial, hmemo hm.2⟩
    | panic => exact fun hm _ => hm

/-! ## Lowering -/

/-- The values the variables of an island stand for. -/
def envOf (p : Parts) (w : UInt32) (vars : List IslandVar) (ρ : Env) (id : Nat) :
    BitVec w.toNat :=
  match vars[id]? with
  | some var => (varValue p w ρ var).toBv w.toNat
  | none => 0

theorem agrees_envOf (hp : p.WellFormed) {c : IslandConversion} (hc : c.Inv p w bound) (ρ : Env) :
    Agrees p w ρ c.vars (envOf p w c.vars ρ) := by
  intro id var hvar
  simp only [envOf, hvar]
  cases var with
  | named name => simp only [varValue, ExprBuilder.bvSymbol, Value.toBv_bv]
  | boundary r =>
    obtain ⟨n, t, hr, hsort, hw, -⟩ := hc.boundary (List.mem_of_getElem? hvar)
    have hx := hr.shaped hp ρ
    rw [hsort, hw] at hx
    obtain ⟨x, hx⟩ := hx
    simp only [varValue, hx, Value.toBv_bv]

/-- A reference to a vector of width `w`. -/
def IsBv (s : IslandSimplifier) (w : UInt32) (r : NodeRef) (x : Env → BitVec w.toNat) : Prop :=
  s.builder.Denotes r ⟨.bv, w⟩ fun ρ => .bv w.toNat (x ρ)

/-- A builder method that computes `f` on vectors of width `w`. -/
def Computes (w : UInt32) (op : NodeRef → NodeRef → BuilderM NodeRef)
    (f : BitVec w.toNat → BitVec w.toNat → BitVec w.toNat) : Prop :=
  ∀ {b : ExprBuilder} {r₁ r₂ : NodeRef} {x y : Env → BitVec w.toNat},
    b.Denotes r₁ ⟨.bv, w⟩ (fun ρ => .bv w.toNat (x ρ)) →
    b.Denotes r₂ ⟨.bv, w⟩ (fun ρ => .bv w.toNat (y ρ)) →
    ExprBuilder.Means (op r₁ r₂) b ⟨.bv, w⟩ fun ρ => .bv w.toNat (f (x ρ) (y ρ))

theorem computes_of_naryOp {t : Tag} {f : BitVec w.toNat → BitVec w.toNat → BitVec w.toNat}
    {e : BitVec w.toNat} (h : IslandConversion.NaryOp t f e) (ht : t = .bvAnd ∨ t = .bvOr ∨
      t = .bvXor ∨ t = .bvAdd ∨ t = .bvMul) : Computes w (ExprBuilder.bvBinary t) f := by
  intro b r₁ r₂ x y hx hy
  refine ExprBuilder.bvBinary_means ?_ hx hy fun p ρ n => h.sem p ρ n _ _ _ rfl rfl
  rcases ht with rfl | rfl | rfl | rfl | rfl <;> simp

theorem computes_not {b : ExprBuilder} {r : NodeRef} {x : Env → BitVec w.toNat}
    (hx : b.Denotes r ⟨.bv, w⟩ fun ρ => .bv w.toNat (x ρ)) :
    ExprBuilder.Means (ExprBuilder.bvNot r) b ⟨.bv, w⟩ fun ρ => .bv w.toNat (~~~x ρ) := by
  refine ExprBuilder.bvUnary_means (.inl rfl) hx fun p ρ n => ?_
  simp only [Parts.semTag, List.getD_cons_zero, Smt.bvnot, Value.map_bv]

variable {vars : List IslandVar}

/-- `r` denotes the value of an expression over the variables of the island. -/
def Lowers (p : Parts) (w : UInt32) (vars : List IslandVar) (s : IslandSimplifier) (r : NodeRef)
    (e : RumbaExpr R.VarInt) : Prop :=
  IsBv s w r fun ρ => e.eval (envOf p w vars ρ)

theorem Lowers.mono (hs : Walk p s) (hs' : Walk p s') (h : s ≤ s') {r : NodeRef}
    {e : RumbaExpr R.VarInt} (hr : Lowers p w vars s r e) : Lowers p w vars s' r e :=
  hs.denotes hs' h hr

/-- The loop that combines the children of an n-ary operator. -/
theorem foldRefs_spec {op : NodeRef → NodeRef → BuilderM NodeRef}
    {f : BitVec w.toNat → BitVec w.toNat → BitVec w.toNat} (hop : Computes w op f) :
    ∀ (rest : List NodeRef) (es : List (RumbaExpr R.VarInt)) (acc : NodeRef)
      (x : Env → BitVec w.toNat) (s : IslandSimplifier), IsBv s w acc x →
      List.Forall₂ (Lowers p w vars s) rest es →
      Simplifies p (foldRefs op acc rest) s fun r s' => IsBv s' w r fun ρ =>
        (RumbaExpr.evalAll (envOf p w vars ρ) es).foldl f (x ρ) := by
  intro rest
  induction rest with
  | nil =>
    intro es acc x s hacc hrest
    obtain rfl := List.forall₂_nil_left_iff.mp hrest
    exact simplifies_pure hacc
  | cons child rest ih =>
    intro es acc x s hacc hrest
    obtain ⟨e, es', hchild, hrest', rfl⟩ := List.forall₂_cons_left_iff.mp hrest
    refine (onBuilder_spec (hop hacc hchild)).bind fun acc' s' hle hs hs' hacc' => ?_
    exact ih es' acc' _ s' hacc' (hrest'.imp fun _ _ h => h.mono hs hs' hle)

/-- An n-ary operator, given its children. The code's constant for no children is the
operator's identity. -/
theorem lowerNary_spec {t : Tag} {f : BitVec w.toNat → BitVec w.toNat → BitVec w.toNat}
    {e : BitVec w.toNat} (h : IslandConversion.NaryOp t f e) (ht : t = .bvAnd ∨ t = .bvOr ∨
      t = .bvXor ∨ t = .bvAdd ∨ t = .bvMul) {identity : UInt64}
    (hid : BitVec.ofNat w.toNat identity.toNat = e) {es : List (RumbaExpr R.VarInt)}
    {lowerAll : SimplifyM (List NodeRef)}
    (hall : Simplifies p lowerAll s fun refs s' => List.Forall₂ (Lowers p w vars s') refs es) :
    Simplifies p (lowerNary w identity (ExprBuilder.bvBinary t) es.isEmpty lowerAll) s fun r s' =>
      IsBv s' w r fun ρ => (RumbaExpr.evalAll (envOf p w vars ρ) es).foldl f e := by
  unfold lowerNary
  split
  · rename_i hempty
    obtain rfl := List.isEmpty_iff.mp hempty
    refine Grow.Spec.mono (onBuilder_spec ExprBuilder.bvConst_means) ?_
    intro r s' _ _ hr
    refine hr.congr fun ρ => ?_
    rw [hid]
    rfl
  · rename_i hne
    refine hall.bind fun refs s' hle hs hs' hrefs => ?_
    cases hrefs with
    | nil => exact absurd rfl hne
    | @cons r e₀ refs es hr hrest =>
      refine Grow.Spec.mono (foldRefs_spec (computes_of_naryOp h ht) refs es r _ s' hr hrest) ?_
      intro r' s'' _ _ hr'
      refine hr'.congr fun ρ => ?_
      simp only [RumbaExpr.evalAll, List.foldl_cons, h.ident]

/-- What processing a reference is to return. -/
def Processes (p : Parts) (process : NodeRef → SimplifyM NodeRef) (bound : Nat) : Prop :=
  ∀ {r n t} {s : IslandSimplifier}, RefersTo p r n t → r.idx < bound →
    Simplifies p (process r) s fun r' s' => StandsFor p s'.builder r' r

theorem lowerVar_spec {process : NodeRef → SimplifyM NodeRef} (hprocess : Processes p process bound)
    {c : IslandConversion} (hc : c.Inv p w bound) (ha : ∀ ρ, Agrees p w ρ c.vars (envOf p w c.vars ρ))
    (id : Nat) : Simplifies p (lowerVar process w c.vars id) s fun r s' =>
      IsBv s' w r fun ρ => envOf p w c.vars ρ id := by
  unfold lowerVar
  cases hvar : c.vars[id]? with
  | none => exact simplifies_fail
  | some var =>
    cases var with
    | named name =>
      refine Grow.Spec.mono (onBuilder_spec ExprBuilder.bvVar_means) ?_
      intro r s' _ _ hr
      exact hr.congr fun ρ => ha ρ id _ hvar
    | boundary reference =>
      obtain ⟨n, t, hr, hsort, hw, hlt⟩ := hc.boundary (List.mem_of_getElem? hvar)
      refine Grow.Spec.mono (hprocess hr hlt) ?_
      intro r s' _ _ h
      have hden := h hr
      rw [hsort, hw] at hden
      exact hden.congr fun ρ => ha ρ id _ hvar

section

variable {process : NodeRef → SimplifyM NodeRef} {c : IslandConversion}

mutual

/-- **Lowering is correct.** -/
theorem lower_spec (hR : R.Lawful) (hw : 1 ≤ w.toNat ∧ w.toNat ≤ 64)
    (hprocess : Processes p process bound) (hc : c.Inv p w bound)
    (ha : ∀ ρ, Agrees p w ρ c.vars (envOf p w c.vars ρ)) :
    ∀ (e : RumbaExpr R.VarInt) (s : IslandSimplifier),
      Simplifies p (lower R process w c.vars e) s fun r s' => Lowers p w c.vars s' r e
  | .var id, s => by
    refine simplifies_lift (IslandConversion.maskForWidth_eq hw) ?_
    exact lowerVar_spec hprocess hc ha id
  | .const value, s => by
    refine simplifies_lift (IslandConversion.maskForWidth_eq hw) ?_
    exact onBuilder_spec ExprBuilder.bvConst_means
  | .not child, s => by
    refine simplifies_lift (IslandConversion.maskForWidth_eq hw) ?_
    refine (lower_spec hR hw hprocess hc ha child s).bind fun r s' _ _ _ hr => ?_
    exact onBuilder_spec (computes_not hr)
  | .scale coeff child, s => by
    refine simplifies_lift (IslandConversion.maskForWidth_eq hw) ?_
    refine (lower_spec hR hw hprocess hc ha child s).bind fun r s' _ _ _ hr => ?_
    refine (onBuilder_spec ExprBuilder.bvConst_means).bind fun k s'' hle hs' hs'' hk => ?_
    exact onBuilder_spec (computes_of_naryOp IslandConversion.naryOp_mul (by simp) hk
      (hr.mono hs' hs'' hle))
  | .and children, s => by
    refine simplifies_lift (IslandConversion.maskForWidth_eq hw) ?_
    refine lowerNary_spec IslandConversion.naryOp_and (by simp) ?_
      (lowerAll_spec hR hw hprocess hc ha children s)
    rw [hR.makeMask _ hw.1 hw.2]
    refine BitVec.eq_of_toNat_eq ?_
    rw [BitVec.toNat_ofNat, BitVec.toNat_allOnes]
    exact Nat.mod_eq_of_lt (Nat.sub_lt (Nat.two_pow_pos _) Nat.one_pos)
  | .or children, s => by
    refine simplifies_lift (IslandConversion.maskForWidth_eq hw) ?_
    exact lowerNary_spec IslandConversion.naryOp_or (by simp) rfl
      (lowerAll_spec hR hw hprocess hc ha children s)
  | .xor children, s => by
    refine simplifies_lift (IslandConversion.maskForWidth_eq hw) ?_
    exact lowerNary_spec IslandConversion.naryOp_xor (by simp) rfl
      (lowerAll_spec hR hw hprocess hc ha children s)
  | .add children, s => by
    refine simplifies_lift (IslandConversion.maskForWidth_eq hw) ?_
    exact lowerNary_spec IslandConversion.naryOp_add (by simp) rfl
      (lowerAll_spec hR hw hprocess hc ha children s)
  | .mul children, s => by
    refine simplifies_lift (IslandConversion.maskForWidth_eq hw) ?_
    exact lowerNary_spec IslandConversion.naryOp_mul (by simp) rfl
      (lowerAll_spec hR hw hprocess hc ha children s)

theorem lowerAll_spec (hR : R.Lawful) (hw : 1 ≤ w.toNat ∧ w.toNat ≤ 64)
    (hprocess : Processes p process bound) (hc : c.Inv p w bound)
    (ha : ∀ ρ, Agrees p w ρ c.vars (envOf p w c.vars ρ)) :
    ∀ (es : List (RumbaExpr R.VarInt)) (s : IslandSimplifier),
      Simplifies p (lowerAll R process w c.vars es) s fun refs s' =>
        List.Forall₂ (Lowers p w c.vars s') refs es
  | [], s => simplifies_pure .nil
  | e :: es, s => by
    refine (lower_spec hR hw hprocess hc ha e s).bind fun r s' _ _ _ hr => ?_
    refine (lowerAll_spec hR hw hprocess hc ha es s').bind fun refs s'' hle hs' hs'' hrefs => ?_
    exact simplifies_pure (.cons (hr.mono hs' hs'' hle) hrefs)

end

end

/-- **An island is replaced by something of the same value**, or left to be copied. -/
theorem tryIsland_spec (hR : R.Lawful) (hp : p.WellFormed) (hv : IsViewOf view p)
    {process : NodeRef → SimplifyM NodeRef} {r : NodeRef} {n : RawNode} {t : Tag}
    (hr : RefersTo p r n t) (hsort : r.sort = .bv) (ht : IslandConversion.MbaTag t)
    (hw : 1 ≤ n.width.toNat ∧ n.width.toNat ≤ 64) (hprocess : Processes p process r.idx) :
    Simplifies p (tryIsland R view process r n) s fun o s' =>
      ∀ r', o = some r' → StandsFor p s'.builder r' r := by
  have hconv := IslandConversion.convert_spec hR hp hv hw (r.idx + 1) hr hsort rfl
    (Nat.lt_succ_self _) (le_refl _) (.inl ht) IslandConversion.inv_new trivial
  unfold tryIsland
  dsimp only
  cases hrun : (IslandConversion.convert R view n.width (r.idx + 1) r).run .new with
  | mk o c =>
    rw [hrun] at hconv
    cases o with
    | panic => exact absurd hconv id
    | err e => exact simplifies_fail
    | ok o =>
      cases o with
      | none => exact simplifies_pure fun _ h => by cases h
      | some expr =>
        obtain ⟨hc, hyields⟩ := hconv
        have hagrees := fun ρ => agrees_envOf hp hc ρ
        dsimp only
        cases hmba : simplifyMbaCatchingPanic R expr (UInt8.ofNat n.width.toNat) with
        | none => exact simplifies_pure fun _ h => by cases h
        | some simplified =>
          refine (lower_spec hR hw hprocess hc hagrees simplified s).bind fun root s' _ _ _ hroot =>
            simplifies_pure ?_
          intro r' hr' m u hm
          obtain rfl := Option.some.inj hr'
          obtain rfl : n = m := Option.some.inj (hr.node.symm.trans hm.node)
          rw [hsort]
          refine hroot.congr fun ρ => ?_
          dsimp only
          rw [hR.simplifyMba _ _ _ _ hw.1 hw.2 hmba]
          exact (hyields expr rfl ρ _ (hagrees ρ)).symm

/-! ## Copying -/

/-- The values of the operands of a node. -/
def operandValues (p : Parts) (n : RawNode) (ρ : Env) : List Value :=
  (p.operands n).map fun r => p.value ρ r.idx

section

variable {process : NodeRef → SimplifyM NodeRef} {i k wd : Nat} {n : RawNode} {σ : WireSort}
  {m : NodeMeta} {v : Env → Value}

/-- A processed child denotes the operand it was made from. -/
theorem processedChild_spec (hv : IsViewOf view p) (hprocess : Processes p process i)
    (ho : p.Operand i n k σ wd) (hk : k < n.arity.toNat) :
    Simplifies p (processedChild view process n k) s fun r s' =>
      s'.builder.Denotes r ⟨σ, UInt32.ofNat wd⟩ fun ρ => (operandValues p n ρ).getD k default := by
  obtain ⟨r, m, u, hr, href, hsort, hlt, hw, hget⟩ := srcChild_of_operand hv ho hk
  refine simplifies_lift hr (Grow.Spec.mono (hprocess href hlt) ?_)
  intro r' s' _ _ h
  have hden := h href
  rw [hsort, ← UInt32.ofNat_toNat (x := m.width), hw] at hden
  exact hden.congr fun ρ => (hget fun r => p.value ρ r.idx).symm

/-- The width of an operand is one of a node. -/
theorem toNat_ofNat_width (ho : p.Operand i n k σ wd) : (UInt32.ofNat wd).toNat = wd := by
  obtain ⟨r, m, u, -, -, -, -, -, -, rfl⟩ := ho
  rw [UInt32.ofNat_toNat]

theorem copyUnary_spec (hv : IsViewOf view p) (hprocess : Processes p process i)
    (ho : p.Operand i n 0 σ wd) (hk : 0 < n.arity.toNat) {op : NodeRef → BuilderM NodeRef}
    (hop : ∀ {b : ExprBuilder} {r}, b.Denotes r ⟨σ, UInt32.ofNat wd⟩
      (fun ρ => (operandValues p n ρ).getD 0 default) → ExprBuilder.Means (op r) b m v) :
    Simplifies p (copyUnary view process n op) s fun r s' => s'.builder.Denotes r m v := by
  refine (processedChild_spec hv hprocess ho hk).bind fun r s' _ _ _ hr => ?_
  exact onBuilder_spec (hop hr)

theorem copyBinary_spec (hv : IsViewOf view p) (hprocess : Processes p process i) {σ' : WireSort}
    {wd' : Nat} (h0 : p.Operand i n 0 σ wd) (h1 : p.Operand i n 1 σ' wd') (hk : 1 < n.arity.toNat)
    {op : NodeRef → NodeRef → BuilderM NodeRef}
    (hop : ∀ {b : ExprBuilder} {x y}, b.Denotes x ⟨σ, UInt32.ofNat wd⟩
      (fun ρ => (operandValues p n ρ).getD 0 default) → b.Denotes y ⟨σ', UInt32.ofNat wd'⟩
      (fun ρ => (operandValues p n ρ).getD 1 default) → ExprBuilder.Means (op x y) b m v) :
    Simplifies p (copyBinary view process n op) s fun r s' => s'.builder.Denotes r m v := by
  refine (processedChild_spec hv hprocess h0 (by omega)).bind fun x s' _ _ _ hx => ?_
  refine (processedChild_spec hv hprocess h1 hk).bind fun y s'' hle hs' hs'' hy => ?_
  exact onBuilder_spec (hop (hs'.denotes hs'' hle hx) hy)

/-- With two operands, `copy_nary` is `copy_binary`. -/
theorem copyNary_eq {op : NodeRef → NodeRef → BuilderM NodeRef} (h : n.arity.toNat = 2) :
    copyNary view process n op = copyBinary view process n op := by
  rw [copyNary, copyBinary]
  simp only [h]
  rw [if_neg (by decide)]
  simp only [copyNaryFrom, List.range', bind_pure]

/-- The loop over the pairs of a selection. -/
theorem copyPairs_spec (hv : IsViewOf view p) (hprocess : Processes p process i) {w : Nat} :
    ∀ (ks : List Nat) (s : IslandSimplifier), (∀ k ∈ ks, k * 2 + 1 < n.arity.toNat ∧
      p.BoolOperand i n (k * 2) ∧ p.Operand i n (k * 2 + 1) .bv w) →
      Simplifies p (copyPairs view process n ks) s fun pairs s' =>
        List.Forall₂ (fun k r => ∃ w', s'.builder.Denotes r ⟨.bool, w'⟩ fun ρ =>
          (operandValues p n ρ).getD (k * 2) default) ks pairs.1 ∧
        List.Forall₂ (fun k r => s'.builder.Denotes r ⟨.bv, UInt32.ofNat w⟩ fun ρ =>
          (operandValues p n ρ).getD (k * 2 + 1) default) ks pairs.2 := by
  intro ks
  induction ks with
  | nil => exact fun s _ => simplifies_pure ⟨.nil, .nil⟩
  | cons k ks ih =>
    intro s hks
    obtain ⟨hk, ⟨w', hsel⟩, hval⟩ := hks k List.mem_cons_self
    rw [copyPairs, Nat.mul_comm 2 k]
    refine (processedChild_spec hv hprocess hsel (by omega)).bind fun r s₁ hle₁ hs hs₁ hr => ?_
    refine (processedChild_spec hv hprocess hval hk).bind fun x s₂ hle₂ _ hs₂ hx => ?_
    refine (ih s₂ fun k hk => hks k (List.mem_cons_of_mem _ hk)).bind fun pairs s₃ hle₃ _ hs₃ h => ?_
    obtain ⟨hsels, hvals⟩ := h
    have hr' := hs₂.denotes hs₃ hle₃ (hs₁.denotes hs₂ hle₂ hr)
    exact simplifies_pure ⟨.cons ⟨_, hr'⟩ hsels, .cons (hs₂.denotes hs₃ hle₃ hx) hvals⟩

/-- The entry at a position of a list that belongs to `0, …, count - 1`. -/
theorem forall₂_range {α : Type} {P : Nat → α → Prop} {count : Nat} {xs : List α}
    (h : List.Forall₂ P (List.range count) xs) :
    xs.length = count ∧ ∀ k x, xs[k]? = some x → P k x := by
  have hlen : xs.length = count := by rw [← h.length_eq, List.length_range]
  refine ⟨hlen, fun k x hk => ?_⟩
  obtain ⟨hlt, rfl⟩ := List.getElem?_eq_some_iff.mp hk
  have hget := h.get (by rw [List.length_range]; omega) hlt
  simpa using hget

theorem copySelect_spec (hv : IsViewOf view p)
    (hprocess : Processes p process i) (hrule : p.NodeRule i n .bvSelect) :
    Simplifies p (copySelect view process n) s fun r s' => s'.builder.Denotes r ⟨.bv, n.width⟩
      fun ρ => p.semTag ρ n (operandValues p n ρ) .bvSelect := by
  have hodd : n.arity.toNat % 2 = 1 := hrule.arity
  obtain ⟨haux, hdefault, hpairs⟩ := hrule.operands
  have hks : ∀ k ∈ List.range n.auxHi.toNat, k * 2 + 1 < n.arity.toNat ∧
      p.BoolOperand i n (k * 2) ∧ p.Operand i n (k * 2 + 1) .bv n.width.toNat := by
    intro k hk
    have hk := List.mem_range.mp hk
    exact ⟨by omega, hpairs k hk⟩
  refine (copyPairs_spec hv hprocess _ s hks).bind fun pairs s₁ _ _ _ h => ?_
  obtain ⟨hsels, hvals⟩ := h
  dsimp only
  rw [Nat.mul_comm 2]
  refine (processedChild_spec hv hprocess hdefault (by omega)).bind fun r s₂ hle hs₁ hs₂ hr => ?_
  obtain ⟨hlen, hsel⟩ := forall₂_range hsels
  obtain ⟨-, hval⟩ := forall₂_range hvals
  rw [UInt32.ofNat_toNat] at hr hval
  have hsel' : ∀ k x, pairs.1[k]? = some x → ∃ w', s₂.builder.Denotes x ⟨.bool, w'⟩ fun ρ =>
      (operandValues p n ρ).getD (k * 2) default := by
    intro k x hk
    obtain ⟨w', hx⟩ := hsel k x hk
    exact ⟨w', hs₁.denotes hs₂ hle hx⟩
  have hval' : ∀ k x, pairs.2[k]? = some x → s₂.builder.Denotes x ⟨.bv, n.width⟩ fun ρ =>
      (operandValues p n ρ).getD (k * 2 + 1) default :=
    fun k x hk => hs₁.denotes hs₂ hle (hval k x hk)
  have hselect := ExprBuilder.bvSelect_means hsel' hval' hr
  rw [hlen] at hselect
  exact onBuilder_spec hselect

theorem copyConst_spec (hR : R.Lawful) (hv : IsViewOf view p)
    (hrule : p.NodeRule i n .bvConst) :
    Simplifies p (copyConst R view n) s fun r s' => s'.builder.Denotes r ⟨.bv, n.width⟩
      fun ρ => p.semTag ρ n (operandValues p n ρ) .bvConst := by
  have hwidth : 1 ≤ n.width.toNat ∧ n.width.toNat ≤ maxBvWidth := hrule.width
  unfold copyConst
  split
  · rename_i hle
    have hw : 1 ≤ n.width.toNat ∧ n.width.toNat ≤ 64 := ⟨hwidth.1, hle⟩
    refine simplifies_lift (IslandConversion.maskForWidth_eq hw) ?_
    refine Grow.Spec.mono (onBuilder_spec ExprBuilder.bvConst_means) ?_
    intro r s' _ _ hr
    refine hr.congr fun ρ => ?_
    simp only [Parts.semTag, Parts.constant]
    rw [if_pos hw.2]
    refine congrArg _ (ExprBuilder.bitVec_ofNat_congr ?_)
    rw [UInt64.toNat_and, hR.makeMask _ hw.1 hw.2, Nat.and_two_pow_sub_one_eq_mod, Nat.mod_mod]
  · rename_i hgt
    have hgt : 64 < n.width.toNat := Nat.lt_of_not_le hgt
    obtain ⟨-, bytes, hbytes⟩ := hrule.blob.const rfl hgt
    refine simplifies_lift (hv.blobRef.mpr hbytes) ?_
    refine Grow.Spec.mono (onBuilder_spec ExprBuilder.bvConstWide_means) ?_
    intro r s' _ _ hr
    refine hr.congr fun ρ => ?_
    simp only [Parts.semTag, Parts.constant, hbytes]
    rw [if_neg (by omega)]
    rfl

/-- **Copying is correct**: the rebuilt node means what the node meant. -/
theorem copyNode_spec (hR : R.Lawful) (hv : IsViewOf view p) (hprocess : Processes p process i)
    {t : Tag} (ht : Tag.tryFrom n.tag = some t) (hrule : p.NodeRule i n t) :
    Simplifies p (copyNode R view process n) s fun r s' =>
      s'.builder.Denotes r ⟨t.resultSort, n.width⟩ fun ρ =>
        p.semTag ρ n (operandValues p n ρ) t := by
  have ho := hrule.operands
  have ha := hrule.arity
  have hw := hrule.width
  have fixed : ∀ {c : UInt8}, t.fixedArity = some c → n.arity.toNat = c.toNat := by
    intro c hc
    rw [Parts.ArityRule, hc] at ha
    rw [ha]
  have hwidth : UInt32.ofNat n.width.toNat = n.width := UInt32.ofNat_toNat
  have hbool : t.resultSort = .bool → n.width = 0 := by
    intro hb
    rw [Parts.WidthRule, hb] at hw
    exact UInt32.toNat_inj.mp hw
  rw [copyNode, ht]
  cases t with
  | bvVar =>
    obtain ⟨name, hname⟩ := hrule.blob.name (.inl rfl)
    refine simplifies_lift (hv.blobStr.mpr hname) ?_
    refine Grow.Spec.mono (onBuilder_spec ExprBuilder.bvVar_means) ?_
    intro r s' _ _ hr
    refine hr.congr fun ρ => ?_
    simp only [Parts.semTag, Parts.symbol, hname, Option.getD_some, ExprBuilder.bvSymbol]
  | bvConst => exact copyConst_spec hR hv hrule
  | bvNot | bvNeg =>
    have h1 : n.arity.toNat = 1 := fixed rfl
    refine copyUnary_spec hv hprocess ho (by omega) fun hx => ?_
    rw [hwidth] at hx
    exact ExprBuilder.bvUnary_means (by simp) hx fun _ _ _ => rfl
  | bvAnd | bvOr | bvXor | bvAdd | bvMul =>
    have h2 : n.arity.toNat = 2 := fixed rfl
    dsimp only
    rw [copyNary_eq h2]
    refine copyBinary_spec hv hprocess ho.1 ho.2 (by omega) fun hx hy => ?_
    rw [hwidth] at hx hy
    exact ExprBuilder.bvBinary_means (by simp) hx hy fun _ _ _ => rfl
  | bvSub | bvUdiv | bvUrem | bvSdiv | bvSrem | bvSmod | bvShl | bvLshr | bvAshr =>
    have h2 : n.arity.toNat = 2 := fixed rfl
    refine copyBinary_spec hv hprocess ho.1 ho.2 (by omega) fun hx hy => ?_
    rw [hwidth] at hx hy
    exact ExprBuilder.bvBinary_means (by simp) hx hy fun _ _ _ => rfl
  | bvExtract =>
    have h1 : n.arity.toNat = 1 := fixed rfl
    obtain ⟨cw, h0, -, -, hn⟩ := ho
    refine copyUnary_spec hv hprocess h0 (by omega) fun hx => ?_
    have hmeans := @ExprBuilder.bvExtract_means _ _ _ _ n.auxHi.toUInt32 n.auxLo hx
    rw [UInt16.toNat_toUInt32, ← hn, hwidth] at hmeans
    exact hmeans
  | bvConcat =>
    have h2 : n.arity.toNat = 2 := fixed rfl
    obtain ⟨hi, lo, h0, h1, hn⟩ := ho
    refine copyBinary_spec hv hprocess h0 h1 (by omega) fun hx hy => ?_
    have hmeans := ExprBuilder.bvConcat_means hx hy
    rw [toNat_ofNat_width h0, toNat_ofNat_width h1, ← hn, hwidth] at hmeans
    exact hmeans
  | bvZext | bvSext =>
    have h1 : n.arity.toNat = 1 := fixed rfl
    obtain ⟨cw, h0, hn⟩ := ho
    refine copyUnary_spec hv hprocess h0 (by omega) fun hx => ?_
    rw [← hwidth, hn, ← toNat_ofNat_width h0]
    refine ExprBuilder.bvExtend_means (by simp) hx fun q ρ m hm => ?_
    simp only [Parts.semTag, hm]
    rfl
  | bvIte =>
    have h3 : n.arity.toNat = 3 := fixed rfl
    obtain ⟨⟨cw, h0⟩, h1, h2⟩ := ho
    refine (processedChild_spec hv hprocess h0 (by omega)).bind fun c s₁ _ _ _ hc => ?_
    refine (processedChild_spec hv hprocess h1 (by omega)).bind fun x s₂ hle₂ hs₁ hs₂ hx => ?_
    refine (processedChild_spec hv hprocess h2 (by omega)).bind fun y s₃ hle₃ _ hs₃ hy => ?_
    rw [hwidth] at hx hy
    exact onBuilder_spec (ExprBuilder.bvIte_means
      (hs₂.denotes hs₃ hle₃ (hs₁.denotes hs₂ hle₂ hc)) (hs₂.denotes hs₃ hle₃ hx) hy)
  | bvSelect => exact copySelect_spec hv hprocess hrule
  | boolTrue =>
    rw [hbool rfl]
    exact onBuilder_spec ExprBuilder.boolTrue_means
  | boolFalse =>
    rw [hbool rfl]
    exact onBuilder_spec ExprBuilder.boolFalse_means
  | boolVar =>
    obtain ⟨name, hname⟩ := hrule.blob.name (.inr rfl)
    rw [hbool rfl]
    refine simplifies_lift (hv.blobStr.mpr hname) ?_
    refine Grow.Spec.mono (onBuilder_spec ExprBuilder.boolVar_means) ?_
    intro r s' _ _ hr
    refine hr.congr fun ρ => ?_
    simp only [Parts.semTag, Parts.symbol, hname, Option.getD_some, ExprBuilder.boolSymbol]
  | boolNot =>
    have h1 : n.arity.toNat = 1 := fixed rfl
    obtain ⟨cw, h0⟩ := ho
    rw [hbool rfl]
    exact copyUnary_spec hv hprocess h0 (by omega) ExprBuilder.boolNot_means
  | boolAnd | boolOr | boolImplies =>
    have h2 : n.arity.toNat = 2 := fixed rfl
    obtain ⟨⟨w₀, h0⟩, w₁, h1⟩ := ho
    rw [hbool rfl]
    refine copyBinary_spec hv hprocess h0 h1 (by omega) fun hx hy => ?_
    exact ExprBuilder.boolBinary_means (by simp) hx hy fun _ _ _ => rfl
  | negOvf =>
    have h1 : n.arity.toNat = 1 := fixed rfl
    obtain ⟨cw, h0⟩ := ho
    rw [hbool rfl]
    exact copyUnary_spec hv hprocess h0 (by omega) ExprBuilder.negOvf_means
  | bvEq | bvUlt | bvUle | bvSlt | bvSle | uaddOvf | saddOvf | usubOvf | ssubOvf | umulOvf
  | smulOvf | sdivOvf =>
    have h2 : n.arity.toNat = 2 := fixed rfl
    obtain ⟨cw, h0, h1⟩ := ho
    rw [hbool rfl]
    refine copyBinary_spec hv hprocess h0 h1 (by omega) fun hx hy => ?_
    exact ExprBuilder.bvComparison_means (by simp) hx hy fun _ _ _ => rfl

end

/-! ## The walk -/

/-- **Processing is correct**, from every state of the walk and for every node of the request. -/
theorem process_spec (hR : R.Lawful) (hp : p.WellFormed) (hv : IsViewOf view p) :
    ∀ fuel, Processes p (process R view fuel) fuel := by
  intro fuel
  induction fuel with
  | zero => exact fun _ h => absurd h (Nat.not_lt_zero _)
  | succ fuel ih =>
    intro r n t s hr hfuel
    have hbelow : Processes p (process R view fuel) r.idx := fun hx hlt => ih hx (by omega)
    obtain ⟨t', ht', hrule⟩ := hp.node _ _ hr.node
    obtain rfl : t' = t := Option.some.inj (ht'.symm.trans hr.tag)
    have hcopy : ∀ {s : IslandSimplifier}, Simplifies p (copyNode R view (process R view fuel) n) s
        fun r' s' => StandsFor p s'.builder r' r := by
      intro s
      refine Grow.Spec.mono (copyNode_spec hR hv hbelow ht' hrule) ?_
      intro r' s' _ _ hden m u hm
      obtain rfl : n = m := Option.some.inj (hr.node.symm.trans hm.node)
      rw [hr.sort]
      refine hden.congr fun ρ => ?_
      rw [hp.value_eq hr.node, Parts.sem, ht']
      rfl
    have huncached : Simplifies p (processUncached R view (process R view fuel) r) s
        fun r' s' => StandsFor p s'.builder r' r := by
      refine simplifies_lift (hv.node.mpr hr.node) ?_
      split
      · rename_i hcond
        obtain ⟨hsort, hmba, hw⟩ := hcond
        refine (tryIsland_spec hR hp hv hr hsort (IslandConversion.mbaTag_of_isMbaOp ht' hmba) hw
          hbelow).bind fun o s' _ _ _ ho => ?_
        cases o with
        | some simplified => exact simplifies_pure (ho simplified rfl)
        | none => exact hcopy
      · exact hcopy
    refine simplifies_read (by simp) fun cached hl => simplifies_of_walk fun hs => ?_
    have hl := Outcome.ok.inj hl
    cases cached with
    | some r' => exact simplifies_pure (hs.memo hl)
    | none =>
      refine huncached.bind fun r' s' _ _ _ hr' => ?_
      intro hs'
      refine Grow.wp_bind_modify (Grow.wp_pure fun _ => ⟨⟨hs'.sound, ?_⟩, hr'⟩)
      intro x x' hx
      rw [List.lookup_cons] at hx
      split at hx
      · rename_i heq
        obtain rfl := beq_iff_eq.mp heq
        obtain rfl := Option.some.inj hx
        exact hr'
      · exact hs'.memo hx

end IslandSimplifier
/-! ## The backend -/

theorem validateNodeRef_eq_ok {v : ExprView} {p : Parts} (hv : IsViewOf v p) {r : NodeRef}
    {context : String} {n : RawNode} :
    validateNodeRef v r r.sort context = ok n ↔ ∃ t, RefersTo p r n t := by
  simp only [validateNodeRef, bind_eq_ok, ensure_eq_ok, exists_const, hv.node, parseTag,
    ofOption_eq_ok, pure_eq, Outcome.ok.injEq, true_and]
  constructor
  · rintro ⟨-, m, hm, t, ht, hsort, rfl⟩
    exact ⟨t, hm, ht, hsort.symm⟩
  · rintro ⟨t, hm, ht, hsort⟩
    refine ⟨?_, n, hm, t, ht, hsort.symm, rfl⟩
    rw [hv.nodeCount]
    exact (List.getElem?_eq_some_iff.mp hm).1

/-- The block is a valid one, and its target is one of the sort, the width and the value, under
every assignment, of the request's target. -/
structure SameMeaning (request : BinaryRequest) (target : NodeRef) (block : SimplifyBlock) :
    Prop where
  valid : block.validate = ok ()
  sort : block.targetNode.sort = target.sort
  width : ∃ n m, (Parts.ofBytes request.expression).nodes[target.idx]? = some n ∧
    (Parts.ofBytes block.expression).nodes[block.targetNode.idx]? = some m ∧ m.width = n.width
  value : ∀ ρ, (Parts.ofBytes block.expression).value ρ block.targetNode.idx =
    (Parts.ofBytes request.expression).value ρ target.idx

theorem simplifyBlock_validate {block : SimplifyBlock} (hw : WellFormed block.expression)
    {n : RawNode} {t : Tag} (hr : RefersTo (Parts.ofBytes block.expression) block.targetNode n t) :
    block.validate = ok () := by
  have hnode : validateNodeRef (viewOf block.expression) block.targetNode block.targetNode.sort
      "simplify target_node" = ok n :=
    (validateNodeRef_eq_ok (isViewOf_viewOf hw.header)).mpr ⟨t, hr⟩
  rw [SimplifyBlock.validate, parseAndValidate_eq_ok.mpr ⟨hw, rfl⟩, ok_bind, hnode]
  rfl

/-- The input, unchanged. -/
theorem sameMeaning_identity {request : BinaryRequest} {target : NodeRef} {n : RawNode} {t : Tag}
    (hw : WellFormed request.expression)
    (hr : RefersTo (Parts.ofBytes request.expression) target n t) :
    SameMeaning request target (identitySimplify request target) :=
  ⟨simplifyBlock_validate hw hr, rfl, ⟨n, n, hr.node, hr.node, rfl⟩, fun _ => rfl⟩

/-- What the builder holds at the end, written down. -/
theorem sameMeaning_built {request : BinaryRequest} {target root : NodeRef} {n : RawNode} {t : Tag}
    (hr : RefersTo (Parts.ofBytes request.expression) target n t) {b : ExprBuilder}
    (hb : b.Inv) (hroot : IslandSimplifier.StandsFor (Parts.ofBytes request.expression) b root target)
    {expression : List UInt8} (hbytes : b.toBytes = ok expression) :
    SameMeaning request target ⟨expression, root⟩ := by
  obtain ⟨hwell, hparts⟩ := hb.wf.fromParts hbytes
  have hden := hroot hr
  obtain ⟨m, u, hm, hu, hsort, hw⟩ := hb.node_of_hasRef hden.ref
  have href : RefersTo (Parts.ofBytes expression) root m u := by
    rw [hparts]
    exact ⟨hm, hu, hsort.symm⟩
  refine ⟨simplifyBlock_validate hwell href, hden.ref.2.symm, ⟨n, m, hr.node, href.node, hw⟩, ?_⟩
  intro ρ
  rw [hparts]
  exact hden.value ρ

theorem toBytes_overflow {b : ExprBuilder} (hb : b.Inv) (hc : ¬b.children.length < 2 ^ 32) :
    b.toBytes = err (.invalid "expression buffer"
      s!"child count {b.children.length} exceeds u32::MAX") := by
  have hn : b.parts.nodes.length ≤ 2 ^ 31 := hb.nodes_le
  have h32 : b.parts.nodes.length < 2 ^ 32 := by omega
  have hc' : ¬b.parts.children.length < 2 ^ 32 := hc
  unfold ExprBuilder.toBytes fromParts ensure maxNodeCount
  rw [if_pos h32, if_pos hn, if_neg hc']
  rfl

/-- **Simplification preserves meaning.** For every request that the parser accepts, the backend
returns a valid block with the target's sort, width and value; the one exception is a rebuilt
expression with too many child references to be written down, which is an error. -/
theorem rumba_preserves_meaning (R : RumbaCore) (hR : R.Lawful) (payload : List UInt8)
    (request : BinaryRequest) (hparse : BinaryRequest.parse payload = ok request)
    (hcommand : request.envelope.command = .simplify) :
    ∃ target, request.targetRef = some target ∧
      ((∃ block, (rumbaBackend R).handle request = ok (.ofSimplified block) ∧
          SameMeaning request target block) ∨
        ∃ count : Nat, 2 ^ 32 ≤ count ∧ (rumbaBackend R).handle request =
          err (.invalid "expression buffer" s!"child count {count} exceeds u32::MAX")) := by
  have hvalid := (BinaryRequest.encode_eq_ok.mp (BinaryRequest.parse_eq_ok_iff.mp hparse)).1
  have htarget : request.targetRef = some ⟨request.envelope.targetNode⟩ := by
    rw [BinaryRequest.targetRef, hcommand]
  refine ⟨_, htarget, ?_⟩
  -- what the request's validation says of the expression and the target
  simp only [BinaryRequest.validate, bind_eq_ok, ensure_eq_ok, exists_const] at hvalid
  obtain ⟨-, -, -, -, -, view, hview, _, -, _, -, _, -, _, -, _, -, hcheck⟩ := hvalid
  obtain ⟨hwell, rfl⟩ := parseAndValidate_eq_ok.mp hview
  have hv := isViewOf_viewOf hwell.header
  simp only [BinaryRequest.validateTarget, hcommand, bind_eq_ok, pure_eq] at hcheck
  obtain ⟨_, -, n, hn, -⟩ := hcheck
  obtain ⟨t, hr⟩ := (validateNodeRef_eq_ok hv).mp hn
  -- the walk
  have hwalk := IslandSimplifier.process_spec hR hwell.dag hv _ hr (Nat.lt_succ_self _)
    IslandSimplifier.walk_new trivial
  have hhandle : (rumbaBackend R).handle request =
      simplifyRequest R request >>= fun block => pure (.ofSimplified block) := by
    simp only [rumbaBackend, rumbaHandle, hcommand]
  rw [hhandle, simplifyRequest, htarget]
  simp only [ofOption, ok_bind, BinaryRequest.expressionView, hview]
  cases hrun : (IslandSimplifier.process R (viewOf request.expression)
      ((NodeRef.mk request.envelope.targetNode).idx + 1) ⟨request.envelope.targetNode⟩).run .new with
  | mk o s =>
    rw [hrun] at hwalk
    cases o with
    | panic => exact absurd hwalk id
    | err e => exact .inl ⟨_, rfl, sameMeaning_identity hwell hr⟩
    | ok root =>
      obtain ⟨hs, hroot⟩ := hwalk
      dsimp only
      by_cases hc : s.builder.children.length < 2 ^ 32
      · obtain ⟨b, hb⟩ := (ExprBuilder.toBytes_spec hs.sound.inv).1.mpr hc
        rw [hb]
        exact .inl ⟨_, rfl, sameMeaning_built hr hs.sound.inv hroot hb⟩
      · refine .inr ⟨s.builder.children.length, by omega, ?_⟩
        rw [toBytes_overflow hs.sound.inv hc]
        rfl

/-- A crate that computes with `u64` and leaves every expression as it is, which is what there is
to do for `x & y`. -/
def plainCore : RumbaCore where
  VarInt := UInt64
  fromU64 value := value
  get value mask := value &&& mask
  makeMask bits := UInt64.ofNat (2 ^ bits.toNat - 1)
  not := .not
  neg x := .scale (0 - 1) x
  sub x y := .add [x, .scale (0 - 1) y]
  simplifyMba x _ := some x

theorem plainCore_lawful : plainCore.Lawful := by
  have hmask : ∀ bits, 1 ≤ bits → bits ≤ 64 →
      (plainCore.makeMask (UInt8.ofNat bits)).toNat = 2 ^ bits - 1 := by
    intro bits h1 h64
    have hbits : (UInt8.ofNat bits).toNat = bits := by
      rw [UInt8.toNat_ofNat']
      exact Nat.mod_eq_of_lt (by omega)
    have hpow : 2 ^ bits ≤ 2 ^ 64 := Nat.pow_le_pow_right (by decide) h64
    have hpos : 0 < 2 ^ bits := Nat.two_pow_pos bits
    simp only [plainCore, hbits, UInt64.toNat_ofNat']
    exact Nat.mod_eq_of_lt (by omega)
  -- the coefficient `-1` at any width
  have hone : ∀ bits, 1 ≤ bits → bits ≤ 64 →
      plainCore.constant bits (0 - 1 : UInt64) = BitVec.allOnes bits := by
    intro bits h1 h64
    refine BitVec.eq_of_getLsbD_eq fun i hi => ?_
    have hget : plainCore.get (0 - 1 : UInt64) (plainCore.makeMask (UInt8.ofNat bits)) =
        (0 - 1 : UInt64) &&& plainCore.makeMask (UInt8.ofNat bits) := rfl
    unfold RumbaCore.constant
    rw [hget, BitVec.getLsbD_ofNat, UInt64.toNat_and, hmask bits h1 h64,
      show (0 - 1 : UInt64).toNat = 2 ^ 64 - 1 from rfl, Nat.testBit_and,
      Nat.testBit_two_pow_sub_one, Nat.testBit_two_pow_sub_one, BitVec.getLsbD_allOnes]
    simp [hi, show i < 64 by omega]
  have hneg : ∀ bits (env : Nat → BitVec bits) (x : RumbaExpr plainCore.VarInt), 1 ≤ bits →
      bits ≤ 64 → RumbaExpr.eval env (plainCore.neg x) = -RumbaExpr.eval env x := by
    intro bits env x h1 h64
    have heval : RumbaExpr.eval env (plainCore.neg x) =
        plainCore.constant bits (0 - 1 : UInt64) * RumbaExpr.eval env x := rfl
    rw [heval, hone bits h1 h64, ← BitVec.neg_one_eq_allOnes, BitVec.neg_mul, BitVec.one_mul]
  refine ⟨hmask, fun _ _ _ _ => rfl, fun _ _ _ _ _ => rfl, hneg, ?_, ?_⟩
  · intro bits env x y h1 h64
    have heval : RumbaExpr.eval env (plainCore.sub x y) =
        (0 : BitVec bits) + RumbaExpr.eval env x + RumbaExpr.eval env (plainCore.neg y) := rfl
    rw [heval, hneg bits env y h1 h64, BitVec.sub_eq_add_neg]
    simp only [BitVec.ofNat_eq_ofNat, BitVec.zero_add]
  · intro bits env x y _ _ h
    obtain rfl := Option.some.inj h
    rfl

/-- `SIMPLIFY x & y`, for two variables of eight bits. -/
def simplifyAnd : BinaryRequest where
  envelope := ⟨7, .simplify, 0, 0, 114, 0, 0, 0, 2⟩
  expression := Parts.encode (List.replicate 3 0) (List.replicate 12 0)
    ⟨[⟨Tag.bvVar.toByte, 0, 0, 8, 0, 0, BlobRef.toPayload ⟨0, 1⟩⟩,
      ⟨Tag.bvVar.toByte, 0, 0, 8, 0, 0, BlobRef.toPayload ⟨1, 1⟩⟩,
      ⟨Tag.bvAnd.toByte, 2, 0, 8, 0, 0, 0⟩], [.mk' .bv 0, .mk' .bv 1], utf8 "xy"⟩
  assertionRoots := []
  namedAssertionRefs := []
  assumptionRoots := []

theorem rumba_preserves_meaning_and :
    ∃ target, simplifyAnd.targetRef = some target ∧
      ((∃ block, (rumbaBackend plainCore).handle simplifyAnd = ok (.ofSimplified block) ∧
          SameMeaning simplifyAnd target block) ∨
        ∃ count : Nat, 2 ^ 32 ≤ count ∧ (rumbaBackend plainCore).handle simplifyAnd =
          err (.invalid "expression buffer" s!"child count {count} exceeds u32::MAX")) := by
  have hvalid : simplifyAnd.validate = ok () := by decide +kernel
  have hparse : BinaryRequest.parse (simplifyAnd.envelope.bytes ++ simplifyAnd.body) =
      ok simplifyAnd :=
    BinaryRequest.parse_eq_ok_iff.mpr (BinaryRequest.encode_eq_ok.mpr ⟨hvalid, by decide, rfl⟩)
  exact rumba_preserves_meaning plainCore plainCore_lawful _ _ hparse rfl

end Server
end SmtServer
