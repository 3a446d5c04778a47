import SmtServer.Wire.BuilderOps
import SmtServer.Wire.Shape

/-!
# What the builder's methods mean

A reference the builder has handed out denotes a value under every assignment, and goes on
denoting it whatever is built afterwards (`Denotes.mono`). Each construction method returns a
reference to the value of its operator at the values of its operands; the lemma of a family is
stated for any function `v` that agrees with the meaning of the tag, so that a caller may read
it as an SMT-LIB operator or as the meaning of a node it is copying.

Variables are cached, so the cache has an invariant of its own (`Cached`). No other method
touches the two tables (`Frames`), which is why it does not stand in `Inv`.
-/

namespace SmtServer
namespace Wire

open Lib Outcome
open Lib.Smt (Value)

namespace ExprBuilder

variable {s s' : ExprBuilder} {r a b : NodeRef} {m : NodeMeta} {v : Env → Value} {α β : Type}

/-- A reference of the builder, with its sort and width and the value it stands for. -/
structure Denotes (s : ExprBuilder) (r : NodeRef) (m : NodeMeta) (v : Env → Value) : Prop where
  ref : s.HasRef r m
  value : ∀ ρ, s.parts.value ρ r.idx = v ρ

theorem Denotes.mono (hs : s.Inv) (hs' : s'.Inv) (h : s ≤ s') (hr : s.Denotes r m v) :
    s'.Denotes r m v := by
  refine ⟨hr.ref.mono h, fun ρ => ?_⟩
  obtain ⟨n, t, hn, -⟩ := hs.node_of_hasRef hr.ref
  have hlt : r.idx < s.parts.nodes.length := (List.getElem?_eq_some_iff.mp hn).1
  rw [hs.wf.value_extends hs'.wf (extends_of_le h) hlt, hr.value]

theorem Denotes.congr {u : Env → Value} (hr : s.Denotes r m v) (h : ∀ ρ, v ρ = u ρ) :
    s.Denotes r m u :=
  ⟨hr.ref, fun ρ => (hr.value ρ).trans (h ρ)⟩

/-- A reference denotes a value of its sort. -/
theorem Denotes.shaped (hs : s.Inv) (hr : s.Denotes r m v) (ρ : Env) :
    Shaped m.sort m.width.toNat (v ρ) := by
  obtain ⟨n, t, hn, ht, hsort, hw⟩ := hs.node_of_hasRef hr.ref
  rw [← hr.value, hr.ref.2, ← hsort, ← hw]
  exact hs.wf.value_shaped hn ht

/-! ## The caches of variables -/

/-- The value of a bit-vector variable. -/
def bvSymbol (name : String) (w : Nat) (ρ : Env) : Value := .bv w (.ofNat w (ρ.bv name))

/-- The value of a Bool variable. -/
def boolSymbol (name : String) (ρ : Env) : Value := .bool (ρ.bool name)

structure Cached (s : ExprBuilder) : Prop where
  bv : ∀ {name w r}, s.bvVars.lookup (name, w) = some r →
    s.Denotes r ⟨.bv, w⟩ (bvSymbol name w.toNat)
  bool : ∀ {name r}, s.boolVars.lookup name = some r → s.Denotes r ⟨.bool, 0⟩ (boolSymbol name)

/-- The invariant together with the one of the caches. -/
structure Sound (s : ExprBuilder) : Prop where
  inv : s.Inv
  cached : s.Cached

theorem sound_new : new.Sound :=
  ⟨inv_new, fun h => by simp [new] at h, fun h => by simp [new] at h⟩

theorem Cached.mono (hs : s.Sound) (hs' : s'.Inv) (h : s ≤ s') (hbv : s'.bvVars = s.bvVars)
    (hbool : s'.boolVars = s.boolVars) : s'.Cached := by
  refine ⟨fun hl => ?_, fun hl => ?_⟩
  · rw [hbv] at hl
    exact (hs.cached.bv hl).mono hs.inv hs' h
  · rw [hbool] at hl
    exact (hs.cached.bool hl).mono hs.inv hs' h

/-- The method leaves the caches alone. -/
def Frames (m : BuilderM α) : Prop :=
  ∀ s, (m.run s).2.bvVars = s.bvVars ∧ (m.run s).2.boolVars = s.boolVars

theorem frames_pure (a : α) : Frames (pure a) := fun _ => ⟨rfl, rfl⟩

theorem frames_read (f : ExprBuilder → Result α) : Frames (Grow.read f) := fun _ => ⟨rfl, rfl⟩

theorem frames_lift (x : Result α) : Frames (Grow.lift x) := frames_read _

theorem Frames.bind {m : BuilderM α} {f : α → BuilderM β} (hm : Frames m)
    (hf : ∀ a, Frames (f a)) : Frames (m >>= f) := by
  intro s
  have h := hm s
  rw [Grow.run_bind]
  cases hr : m.run s with
  | mk o s' =>
    rw [hr] at h
    cases o with
    | ok a => exact ⟨(hf a s').1.trans h.1, (hf a s').2.trans h.2⟩
    | err e => exact h
    | panic => exact h

theorem frames_modify {f : ExprBuilder → ExprBuilder} {h} {g : Unit → BuilderM β}
    (hf : ∀ s, (f s).bvVars = s.bvVars ∧ (f s).boolVars = s.boolVars) (hg : Frames (g ())) :
    Frames (Grow.modify f h >>= g) := by
  intro s
  obtain ⟨h1, h2⟩ := hg (f s)
  exact ⟨h1.trans (hf s).1, h2.trans (hf s).2⟩

theorem frames_pushBlob {bytes : List UInt8} : Frames (pushBlob bytes) := by
  refine (frames_read _).bind fun _ => (frames_lift _).bind fun _ => (frames_lift _).bind fun _ => ?_
  refine (frames_lift _).bind fun _ => frames_modify (fun _ => ⟨rfl, rfl⟩) ?_
  exact frames_pure _

theorem frames_pushNode {t : Tag} {width : UInt32} {children : List NodeRef} {auxHi : UInt16}
    {auxLo : UInt32} {payload : UInt64} :
    Frames (pushNode t width children auxHi auxLo payload) := by
  refine (frames_lift _).bind fun _ => (frames_read _).bind fun _ => (frames_read _).bind fun _ => ?_
  refine (frames_lift _).bind fun _ => frames_modify (fun _ => ⟨rfl, rfl⟩) ?_
  refine (frames_read _).bind fun _ => (frames_lift _).bind fun _ => (frames_lift _).bind fun _ => ?_
  exact frames_modify (fun _ => ⟨rfl, rfl⟩) (frames_pure _)

/-! ## Specifications over both invariants -/

/-- `Spec`, with the caches. -/
def Works (m : BuilderM α) (s : ExprBuilder) (Q : α → ExprBuilder → Prop) : Prop :=
  Grow.Spec (fun _ => True) Sound (fun _ _ => True) m s Q

/-- The method returns a reference to a value. -/
def Means (m : BuilderM NodeRef) (s : ExprBuilder) (k : NodeMeta) (v : Env → Value) : Prop :=
  Works m s fun r s' => s'.Denotes r k v

theorem Works.bind {m : BuilderM α} {f : α → BuilderM β} {P : α → ExprBuilder → Prop}
    {Q : β → ExprBuilder → Prop} (hm : Works m s P)
    (hf : ∀ a s', s ≤ s' → P a s' → Works (f a) s' Q) : Works (m >>= f) s Q :=
  Grow.Spec.bind (fun _ _ => trivial) hm hf

theorem works_pure {a : α} {Q : α → ExprBuilder → Prop} (h : Q a s) :
    Works (pure a : BuilderM α) s Q :=
  Grow.spec_pure h

theorem works_read {f : ExprBuilder → Result α} {g : α → BuilderM β} {Q : β → ExprBuilder → Prop}
    (hsafe : Safe (f s)) (hg : ∀ a, f s = ok a → Works (g a) s Q) :
    Works (Grow.read f >>= g) s Q :=
  Grow.spec_read hsafe (fun _ _ => trivial) hg

/-- A check whose result is known. -/
theorem works_check {f : ExprBuilder → Result α} {g : α → BuilderM β} {Q : β → ExprBuilder → Prop}
    {a : α} (h : f s = ok a) (hg : Works (g a) s Q) : Works (Grow.read f >>= g) s Q := by
  refine works_read (h ▸ safe_ok a) fun a' ha' => ?_
  obtain rfl := Outcome.ok.inj (h.symm.trans ha')
  exact hg

theorem works_lift {x : Result α} {g : α → BuilderM β} {Q : β → ExprBuilder → Prop}
    (hsafe : Safe x) (hg : ∀ a, x = ok a → Works (g a) s Q) : Works (Grow.lift x >>= g) s Q :=
  @works_read s α β (fun _ => x) g Q hsafe hg

/-- The invariants may be used to prove a specification that starts from them. -/
theorem works_of_sound {m : BuilderM α} {Q : α → ExprBuilder → Prop}
    (h : s.Sound → Works m s Q) : Works m s Q := fun hs => h hs hs

/-- A method that keeps the invariant and leaves the caches alone keeps both. -/
theorem Spec.works {m : BuilderM α} {Q : α → ExprBuilder → Prop} (h : Spec m s Q)
    (hf : Frames m) : Works m s Q := by
  intro hs htriv
  have hm := h hs.inv htriv
  have hle := m.grows s
  obtain ⟨hbv, hbool⟩ := hf s
  cases hr : m.run s with
  | mk o s' =>
    rw [hr] at hm hle hbv hbool
    cases o with
    | ok a => exact ⟨⟨hm.1, .mono hs hm.1 hle hbv hbool⟩, hm.2⟩
    | err e => exact ⟨trivial, hm.2, .mono hs hm.2 hle hbv hbool⟩
    | panic => exact hm

/-! ## Operators -/

variable {x y c : NodeRef} {va vb vc : Env → Value} {w : UInt32} {t : Tag}

/-- A new node means what its tag means at the values of its children. -/
theorem pushNode_means {width : UInt32} {children : List NodeRef} {auxHi : UInt16}
    {auxLo : UInt32} {payload : UInt64} (harity : FitsArity t children) (hwidth : FitsWidth t width)
    (hblob : FitsBlob s t width payload) (hfits : Fits s t width children auxHi auxLo)
    (hv : ∀ ρ, s.parts.semTag ρ ⟨t.toByte, 0, auxHi, width, auxLo, 0, payload⟩
      (children.map fun c => s.parts.value ρ c.idx) t = v ρ) :
    Means (pushNode t width children auxHi auxLo payload) s ⟨t.resultSort, width⟩ v := by
  refine works_of_sound fun hs => ?_
  refine Grow.Spec.mono ((pushNode_pushed harity hwidth hblob hfits).works frames_pushNode) ?_
  intro r s' hle hs' h
  refine ⟨h.ref, fun ρ => ?_⟩
  obtain ⟨arity, start, hn, hops⟩ := h.node
  have hargs : children.map (fun c => s'.parts.value ρ c.idx) =
      children.map fun c => s.parts.value ρ c.idx := by
    refine List.map_congr_left fun c hc => ?_
    have hlt := hs'.inv.wf.operand_lt hn (hops.symm ▸ hc)
    exact hs.inv.wf.value_extends hs'.inv.wf (extends_of_le hle) (by rwa [h.index] at hlt)
  have hblob : ∀ q, s'.parts.blobAt q = s.parts.blobAt q := by
    intro q
    have hsame : s'.parts.blob = s.parts.blob := h.blob
    simp only [Parts.blobAt, hsame]
  rw [hs'.inv.wf.value_eq hn, Parts.sem, Tag.tryFrom_toByte, hops, hargs, ← hv]
  -- the tag's meaning reads neither the arity nor the position of the children
  refine (?_ : _ = s'.parts.semTag ρ ⟨t.toByte, 0, auxHi, width, auxLo, 0, payload⟩ _ t).trans
    (Parts.semTag_congr ?_ ?_)
  · cases t <;> rfl
  · intro _
    simp only [Parts.symbol, Parts.textAt, hblob]
  · intro _
    simp only [Parts.constant, hblob]

theorem Denotes.expectBv (h : s.Denotes x ⟨.bv, w⟩ va) : s.expectBv x = ok w :=
  expectBv_eq_ok.mpr h.ref

theorem Denotes.expectBool (h : s.Denotes x ⟨.bool, w⟩ va) : s.expectBool x = ok () :=
  expectBool_eq_ok.mpr ⟨w, h.ref⟩

theorem Denotes.expectSameBvWidth {context : String} (hx : s.Denotes x ⟨.bv, w⟩ va)
    (hy : s.Denotes y ⟨.bv, w⟩ vb) : s.expectSameBvWidth x y context = ok w :=
  expectSameBvWidth_eq_ok.mpr ⟨hx.ref, hy.ref⟩

theorem Denotes.fitsWidth (hs : s.Sound) (hx : s.Denotes x ⟨.bv, w⟩ va)
    (hsort : t.resultSort = .bv) : FitsWidth t w := by
  rw [FitsWidth, hsort]
  exact hs.inv.width_of_hasRef hx.ref

/-- `BV_NOT` and `BV_NEG`. -/
theorem bvUnary_means (ht : t = .bvNot ∨ t = .bvNeg) (hx : s.Denotes x ⟨.bv, w⟩ va)
    (hv : ∀ (p : Parts) ρ n, p.semTag ρ n [va ρ] t = v ρ) : Means (bvUnary t x) s ⟨.bv, w⟩ v := by
  have hfacts : t.resultSort = .bv ∧ t.fixedArity = some 1 ∧ Plain t ∧
      ∀ p i n, Parts.OperandRule p i n t ↔ p.Operand i n 0 .bv n.width.toNat := by
    rcases ht with rfl | rfl <;>
      exact ⟨rfl, rfl, ⟨by simp, by simp, by simp⟩, fun _ _ _ => Iff.rfl⟩
  obtain ⟨hsort, harity, hplain, hrule⟩ := hfacts
  rw [← hsort]
  refine works_check hx.expectBv (works_of_sound fun hs => ?_)
  refine pushNode_means ?_ (hx.fitsWidth hs hsort) hplain.fitsBlob ?_ ?_
  · rw [FitsArity, harity]
    rfl
  · intro p i n hop hw _ _ _
    rw [hrule, hw]
    exact hop 0 x _ rfl hx.ref
  · intro ρ
    rw [List.map_singleton, hx.value, hv]

/-- The operators on two vectors of one width. -/
theorem bvBinary_means (ht : t = .bvAnd ∨ t = .bvOr ∨ t = .bvXor ∨ t = .bvAdd ∨ t = .bvSub ∨
      t = .bvMul ∨ t = .bvUdiv ∨ t = .bvUrem ∨ t = .bvSdiv ∨ t = .bvSrem ∨ t = .bvSmod ∨
      t = .bvShl ∨ t = .bvLshr ∨ t = .bvAshr)
    (hx : s.Denotes x ⟨.bv, w⟩ va) (hy : s.Denotes y ⟨.bv, w⟩ vb)
    (hv : ∀ (p : Parts) ρ n, p.semTag ρ n [va ρ, vb ρ] t = v ρ) :
    Means (bvBinary t x y) s ⟨.bv, w⟩ v := by
  have hfacts : t.resultSort = .bv ∧ t.fixedArity = some 2 ∧ Plain t ∧
      ∀ p i n, Parts.OperandRule p i n t ↔
        p.Operand i n 0 .bv n.width.toNat ∧ p.Operand i n 1 .bv n.width.toNat := by
    rcases ht with rfl | rfl | rfl | rfl | rfl | rfl | rfl | rfl | rfl | rfl | rfl | rfl | rfl | rfl <;>
      exact ⟨rfl, rfl, ⟨by simp, by simp, by simp⟩, fun _ _ _ => Iff.rfl⟩
  obtain ⟨hsort, harity, hplain, hrule⟩ := hfacts
  rw [← hsort]
  refine works_check (hx.expectSameBvWidth hy) (works_of_sound fun hs => ?_)
  refine pushNode_means ?_ (hx.fitsWidth hs hsort) hplain.fitsBlob ?_ ?_
  · rw [FitsArity, harity]
    rfl
  · intro p i n hop hw _ _ _
    rw [hrule, hw]
    exact ⟨hop 0 x _ rfl hx.ref, hop 1 y _ rfl hy.ref⟩
  · intro ρ
    simp only [List.map_cons, List.map_nil, hx.value, hy.value, hv]

/-- The comparisons and the overflow predicates. -/
theorem bvComparison_means (ht : t = .bvEq ∨ t = .bvUlt ∨ t = .bvUle ∨ t = .bvSlt ∨
      t = .bvSle ∨ t = .uaddOvf ∨ t = .saddOvf ∨ t = .usubOvf ∨ t = .ssubOvf ∨ t = .umulOvf ∨
      t = .smulOvf ∨ t = .sdivOvf)
    (hx : s.Denotes x ⟨.bv, w⟩ va) (hy : s.Denotes y ⟨.bv, w⟩ vb)
    (hv : ∀ (p : Parts) ρ n, p.semTag ρ n [va ρ, vb ρ] t = v ρ) :
    Means (bvComparison t x y) s ⟨.bool, 0⟩ v := by
  have hfacts : t.resultSort = .bool ∧ t.fixedArity = some 2 ∧ Plain t ∧
      ∀ p i n, Parts.OperandRule p i n t ↔
        ∃ w, p.Operand i n 0 .bv w ∧ p.Operand i n 1 .bv w := by
    rcases ht with rfl | rfl | rfl | rfl | rfl | rfl | rfl | rfl | rfl | rfl | rfl | rfl <;>
      exact ⟨rfl, rfl, ⟨by simp, by simp, by simp⟩, fun _ _ _ => Iff.rfl⟩
  obtain ⟨hsort, harity, hplain, hrule⟩ := hfacts
  rw [← hsort]
  refine works_check (hx.expectSameBvWidth hy) ?_
  refine pushNode_means ?_ ?_ hplain.fitsBlob ?_ ?_
  · rw [FitsArity, harity]
    rfl
  · rw [FitsWidth, hsort]
  · intro p i n hop _ _ _ _
    rw [hrule]
    exact ⟨_, hop 0 x _ rfl hx.ref, hop 1 y _ rfl hy.ref⟩
  · intro ρ
    simp only [List.map_cons, List.map_nil, hx.value, hy.value, hv]

/-- The connectives on two Bools. -/
theorem boolBinary_means {w' : UInt32} (ht : t = .boolAnd ∨ t = .boolOr ∨ t = .boolImplies)
    (hx : s.Denotes x ⟨.bool, w⟩ va) (hy : s.Denotes y ⟨.bool, w'⟩ vb)
    (hv : ∀ (p : Parts) ρ n, p.semTag ρ n [va ρ, vb ρ] t = v ρ) :
    Means (boolBinary t x y) s ⟨.bool, 0⟩ v := by
  have hfacts : t.resultSort = .bool ∧ t.fixedArity = some 2 ∧ Plain t ∧
      ∀ p i n, Parts.OperandRule p i n t ↔ p.BoolOperand i n 0 ∧ p.BoolOperand i n 1 := by
    rcases ht with rfl | rfl | rfl <;>
      exact ⟨rfl, rfl, ⟨by simp, by simp, by simp⟩, fun _ _ _ => Iff.rfl⟩
  obtain ⟨hsort, harity, hplain, hrule⟩ := hfacts
  rw [← hsort]
  refine works_check hx.expectBool (works_check hy.expectBool ?_)
  refine pushNode_means ?_ ?_ hplain.fitsBlob ?_ ?_
  · rw [FitsArity, harity]
    rfl
  · rw [FitsWidth, hsort]
  · intro p i n hop _ _ _ _
    rw [hrule]
    exact ⟨⟨_, hop 0 x _ rfl hx.ref⟩, ⟨_, hop 1 y _ rfl hy.ref⟩⟩
  · intro ρ
    simp only [List.map_cons, List.map_nil, hx.value, hy.value, hv]

/-- `BV_ZEXT` and `BV_SEXT`. -/
theorem bvExtend_means {amount : UInt16} (ht : t = .bvZext ∨ t = .bvSext)
    (hx : s.Denotes x ⟨.bv, w⟩ va)
    (hv : ∀ (p : Parts) ρ n, n.auxHi = amount → p.semTag ρ n [va ρ] t = v ρ) :
    Means (bvExtend t x amount) s ⟨.bv, UInt32.ofNat (w.toNat + amount.toNat)⟩ v := by
  have hfacts : t.resultSort = .bv ∧ t.fixedArity = some 1 ∧ Plain t ∧
      ∀ p i n, Parts.OperandRule p i n t ↔
        ∃ w, p.Operand i n 0 .bv w ∧ n.width.toNat = w + n.auxHi.toNat := by
    rcases ht with rfl | rfl <;>
      exact ⟨rfl, rfl, ⟨by simp, by simp, by simp⟩, fun _ _ _ => Iff.rfl⟩
  obtain ⟨hsort, harity, hplain, hrule⟩ := hfacts
  rw [← hsort]
  refine works_check hx.expectBv ?_
  refine works_lift safe_checkedAdd32 fun width hwidth => works_lift safe_ensure fun _ hlegal => ?_
  obtain ⟨rfl, hnat, hle⟩ := checked_width hwidth hlegal
  refine pushNode_means ?_ ?_ hplain.fitsBlob ?_ ?_
  · rw [FitsArity, harity]
    rfl
  · rw [FitsWidth, hsort, hnat]
    exact hle
  · intro p i n hop hw' haux _ _
    rw [hrule, hw', hnat, haux]
    exact ⟨_, hop 0 x _ rfl hx.ref, rfl⟩
  · intro ρ
    rw [List.map_singleton, hx.value]
    exact hv _ _ _ rfl

theorem bvExtract_means {hi lo : UInt32} (hx : s.Denotes x ⟨.bv, w⟩ va) :
    Means (bvExtract x hi lo) s ⟨.bv, UInt32.ofNat (hi.toNat - lo.toNat + 1)⟩
      fun ρ => Smt.extract hi.toNat lo.toNat (va ρ) := by
  refine works_check hx.expectBv ?_
  refine works_lift safe_ensure fun _ h16 => works_lift safe_ensure fun _ hbounds => ?_
  have h16 := ensure_eq_ok.mp h16
  have hbounds := ensure_eq_ok.mp hbounds
  have hle : lo.toNat ≤ hi.toNat := by omega
  rw [subU_of_le hle]
  refine works_lift (safe_ok _) fun difference hd => ?_
  obtain rfl := Outcome.ok.inj hd
  rw [addU_of_lt (by omega)]
  refine works_lift (safe_ok _) fun result hr => ?_
  obtain rfl := Outcome.ok.inj hr
  have hnat : (UInt32.ofNat (hi.toNat - lo.toNat + 1)).toNat = hi.toNat - lo.toNat + 1 := by
    rw [UInt32.toNat_ofNat']
    exact Nat.mod_eq_of_lt (by omega)
  have hhi : (UInt16.ofNat hi.toNat).toNat = hi.toNat := by
    rw [UInt16.toNat_ofNat']
    exact Nat.mod_eq_of_lt (by omega)
  refine works_of_sound fun hs => ?_
  have hw := hs.inv.width_of_hasRef hx.ref
  refine @pushNode_means _ _ .bvExtract _ _ _ _ _ rfl ?_
    (Plain.fitsBlob ⟨by simp, by simp, by simp⟩) ?_ ?_
  · show 1 ≤ _ ∧ _ ≤ maxBvWidth
    rw [hnat]
    simp only [maxBvWidth] at hw ⊢
    omega
  · intro p i n hop hw' hhi' hlo' _
    refine ⟨_, hop 0 x _ rfl hx.ref, ?_⟩
    rw [hw', hnat, hhi', hlo', hhi]
    show _ ∧ hi.toNat < w.toNat ∧ _
    omega
  · intro ρ
    simp only [List.map_singleton, hx.value, Parts.semTag, hhi, List.getD_cons_zero]

theorem bvConcat_means {w' : UInt32} (hx : s.Denotes x ⟨.bv, w⟩ va)
    (hy : s.Denotes y ⟨.bv, w'⟩ vb) :
    Means (bvConcat x y) s ⟨.bv, UInt32.ofNat (w.toNat + w'.toNat)⟩
      fun ρ => Smt.concat (va ρ) (vb ρ) := by
  refine works_check hx.expectBv (works_check hy.expectBv ?_)
  refine works_lift safe_checkedAdd32 fun width hwidth => works_lift safe_ensure fun _ hlegal => ?_
  obtain ⟨rfl, hnat, hle⟩ := checked_width hwidth hlegal
  refine @pushNode_means _ _ .bvConcat _ _ _ _ _ rfl ?_
    (Plain.fitsBlob ⟨by simp, by simp, by simp⟩) ?_ ?_
  · show 1 ≤ _ ∧ _ ≤ maxBvWidth
    rwa [hnat]
  · intro p i n hop hw' _ _ _
    exact ⟨_, _, hop 0 x _ rfl hx.ref, hop 1 y _ rfl hy.ref, by rw [hw', hnat]⟩
  · intro ρ
    simp only [List.map_cons, List.map_nil, hx.value, hy.value, Parts.semTag, List.getD_cons_zero,
      List.getD_cons_succ]

theorem bvIte_means {w' : UInt32} (hc : s.Denotes c ⟨.bool, w'⟩ vc) (hx : s.Denotes x ⟨.bv, w⟩ va)
    (hy : s.Denotes y ⟨.bv, w⟩ vb) :
    Means (bvIte c x y) s ⟨.bv, w⟩ fun ρ => Smt.ite (vc ρ) (va ρ) (vb ρ) := by
  refine works_check hc.expectBool (works_check (hx.expectSameBvWidth hy) ?_)
  refine works_of_sound fun hs => ?_
  refine @pushNode_means _ _ .bvIte _ _ _ _ _ rfl (hx.fitsWidth hs rfl)
    (Plain.fitsBlob ⟨by simp, by simp, by simp⟩) ?_ ?_
  · intro p i n hop hw _ _ _
    refine ⟨⟨_, hop 0 c _ rfl hc.ref⟩, ?_, ?_⟩
    · rw [hw]
      exact hop 1 x _ rfl hx.ref
    · rw [hw]
      exact hop 2 y _ rfl hy.ref
  · intro ρ
    simp only [List.map_cons, List.map_nil, hc.value, hx.value, hy.value, Parts.semTag,
      List.getD_cons_zero, List.getD_cons_succ]

theorem boolNot_means (hx : s.Denotes x ⟨.bool, w⟩ va) :
    Means (boolNot x) s ⟨.bool, 0⟩ fun ρ => Smt.not (va ρ) := by
  refine works_check hx.expectBool ?_
  refine @pushNode_means _ _ .boolNot _ _ _ _ _ rfl rfl
    (Plain.fitsBlob ⟨by simp, by simp, by simp⟩) ?_ ?_
  · intro p i n hop _ _ _ _
    exact ⟨_, hop 0 x _ rfl hx.ref⟩
  · intro ρ
    simp only [List.map_singleton, hx.value, Parts.semTag, List.getD_cons_zero]

theorem negOvf_means (hx : s.Denotes x ⟨.bv, w⟩ va) :
    Means (negOvf x) s ⟨.bool, 0⟩ fun ρ => Smt.bvnego (va ρ) := by
  refine works_check hx.expectBv ?_
  refine @pushNode_means _ _ .negOvf _ _ _ _ _ rfl rfl
    (Plain.fitsBlob ⟨by simp, by simp, by simp⟩) ?_ ?_
  · intro p i n hop _ _ _ _
    exact ⟨_, hop 0 x _ rfl hx.ref⟩
  · intro ρ
    simp only [List.map_singleton, hx.value, Parts.semTag, List.getD_cons_zero]

theorem boolTrue_means : Means boolTrue s ⟨.bool, 0⟩ fun _ => .bool true :=
  @pushNode_means _ _ .boolTrue _ _ _ _ _ rfl rfl (Plain.fitsBlob ⟨by simp, by simp, by simp⟩)
    (fun _ _ _ _ _ _ _ _ => trivial) fun _ => rfl

theorem boolFalse_means : Means boolFalse s ⟨.bool, 0⟩ fun _ => .bool false :=
  @pushNode_means _ _ .boolFalse _ _ _ _ _ rfl rfl (Plain.fitsBlob ⟨by simp, by simp, by simp⟩)
    (fun _ _ _ _ _ _ _ _ => trivial) fun _ => rfl

/-- The values of a selection, its pairs by position. -/
theorem bvSelect_means {selectors values : List NodeRef} {default : NodeRef} {vd : Env → Value}
    {vs vv : Nat → Env → Value}
    (hsel : ∀ k r, selectors[k]? = some r → ∃ w', s.Denotes r ⟨.bool, w'⟩ (vs k))
    (hval : ∀ k r, values[k]? = some r → s.Denotes r ⟨.bv, w⟩ (vv k))
    (hd : s.Denotes default ⟨.bv, w⟩ vd) :
    Means (bvSelect selectors values default) s ⟨.bv, w⟩ fun ρ =>
      Smt.select ((List.range selectors.length).map fun k => (vs k ρ, vv k ρ)) (vd ρ) := by
  refine works_lift safe_ensure fun _ hlen => works_lift safe_ensure fun _ hmax => ?_
  have hlen := ensure_eq_ok.mp hlen
  have hmax := ensure_eq_ok.mp hmax
  refine works_check hd.expectBv ?_
  refine works_read (safe_forM fun pair _ => safe_expectBool.bind fun _ _ =>
    safe_expectBv.bind fun _ _ => safe_ensure) fun _ _ => ?_
  have hzip : (selectors.zip values).length = selectors.length := by simp [hlen]
  have hflat : ((selectors.zip values).flatMap fun pair => [pair.1, pair.2]).length =
      selectors.length * 2 := by
    rw [@length_flatMap_const _ _ _ 2 (fun _ => rfl), hzip, Nat.mul_comm]
  have haux : (UInt16.ofNat selectors.length).toNat = selectors.length := by
    rw [UInt16.toNat_ofNat']
    exact Nat.mod_eq_of_lt (by omega)
  -- where the selectors, the values and the default stand among the children
  have hpair : ∀ k, k < selectors.length → ∃ a b, selectors[k]? = some a ∧ values[k]? = some b ∧
      ((selectors.zip values).flatMap (fun pair => [pair.1, pair.2]) ++ [default])[k * 2]? = some a ∧
      ((selectors.zip values).flatMap (fun pair => [pair.1, pair.2]) ++ [default])[k * 2 + 1]? =
        some b := by
    intro k hk
    have hk' : k < values.length := by omega
    have ha : selectors[k]? = some selectors[k] := List.getElem?_eq_getElem hk
    have hb : values[k]? = some values[k] := List.getElem?_eq_getElem hk'
    have hget : (selectors.zip values)[k]? = some (selectors[k], values[k]) := by
      rw [List.getElem?_zip_eq_some]
      exact ⟨ha, hb⟩
    exact ⟨_, _, ha, hb, getElem?_pairs hget [default]⟩
  have hlast : ((selectors.zip values).flatMap (fun pair => [pair.1, pair.2]) ++
      [default])[selectors.length * 2]? = some default := by
    rw [List.getElem?_append_right (by omega), hflat, Nat.sub_self]
    rfl
  refine works_of_sound fun hs => ?_
  refine @pushNode_means _ _ .bvSelect _ _ _ _ _ ?_ (hd.fitsWidth hs rfl)
    (Plain.fitsBlob ⟨by simp, by simp, by simp⟩) ?_ ?_
  · show (_ : List NodeRef).length % 2 = 1
    rw [List.length_append, hflat, List.length_singleton]
    omega
  · intro p i n hop hw hhi _ harity
    rw [List.length_append, hflat, List.length_singleton] at harity
    refine ⟨?_, ?_, ?_⟩
    · rw [hhi, haux, harity]
      omega
    · rw [hw, hhi, haux]
      exact hop _ default _ hlast hd.ref
    · intro k hk
      rw [hhi, haux] at hk
      obtain ⟨a, b, ha, hb, h0, h1⟩ := hpair k hk
      obtain ⟨w', hsa⟩ := hsel k a ha
      rw [hw]
      exact ⟨⟨_, hop _ _ _ h0 hsa.ref⟩, hop _ _ _ h1 (hval k b hb).ref⟩
  · intro ρ
    have harg : ∀ k r, ((selectors.zip values).flatMap (fun pair => [pair.1, pair.2]) ++
        [default])[k]? = some r → (((selectors.zip values).flatMap (fun pair => [pair.1, pair.2]) ++
        [default]).map fun c => s.parts.value ρ c.idx).getD k Inhabited.default =
          s.parts.value ρ r.idx := by
      intro k r hk
      rw [List.getD_eq_getElem?_getD, List.getElem?_map, hk]
      rfl
    simp only [Parts.semTag, haux, harg _ _ hlast, hd.value]
    congr 1
    refine List.map_congr_left fun k hk => ?_
    obtain ⟨a, b, ha, hb, h0, h1⟩ := hpair k (List.mem_range.mp hk)
    obtain ⟨w', hsa⟩ := hsel k a ha
    rw [harg _ _ h0, harg _ _ h1, hsa.value, (hval k b hb).value]

/-! ## Constants -/

theorem bitVec_ofNat_congr {w x y : Nat} (h : x % 2 ^ w = y % 2 ^ w) :
    BitVec.ofNat w x = BitVec.ofNat w y :=
  BitVec.eq_of_toNat_eq (by simpa only [BitVec.toNat_ofNat] using h)

theorem maskU64_mod (value : UInt64) (width : Nat) :
    (maskU64 value width).toNat % 2 ^ width = value.toNat % 2 ^ width := by
  unfold maskU64
  split
  · rfl
  · rename_i hlt
    have hmask : (UInt64.ofNat (2 ^ width - 1)).toNat = 2 ^ width - 1 := by
      rw [UInt64.toNat_ofNat']
      have := Nat.pow_lt_pow_right (show 1 < 2 by decide) (show width < 64 by omega)
      exact Nat.mod_eq_of_lt (by omega)
    rw [UInt64.toNat_and, hmask, Nat.and_two_pow_sub_one_eq_mod, Nat.mod_mod]

theorem maskUnusedHighBits_mod {bytes : List UInt8} {width : Nat}
    (h : bytes.length = (width + 7) / 8) :
    leNat (maskUnusedHighBits bytes width) % 2 ^ width = leNat bytes % 2 ^ width := by
  unfold maskUnusedHighBits
  dsimp only
  split
  · rfl
  · rename_i hmask
    obtain ⟨hr, hne⟩ := not_or.mp hmask
    have hlen := List.length_pos_iff.mpr hne
    rw [leNat_mask_last hne (Nat.mod_lt _ (by decide)),
      show 8 * (bytes.length - 1) + width % 8 = width by omega, Nat.mod_mod]

theorem bvConstBlob_means {bytes : List UInt8} (hw : 1 ≤ w.toNat ∧ w.toNat ≤ maxBvWidth)
    (hgt : 64 < w.toNat) (hlen : bytes.length = (w.toNat + 7) / 8) :
    Means (bvConstBlob bytes w) s ⟨.bv, w⟩ fun _ => .bv w.toNat (.ofNat _ (leNat bytes)) := by
  refine (pushBlob_spec.works frames_pushBlob).bind fun r s' _ h => ?_
  obtain ⟨-, hblob, hr⟩ := h
  refine @pushNode_means _ _ .bvConst _ _ _ _ _ rfl hw ⟨?_, ?_⟩ ?_ ?_
  · intro ht
    simp at ht
  · intro _ _
    rw [BlobRef.fromPayload_toPayload]
    exact ⟨hr.trans hlen, _, hblob⟩
  · intro p i n _ _ _ _ _
    trivial
  · intro ρ
    simp only [Parts.semTag, Parts.constant, RawNode.blobRef, BlobRef.fromPayload_toPayload, hblob]
    rw [if_neg (by omega)]
    rfl

theorem bvConst_means {value : UInt64} :
    Means (bvConst value w) s ⟨.bv, w⟩ fun _ => .bv w.toNat (.ofNat _ value.toNat) := by
  refine works_lift safe_ensure fun _ hw => ?_
  have hw := ensure_eq_ok.mp hw
  split
  · rename_i hle
    refine @pushNode_means _ _ .bvConst _ _ _ _ _ rfl hw ⟨?_, ?_⟩ ?_ ?_
    · intro ht
      simp at ht
    · intro _ hlt
      omega
    · intro p i n _ _ _ _ _
      trivial
    · intro ρ
      simp only [Parts.semTag, Parts.constant]
      rw [if_pos hle, bitVec_ofNat_congr (maskU64_mod value w.toNat)]
  · rename_i hgt
    refine works_lift safe_bytesForWidth fun len hlen => ?_
    obtain ⟨-, rfl⟩ := bytesForWidth_eq_ok.mp hlen
    have hbytes : (u64Bytes value ++ List.replicate ((w.toNat + 7) / 8 - 8) 0).length =
        (w.toNat + 7) / 8 := by
      rw [List.length_append, length_u64Bytes, List.length_replicate]
      omega
    have hvalue : leNat (u64Bytes value ++ List.replicate ((w.toNat + 7) / 8 - 8) 0) =
        value.toNat := by
      rw [leNat_append, leNat_replicate_zero, Nat.mul_zero, Nat.add_zero, u64Bytes, leNat_leBytes]
      exact Nat.mod_eq_of_lt value.toNat_lt
    refine Grow.Spec.mono (bvConstBlob_means hw (by omega)
      ((length_maskUnusedHighBits _ _).trans hbytes)) ?_
    intro r s' _ _ h
    refine h.congr fun _ => ?_
    rw [bitVec_ofNat_congr (maskUnusedHighBits_mod hbytes), hvalue]

theorem bvConstWide_means {bytes : List UInt8} :
    Means (bvConstWide bytes w) s ⟨.bv, w⟩ fun _ => .bv w.toNat (.ofNat _ (leNat bytes)) := by
  refine works_lift safe_ensure fun _ hw => ?_
  have hw := ensure_eq_ok.mp hw
  refine works_lift safe_bytesForWidth fun expected he => works_lift safe_ensure fun _ hlen => ?_
  obtain ⟨-, rfl⟩ := bytesForWidth_eq_ok.mp he
  have hlen := ensure_eq_ok.mp hlen
  have hmasked := (length_maskUnusedHighBits bytes w.toNat).trans hlen
  split
  · rename_i hle
    refine Grow.Spec.mono bvConst_means ?_
    intro r s' _ _ h
    refine h.congr fun _ => ?_
    -- eight bytes at most, so the number fits the argument of `bv_const`
    have hlt : leNat (maskUnusedHighBits bytes w.toNat) < 2 ^ 64 :=
      lt_of_lt_of_le (leNat_lt_two_pow _) (Nat.pow_le_pow_right (by decide) (by omega))
    rw [UInt64.toNat_ofNat', Nat.mod_eq_of_lt hlt, bitVec_ofNat_congr (maskUnusedHighBits_mod hlen)]
  · rename_i hgt
    refine Grow.Spec.mono (bvConstBlob_means hw (by omega) hmasked) ?_
    intro r s' _ _ h
    refine h.congr fun _ => ?_
    rw [bitVec_ofNat_congr (maskUnusedHighBits_mod hlen)]

/-! ## Variables -/

theorem frames_expectSymbolSignature {name : String} {sig : NodeMeta} :
    Frames (expectSymbolSignature name sig) :=
  (frames_read _).bind fun _ => fun _ => ⟨rfl, rfl⟩

theorem works_remember {f : ExprBuilder → ExprBuilder} {h} {g : Unit → BuilderM β}
    {Q : β → ExprBuilder → Prop} (hf : s.Sound → (f s).Sound) (hg : Works (g ()) (f s) Q) :
    Works (remember f h >>= g) s Q := by
  intro hs
  exact Grow.wp_bind_modify (hg (hf hs))

/-- A variable node whose signature is in the symbol table. -/
theorem pushSymbol_means {name : String} {q : BlobRef} (ht : t = .bvVar ∨ t = .boolVar)
    (hwidth : FitsWidth t w) (htext : s.parts.textAt q = some name)
    (hsym : s.symbols.lookup name = some ⟨t.resultSort, w⟩)
    (hv : ∀ (p : Parts) ρ n, n.width = w → p.symbol n = name → p.semTag ρ n [] t = v ρ) :
    Means (pushNode t w [] 0 0 q.toPayload) s ⟨t.resultSort, w⟩ v := by
  refine pushNode_means ?_ hwidth ⟨?_, ?_⟩ ?_ ?_
  · rcases ht with rfl | rfl <;> rfl
  · intro _
    rw [BlobRef.fromPayload_toPayload]
    exact ⟨name, htext, hsym⟩
  · rintro rfl
    simp at ht
  · intro p i n _ _ _ _ _
    rcases ht with rfl | rfl <;> trivial
  · intro ρ
    refine hv _ _ _ rfl ?_
    rw [Parts.symbol, RawNode.blobRef, BlobRef.fromPayload_toPayload, htext]
    rfl

/-- Filling a cache changes neither the nodes nor what is known of them. -/
theorem Sound.fill (hs : s.Sound) {bvVars : List ((String × UInt32) × NodeRef)}
    {boolVars : List (String × NodeRef)}
    (hbv : ∀ {name w r}, bvVars.lookup (name, w) = some r →
      s.Denotes r ⟨.bv, w⟩ (bvSymbol name w.toNat))
    (hbool : ∀ {name r}, boolVars.lookup name = some r → s.Denotes r ⟨.bool, 0⟩ (boolSymbol name)) :
    ({ s with bvVars, boolVars } : ExprBuilder).Sound := by
  refine ⟨hs.inv.side rfl rfl (fun _ _ h => h) (fun _ h => .inl h) (fun _ h => .inl h), ?_, ?_⟩
  · intro name w r hl
    exact ⟨(hbv hl).ref, (hbv hl).value⟩
  · intro name r hl
    exact ⟨(hbool hl).ref, (hbool hl).value⟩

theorem newBvVar_means {name : String} (hw : 1 ≤ w.toNat ∧ w.toNat ≤ maxBvWidth)
    (hsym : s.symbols.lookup name = some ⟨.bv, w⟩) :
    Means (newBvVar name w) s ⟨.bv, w⟩ (bvSymbol name w.toNat) := by
  refine (pushBlob_spec.works frames_pushBlob).bind fun q s' _ h => ?_
  obtain ⟨rfl, hblob, -⟩ := h
  have hpush := @pushSymbol_means _ (bvSymbol name w.toNat) _ .bvVar name q (.inl rfl) hw
    (textAt_of_blobAt hblob) hsym (by
      intro p ρ n hn hname
      subst hn
      simp only [Parts.semTag, hname, bvSymbol])
  refine hpush.bind fun r s'' _ hr => works_remember ?_ (works_pure ⟨hr.ref, hr.value⟩)
  intro hs
  refine hs.fill ?_ (fun hl => hs.cached.bool hl)
  intro name' w' r' hl
  rw [List.lookup_cons] at hl
  split at hl
  · rename_i heq
    obtain ⟨rfl, rfl⟩ := Prod.mk.inj (beq_iff_eq.mp heq)
    obtain rfl := Option.some.inj hl
    exact hr
  · exact hs.cached.bv hl

theorem bvVar_means {name : String} :
    Means (bvVar name w) s ⟨.bv, w⟩ (bvSymbol name w.toNat) := by
  refine works_lift safe_ensure fun _ hw => ?_
  have hw := ensure_eq_ok.mp hw
  refine (expectSymbolSignature_spec.works frames_expectSymbolSignature).bind fun _ s' _ hsym => ?_
  refine works_read (by simp) fun cached hl => works_of_sound fun hs => ?_
  cases cached with
  | some reference => exact works_pure (hs.cached.bv (Outcome.ok.inj hl))
  | none => exact newBvVar_means hw hsym

theorem newBoolVar_means {name : String} (hsym : s.symbols.lookup name = some ⟨.bool, 0⟩) :
    Means (newBoolVar name) s ⟨.bool, 0⟩ (boolSymbol name) := by
  refine (pushBlob_spec.works frames_pushBlob).bind fun q s' _ h => ?_
  obtain ⟨rfl, hblob, -⟩ := h
  have hpush := @pushSymbol_means _ (boolSymbol name) _ .boolVar name q (.inr rfl) rfl
    (textAt_of_blobAt hblob) hsym (by
      intro p ρ n _ hname
      simp only [Parts.semTag, hname, boolSymbol])
  refine hpush.bind fun r s'' _ hr => works_remember ?_ (works_pure ⟨hr.ref, hr.value⟩)
  intro hs
  refine hs.fill (fun hl => hs.cached.bv hl) ?_
  intro name' r' hl
  rw [List.lookup_cons] at hl
  split at hl
  · rename_i heq
    obtain rfl := beq_iff_eq.mp heq
    obtain rfl := Option.some.inj hl
    exact hr
  · exact hs.cached.bool hl

theorem boolVar_means {name : String} : Means (boolVar name) s ⟨.bool, 0⟩ (boolSymbol name) := by
  refine (expectSymbolSignature_spec.works frames_expectSymbolSignature).bind fun _ s' _ hsym => ?_
  refine works_read (by simp) fun cached hl => works_of_sound fun hs => ?_
  cases cached with
  | some reference => exact works_pure (hs.cached.bool (Outcome.ok.inj hl))
  | none => exact newBoolVar_means hsym

end ExprBuilder
end Wire
end SmtServer
