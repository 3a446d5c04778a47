import SmtServer.Qfbv.Builder.Operations
import SmtServer.Qfbv.Builder.Comparisons
import SmtServer.Qfbv.Builder.Slices

/-!
# Every method, on arguments of any sort

Where SMT-LIB gives the result a sort, the method makes a term of that sort and of the value that
SMT-LIB gives it (`TermOp.build_spec`), however much of it was rewritten on the way. Where it does
not, the method refuses before it adds anything (`TermOp.build_rejects`). So whatever is passed, the
arena it leaves is again one that the builder built (`TermOp.build_keeps`).
-/

namespace SmtServer
namespace Qfbv

open Lib Outcome Bytes
open Lib.Smt (Value)
open Builder

variable {V : NodeKind → Prop} {s s' : Arena} {ρ : Env} {t a b c : TermId} {w v : Nat}
variable {x y : BitVec w} {σ : TermSort} {α β : Type} {l : String}

instance : Nonempty Env := ⟨⟨fun _ => 0, fun _ => false⟩⟩

/-! ## Sorts of arguments -/

theorem bvWidth?_map_bv {o : Option TermSort} (h : (bvWidth? o).map .bv = some σ) :
    ∃ w, o = some (.bv w) ∧ σ = .bv w := by
  obtain ⟨w, hw, rfl⟩ := Option.map_eq_some_iff.mp h
  exact ⟨w, bvWidth?_eq.mp hw, rfl⟩

theorem sameWidth?_eq {o p : Option TermSort} :
    sameWidth? o p = some w ↔ o = some (.bv w) ∧ p = some (.bv w) := by
  rw [sameWidth?, Option.bind_eq_some_iff]
  constructor
  · rintro ⟨v, hv, h⟩
    obtain ⟨hp, rfl⟩ : p = some (.bv v) ∧ v = w := by simpa using h
    exact ⟨bvWidth?_eq.mp hv, hp⟩
  · rintro ⟨ho, hp⟩
    exact ⟨w, bvWidth?_eq.mpr ho, by rw [if_pos hp]⟩

theorem sameWidth?_swap {o p : Option TermSort} (h : sameWidth? o p = none) :
    sameWidth? p o = none := by
  rw [Option.eq_none_iff_forall_ne_some] at h ⊢
  exact fun w hw => h w (sameWidth?_eq.mpr (sameWidth?_eq.mp hw).symm)

theorem vectorSort_eq : vectorSort w = some σ ↔ Arena.SortOk (.bv w) ∧ σ = .bv w := by
  rw [vectorSort, Option.ite_none_right_eq_some, Option.some.injEq, eq_comm (b := σ)]
  rfl

theorem vectorSort_none : vectorSort w = none ↔ ¬(1 ≤ w ∧ w ≤ maxBvWidth) := by
  simp [vectorSort]

/-! ## Refusing -/

namespace Builder

/-- The run refuses, and leaves the arena alone. -/
def Rejects (m : ArenaM α) (s : Arena) : Prop := ∃ e, m.run s = (err e, s)

theorem Rejects.bind {m : ArenaM α} {f : α → ArenaM β} (h : Rejects m s) :
    Rejects (m >>= f) s := by
  obtain ⟨e, he⟩ := h
  exact ⟨e, Grow.run_bind_err he⟩

theorem rejects_check {f : Arena → Result α} {g : α → ArenaM β} (h : ∃ e, f s = err e) :
    Rejects (Grow.read f >>= g) s := by
  obtain ⟨e, he⟩ := h
  exact Rejects.bind ⟨e, by rw [Grow.run_read, he]⟩

/-- A check that succeeds disappears from the goal. -/
theorem rejects_read {f : Arena → Result α} {g : α → ArenaM β} {r : α} (hf : f s = ok r)
    (h : Rejects (g r) s) : Rejects (Grow.read f >>= g) s := by
  obtain ⟨e, he⟩ := h
  exact ⟨e, by rw [Grow.run_bind_ok (by rw [Grow.run_read, hf]), he]⟩

theorem ensure_err {p : Prop} [Decidable p] {e : Error} (h : ¬p) :
    ∃ e', (.ensure p e : Result Unit) = err e' := by
  refine ⟨e, ?_⟩
  rw [Outcome.ensure, if_neg h]

theorem rejects_ensure {p : Prop} [Decidable p] {e : Error} {g : Unit → ArenaM β} (h : ¬p) :
    Rejects (Grow.lift (.ensure p e) >>= g) s :=
  rejects_check (ensure_err h)

theorem rejects_ensured {p : Prop} [Decidable p] {e : Error} {g : Unit → ArenaM β}
    (h : p → Rejects (g ()) s) : Rejects (Grow.lift (.ensure p e) >>= g) s := by
  by_cases hp : p
  · refine rejects_read (r := ()) ?_ (h hp)
    rw [Outcome.ensure, if_pos hp]
  · exact rejects_ensure hp

theorem rejects_validate {g : Unit → ArenaM β} (h : vectorSort w = none) :
    Rejects (Grow.lift (validateBvWidth w l) >>= g) s :=
  rejects_ensure (vectorSort_none.mp h)

theorem sort_of_none (h : s.sortAt t = none) : ∃ e, s.sort t = err e := by
  rw [Arena.sort, Arena.node]
  rw [Arena.sortAt, Option.map_eq_none_iff] at h
  rw [h]
  exact ⟨_, rfl⟩

theorem expectBv_err (h : bvWidth? (s.sortAt t) = none) : ∃ e, s.expectBv t l = err e := by
  rw [Arena.expectBv]
  cases hσ : s.sortAt t with
  | none =>
    obtain ⟨e, he⟩ := sort_of_none hσ
    exact ⟨e, by rw [he]; rfl⟩
  | some τ =>
    rw [Arena.sort_eq_ok.mpr hσ]
    cases τ with
    | bool => exact ⟨_, rfl⟩
    | bv w =>
      rw [hσ] at h
      cases h

/-- A method whose first check is that a term is a vector. -/
theorem rejects_bv {g : Nat → ArenaM β}
    (h : ∀ w, bvWidth? (s.sortAt t) = some w → Rejects (g w) s) :
    Rejects (Grow.read (expectBv t l) >>= g) s := by
  cases hw : bvWidth? (s.sortAt t) with
  | none => exact rejects_check (expectBv_err hw)
  | some w => exact rejects_read (Arena.expectBv_of_sort (bvWidth?_eq.mp hw)) (h w hw)

theorem expectBool_err (h : s.sortAt t ≠ some .bool) : ∃ e, s.expectBool t l = err e := by
  rw [Arena.expectBool]
  cases hσ : s.sortAt t with
  | none =>
    obtain ⟨e, he⟩ := sort_of_none hσ
    exact ⟨e, by rw [he]; rfl⟩
  | some τ =>
    rw [Arena.sort_eq_ok.mpr hσ]
    exact ensure_err fun hτ => h (by rw [hσ, hτ])

theorem expectSameBv_err (h : sameWidth? (s.sortAt a) (s.sortAt b) = none) :
    ∃ e, s.expectSameBv a b l = err e := by
  rw [Arena.expectSameBv]
  cases ha : bvWidth? (s.sortAt a) with
  | none =>
    obtain ⟨e, he⟩ := expectBv_err (l := l) ha
    exact ⟨e, by rw [he]; rfl⟩
  | some w =>
    rw [Arena.expectBv_of_sort (bvWidth?_eq.mp ha), ok_bind]
    cases hb : bvWidth? (s.sortAt b) with
    | none =>
      obtain ⟨e, he⟩ := expectBv_err (l := l) hb
      exact ⟨e, by rw [he]; rfl⟩
    | some u =>
      rw [Arena.expectBv_of_sort (bvWidth?_eq.mp hb), ok_bind]
      have hne : w ≠ u := by
        rintro rfl
        have hsame := sameWidth?_eq.mpr ⟨bvWidth?_eq.mp ha, bvWidth?_eq.mp hb⟩
        rw [h] at hsame
        cases hsame
      obtain ⟨e, he⟩ := ensure_err (e := .invalid l s!"BV width mismatch: {w} vs {u}") hne
      exact ⟨e, by rw [he]; rfl⟩

/-- A look at a term of sort Bool, for something that only vectors are. -/
theorem look_bool {f : NodeKind → Option α} (hs : s.Inv) (h : s.sortAt t = some .bool)
    (hf : ∀ k r srt, f k = some r → ¬k.HasSort srt .bool) : look t f s = ok none := by
  obtain ⟨k, hk⟩ := kind_of_sort h
  rw [look_eq hk]
  congr 1
  rw [Option.eq_none_iff_forall_ne_some]
  exact fun r hr => hf k r _ hr (hs.sort_kind hk h)

/-- A method that looks at the term before it checks its sort. -/
theorem rejects_look {f : NodeKind → Option α} {g : Option α → ArenaM β} (hs : s.Inv)
    (h : bvWidth? (s.sortAt t) = none)
    (hf : ∀ k r srt, f k = some r → ¬k.HasSort srt .bool) (hg : Rejects (g none) s) :
    Rejects (Grow.read (look t f) >>= g) s := by
  cases hσ : s.sortAt t with
  | none =>
    refine rejects_check ?_
    obtain ⟨e, he⟩ : ∃ e, s.node t = err e := by
      rw [Arena.node]
      rw [Arena.sortAt, Option.map_eq_none_iff] at hσ
      rw [hσ]
      exact ⟨_, rfl⟩
    exact ⟨e, by rw [look, bind_apply, node, he]; rfl⟩
  | some τ =>
    cases τ with
    | bool => exact rejects_read (look_bool hs hσ hf) hg
    | bv w =>
      rw [hσ] at h
      cases h

/-! ## Families -/

theorem orderPair_cases (a b : TermId) : orderPair a b = (a, b) ∨ orderPair a b = (b, a) := by
  unfold orderPair
  split
  · exact .inl rfl
  · exact .inr rfl

/-- A method whose first check is that two terms are vectors of one width. -/
theorem rejects_sameBv {g : Nat → ArenaM β} (h : sameWidth? (s.sortAt a) (s.sortAt b) = none) :
    Rejects (Grow.read (expectSameBv a b l) >>= g) s :=
  rejects_check (expectSameBv_err h)

theorem sameWidth?_orderPair (h : sameWidth? (s.sortAt a) (s.sortAt b) = none) :
    sameWidth? (s.sortAt (orderPair a b).1) (s.sortAt (orderPair a b).2) = none := by
  rcases orderPair_cases a b with hp | hp
  · rwa [hp]
  · rw [hp]
    exact sameWidth?_swap h

theorem unaryOp_rejects (op : UnaryOp) (hs : s.Inv) (h : bvWidth? (s.sortAt t) = none) :
    Rejects (op.build t) s := by
  cases op with
  | bvNot =>
    refine rejects_look hs h ?_ (rejects_look hs h ?_ (rejects_check (expectBv_err h)))
    · rintro k r srt hk hsort
      cases k <;> simp [NodeKind.bvConst?, NodeKind.HasSort] at hk hsort
    · rintro k r srt hk hsort
      cases k <;> simp [NodeKind.bvNot?, NodeKind.HasSort] at hk hsort
  | bvNeg =>
    refine rejects_look hs h ?_ (rejects_look hs h ?_ (rejects_check (expectBv_err h)))
    · rintro k r srt hk hsort
      cases k <;> simp [NodeKind.bvConst?, NodeKind.HasSort] at hk hsort
    · rintro k r srt hk hsort
      cases k <;> simp [NodeKind.bvNeg?, NodeKind.HasSort] at hk hsort

theorem binaryOp_rejects (op : BinaryOp) (h : sameWidth? (s.sortAt a) (s.sortAt b) = none) :
    Rejects (op.build a b) s := by
  have hp := sameWidth?_orderPair h
  cases op with
  | bvAnd | bvOr | bvXor | bvAdd | bvMul =>
    simp only [BinaryOp.build, Builder.bvAnd, Builder.bvOr, bvOrWith, Builder.bvXor, Builder.bvAdd,
      bvAddRounds, Builder.bvMul, bvMulRounds]
    generalize orderPair a b = p at hp ⊢
    exact rejects_sameBv hp
  | _ => exact rejects_sameBv h

theorem relation_rejects (op : Relation) (h : sameWidth? (s.sortAt a) (s.sortAt b) = none) :
    Rejects (op.build a b) s := by
  have hswap := sameWidth?_swap h
  cases op with
  | bvNe => exact Rejects.bind (rejects_sameBv h)
  | bvUgt | bvUge | bvSgt | bvSge => exact rejects_sameBv hswap
  | _ => exact rejects_sameBv h

theorem overflowOp_rejects (op : OverflowOp) (h : sameWidth? (s.sortAt a) (s.sortAt b) = none) :
    Rejects (op.build a b) s := by
  cases op <;> exact rejects_sameBv h

/-! ### What they make -/

/-- The term has this sort and this value. -/
def Makes (ρ : Env) (σ : TermSort) (v : Value) (t : TermId) (s : Arena) : Prop :=
  s.sortAt t = some σ ∧ s.value ρ t = v

variable {m : ArenaM TermId} {r : BitVec w} {p q : Bool} {u : Value}

theorem Spec.bv (h : Spec V m s fun t s' => s'.Denotes ρ t r) (hu : u = .bv w r) :
    Spec V m s (Makes ρ (.bv w) u) :=
  h.mono fun _ _ _ _ ht => ⟨ht.sort, ht.value.trans hu.symm⟩

theorem Spec.bool (h : Spec V m s fun t s' => s'.DenotesBool ρ t p) (hu : u = .bool p) :
    Spec V m s (Makes ρ .bool u) :=
  h.mono fun _ _ _ _ ht => ⟨ht.sort, ht.value.trans hu.symm⟩

theorem unaryOp_spec (op : UnaryOp) (h : s.Denotes ρ t x) :
    Spec V (op.build t) s (Makes ρ (.bv w) (op.sem (s.value ρ t))) := by
  rw [h.value]
  cases op with
  | bvNot => exact (bvNot_spec h).bv (Value.map_bv (fun y => ~~~y) x)
  | bvNeg => exact (bvNeg_spec h).bv (Value.map_bv (fun y => -y) x)

theorem binaryOp_spec (op : BinaryOp) (ha : s.Denotes ρ a x) (hb : s.Denotes ρ b y) :
    Spec V (op.build a b) s (Makes ρ (.bv w) (op.sem (s.value ρ a) (s.value ρ b))) := by
  rw [ha.value, hb.value]
  cases op with
  | bvAnd => exact (bvAnd_spec ha hb).bv (Value.map₂_bv (fun y z => y &&& z) x y)
  | bvOr => exact (bvOr_spec ha hb).bv (Value.map₂_bv (fun y z => y ||| z) x y)
  | bvXor => exact (bvXor_spec ha hb).bv (Value.map₂_bv (fun y z => y ^^^ z) x y)
  | bvAdd => exact (bvAdd_spec ha hb).bv (Value.map₂_bv (fun y z => y + z) x y)
  | bvSub => exact (bvSub_spec ha hb).bv (Value.map₂_bv (fun y z => y - z) x y)
  | bvMul => exact (bvMul_spec ha hb).bv (Value.map₂_bv (fun y z => y * z) x y)
  | bvUdiv => exact (bvUdiv_spec ha hb).bv (Value.map₂_bv (fun y z => y.smtUDiv z) x y)
  | bvUrem => exact (bvUrem_spec ha hb).bv (Value.map₂_bv (fun y z => y.umod z) x y)
  | bvSdiv => exact (bvSdiv_spec ha hb).bv (Value.map₂_bv (fun y z => y.smtSDiv z) x y)
  | bvSrem => exact (bvSrem_spec ha hb).bv (Value.map₂_bv (fun y z => y.srem z) x y)
  | bvSmod => exact (bvSmod_spec ha hb).bv (Value.map₂_bv (fun y z => y.smod z) x y)
  | bvShl => exact (bvShl_spec ha hb).bv (Value.map₂_bv (fun y z => y <<< z) x y)
  | bvLshr => exact (bvLshr_spec ha hb).bv (Value.map₂_bv (fun y z => y >>> z) x y)
  | bvAshr => exact (bvAshr_spec ha hb).bv (Value.map₂_bv (fun y z => y.sshiftRight' z) x y)

theorem relation_spec (op : Relation) (ha : s.Denotes ρ a x) (hb : s.Denotes ρ b y) :
    Spec V (op.build a b) s (Makes ρ .bool (op.sem (s.value ρ a) (s.value ρ b))) := by
  rw [ha.value, hb.value]
  cases op with
  | bvEq => exact (bvEq_spec ha hb).bool (Value.rel₂_bv (fun y z => y == z) x y)
  | bvNe => exact (bvNe_spec ha hb).bool (congrArg Smt.not (Value.rel₂_bv (fun y z => y == z) x y))
  | bvUlt => exact (bvCmp_spec .ult ha hb).bool (Value.rel₂_bv (fun y z => y.ult z) x y)
  | bvUle => exact (bvCmp_spec .ule ha hb).bool (Value.rel₂_bv (fun y z => y.ule z) x y)
  | bvUgt => exact (bvCmp_spec .ult hb ha).bool (Value.rel₂_bv (fun y z => y.ult z) y x)
  | bvUge => exact (bvCmp_spec .ule hb ha).bool (Value.rel₂_bv (fun y z => y.ule z) y x)
  | bvSlt => exact (bvCmp_spec .slt ha hb).bool (Value.rel₂_bv (fun y z => y.slt z) x y)
  | bvSle => exact (bvCmp_spec .sle ha hb).bool (Value.rel₂_bv (fun y z => y.sle z) x y)
  | bvSgt => exact (bvCmp_spec .slt hb ha).bool (Value.rel₂_bv (fun y z => y.slt z) y x)
  | bvSge => exact (bvCmp_spec .sle hb ha).bool (Value.rel₂_bv (fun y z => y.sle z) y x)

theorem overflowOp_spec (op : OverflowOp) (ha : s.Denotes ρ a x) (hb : s.Denotes ρ b y) :
    Spec V (op.build a b) s (Makes ρ .bool (op.sem (s.value ρ a) (s.value ρ b))) := by
  rw [ha.value, hb.value]
  cases op with
  | uaddOvf =>
    exact (overflowBinary_spec (f := .uAddOverflow) (o := fun y z => y.uaddOverflow z) ha hb
      (fun h h' => ⟨_, rfl, h, h'⟩) rfl trivial).bool
      (Value.rel₂_bv (fun y z => y.uaddOverflow z) x y)
  | saddOvf =>
    exact (overflowBinary_spec (f := .sAddOverflow) (o := fun y z => y.saddOverflow z) ha hb
      (fun h h' => ⟨_, rfl, h, h'⟩) rfl trivial).bool
      (Value.rel₂_bv (fun y z => y.saddOverflow z) x y)
  | usubOvf =>
    exact (overflowBinary_spec (f := .uSubOverflow) (o := fun y z => y.usubOverflow z) ha hb
      (fun h h' => ⟨_, rfl, h, h'⟩) rfl trivial).bool
      (Value.rel₂_bv (fun y z => y.usubOverflow z) x y)
  | ssubOvf =>
    exact (overflowBinary_spec (f := .sSubOverflow) (o := fun y z => y.ssubOverflow z) ha hb
      (fun h h' => ⟨_, rfl, h, h'⟩) rfl trivial).bool
      (Value.rel₂_bv (fun y z => y.ssubOverflow z) x y)
  | umulOvf =>
    exact (overflowBinary_spec (f := .uMulOverflow) (o := fun y z => y.umulOverflow z) ha hb
      (fun h h' => ⟨_, rfl, h, h'⟩) rfl trivial).bool
      (Value.rel₂_bv (fun y z => y.umulOverflow z) x y)
  | smulOvf =>
    exact (overflowBinary_spec (f := .sMulOverflow) (o := fun y z => y.smulOverflow z) ha hb
      (fun h h' => ⟨_, rfl, h, h'⟩) rfl trivial).bool
      (Value.rel₂_bv (fun y z => y.smulOverflow z) x y)
  | sdivOvf =>
    exact (overflowBinary_spec (f := .sDivOverflow) (o := fun y z => y.sdivOverflow z) ha hb
      (fun h h' => ⟨_, rfl, h, h'⟩) rfl trivial).bool
      (Value.rel₂_bv (fun y z => y.sdivOverflow z) x y)

theorem connective_spec (op : Connective) (ha : s.DenotesBool ρ a p) (hb : s.DenotesBool ρ b q) :
    Spec V (op.build a b) s (Makes ρ .bool (op.sem (s.value ρ a) (s.value ρ b))) := by
  rw [ha.value, hb.value]
  cases op with
  | boolAnd => exact (boolAnd_spec ha hb).bool rfl
  | boolOr => exact (boolOr_spec ha hb).bool rfl
  | boolImplies => exact (boolImplies_spec ha hb).bool rfl
  | boolEq => exact (boolEq_spec ha hb).bool rfl
  | boolXor => exact (boolXor_spec ha hb).bool rfl

/-- Bytes of the right number, whatever the bits above the width. -/
theorem bvConstBytes_any {bytes : List UInt8} (hw : Arena.SortOk (.bv w))
    (hlen : bytes.length = divCeil8 w) :
    Spec V (bvConstBytes bytes w) s fun t s' => ConstTerm s' t (BitVec.ofNat w (leNat bytes)) := by
  have hb : Spells (maskUnusedHighBits bytes w) (BitVec.ofNat w (leNat bytes)) :=
    ⟨by rw [length_maskUnusedHighBits, hlen], by rw [leNat_maskUnusedHighBits hlen,
      BitVec.toNat_ofNat]⟩
  have hok : normalizedBytes bytes w = ok (maskUnusedHighBits bytes w) := by
    simp [normalizedBytes, Arena.bytesForWidth_ok hw, Outcome.ensure, hlen]
  refine spec_read hok ?_
  have hlt : leNat (maskUnusedHighBits bytes w) < 2 ^ w := hb.toNat ▸ BitVec.isLt _
  exact (spec_add (k := .bvConst w _) hw ⟨rfl, hb.length, hlt⟩ trivial).mono
    fun t s' _ _ hn => ⟨_, hn, hb⟩

/-- A constant has its value under every assignment. -/
theorem Spec.constMakes (h : Spec V m s fun t s' => ConstTerm s' t r) (hu : u = .bv w r) :
    Spec V m s (Makes ρ (.bv w) u) :=
  (h.const rfl).bv hu

end Builder

/-! ## Any method -/

namespace TermOp

variable {op : TermOp}

/-- **A method with arguments that fit makes a term of the sort and value that SMT-LIB gives it.** -/
theorem build_spec (hV : op.VarsIn V) (h : op.sortOf s.sortAt = some σ) :
    Spec V op.build s fun t s' => Makes ρ σ (op.sem ρ t (s.value ρ)) t s' := by
  refine Spec.intro fun hs => ?_
  have bv {t w} (ht : s.sortAt t = some (.bv w)) : ∃ x : BitVec w, s.Denotes ρ t x :=
    ⟨_, hs.inv.denotes_of_sort ht⟩
  have bool {t} (ht : s.sortAt t = some .bool) := hs.inv.denotesBool_of_sort (ρ := ρ) ht
  cases op with
  | bvVarExternal name width external =>
    obtain ⟨hw, rfl⟩ := vectorSort_eq.mp h
    refine spec_validate hw ((spec_add (k := .bvVar width name external) hw rfl hV).mono fun t s' _ hs' hn => ?_)
    exact ⟨Arena.sortAt_eq_some.mpr ⟨_, hn, rfl⟩, hs'.inv.value_eq hn⟩
  | boolVarExternal name external =>
    obtain rfl := Option.some.inj h
    refine (spec_add (k := .boolVar name external) (σ := .bool) trivial rfl hV).mono fun t s' _ hs' hn => ?_
    exact ⟨Arena.sortAt_eq_some.mpr ⟨_, hn, rfl⟩, hs'.inv.value_eq hn⟩
  | boolConst value =>
    obtain rfl := Option.some.inj h
    exact ((boolConst_spec value).mono fun _ _ _ _ h => h ρ).bool rfl
  | bvConst value width =>
    obtain ⟨hw, rfl⟩ := vectorSort_eq.mp h
    exact (bvConst_spec value hw).constMakes rfl
  | bvConstBytes bytes width =>
    obtain ⟨hlen, h⟩ := Option.ite_none_right_eq_some.mp h
    obtain ⟨hw, rfl⟩ := vectorSort_eq.mp h
    exact (bvConstBytes_any hw hlen).constMakes rfl
  | unary op x =>
    obtain ⟨w, hx, rfl⟩ := bvWidth?_map_bv h
    obtain ⟨x, hx⟩ := bv hx
    exact unaryOp_spec op hx
  | binary op a b =>
    obtain ⟨w, hw, rfl⟩ := Option.map_eq_some_iff.mp h
    obtain ⟨⟨x, hx⟩, ⟨y, hy⟩⟩ := (sameWidth?_eq.mp hw).imp bv bv
    exact binaryOp_spec op hx hy
  | relation op a b =>
    obtain ⟨w, hw, rfl⟩ := Option.map_eq_some_iff.mp h
    obtain ⟨⟨x, hx⟩, ⟨y, hy⟩⟩ := (sameWidth?_eq.mp hw).imp bv bv
    exact relation_spec op hx hy
  | overflow op a b =>
    obtain ⟨w, hw, rfl⟩ := Option.map_eq_some_iff.mp h
    obtain ⟨⟨x, hx⟩, ⟨y, hy⟩⟩ := (sameWidth?_eq.mp hw).imp bv bv
    exact overflowOp_spec op hx hy
  | negOvf x =>
    obtain ⟨w, hx, rfl⟩ := Option.map_eq_some_iff.mp h
    obtain ⟨y, hx⟩ := bv (bvWidth?_eq.mp hx)
    have hv : Smt.bvnego (s.value ρ x) = .bool y.negOverflow := by
      rw [hx.value, Smt.bvnego, Value.bits_bv]
      rfl
    exact (negOvf_spec hx).bool hv
  | bvExtract child high low =>
    obtain ⟨w, hx, h⟩ := Option.bind_eq_some_iff.mp h
    obtain ⟨⟨hle, hlt⟩, h⟩ := Option.ite_none_right_eq_some.mp h
    obtain rfl := Option.some.inj h
    obtain ⟨x, hx⟩ := bv (bvWidth?_eq.mp hx)
    have hv : Smt.extract high low (s.value ρ child) = .bv _ (x.extractLsb high low) := by
      rw [hx.value, Smt.extract_bv]
    exact (bvExtract_spec hx hle hlt).bv hv
  | bvConcat high low =>
    obtain ⟨hw, hx, h⟩ := Option.bind_eq_some_iff.mp h
    obtain ⟨lw, hy, h⟩ := Option.bind_eq_some_iff.mp h
    obtain ⟨hok, rfl⟩ := vectorSort_eq.mp h
    obtain ⟨x, hx⟩ := bv (bvWidth?_eq.mp hx)
    obtain ⟨y, hy⟩ := bv (bvWidth?_eq.mp hy)
    have hv : Smt.concat (s.value ρ high) (s.value ρ low) = .bv _ (x ++ y) := by
      rw [hx.value, hy.value, Smt.concat_bv]
    exact (bvConcat_spec hx hy hok).bv hv
  | bvZext child extra =>
    obtain ⟨w, hx, h⟩ := Option.bind_eq_some_iff.mp h
    obtain ⟨hok, rfl⟩ := vectorSort_eq.mp h
    obtain ⟨x, hx⟩ := bv (bvWidth?_eq.mp hx)
    have hv : Smt.zeroExtend extra (s.value ρ child) = .bv _ (x.setWidth (w + extra)) := by
      rw [hx.value, Smt.zeroExtend_bv]
    exact (bvZext_spec hx hok).bv hv
  | bvSext child extra =>
    obtain ⟨w, hx, h⟩ := Option.bind_eq_some_iff.mp h
    obtain ⟨hok, rfl⟩ := vectorSort_eq.mp h
    obtain ⟨x, hx⟩ := bv (bvWidth?_eq.mp hx)
    have hv : Smt.signExtend extra (s.value ρ child) = .bv _ (x.signExtend (w + extra)) := by
      rw [hx.value, Smt.signExtend_bv]
    exact (bvSext_spec hx hok).bv hv
  | bvRepeat child count =>
    obtain ⟨w, hx, h⟩ := Option.bind_eq_some_iff.mp h
    obtain ⟨hok, rfl⟩ := vectorSort_eq.mp h
    have hcount : count ≠ 0 := by
      rintro rfl
      exact absurd hok.1 (by rw [Nat.mul_zero]; decide)
    obtain ⟨x, hx⟩ := bv (bvWidth?_eq.mp hx)
    have hv : Smt.repeated count (s.value ρ child) = .bv _ (x.replicate count) := by
      rw [hx.value, Smt.repeated_bv]
    exact (bvRepeat_spec hx hcount hok).bv hv
  | bvRotateLeft child amount =>
    obtain ⟨w, hx, rfl⟩ := bvWidth?_map_bv h
    obtain ⟨x, hx⟩ := bv hx
    have hv : Smt.rotateLeft amount (s.value ρ child) = .bv _ (x.rotateLeft amount) := by
      rw [hx.value]
      exact Value.map_bv (fun y => y.rotateLeft amount) x
    exact (bvRotateLeft_spec hx).bv hv
  | bvRotateRight child amount =>
    obtain ⟨w, hx, rfl⟩ := bvWidth?_map_bv h
    obtain ⟨x, hx⟩ := bv hx
    have hv : Smt.rotateRight amount (s.value ρ child) = .bv _ (x.rotateRight amount) := by
      rw [hx.value]
      exact Value.map_bv (fun y => y.rotateRight amount) x
    exact (bvRotateRight_spec hx).bv hv
  | bvIte cond x y =>
    obtain ⟨hc, h⟩ := Option.ite_none_right_eq_some.mp h
    obtain ⟨w, hw, rfl⟩ := Option.map_eq_some_iff.mp h
    obtain ⟨⟨u, hx⟩, ⟨v, hy⟩⟩ := (sameWidth?_eq.mp hw).imp bv bv
    have hv : Smt.ite (s.value ρ cond) (s.value ρ x) (s.value ρ y) =
        .bv w (if (s.value ρ cond).toBool then u else v) := by
      rw [Smt.ite, hx.value, hy.value, apply_ite (Value.bv w)]
    exact (bvIte_spec (bool hc) hx hy).bv hv
  | bvSelect cases default =>
    obtain ⟨w, hd, h⟩ := Option.bind_eq_some_iff.mp h
    obtain ⟨hcases, h⟩ := Option.ite_none_right_eq_some.mp h
    obtain rfl := Option.some.inj h
    obtain ⟨x, hd⟩ := bv (bvWidth?_eq.mp hd)
    have hdenote : CasesDenote s ρ cases (cases.map fun p =>
        ((s.value ρ p.1).toBool, (s.value ρ p.2).toBv w)) := by
      rw [CasesDenote, List.forall₂_map_right_iff]
      exact List.forall₂_same.mpr fun p hp => 
        ⟨bool (hcases p hp).1, hs.inv.denotes_of_sort (hcases p hp).2⟩
    exact (bvSelect_spec hdenote hd).bv (value_select hdenote hd le_rfl)
  | boolNot x =>
    obtain ⟨hx, h⟩ := Option.ite_none_right_eq_some.mp h
    obtain rfl := Option.some.inj h
    exact (boolNot_spec (bool hx)).bool rfl
  | connective op a b =>
    obtain ⟨⟨ha, hb⟩, h⟩ := Option.ite_none_right_eq_some.mp h
    obtain rfl := Option.some.inj h
    exact connective_spec op (bool ha) (bool hb)
  | boolIte cond x y =>
    obtain ⟨⟨hc, hx, hy⟩, h⟩ := Option.ite_none_right_eq_some.mp h
    obtain rfl := Option.some.inj h
    have hv : Smt.ite (s.value ρ cond) (s.value ρ x) (s.value ρ y) =
        .bool (if (s.value ρ cond).toBool then (s.value ρ x).toBool else (s.value ρ y).toBool) := by
      rw [Smt.ite, apply_ite Value.bool, ← (bool hx).value, ← (bool hy).value]
    exact (boolIte_spec (bool hc) (bool hx) (bool hy)).bool hv

theorem checkSelectCase_ok {p : TermId × TermId} (hc : s.sortAt p.1 = some .bool)
    (hv : s.sortAt p.2 = some (.bv w)) : checkSelectCase w p s = ok () := by
  simp only [checkSelectCase, bind_apply, expectBool, expectBv, Arena.expectBool_of_sort hc,
    Arena.expectBv_of_sort hv, ok_bind]
  exact ensure_eq_ok.mpr trivial

theorem checkSelectCase_err {p : TermId × TermId}
    (h : ¬(s.sortAt p.1 = some .bool ∧ s.sortAt p.2 = some (.bv w))) :
    ∃ e, checkSelectCase w p s = err e := by
  by_cases hc : s.sortAt p.1 = some .bool
  · cases hv : bvWidth? (s.sortAt p.2) with
    | none =>
      obtain ⟨e, he⟩ := expectBv_err (l := "BV select value") hv
      exact ⟨e, by simp [checkSelectCase, expectBool, expectBv, Arena.expectBool_of_sort hc, he]⟩
    | some u =>
      have hv := bvWidth?_eq.mp hv
      simp only [checkSelectCase, bind_apply, expectBool, expectBv, Arena.expectBool_of_sort hc,
        Arena.expectBv_of_sort hv, ok_bind]
      refine ensure_err fun hu => h ⟨hc, ?_⟩
      rw [hv, hu]
  · obtain ⟨e, he⟩ := expectBool_err (l := "BV select selector") hc
    exact ⟨e, by simp [checkSelectCase, expectBool, he]⟩

/-- The cases of a select are looked at until one does not fit. -/
theorem checkSelectCases_err {cases : List (TermId × TermId)}
    (h : ¬∀ p ∈ cases, s.sortAt p.1 = some .bool ∧ s.sortAt p.2 = some (.bv w)) :
    ∃ e, cases.forM (checkSelectCase w) s = err e := by
  induction cases with
  | nil => exact absurd (fun p hp => absurd hp List.not_mem_nil) h
  | cons p cases ih =>
    show ∃ e, (checkSelectCase w p >>= fun _ => cases.forM (checkSelectCase w)) s = err e
    rw [bind_apply]
    by_cases hp : s.sortAt p.1 = some .bool ∧ s.sortAt p.2 = some (.bv w)
    · obtain ⟨e, he⟩ := ih fun hall => h (List.forall_mem_cons.mpr ⟨hp, hall⟩)
      exact ⟨e, by rw [checkSelectCase_ok hp.1 hp.2, ok_bind, he]⟩
    · obtain ⟨e, he⟩ := checkSelectCase_err hp
      exact ⟨e, by rw [he]; rfl⟩

theorem rejects_connective {g : TermId → TermId → ArenaM β} {l' : String}
    (h : ¬(s.sortAt a = some .bool ∧ s.sortAt b = some .bool)) :
    Rejects (Grow.read (expectBool a l) >>= fun _ => Grow.read (expectBool b l') >>= fun _ =>
      g a b) s := by
  by_cases ha : s.sortAt a = some .bool
  · refine rejects_read (Arena.expectBool_of_sort ha) (rejects_check (expectBool_err ?_))
    exact fun hb => h ⟨ha, hb⟩
  · exact rejects_check (expectBool_err ha)

theorem connective_rejects (op : Connective)
    (h : ¬(s.sortAt a = some .bool ∧ s.sortAt b = some .bool)) : Rejects (op.build a b) s := by
  have hp : ¬(s.sortAt (orderPair a b).1 = some .bool ∧ s.sortAt (orderPair a b).2 = some .bool) := by
    rcases orderPair_cases a b with hp | hp
    · rwa [hp]
    · rw [hp]
      exact fun hab => h hab.symm
  cases op with
  | boolAnd | boolOr =>
    simp only [Connective.build, Builder.boolAnd, Builder.boolOr]
    generalize orderPair a b = p at hp ⊢
    exact rejects_connective (g := fun _ _ => _) hp
  | boolXor => exact Rejects.bind (rejects_connective (g := fun _ _ => _) h)
  | _ => exact rejects_connective (g := fun _ _ => _) h

/-- **A method with arguments that do not fit refuses, before it adds anything.** -/
theorem build_rejects (hs : s.Inv) (h : op.sortOf s.sortAt = none) : Rejects op.build s := by
  cases op with
  | bvVarExternal name width external => exact rejects_validate h
  | boolVarExternal => cases h
  | boolConst => cases h
  | bvConst value width => exact rejects_validate h
  | bvConstBytes bytes width =>
    refine rejects_check ?_
    rw [normalizedBytes, bytesForWidth]
    by_cases hw : 1 ≤ width ∧ width ≤ maxBvWidth
    · have hlen : bytes.length ≠ divCeil8 width := by
        rintro hlen
        simp [sortOf, hlen, vectorSort, hw] at h
      simp [validateBvWidth, Outcome.ensure, hw, hlen]
    · simp [validateBvWidth, Outcome.ensure, hw]
  | unary op x => exact unaryOp_rejects op hs (Option.map_eq_none_iff.mp h)
  | binary op a b => exact binaryOp_rejects op (Option.map_eq_none_iff.mp h)
  | relation op a b => exact relation_rejects op (Option.map_eq_none_iff.mp h)
  | overflow op a b => exact overflowOp_rejects op (Option.map_eq_none_iff.mp h)
  | negOvf x => exact rejects_check (expectBv_err (Option.map_eq_none_iff.mp h))
  | bvExtract child high low =>
    refine rejects_bv fun w hw => rejects_ensure fun hb => ?_
    simp [sortOf, hw, hb] at h
  | bvConcat high low =>
    refine rejects_bv fun hw hhigh => rejects_bv fun lw hlow => ?_
    refine rejects_ensured fun _ => rejects_validate ?_
    simpa [sortOf, hhigh, hlow] using h
  | bvZext child extra | bvSext child extra =>
    refine rejects_bv fun w hw => rejects_ensured fun _ => rejects_validate ?_
    simpa [sortOf, hw] using h
  | bvRepeat child count =>
    refine rejects_ensured fun _ => rejects_bv fun w hw => ?_
    refine rejects_ensured fun _ => rejects_validate ?_
    simpa [sortOf, hw] using h
  | bvRotateLeft child amount => exact rejects_check (expectBv_err (Option.map_eq_none_iff.mp h))
  | bvRotateRight child amount => exact rejects_check (expectBv_err (Option.map_eq_none_iff.mp h))
  | bvIte cond x y =>
    by_cases hc : s.sortAt cond = some .bool
    · refine rejects_read (Arena.expectBool_of_sort hc) (rejects_sameBv ?_)
      simpa [sortOf, hc] using h
    · exact rejects_check (expectBool_err hc)
  | bvSelect cases default =>
    refine rejects_bv fun w hw => rejects_check (checkSelectCases_err fun hall => ?_)
    rw [sortOf, hw, Option.bind_some, if_pos hall] at h
    cases h
  | boolNot x =>
    refine rejects_check (expectBool_err fun hx => ?_)
    simp [sortOf, hx] at h
  | connective op a b =>
    refine connective_rejects op fun hab => ?_
    simp [sortOf, hab] at h
  | boolIte cond x y =>
    by_cases hc : s.sortAt cond = some .bool
    · refine rejects_read (Arena.expectBool_of_sort hc) ?_
      refine rejects_connective (g := fun _ _ => _) fun hxy => ?_
      simp [sortOf, hc, hxy] at h
    · exact rejects_check (expectBool_err hc)

/-- What a call can do, whatever its arguments are. -/
theorem build_cases (hs : Built V s) (hV : op.VarsIn V) :
    (∃ t s' σ, op.build.run s = (ok t, s') ∧ s ≤ s' ∧ Built V s' ∧ op.sortOf s.sortAt = some σ ∧
      ∀ ρ, Makes ρ σ (op.sem ρ t (s.value ρ)) t s') ∨
    ∃ e s', op.build.run s = (err e, s') ∧ s ≤ s' ∧ Built V s' := by
  cases h : op.sortOf s.sortAt with
  | none =>
    obtain ⟨e, he⟩ := build_rejects hs.inv h
    exact .inr ⟨e, s, he, le_refl s, hs⟩
  | some σ =>
    rcases (Spec.all fun ρ => build_spec (ρ := ρ) hV h).cases hs with
      ⟨t, s', hrun, hle, hs', ht⟩ | ⟨s', hrun, hle, hs', -⟩
    · exact .inl ⟨t, s', σ, hrun, hle, hs', rfl, ht⟩
    · exact .inr ⟨_, s', hrun, hle, hs'⟩

end TermOp
end Qfbv
end SmtServer
