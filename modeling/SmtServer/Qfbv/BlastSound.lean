import SmtServer.Qfbv.Blast
import SmtServer.Qfbv.Words

/-!
# Blasting keeps the meaning of terms

Gates have a value for every choice of the inputs, terms one for every assignment to the variables.
The two are tied together by the input gates of the variables (`Reads`): where the inputs of a
variable are the bits of its value, the gates of every term compute the term's value. Input gates
are fresh, so that any assignment is read from some inputs (`Inputs.exists_inputs`).

All of it is up to the limit of the arena, which is now a limit of the *final* arena: a counter that
overflowed, or an id that was cut off, would have left an arena that does not fit.
-/

namespace SmtServer
namespace Qfbv

open Lib Outcome
open Lib.Smt (Value)

namespace GateArena

variable {s s' : GateArena} {inputs : Nat → Bool} {g : GateId} {gs : List GateId} {α β : Type}

/-! ## Specifications up to the limit -/

/-- From an arena with the invariant, a run that leaves an arena which fits returns, keeps the
invariant, and returns what `Q` allows. -/
def FitSpec (m : GateM α) (s : GateArena) (Q : α → GateArena → Prop) : Prop :=
  Grow.Spec Fits Inv (fun _ _ => False) m s Q

theorem limit_fits : Grow.Limit Fits := fun h hf => hf.of_le h

theorem Spec.fits {m : GateM α} {Q : α → GateArena → Prop} (h : Spec m s Q) : FitSpec m s Q :=
  fun hs _ => h hs trivial

theorem FitSpec.bind {m : GateM α} {f : α → GateM β} {P : α → GateArena → Prop}
    {Q : β → GateArena → Prop} (hm : FitSpec m s P)
    (hf : ∀ a s', s ≤ s' → s'.Inv → P a s' → FitSpec (f a) s' Q) : FitSpec (m >>= f) s Q := by
  refine Grow.Spec.bind limit_fits hm ?_
  intro a s' hle hp hs'
  exact hf a s' hle hs' hp hs'

theorem fitSpec_pure {a : α} {Q : α → GateArena → Prop} (h : s.Inv → Q a s) :
    FitSpec (pure a : GateM α) s Q := (spec_pure h).fits

theorem FitSpec.mono {m : GateM α} {P Q : α → GateArena → Prop} (h : FitSpec m s P)
    (hpq : ∀ a s', s ≤ s' → s'.Inv → P a s' → Q a s') : FitSpec m s Q :=
  Grow.Spec.mono h hpq

theorem fitSpec_inv {m : GateM α} {Q : α → GateArena → Prop} (h : s.Inv → FitSpec m s Q) :
    FitSpec m s Q := fun hs => h hs hs

/-- A value that is looked up, or computed without any gates. -/
theorem fitSpec_lift {x : Result α} {a : α} {f : α → GateM β} {Q : β → GateArena → Prop}
    (hx : x = ok a) (h : FitSpec (f a) s Q) : FitSpec (Grow.lift x >>= f) s Q := by
  intro hs
  subst hx
  exact Grow.wp_bind_run rfl (h hs)

/-- Read a specification back: what leaves an arena that fits returns. -/
theorem FitSpec.run {m : GateM α} {Q : α → GateArena → Prop} (h : FitSpec m s Q) (hs : s.Inv)
    (hfits : (m.run s).2.Fits) : ∃ a s', m.run s = (ok a, s') ∧ s ≤ s' ∧ s'.Inv ∧ Q a s' := by
  have hw := h hs hfits
  have hle := m.grows s
  cases hr : m.run s with
  | mk o s' =>
    rw [hr] at hw hle
    cases o with
    | ok a => exact ⟨a, s', rfl, hle, hw.1, hw.2⟩
    | err e => exact hw.1.elim
    | panic => exact hw.elim

/-! ## Input gates -/

theorem input_spec : FitSpec input s fun g s' =>
    s'.gates[g]? = some (.input s.inputCount) ∧ s.inputCount < s'.inputCount := by
  intro hs hfits
  rcases input_run hs with ⟨-, hr⟩ | ⟨hlarge, hr⟩
  · rw [hr] at hfits ⊢
    simp only [Fits, List.length_append, List.length_singleton] at hfits
    rw [Nat.mod_eq_of_lt (by omega)]
    exact ⟨hs.input, by simp, Nat.lt_succ_self _⟩
  · rw [hr] at hfits
    have := hs.inputCount_le
    have hle : s.gates.length ≤ 2 ^ 32 := hfits
    omega

/-- The gates are input gates, each later than those before it. -/
def Inputs (s : GateArena) (gs : List GateId) : Prop :=
  ∃ ids : List Nat, ids.Pairwise (· < ·) ∧ (∀ id ∈ ids, id < s.inputCount) ∧
    List.Forall₂ (fun g id => s.gates[g]? = some (.input id)) gs ids

theorem getElem?_mono {k : GateKind} (hle : s ≤ s') (h : s.gates[g]? = some k) :
    s'.gates[g]? = some k := by
  obtain ⟨rest, hrest⟩ := hle.1
  rw [← hrest, List.getElem?_append_left (List.getElem?_eq_some_iff.mp h).1, h]

namespace Inputs

theorem nil : s.Inputs [] := ⟨[], .nil, by simp, .nil⟩

theorem mono (h : s.Inputs gs) (hle : s ≤ s') : s'.Inputs gs := by
  obtain ⟨ids, hsorted, hlt, hget⟩ := h
  exact ⟨ids, hsorted, fun id hid => (hlt id hid).trans_le hle.2,
    hget.imp fun _ _ hg => getElem?_mono hle hg⟩

theorem snoc (h : s.Inputs gs) (hle : s ≤ s') (hg : s'.gates[g]? = some (.input s.inputCount))
    (hcount : s.inputCount < s'.inputCount) : s'.Inputs (gs ++ [g]) := by
  obtain ⟨ids, hsorted, hlt, hget⟩ := h
  refine ⟨ids ++ [s.inputCount], ?_, ?_, ?_⟩
  · rw [List.pairwise_append]
    exact ⟨hsorted, List.pairwise_singleton _ _, by simpa using hlt⟩
  · intro id hid
    rcases List.mem_append.mp hid with hid | hid
    · exact (hlt id hid).trans hcount
    · exact List.mem_singleton.mp hid ▸ hcount
  · exact List.rel_append (hget.imp fun _ _ hg => getElem?_mono hle hg) (.cons hg .nil)

theorem lt_length (h : s.Inputs gs) (hg : g ∈ gs) : g < s.gates.length := by
  obtain ⟨ids, -, -, hget⟩ := h
  obtain ⟨i, hi, rfl⟩ := List.mem_iff_getElem.mp hg
  have hget' := List.Forall₂.get hget hi (hget.length_eq ▸ hi)
  exact (List.getElem?_eq_some_iff.mp hget').1

/-- **Input gates compute whatever one likes.** -/
theorem exists_inputs (h : s.Inputs gs) (hs : s.Inv) {bits : List Bool}
    (hlen : bits.length = gs.length) : ∃ inputs, s.ComputesAll inputs gs bits := by
  obtain ⟨ids, hsorted, -, hget⟩ := h
  have hnodup : ids.Nodup := hsorted.imp fun h => Nat.ne_of_lt h
  refine ⟨fun id => bits.getD (ids.idxOf id) false, List.forall₂_iff_get.mpr ⟨hlen.symm, ?_⟩⟩
  intro i h₁ h₂
  have h₃ : i < ids.length := hget.length_eq ▸ h₁
  have hgate := List.Forall₂.get hget h₁ h₃
  rw [List.get_eq_getElem, List.get_eq_getElem] at hgate ⊢
  refine (hs.computes_get hgate).congr fun _ => ?_
  rw [GateKind.eval, hnodup.idxOf_getElem i h₃, List.getD_eq_getElem _ _ h₂]

end Inputs

theorem inputs_spec (xs : List α) : FitSpec (xs.mapM fun _ => input) s fun gs s' =>
    gs.length = xs.length ∧ ∀ before, s.Inputs before → s'.Inputs (before ++ gs) := by
  induction xs generalizing s with
  | nil => exact fitSpec_pure fun _ => ⟨rfl, fun before h => by simpa using h⟩
  | cons x xs ih =>
    rw [List.mapM_cons]
    refine input_spec.bind fun g s₁ h₁ _ hg => ?_
    refine ih.bind fun gs s₂ _ _ hgs => fitSpec_pure fun _ => ⟨by simp [hgs.1], ?_⟩
    intro before h
    rw [List.append_cons]
    exact hgs.2 _ (h.snoc h₁ hg.1 hg.2)

/-! ## Values -/

/-- The gates of the value compute the value. -/
def Means (s : GateArena) (inputs : Nat → Bool) : BlastedValue → Value → Prop
  | .bool g, .bool b => s.Computes inputs g b
  | .bv bits, .bv _ x => s.ComputesAll inputs bits (BitList.bits x)
  | _, _ => False

theorem Means.mono {v : BlastedValue} {x : Value} (h : s.Means inputs v x) (hle : s ≤ s') :
    s'.Means inputs v x := by
  cases v <;> cases x <;> first | exact Computes.mono h hle | exact ComputesAll.mono h hle | exact h

end GateArena

namespace BlastContext

open GateArena

variable {ctx : BlastContext} {s s' : GateArena} {inputs : Nat → Bool} {t : TermId} {w : Nat}
  {x : BitVec w} {b : Bool} {v : Value} {α : Type} {Q : α → GateArena → Prop}

/-- The term has been blasted, and its gates compute the value. -/
def Has (ctx : BlastContext) (s : GateArena) (inputs : Nat → Bool) (t : TermId) (x : Value) :
    Prop :=
  ∃ v, ctx.values[t]? = some (some v) ∧ s.Means inputs v x

theorem Has.mono (h : ctx.Has s inputs t v) (hle : s ≤ s') : ctx.Has s' inputs t v := by
  obtain ⟨u, hget, hu⟩ := h
  exact ⟨u, hget, hu.mono hle⟩

theorem Has.bool (h : ctx.Has s inputs t (.bool b)) :
    ∃ g, ctx.bool t = ok g ∧ s.Computes inputs g b := by
  obtain ⟨u, hget, hu⟩ := h
  cases u with
  | bool g => exact ⟨g, by simp [BlastContext.bool, BlastContext.value, hget, ofOption], hu⟩
  | bv bits => exact hu.elim

theorem Has.bv (h : ctx.Has s inputs t (.bv w x)) :
    ∃ bits, ctx.bv t = ok bits ∧ s.ComputesAll inputs bits (BitList.bits x) := by
  obtain ⟨u, hget, hu⟩ := h
  cases u with
  | bool g => exact hu.elim
  | bv bits => exact ⟨bits, by simp [BlastContext.bv, BlastContext.value, hget, ofOption], hu⟩

theorem Has.spec_bool (h : ctx.Has s inputs t (.bool b)) {f : GateId → GateM α}
    (hf : ∀ g, s.Computes inputs g b → FitSpec (f g) s Q) :
    FitSpec (Grow.lift (ctx.bool t) >>= f) s Q := by
  obtain ⟨g, hok, hg⟩ := h.bool
  exact fitSpec_lift hok (hf g hg)

theorem Has.spec_bv (h : ctx.Has s inputs t (.bv w x)) {f : Bits → GateM α}
    (hf : ∀ bits, s.ComputesAll inputs bits (BitList.bits x) → FitSpec (f bits) s Q) :
    FitSpec (Grow.lift (ctx.bv t) >>= f) s Q := by
  obtain ⟨bits, hok, hbits⟩ := h.bv
  exact fitSpec_lift hok (hf bits hbits)

end BlastContext

namespace Blast

open Circuits GateArena

variable {q : Query} {ctx : BlastContext} {s : GateArena} {inputs : Nat → Bool} {ρ : Env}
  {t a b c : TermId} {w v u : Nat} {x : BitVec w} {y : BitVec v} {z : BitVec u} {p r : Bool}

/-! ## One node -/

/-- The node is no variable, and its gates compute the value. -/
def IsValue (inputs : Nat → Bool) (x : Value) (out : Blasted) (s : GateArena) : Prop :=
  out.2 = none ∧ s.Means inputs out.1 x

section Shapes

variable (ha : ctx.Has s inputs a (.bv w x)) (hb : ctx.Has s inputs b (.bv v y))

include ha

theorem blastUnary_spec {circuit : Bits → GateM Bits}
    (hc : ∀ bits, s.ComputesAll inputs bits (BitList.bits x) →
      Spec (circuit bits) s fun out s' => s'.ComputesAll inputs out (BitList.bits z)) :
    FitSpec (blastUnary ctx circuit a) s (IsValue inputs (.bv u z)) := by
  refine ha.spec_bv fun bits hbits => ?_
  exact (hc bits hbits).fits.bind fun out s' _ _ h => fitSpec_pure fun _ => ⟨rfl, h⟩

theorem blastTest_spec {circuit : Bits → GateM GateId}
    (hc : ∀ bits, s.ComputesAll inputs bits (BitList.bits x) →
      Spec (circuit bits) s fun g s' => s'.Computes inputs g p) :
    FitSpec (blastTest ctx circuit a) s (IsValue inputs (.bool p)) := by
  refine ha.spec_bv fun bits hbits => ?_
  exact (hc bits hbits).fits.bind fun out s' _ _ h => fitSpec_pure fun _ => ⟨rfl, h⟩

include hb

theorem blastBinary_spec {circuit : Bits → Bits → GateM Bits}
    (hc : ∀ as bs, s.ComputesAll inputs as (BitList.bits x) →
      s.ComputesAll inputs bs (BitList.bits y) →
      Spec (circuit as bs) s fun out s' => s'.ComputesAll inputs out (BitList.bits z)) :
    FitSpec (blastBinary ctx circuit a b) s (IsValue inputs (.bv u z)) := by
  refine ha.spec_bv fun as has => hb.spec_bv fun bs hbs => ?_
  exact (hc as bs has hbs).fits.bind fun out s' _ _ h => fitSpec_pure fun _ => ⟨rfl, h⟩

theorem blastCompare_spec {circuit : Bits → Bits → GateM GateId}
    (hc : ∀ as bs, s.ComputesAll inputs as (BitList.bits x) →
      s.ComputesAll inputs bs (BitList.bits y) →
      Spec (circuit as bs) s fun g s' => s'.Computes inputs g p) :
    FitSpec (blastCompare ctx circuit a b) s (IsValue inputs (.bool p)) := by
  refine ha.spec_bv fun as has => hb.spec_bv fun bs hbs => ?_
  exact (hc as bs has hbs).fits.bind fun out s' _ _ h => fitSpec_pure fun _ => ⟨rfl, h⟩

end Shapes

theorem blastConnective_spec {circuit : GateId → GateId → GateM GateId} {op : Bool}
    (ha : ctx.Has s inputs a (.bool p)) (hb : ctx.Has s inputs b (.bool r))
    (hc : ∀ g h, s.Computes inputs g p → s.Computes inputs h r →
      Spec (circuit g h) s fun g s' => s'.Computes inputs g op) :
    FitSpec (blastConnective ctx circuit a b) s (IsValue inputs (.bool op)) := by
  refine ha.spec_bool fun g hg => hb.spec_bool fun h hh => ?_
  exact (hc g h hg hh).fits.bind fun out s' _ _ h => fitSpec_pure fun _ => ⟨rfl, h⟩

/-- The value of a choice among vectors of one width. -/
def pick (w : Nat) (cases : List (Bool × BitVec w)) (default : BitVec w) : BitVec w :=
  match cases with
  | [] => default
  | (c, x) :: rest => if c then x else pick w rest default

theorem select_eq (cases : List (Bool × BitVec w)) (default : BitVec w) :
    Smt.select (cases.map fun c => (.bool c.1, .bv w c.2)) (.bv w default) =
      .bv w (pick w cases default) := by
  induction cases with
  | nil => rfl
  | cons c cases ih =>
    rw [List.map_cons, Smt.select, ih, pick, Value.toBool_bool]
    split <;> rfl

theorem blastCases_spec {cases : List (TermId × TermId)} {default : Bits} {x : BitVec w}
    {values : List (Bool × BitVec w)} (hd : s.ComputesAll inputs default (BitList.bits x))
    (hcases : List.Forall₂ (fun case value => ctx.Has s inputs case.1 (.bool value.1) ∧
      ctx.Has s inputs case.2 (.bv w value.2)) cases values) :
    FitSpec (blastCases ctx cases default) s fun out s' =>
      s'.ComputesAll inputs out (BitList.bits (pick w values x)) := by
  induction hcases with
  | nil => exact fitSpec_pure fun _ => hd
  | @cons case value cases values hcase _ ih =>
    rw [blastCases, List.reverse_cons, List.foldlM_append]
    refine ih.bind fun result s₁ h₁ _ hresult => ?_
    rw [List.foldlM_cons]
    refine FitSpec.bind (P := fun out s' =>
      s'.ComputesAll inputs out (BitList.bits (pick w (value :: values) x))) ?_
      fun out s' _ _ h => fitSpec_pure fun _ => h
    refine (hcase.1.mono h₁).spec_bool fun selector hselector => ?_
    refine (hcase.2.mono h₁).spec_bv fun bits hbits => ?_
    exact (muxWord_spec hselector hbits hresult).fits

/-! ## Every kind -/

theorem bvConstValue_cases (hs : q.arena.Inv) (ρ : Env) (ha : q.arena.IsBv a w) :
    (∃ bytes, bvConstValue q a = ok (some (w, bytes)) ∧
      q.arena.bv ρ a w = Bytes.word w bytes) ∨ bvConstValue q a = ok none := by
  obtain ⟨n, hn, hsort⟩ := Arena.sortAt_eq_some.mp ha
  have hk : q.arena.kindAt a = some n.kind := Arena.kindAt_eq_some.mpr ⟨n, hn, rfl⟩
  have hnode : q.arena.node a = ok n := by simp [Arena.node, hn, ofOption]
  rw [bvConstValue, hnode, ok_bind]
  cases hkind : n.kind with
  | bvConst width bytes =>
    rw [hkind] at hk
    have hval : q.arena.value ρ a = .bv width (Bytes.word width bytes) := hs.value_kind hk
    obtain rfl : width = w := by
      have := hs.value_sort (ρ := ρ) ha
      rw [hval] at this
      simpa [valueSort] using this
    exact .inl ⟨bytes, rfl, by rw [Arena.bv, hval, Value.toBv_bv]⟩
  | _ => exact .inr rfl

section Kinds

variable {k : NodeKind} (hs : q.arena.Inv) (hk : q.arena.kindAt t = some k)
  (hchild : ∀ j ∈ k.children, ctx.Has s inputs j (q.arena.value ρ j))

include hs

theorem has_bv (h : ctx.Has s inputs a (q.arena.value ρ a)) (ha : q.arena.IsBv a w) :
    ctx.Has s inputs a (.bv w (q.arena.bv ρ a w)) := by
  rwa [ha.value_eq hs] at h

theorem has_bool (h : ctx.Has s inputs a (q.arena.value ρ a))
    (ha : q.arena.sortAt a = some .bool) :
    ctx.Has s inputs a (.bool (q.arena.value ρ a).toBool) := by
  rwa [hs.value_bool ha] at h

theorem width_bounds (h : q.arena.IsBv a w) : 0 < w ∧ w ≤ 2 ^ 32 := by
  have := hs.width_le a w h
  exact ⟨this.1, this.2.trans (by decide)⟩

include hk hchild

theorem unary_spec {f : ∀ {w : Nat}, BitVec w → BitVec w} {circuit : Bits → GateM Bits}
    (hchildren : a ∈ k.children)
    (hsort : ∀ {srt σ}, k.HasSort srt σ → ∃ w, σ = .bv w ∧ srt a = some (.bv w))
    (hsem : ∀ {ρ id look}, k.sem ρ id look = Value.map f (look a))
    (hc : ∀ {w : Nat} {x : BitVec w} {as : Bits}, 0 < w →
      s.ComputesAll inputs as (BitList.bits x) →
      Spec (circuit as) s fun out s' => s'.ComputesAll inputs out (BitList.bits (f x))) :
    FitSpec (blastUnary ctx circuit a) s (IsValue inputs (q.arena.value ρ t)) := by
  obtain ⟨σ, ht, hσ⟩ := hs.hasSort hk
  obtain ⟨w, rfl, ha⟩ := hsort hσ
  rw [hs.value_kind hk, hsem, Arena.IsBv.value_eq hs ha, Value.map_bv]
  exact blastUnary_spec (has_bv hs (hchild a hchildren) ha)
    fun as has => hc (width_bounds hs ha).1 has

theorem binary_spec {f : ∀ {w : Nat}, BitVec w → BitVec w → BitVec w}
    {circuit : Bits → Bits → GateM Bits} (hca : a ∈ k.children) (hcb : b ∈ k.children)
    (hsort : ∀ {srt σ}, k.HasSort srt σ →
      ∃ w, σ = .bv w ∧ srt a = some (.bv w) ∧ srt b = some (.bv w))
    (hsem : ∀ {ρ id look}, k.sem ρ id look = Value.map₂ f (look a) (look b))
    (hc : ∀ {w : Nat} {x y : BitVec w} {as bs : Bits}, 0 < w → w ≤ 2 ^ 32 →
      s.ComputesAll inputs as (BitList.bits x) → s.ComputesAll inputs bs (BitList.bits y) →
      Spec (circuit as bs) s fun out s' => s'.ComputesAll inputs out (BitList.bits (f x y))) :
    FitSpec (blastBinary ctx circuit a b) s (IsValue inputs (q.arena.value ρ t)) := by
  obtain ⟨σ, ht, hσ⟩ := hs.hasSort hk
  obtain ⟨w, rfl, ha, hb⟩ := hsort hσ
  obtain ⟨hpos, hle⟩ := width_bounds hs ha
  rw [hs.value_kind hk, hsem, Arena.IsBv.value_eq hs ha, Arena.IsBv.value_eq hs hb, Value.map₂_bv]
  exact blastBinary_spec (has_bv hs (hchild a hca) ha) (has_bv hs (hchild b hcb) hb)
    fun as bs has hbs => hc hpos hle has hbs

theorem compare_spec {f : ∀ {w : Nat}, BitVec w → BitVec w → Bool}
    {circuit : Bits → Bits → GateM GateId} (hca : a ∈ k.children) (hcb : b ∈ k.children)
    (hsort : ∀ {srt σ}, k.HasSort srt σ →
      ∃ w, σ = .bool ∧ srt a = some (.bv w) ∧ srt b = some (.bv w))
    (hsem : ∀ {ρ id look}, k.sem ρ id look = Value.rel₂ f (look a) (look b))
    (hc : ∀ {w : Nat} {x y : BitVec w} {as bs : Bits}, 0 < w →
      s.ComputesAll inputs as (BitList.bits x) → s.ComputesAll inputs bs (BitList.bits y) →
      Spec (circuit as bs) s fun g s' => s'.Computes inputs g (f x y)) :
    FitSpec (blastCompare ctx circuit a b) s (IsValue inputs (q.arena.value ρ t)) := by
  obtain ⟨σ, ht, hσ⟩ := hs.hasSort hk
  obtain ⟨w, rfl, ha, hb⟩ := hsort hσ
  rw [hs.value_kind hk, hsem, Arena.IsBv.value_eq hs ha, Arena.IsBv.value_eq hs hb, Value.rel₂_bv]
  exact blastCompare_spec (has_bv hs (hchild a hca) ha) (has_bv hs (hchild b hcb) hb)
    fun as bs has hbs => hc (width_bounds hs ha).1 has hbs

theorem connective_spec {f : Bool → Bool → Bool} {circuit : GateId → GateId → GateM GateId}
    (hca : a ∈ k.children) (hcb : b ∈ k.children)
    (hsort : ∀ {srt σ}, k.HasSort srt σ → srt a = some .bool ∧ srt b = some .bool)
    (hsem : q.arena.value ρ t =
      .bool (f (q.arena.value ρ a).toBool (q.arena.value ρ b).toBool))
    (hc : ∀ {p r : Bool} {g h : GateId}, s.Computes inputs g p → s.Computes inputs h r →
      Spec (circuit g h) s fun g s' => s'.Computes inputs g (f p r)) :
    FitSpec (blastConnective ctx circuit a b) s (IsValue inputs (q.arena.value ρ t)) := by
  obtain ⟨σ, -, hσ⟩ := hs.hasSort hk
  obtain ⟨ha, hb⟩ := hsort hσ
  rw [hsem]
  exact blastConnective_spec (has_bool hs (hchild a hca) ha) (has_bool hs (hchild b hcb) hb)
    fun g h hg hh => hc hg hh

end Kinds

theorem blastMul_spec (hs : q.arena.Inv) (hk : q.arena.kindAt t = some (.bvMul a b))
    (hchild : ∀ j ∈ [a, b], ctx.Has s inputs j (q.arena.value ρ j)) :
    FitSpec (blastMul q ctx a b) s (IsValue inputs (q.arena.value ρ t)) := by
  obtain ⟨σ, ht, w, rfl, ha, hb⟩ := hs.hasSort hk
  have hva := has_bv hs (hchild a (by simp)) ha
  have hvb := has_bv hs (hchild b (by simp)) hb
  have hval : q.arena.value ρ t = .bv w (q.arena.bv ρ a w * q.arena.bv ρ b w) := by
    rw [Arena.IsBv.value_eq hs ht, (Arena.bv_bvMul hs hk ht).2.2]
  rw [hval, blastMul]
  rcases bvConstValue_cases hs ρ ha with ⟨bytes, hconst, hword⟩ | hconst
  · refine fitSpec_lift hconst (hvb.spec_bv fun bs hbs => ?_)
    by_cases huse : useConstantMultiplier bytes bs.length = true
    · rw [if_pos huse, hword, BitVec.mul_comm]
      exact (mulConst_spec hbs bytes).fits.bind fun out s' _ _ h => fitSpec_pure fun _ => ⟨rfl, h⟩
    · rw [if_neg huse]
      refine hva.spec_bv fun as has => ?_
      exact (mul_spec has hbs).fits.bind fun out s' _ _ h => fitSpec_pure fun _ => ⟨rfl, h⟩
  refine fitSpec_lift hconst ?_
  rcases bvConstValue_cases hs ρ hb with ⟨bytes, hconst, hword⟩ | hconst
  · refine fitSpec_lift hconst (hva.spec_bv fun as has => ?_)
    by_cases huse : useConstantMultiplier bytes as.length = true
    · rw [if_pos huse, hword]
      exact (mulConst_spec has bytes).fits.bind fun out s' _ _ h => fitSpec_pure fun _ => ⟨rfl, h⟩
    · rw [if_neg huse]
      refine hvb.spec_bv fun bs hbs => ?_
      exact (mul_spec has hbs).fits.bind fun out s' _ _ h => fitSpec_pure fun _ => ⟨rfl, h⟩
  · refine fitSpec_lift hconst ?_
    exact blastBinary_spec hva hvb fun as bs has hbs => mul_spec has hbs

/-- A choice among cases, when the selectors and the values are known. -/
theorem bvSelect_spec {cases : List (TermId × TermId)} {default : TermId} (hs : q.arena.Inv)
    (hk : q.arena.kindAt t = some (.bvSelect cases default))
    (hchild : ∀ j ∈ (NodeKind.bvSelect cases default).children,
      ctx.Has s inputs j (q.arena.value ρ j)) :
    FitSpec (blastUnary ctx (blastCases ctx cases) default) s
      (IsValue inputs (q.arena.value ρ t)) := by
  obtain ⟨σ, -, w, rfl, hd, hcases⟩ := hs.hasSort hk
  simp only [NodeKind.children, List.mem_cons, List.mem_flatMap] at hchild
  have hmap : cases.map (fun c => (q.arena.value ρ c.1, q.arena.value ρ c.2)) =
      (cases.map fun c => ((q.arena.value ρ c.1).toBool, q.arena.bv ρ c.2 w)).map
        fun c => (Value.bool c.1, Value.bv w c.2) := by
    rw [List.map_map]
    refine List.map_congr_left fun c hc => Prod.ext ?_ ?_
    · exact hs.value_bool (hcases c hc).1
    · exact Arena.IsBv.value_eq hs (hcases c hc).2
  rw [hs.value_kind hk, NodeKind.sem, hmap, Arena.IsBv.value_eq hs hd, select_eq]
  refine (has_bv hs (hchild default (.inl rfl)) hd).spec_bv fun bits hbits => ?_
  refine (blastCases_spec hbits ?_).bind fun out s' _ _ h => fitSpec_pure fun _ => ⟨rfl, h⟩
  rw [List.forall₂_map_right_iff, List.forall₂_same]
  intro c hc
  exact ⟨has_bool hs (hchild c.1 (.inr ⟨c, hc, by simp⟩)) (hcases c hc).1,
    has_bv hs (hchild c.2 (.inr ⟨c, hc, by simp⟩)) (hcases c hc).2⟩

/-- **The gates of a node compute its value**, whatever the node is. -/
theorem blastKind_spec {k : NodeKind} (hs : q.arena.Inv) (hk : q.arena.kindAt t = some k)
    (hvar : isVar k = false) (hchild : ∀ j ∈ k.children, ctx.Has s inputs j (q.arena.value ρ j)) :
    FitSpec (blastKind q ctx t k) s (IsValue inputs (q.arena.value ρ t)) := by
  have ha : ∀ {a : TermId}, a ∈ [a] := List.mem_singleton.mpr rfl
  have hfst : ∀ {a b : TermId}, a ∈ [a, b] := List.mem_cons_self
  have hsnd : ∀ {a b : TermId}, b ∈ [a, b] := List.mem_cons_of_mem _ ha
  cases k with
  | bvVar width name external => cases hvar
  | boolVar name external => cases hvar
  | bvConst width bytes =>
    obtain ⟨σ, -, rfl, hlen, hlt⟩ := hs.hasSort hk
    rw [hs.value_kind hk, blastKind, constBits, if_pos hlen.ge]
    exact fitSpec_lift rfl
      (fitSpec_pure fun hinv => ⟨rfl, computesAll_constantGates hinv bytes⟩)
  | boolConst value =>
    rw [hs.value_kind hk]
    exact fitSpec_pure fun hinv => ⟨rfl, hinv.computes_const value⟩
  | bvNot x =>
    exact unary_spec (f := fun x => ~~~x) hs hk hchild ha id rfl fun _ h => bitwiseNotWord_spec h
  | bvNeg x => exact unary_spec (f := fun x => -x) hs hk hchild ha id rfl fun _ h => neg_spec h
  | bvRotateLeft x n =>
    exact unary_spec (f := fun x => x.rotateLeft n) hs hk hchild ha id rfl
      fun hw h => rotateLeft_spec hw h n
  | bvRotateRight x n =>
    exact unary_spec (f := fun x => x.rotateRight n) hs hk hchild ha id rfl
      fun hw h => rotateRight_spec hw h n
  | bvAnd a b =>
    exact binary_spec (f := fun x y => x &&& y) hs hk hchild hfst hsnd id rfl
      fun _ _ h h' => bvAnd_spec h h'
  | bvOr a b =>
    exact binary_spec (f := fun x y => x ||| y) hs hk hchild hfst hsnd id rfl
      fun _ _ h h' => bvOr_spec h h'
  | bvXor a b =>
    exact binary_spec (f := fun x y => x ^^^ y) hs hk hchild hfst hsnd id rfl
      fun _ _ h h' => bvXor_spec h h'
  | bvAdd a b =>
    exact binary_spec (f := fun x y => x + y) hs hk hchild hfst hsnd id rfl
      fun _ _ h h' => addWord_spec h h'
  | bvSub a b =>
    exact binary_spec (f := fun x y => x - y) hs hk hchild hfst hsnd id rfl
      fun _ _ h h' => subWord_spec h h'
  | bvMul a b => exact blastMul_spec hs hk hchild
  | bvUDiv a b =>
    exact binary_spec (f := fun x y => x.smtUDiv y) hs hk hchild hfst hsnd id rfl
      fun _ _ h h' => (udivUrem_spec h h').bind fun _ _ _ _ h => spec_pure fun _ => h.1
  | bvURem a b =>
    exact binary_spec (f := fun x y => x.umod y) hs hk hchild hfst hsnd id rfl
      fun _ _ h h' => (udivUrem_spec h h').bind fun _ _ _ _ h => spec_pure fun _ => h.2
  | bvSDiv a b =>
    exact binary_spec (f := fun x y => x.smtSDiv y) hs hk hchild hfst hsnd id rfl
      fun hw _ h h' => sdiv_spec h h' hw
  | bvSRem a b =>
    exact binary_spec (f := fun x y => x.srem y) hs hk hchild hfst hsnd id rfl
      fun hw _ h h' => srem_spec h h' hw
  | bvSMod a b =>
    exact binary_spec (f := fun x y => x.smod y) hs hk hchild hfst hsnd id rfl
      fun hw _ h h' => smod_spec h h' hw
  | bvShl a b =>
    exact binary_spec (f := fun x y => x <<< y) hs hk hchild hfst hsnd id rfl
      fun _ hle h h' => shl_spec h h' hle
  | bvLShr a b =>
    exact binary_spec (f := fun x y => x >>> y) hs hk hchild hfst hsnd id rfl
      fun _ hle h h' => lshr_spec h h' hle
  | bvAShr a b =>
    exact binary_spec (f := fun x y => x.sshiftRight' y) hs hk hchild hfst hsnd id rfl
      fun hw hle h h' => ashr_spec h h' hle hw
  | bvExtract c high low =>
    obtain ⟨σ, -, w, rfl, hc, hle, hlt⟩ := hs.hasSort hk
    rw [hs.value_kind hk, NodeKind.sem, Arena.IsBv.value_eq hs hc, Smt.extract_bv]
    exact blastUnary_spec (has_bv hs (hchild c ha) hc) fun _ h => extract_spec h hle hlt
  | bvConcat a b =>
    obtain ⟨σ, -, w, v, rfl, hca, hcb⟩ := hs.hasSort hk
    rw [hs.value_kind hk, NodeKind.sem, Arena.IsBv.value_eq hs hca, Arena.IsBv.value_eq hs hcb,
      Smt.concat_bv]
    exact blastBinary_spec (has_bv hs (hchild a hfst) hca) (has_bv hs (hchild b hsnd) hcb)
      fun _ _ h h' => spec_pure fun _ => concat_spec h h'
  | bvZeroExtend c extra =>
    obtain ⟨σ, -, w, rfl, hc⟩ := hs.hasSort hk
    rw [hs.value_kind hk, NodeKind.sem, Arena.IsBv.value_eq hs hc, Smt.zeroExtend_bv]
    exact blastUnary_spec (has_bv hs (hchild c ha) hc)
      fun _ h => spec_pure fun hinv => zext_spec hinv h extra
  | bvSignExtend c extra =>
    obtain ⟨σ, -, w, rfl, hc⟩ := hs.hasSort hk
    rw [hs.value_kind hk, NodeKind.sem, Arena.IsBv.value_eq hs hc, Smt.signExtend_bv]
    exact blastUnary_spec (has_bv hs (hchild c ha) hc)
      fun _ h => sextWord_spec h (width_bounds hs hc).1 extra
  | bvRepeat c count =>
    obtain ⟨σ, -, w, rfl, hc⟩ := hs.hasSort hk
    rw [hs.value_kind hk, NodeKind.sem, Arena.IsBv.value_eq hs hc, Smt.repeated_bv]
    exact blastUnary_spec (has_bv hs (hchild c ha) hc)
      fun _ h => spec_pure fun _ => repeated_spec h count
  | bvIte c a b =>
    obtain ⟨σ, ht, w, rfl, hc, hca, hcb⟩ := hs.hasSort hk
    have hval : q.arena.value ρ t = .bv w (if (q.arena.value ρ c).toBool
        then q.arena.bv ρ a w else q.arena.bv ρ b w) := by
      rw [Arena.IsBv.value_eq hs ht, Arena.bv_bvIte hs hk]
      rfl
    rw [hval]
    refine (has_bool hs (hchild c (by simp [NodeKind.children])) hc).spec_bool fun g hg => ?_
    exact blastBinary_spec (has_bv hs (hchild a (by simp [NodeKind.children])) hca)
      (has_bv hs (hchild b (by simp [NodeKind.children])) hcb) fun _ _ h h' => muxWord_spec hg h h'
  | bvSelect cases default => exact bvSelect_spec hs hk hchild
  | boolNot x =>
    obtain ⟨σ, -, rfl, hx⟩ := hs.hasSort hk
    rw [hs.value_kind hk, NodeKind.sem, Smt.not]
    refine (has_bool hs (hchild x ha) hx).spec_bool fun g hg => ?_
    exact (not_spec hg).fits.bind fun out s' _ _ h => fitSpec_pure fun _ => ⟨rfl, h⟩
  | boolAnd a b =>
    exact connective_spec (f := fun x y => x && y) hs hk hchild hfst hsnd (fun h => h.2)
      (hs.value_kind hk) fun h h' => and_spec h h'
  | boolOr a b =>
    exact connective_spec (f := fun x y => x || y) hs hk hchild hfst hsnd (fun h => h.2)
      (hs.value_kind hk) fun h h' => or_spec h h'
  | boolImplies a b =>
    exact connective_spec (f := fun x y => !x || y) hs hk hchild hfst hsnd (fun h => h.2)
      (hs.value_kind hk) fun h h' => implies_spec h h'
  | boolEq a b =>
    exact connective_spec (f := fun x y => x == y) hs hk hchild hfst hsnd (fun h => h.2)
      (hs.value_kind hk) fun h h' => xnor_spec h h'
  | boolIte c a b =>
    obtain ⟨σ, -, rfl, hc, hca, hcb⟩ := hs.hasSort hk
    have hval : q.arena.value ρ t = .bool (if (q.arena.value ρ c).toBool
        then (q.arena.value ρ a).toBool else (q.arena.value ρ b).toBool) := by
      rw [hs.value_kind hk, NodeKind.sem, Smt.ite, hs.value_bool hca, hs.value_bool hcb]
      split <;> rfl
    rw [hval]
    refine (has_bool hs (hchild c (by simp [NodeKind.children])) hc).spec_bool fun g hg => ?_
    exact blastConnective_spec (has_bool hs (hchild a (by simp [NodeKind.children])) hca)
      (has_bool hs (hchild b (by simp [NodeKind.children])) hcb) fun _ _ h h' => mux_spec h h' hg
  | bvEq a b =>
    exact compare_spec (f := fun x y => x == y) hs hk hchild hfst hsnd id rfl
      fun _ h h' => eqWord_spec h h'
  | bvUlt a b =>
    exact compare_spec (f := fun x y => x.ult y) hs hk hchild hfst hsnd id rfl
      fun _ h h' => ultWord_spec h h'
  | bvUle a b =>
    exact compare_spec (f := fun x y => x.ule y) hs hk hchild hfst hsnd id rfl
      fun _ h h' => uleWord_spec h h'
  | bvSlt a b =>
    exact compare_spec (f := fun x y => x.slt y) hs hk hchild hfst hsnd id rfl
      fun hw h h' => slt_spec h h' hw
  | bvSle a b =>
    exact compare_spec (f := fun x y => x.sle y) hs hk hchild hfst hsnd id rfl
      fun hw h h' => sle_spec h h' hw
  | uAddOverflow a b =>
    exact compare_spec (f := fun x y => x.uaddOverflow y) hs hk hchild hfst hsnd id rfl
      fun _ h h' => uaddOverflow_spec h h'
  | sAddOverflow a b =>
    exact compare_spec (f := fun x y => x.saddOverflow y) hs hk hchild hfst hsnd id rfl
      fun hw h h' => saddOverflow_spec h h' hw
  | uSubOverflow a b =>
    exact compare_spec (f := fun x y => x.usubOverflow y) hs hk hchild hfst hsnd id rfl
      fun _ h h' => usubOverflow_spec h h'
  | sSubOverflow a b =>
    exact compare_spec (f := fun x y => x.ssubOverflow y) hs hk hchild hfst hsnd id rfl
      fun hw h h' => ssubOverflow_spec h h' hw
  | uMulOverflow a b =>
    exact compare_spec (f := fun x y => x.umulOverflow y) hs hk hchild hfst hsnd id rfl
      fun _ h h' => umulOverflow_spec h h'
  | sMulOverflow a b =>
    exact compare_spec (f := fun x y => x.smulOverflow y) hs hk hchild hfst hsnd id rfl
      fun hw h h' => smulOverflow_spec h h' hw
  | negOverflow x =>
    obtain ⟨σ, -, w, rfl, hx⟩ := hs.hasSort hk
    rw [hs.value_kind hk, NodeKind.sem, Smt.bvnego, Arena.IsBv.value_eq hs hx, Value.bits_bv]
    exact blastTest_spec (has_bv hs (hchild x ha) hx)
      fun _ h => negOverflow_spec h (width_bounds hs hx).1
  | sDivOverflow a b =>
    exact compare_spec (f := fun x y => x.sdivOverflow y) hs hk hchild hfst hsnd id rfl
      fun hw h h' => sdivOverflow_spec h h' hw

end Blast
end Qfbv
end SmtServer
