import SmtServer.Wire.BuildRequest
import SmtServer.Wire.Context

/-!
# What a call on a context can do

Calls of the API in any order (`Op`), with what each leaves behind. Three facts are proved of every
call, one family of methods at a time: it keeps the invariant of the builder, every handle it
returns belongs to this context and has a node behind it (`Owns`), and it fails when no node of its
sort stands at the index of a handle it was given (`Dangling`).
-/

namespace SmtServer
namespace Wire

open Lib Outcome ExprBuilder

/-- The handle an operand is, if it is one. -/
def BvOperand.given : BvOperand → List Term
  | .term t => [.bv t]
  | .unsigned _ | .signed _ => []

namespace Context

/-- The handle belongs to the context, and a node of its sort stands at its index. -/
def Owns (ctx : Nat) (s : ExprBuilder) (t : Term) : Prop := t.ctx = ctx ∧ ∃ m, s.HasRef t.reference m

/-- The lookup every method begins with fails. -/
def Dangling (s : ExprBuilder) (t : Term) : Prop := ∃ e, metaForRef t.reference s = err e

/-- The call returns an error. -/
def Refuses {α : Type} (m : BuilderM α) (s : ExprBuilder) : Prop := ∃ e, (m.run s).1 = err e

variable {ctx : Nat} {s : ExprBuilder} {r : NodeRef} {op : String} {α β : Type}

/-! ## Lookups -/

theorem metaForRef_eq_ok {m : NodeMeta} : metaForRef r s = ok m ↔ s.HasRef r m := by
  simp only [metaForRef, bind_eq_ok, ofOption_eq_ok, ensure_eq_ok, exists_const, pure_eq,
    Outcome.ok.injEq, HasRef]
  constructor
  · rintro ⟨_, hm, hsort, rfl⟩
    exact ⟨hm, hsort⟩
  · rintro ⟨hm, hsort⟩
    exact ⟨m, hm, hsort, rfl⟩

theorem safe_metaForRef : Safe (metaForRef r s) :=
  safe_ofOption.bind fun _ _ => safe_ensure.bind fun _ _ => safe_ok _

theorem safe_bvTerm : Safe (bvTerm ctx r s) :=
  safe_metaForRef.bind fun _ _ => safe_ensure.bind fun _ _ => safe_ok _

theorem safe_boolTerm : Safe (boolTerm ctx r s) :=
  safe_metaForRef.bind fun _ _ => safe_ensure.bind fun _ _ => safe_ok _

theorem owns_of_bvTerm {t : BvTerm} (h : bvTerm ctx r s = ok t) : Owns ctx s (.bv t) := by
  obtain ⟨m, hm, h⟩ := bind_eq_ok.mp h
  obtain ⟨_, -, h⟩ := bind_eq_ok.mp h
  obtain rfl := Outcome.ok.inj h
  exact ⟨rfl, m, metaForRef_eq_ok.mp hm⟩

theorem owns_of_boolTerm {t : BoolTerm} (h : boolTerm ctx r s = ok t) : Owns ctx s (.bool t) := by
  obtain ⟨m, hm, h⟩ := bind_eq_ok.mp h
  obtain ⟨_, -, h⟩ := bind_eq_ok.mp h
  obtain rfl := Outcome.ok.inj h
  exact ⟨rfl, m, metaForRef_eq_ok.mp hm⟩

theorem owns_of_term {t : Term} (h : term ctx r s = ok t) : Owns ctx s t := by
  obtain ⟨m, -, h⟩ := bind_eq_ok.mp h
  split at h
  · obtain ⟨t', ht', h⟩ := bind_eq_ok.mp h
    obtain rfl := Outcome.ok.inj h
    exact owns_of_boolTerm ht'
  · obtain ⟨t', ht', h⟩ := bind_eq_ok.mp h
    obtain rfl := Outcome.ok.inj h
    exact owns_of_bvTerm ht'

theorem safe_expectBv {t : BvTerm} : Safe (expectBv ctx t op s) :=
  safe_ensure.bind fun _ _ => safe_metaForRef.bind fun _ _ => safe_ensure.bind fun _ _ => safe_ok _

theorem safe_expectBool {t : BoolTerm} : Safe (expectBool ctx t op s) :=
  safe_ensure.bind fun _ _ => safe_metaForRef.bind fun _ _ => safe_ensure

theorem safe_expectTerm {t : Term} : Safe (expectTerm ctx t op s) := by
  cases t with
  | bv t => exact safe_expectBv.bind fun _ _ => safe_ok _
  | bool t => exact safe_expectBool

theorem safe_boolRef {t : BoolTerm} : Safe (boolRef ctx op s t) :=
  safe_expectBool.bind fun _ _ => safe_ok _

theorem safe_bvRef {t : BvTerm} : Safe (bvRef ctx op s t) := safe_expectBv.bind fun _ _ => safe_ok _

/-! ## Dangling handles -/

theorem Dangling.not_hasRef {t : Term} (h : Dangling s t) {m : NodeMeta} :
    ¬ s.HasRef t.reference m := by
  obtain ⟨e, he⟩ := h
  rw [← metaForRef_eq_ok, he]
  simp

theorem Dangling.expectBv {t : BvTerm} (h : Dangling s (.bv t)) :
    ∃ e, expectBv ctx t op s = err e := by
  refine safe_expectBv.exists_err fun a ha => ?_
  obtain ⟨_, -, ha⟩ := bind_eq_ok.mp ha
  obtain ⟨m, hm, -⟩ := bind_eq_ok.mp ha
  exact h.not_hasRef (metaForRef_eq_ok.mp hm)

theorem Dangling.expectBool {t : BoolTerm} (h : Dangling s (.bool t)) :
    ∃ e, expectBool ctx t op s = err e := by
  refine safe_expectBool.exists_err fun a ha => ?_
  obtain ⟨_, -, ha⟩ := bind_eq_ok.mp ha
  obtain ⟨m, hm, -⟩ := bind_eq_ok.mp ha
  exact h.not_hasRef (metaForRef_eq_ok.mp hm)

theorem Dangling.expectTerm {t : Term} (h : Dangling s t) : ∃ e, expectTerm ctx t op s = err e := by
  cases t with
  | bv t =>
    obtain ⟨e, he⟩ : ∃ e, Context.expectBv ctx t op s = err e := h.expectBv
    exact ⟨e, by rw [Context.expectTerm, he]; rfl⟩
  | bool t => exact h.expectBool

theorem Dangling.boolRefs {t : BoolTerm} {ts : List BoolTerm} (ht : t ∈ ts)
    (h : Dangling s (.bool t)) : ∃ e, ts.mapM (boolRef ctx op s) = err e := by
  refine (safe_mapM fun _ _ => safe_boolRef).exists_err fun a ha => ?_
  obtain ⟨x, hx⟩ := exists_ok_of_mapM ha ht
  obtain ⟨u, hu, -⟩ := bind_eq_ok.mp hx
  obtain ⟨e, he⟩ : ∃ e, Context.expectBool ctx t op s = err e := h.expectBool
  rw [he] at hu
  cases hu

theorem Dangling.bvRefs {t : BvTerm} {ts : List BvTerm} (ht : t ∈ ts)
    (h : Dangling s (.bv t)) : ∃ e, ts.mapM (bvRef ctx op s) = err e := by
  refine (safe_mapM fun _ _ => safe_bvRef).exists_err fun a ha => ?_
  obtain ⟨x, hx⟩ := exists_ok_of_mapM ha ht
  obtain ⟨u, hu, -⟩ := bind_eq_ok.mp hx
  obtain ⟨e, he⟩ : ∃ e, Context.expectBv ctx t op s = err e := h.expectBv
  rw [he] at hu
  cases hu

/-- A method of a dangling handle that reads its node. -/
theorem Dangling.nodeForRef {t : Term} (h : Dangling s t) {g : RawNode → Result α} :
    ∃ e, (nodeForRef t.reference s >>= g) = err e := by
  obtain ⟨e, he⟩ := h
  exact ⟨e, by rw [Context.nodeForRef, he]; rfl⟩

/-- A failing check fails the method. -/
theorem refuses_check {f : ExprBuilder → Result α} {g : α → BuilderM β}
    (h : ∃ e, f s = err e) : Refuses (Grow.read f >>= g) s := by
  obtain ⟨e, he⟩ := h
  exact ⟨e, congrArg Prod.fst (Grow.run_bind_err (by rw [Grow.run_read, he]))⟩

/-- So does one behind another check. -/
theorem refuses_after {f : ExprBuilder → Result α} {g : α → BuilderM β} (hsafe : Safe (f s))
    (h : ∀ a, f s = ok a → Refuses (g a) s) : Refuses (Grow.read f >>= g) s := by
  cases hf : f s with
  | ok a =>
    obtain ⟨e, he⟩ := h a hf
    exact ⟨e, by rw [Grow.run_bind_ok (by rw [Grow.run_read, hf]), he]⟩
  | err e => exact refuses_check ⟨e, hf⟩
  | panic => exact absurd hf hsafe

theorem Refuses.bind {m : BuilderM α} {f : α → BuilderM β} (h : Refuses m s) :
    Refuses (m >>= f) s := by
  obtain ⟨e, he⟩ := h
  cases hr : m.run s with
  | mk o s' =>
    rw [hr] at he
    subst he
    exact ⟨e, congrArg Prod.fst (Grow.run_bind_err hr)⟩

/-! ## Construction methods -/

theorem spec_readLast {f : ExprBuilder → Result α} {Q : α → ExprBuilder → Prop}
    (hsafe : Safe (f s)) (h : ∀ a, f s = ok a → Q a s) : Spec (Grow.read f) s Q := by
  rw [← bind_pure (Grow.read f)]
  exact spec_read hsafe fun a ha => spec_pure (h a ha)

theorem keeps_fail {e : WireError} : Keeps (Grow.fail e : BuilderM α) := by
  intro s hs
  exact Grow.wp_fail ⟨trivial, hs⟩

/-- The method keeps the invariant and returns handles of this context only. -/
def Hands (ctx : Nat) (handle : α → Term) (m : BuilderM α) : Prop :=
  ∀ s, Spec m s fun t s' => Owns ctx s' (handle t)

theorem Hands.keeps {handle : α → Term} {m : BuilderM α} (h : Hands ctx handle m) : Keeps m :=
  fun s => (h s).forget

theorem hands_bvHandle {build : BuilderM NodeRef} (h : Keeps build) :
    Hands ctx .bv (bvHandle ctx build) := by
  intro s
  exact (h s).bind fun r s' _ _ => spec_readLast safe_bvTerm fun _ ht => owns_of_bvTerm ht

theorem hands_boolHandle {build : BuilderM NodeRef} (h : Keeps build) :
    Hands ctx .bool (boolHandle ctx build) := by
  intro s
  exact (h s).bind fun r s' _ _ => spec_readLast safe_boolTerm fun _ ht => owns_of_boolTerm ht

theorem Hands.check {handle : β → Term} {f : ExprBuilder → Result α} {g : α → BuilderM β}
    (hsafe : ∀ s, Safe (f s)) (hg : ∀ a, Hands ctx handle (g a)) :
    Hands ctx handle (Grow.read f >>= g) := by
  intro s
  exact spec_read (hsafe s) fun a _ => hg a s

theorem Keeps.then {handle : β → Term} {m : BuilderM α} {g : α → BuilderM β} (hm : Keeps m)
    (hg : ∀ a, Hands ctx handle (g a)) : Hands ctx handle (m >>= g) := by
  intro s
  exact (hm s).bind fun a s' _ _ => hg a s'

theorem hands_bvConst {value : UInt64} {width : UInt32} :
    Hands ctx .bv (bvConst ctx value width) :=
  hands_bvHandle keeps_bvConst

theorem keeps_coerceBvOperand {value : BvOperand} {width : UInt32} :
    Keeps (coerceBvOperand ctx value width op) := by
  cases value with
  | term t =>
    exact Keeps.check (fun _ _ => safe_expectBv) fun _ =>
      Keeps.check (fun _ _ => safe_ensure) fun _ => keeps_pure t
  | unsigned value => exact hands_bvConst.keeps
  | signed value => exact hands_bvConst.keeps

theorem keeps_pushUnary {tag : Tag} {x : NodeRef} : Keeps (pushUnary tag x) := by
  unfold pushUnary
  split
  · exact keeps_bvUnary ⟨by simp, by simp, by simp⟩ rfl rfl fun _ _ _ => Iff.rfl
  · exact keeps_bvUnary ⟨by simp, by simp, by simp⟩ rfl rfl fun _ _ _ => Iff.rfl
  · exact keeps_fail

theorem keeps_pushBinary {tag : Tag} {a b : NodeRef} : Keeps (pushBinary tag a b) := by
  unfold pushBinary
  split
  case h_15 => exact keeps_fail
  all_goals exact keeps_bvOp (by simp)

theorem keeps_pushBvCmp {tag : Tag} {a b : NodeRef} : Keeps (pushBvCmp tag a b) := by
  unfold pushBvCmp
  split
  case h_13 => exact keeps_fail
  all_goals exact keeps_bvPredicate (by simp)

theorem keeps_pushBool {tag : Tag} {a b : NodeRef} : Keeps (pushBool tag a b) := by
  unfold pushBool
  split
  case h_4 => exact keeps_fail
  all_goals exact keeps_boolOp (by simp)

section Families

variable {tag : Tag} {a b : BvTerm} {x y : BoolTerm} {operand : BvOperand}

theorem hands_bvUnary : Hands ctx .bv (bvUnary ctx tag a) :=
  Hands.check (fun _ => safe_expectBv) fun _ => hands_bvHandle keeps_pushUnary

theorem hands_bvBinary : Hands ctx .bv (bvBinary ctx tag a operand) :=
  Hands.check (fun _ => safe_expectBv) fun _ =>
    Keeps.then keeps_coerceBvOperand fun _ => hands_bvHandle keeps_pushBinary

theorem hands_bvCmp : Hands ctx .bool (bvCmp ctx tag a operand) :=
  Hands.check (fun _ => safe_expectBv) fun _ =>
    Keeps.then keeps_coerceBvOperand fun _ => hands_boolHandle keeps_pushBvCmp

theorem hands_bvCmpReverse : Hands ctx .bool (bvCmpReverse ctx tag a operand) :=
  Hands.check (fun _ => safe_expectBv) fun _ =>
    Keeps.then keeps_coerceBvOperand fun _ => hands_boolHandle keeps_pushBvCmp

theorem hands_boolBinary : Hands ctx .bool (boolBinary ctx tag x y) :=
  Hands.check (fun _ => safe_expectBool) fun _ => Hands.check (fun _ => safe_expectBool) fun _ =>
    hands_boolHandle keeps_pushBool

theorem hands_boolNot : Hands ctx .bool (boolNot ctx x) :=
  Hands.check (fun _ => safe_expectBool) fun _ => hands_boolHandle keeps_boolNot

theorem hands_bvNe : Hands ctx .bool (bvNe ctx a operand) :=
  Keeps.then hands_bvCmp.keeps fun _ => hands_boolNot

theorem hands_boolEq : Hands ctx .bool (boolEq ctx x y) :=
  Hands.check (fun _ => safe_expectBool) fun _ => Hands.check (fun _ => safe_expectBool) fun _ =>
    Keeps.then hands_boolBinary.keeps fun _ => Keeps.then hands_boolNot.keeps fun _ =>
      Keeps.then hands_boolNot.keeps fun _ => Keeps.then hands_boolBinary.keeps fun _ =>
        hands_boolBinary

theorem hands_bvIte : Hands ctx .bv (bvIte ctx x a b) :=
  Hands.check (fun _ => safe_expectBool) fun _ => Hands.check (fun _ => safe_expectBv) fun _ =>
    Hands.check (fun _ => safe_expectBv) fun _ => hands_bvHandle keeps_bvIte

theorem hands_boolIte {z : BoolTerm} : Hands ctx .bool (boolIte ctx z x y) :=
  Hands.check (fun _ => safe_expectBool) fun _ => Hands.check (fun _ => safe_expectBool) fun _ =>
    Hands.check (fun _ => safe_expectBool) fun _ => Keeps.then hands_boolBinary.keeps fun _ =>
      Keeps.then hands_boolNot.keeps fun _ => Keeps.then hands_boolBinary.keeps fun _ =>
        hands_boolBinary

/-- A handle of one sort, as a term. -/
theorem Hands.asTerm {handle : α → Term} {m : BuilderM α} (h : Hands ctx handle m) :
    Hands ctx (fun t => t) (do
      let t ← m
      pure (handle t)) := by
  intro s
  exact (h s).bind fun _ _ _ ht => spec_pure ht

theorem hands_ite {t e : Term} : Hands ctx (fun t => t) (ite ctx x t e) := by
  refine Hands.check (fun _ => safe_expectBool) fun _ => Hands.check (fun _ => safe_expectTerm)
    fun _ => Hands.check (fun _ => safe_expectTerm) fun _ => ?_
  unfold iteBranches
  split
  · exact hands_bvIte.asTerm
  · exact hands_boolIte.asTerm
  · exact fun s hs => Grow.wp_fail ⟨trivial, hs⟩

theorem hands_bvSelect {selectors : List BoolTerm} {values : List BvTerm} :
    Hands ctx .bv (bvSelect ctx selectors values a) :=
  Hands.check (fun _ => safe_expectBv) fun _ =>
    Hands.check (fun _ => safe_mapM fun _ _ => safe_boolRef) fun _ =>
      Hands.check (fun _ => safe_mapM fun _ _ => safe_bvRef) fun _ => hands_bvHandle keeps_bvSelect

/-! ## Dangling arguments -/

/-- A coerced operand that dangles. -/
theorem Dangling.coerce {width : UInt32} {t : Term} (ht : t ∈ operand.given)
    (h : Dangling s t) : Refuses (coerceBvOperand ctx operand width op) s := by
  cases operand with
  | term x =>
    obtain rfl := List.mem_singleton.mp ht
    exact refuses_check h.expectBv
  | unsigned value => simp [BvOperand.given] at ht
  | signed value => simp [BvOperand.given] at ht

theorem Dangling.bvBinary {t : Term} (ht : t ∈ Term.bv a :: operand.given) (h : Dangling s t) :
    Refuses (bvBinary ctx tag a operand) s := by
  rcases List.mem_cons.mp ht with rfl | ht
  · exact refuses_check h.expectBv
  · exact refuses_after safe_expectBv fun _ _ => (h.coerce ht).bind

theorem Dangling.bvCmp {t : Term} (ht : t ∈ Term.bv a :: operand.given) (h : Dangling s t) :
    Refuses (bvCmp ctx tag a operand) s := by
  rcases List.mem_cons.mp ht with rfl | ht
  · exact refuses_check h.expectBv
  · exact refuses_after safe_expectBv fun _ _ => (h.coerce ht).bind

theorem Dangling.bvCmpReverse {t : Term} (ht : t ∈ Term.bv a :: operand.given)
    (h : Dangling s t) : Refuses (bvCmpReverse ctx tag a operand) s := by
  rcases List.mem_cons.mp ht with rfl | ht
  · exact refuses_check h.expectBv
  · exact refuses_after safe_expectBv fun _ _ => (h.coerce ht).bind

/-- A method that checks two Bool handles first. -/
theorem Dangling.twoBools {t : Term} {op₁ op₂ : String} {g : BuilderM α}
    (ht : t ∈ [Term.bool x, Term.bool y]) (h : Dangling s t) :
    Refuses (do
      Grow.read (Context.expectBool ctx x op₁)
      Grow.read (Context.expectBool ctx y op₂)
      g) s := by
  simp only [List.mem_cons, List.not_mem_nil, or_false] at ht
  rcases ht with rfl | rfl
  · exact refuses_check h.expectBool
  · exact refuses_after safe_expectBool fun _ _ => refuses_check h.expectBool

theorem Dangling.bvIte {t : Term} (ht : t ∈ [Term.bool x, Term.bv a, Term.bv b])
    (h : Dangling s t) : Refuses (bvIte ctx x a b) s := by
  simp only [List.mem_cons, List.not_mem_nil, or_false] at ht
  rcases ht with rfl | rfl | rfl
  · exact refuses_check h.expectBool
  · exact refuses_after safe_expectBool fun _ _ => refuses_check h.expectBv
  · exact refuses_after safe_expectBool fun _ _ => refuses_after safe_expectBv fun _ _ =>
      refuses_check h.expectBv

theorem Dangling.boolIte {z : BoolTerm} {t : Term}
    (ht : t ∈ [Term.bool z, Term.bool x, Term.bool y]) (h : Dangling s t) :
    Refuses (boolIte ctx z x y) s := by
  simp only [List.mem_cons, List.not_mem_nil, or_false] at ht
  rcases ht with rfl | rfl | rfl
  · exact refuses_check h.expectBool
  · exact refuses_after safe_expectBool fun _ _ => refuses_check h.expectBool
  · exact refuses_after safe_expectBool fun _ _ => refuses_after safe_expectBool fun _ _ =>
      refuses_check h.expectBool

theorem Dangling.ite {z : BoolTerm} {t u v : Term} (ht : t ∈ [Term.bool z, u, v])
    (h : Dangling s t) : Refuses (ite ctx z u v) s := by
  simp only [List.mem_cons, List.not_mem_nil, or_false] at ht
  rcases ht with rfl | rfl | rfl
  · exact refuses_check h.expectBool
  · exact refuses_after safe_expectBool fun _ _ => refuses_check h.expectTerm
  · exact refuses_after safe_expectBool fun _ _ => refuses_after safe_expectTerm fun _ _ =>
      refuses_check h.expectTerm

theorem Dangling.bvSelect {selectors : List BoolTerm} {values : List BvTerm} {t : Term}
    (ht : t ∈ Term.bv a :: (selectors.map Term.bool ++ values.map Term.bv)) (h : Dangling s t) :
    Refuses (bvSelect ctx selectors values a) s := by
  rcases List.mem_cons.mp ht with rfl | ht
  · exact refuses_check h.expectBv
  · refine refuses_after safe_expectBv fun _ _ => ?_
    rcases List.mem_append.mp ht with ht | ht
    · obtain ⟨x, hx, rfl⟩ := List.mem_map.mp ht
      exact refuses_check (h.boolRefs hx)
    · obtain ⟨x, hx, rfl⟩ := List.mem_map.mp ht
      exact refuses_after (safe_mapM fun _ _ => safe_boolRef) fun _ _ => refuses_check (h.bvRefs hx)

end Families

/-! ## Calls -/

/-- A call of a method of the context, or of one of its handles. -/
inductive Op where
  | reset
  | bvVar (name : String) (width : UInt32)
  | boolVar (name : String)
  | bvConst (value : UInt64) (width : UInt32)
  | bvConstI64 (value : Int64) (width : UInt32)
  | bvConstWide (bytes : List UInt8) (width : UInt32)
  | boolConst (value : Bool)
  | trueTerm
  | falseTerm
  | bvNot (x : BvTerm)
  | bvNeg (x : BvTerm)
  | bvAnd (a : BvTerm) (b : BvOperand)
  | bvOr (a : BvTerm) (b : BvOperand)
  | bvXor (a : BvTerm) (b : BvOperand)
  | bvAdd (a : BvTerm) (b : BvOperand)
  | bvSub (a : BvTerm) (b : BvOperand)
  | bvMul (a : BvTerm) (b : BvOperand)
  | bvUdiv (a : BvTerm) (b : BvOperand)
  | bvUrem (a : BvTerm) (b : BvOperand)
  | bvSdiv (a : BvTerm) (b : BvOperand)
  | bvSrem (a : BvTerm) (b : BvOperand)
  | bvSmod (a : BvTerm) (b : BvOperand)
  | bvShl (a : BvTerm) (b : BvOperand)
  | bvLshr (a : BvTerm) (b : BvOperand)
  | bvAshr (a : BvTerm) (b : BvOperand)
  | bvEq (a : BvTerm) (b : BvOperand)
  | bvNe (a : BvTerm) (b : BvOperand)
  | bvUlt (a : BvTerm) (b : BvOperand)
  | bvUle (a : BvTerm) (b : BvOperand)
  | bvUgt (a : BvTerm) (b : BvOperand)
  | bvUge (a : BvTerm) (b : BvOperand)
  | bvSlt (a : BvTerm) (b : BvOperand)
  | bvSle (a : BvTerm) (b : BvOperand)
  | bvSgt (a : BvTerm) (b : BvOperand)
  | bvSge (a : BvTerm) (b : BvOperand)
  | bvUaddOverflows (a : BvTerm) (b : BvOperand)
  | bvSaddOverflows (a : BvTerm) (b : BvOperand)
  | bvUsubOverflows (a : BvTerm) (b : BvOperand)
  | bvSsubOverflows (a : BvTerm) (b : BvOperand)
  | bvUmulOverflows (a : BvTerm) (b : BvOperand)
  | bvSmulOverflows (a : BvTerm) (b : BvOperand)
  | bvNegOverflows (x : BvTerm)
  | bvSdivOverflows (a : BvTerm) (b : BvOperand)
  | bvExtract (x : BvTerm) (hi lo : UInt32)
  | bvConcat (high low : BvTerm)
  | bvZext (x : BvTerm) (amount : UInt16)
  | bvSext (x : BvTerm) (amount : UInt16)
  | boolNot (x : BoolTerm)
  | boolAnd (a b : BoolTerm)
  | boolOr (a b : BoolTerm)
  | boolImplies (a b : BoolTerm)
  | boolEq (a b : BoolTerm)
  | ite (cond : BoolTerm) (thenTerm elseTerm : Term)
  | bvIte (cond : BoolTerm) (thenValue elseValue : BvTerm)
  | boolIte (cond thenValue elseValue : BoolTerm)
  | bvSelect (selectors : List BoolTerm) (values : List BvTerm) (default : BvTerm)
  | bvRotateLeft (x : BvTerm) (amount : UInt64)
  | bvRotateRight (x : BvTerm) (amount : UInt64)
  | assert (root : BoolTerm)
  | assertNamed (name : String) (root : BoolTerm)
  | assume (root : BoolTerm)
  | assertMutex (selectors : List BoolTerm)
  | clearAssumptions
  | push
  | pop
  | term (reference : NodeRef)
  | assertions
  | namedAssertions
  | assumptions
  | toBytes
  | buildSolveRequest (requestId budgetMs : UInt32) (wantModel wantCore : Bool)
  | buildSimplifyRequest (requestId : UInt32) (target : Term)
  | buildMinimizeRequest (requestId : UInt32) (target : BvTerm) (signed : Bool)
      (budgetMs : UInt32) (wantModel : Bool)
  | buildMaximizeRequest (requestId : UInt32) (target : BvTerm) (signed : Bool)
      (budgetMs : UInt32) (wantModel : Bool)
  | termWidth (t : Term)
  | termOp (t : Term)
  | termChildren (t : Term)
  | termName (t : Term)
  | termValueBytesLe (t : Term)
  | termBoolValue (t : Term)
  | termParams (t : Term)

namespace Op

/-- The handles a call is given. -/
def given : Op → List Term
  | .reset | .bvVar .. | .boolVar _ | .bvConst .. | .bvConstI64 .. | .bvConstWide ..
  | .boolConst _ | .trueTerm | .falseTerm | .clearAssumptions | .push | .pop | .term _
  | .assertions | .namedAssertions | .assumptions | .toBytes | .buildSolveRequest .. => []
  | .bvNot x | .bvNeg x | .bvNegOverflows x | .bvExtract x _ _ | .bvZext x _ | .bvSext x _
  | .bvRotateLeft x _ | .bvRotateRight x _ => [.bv x]
  | .bvAnd a b | .bvOr a b | .bvXor a b | .bvAdd a b | .bvSub a b | .bvMul a b | .bvUdiv a b
  | .bvUrem a b | .bvSdiv a b | .bvSrem a b | .bvSmod a b | .bvShl a b | .bvLshr a b
  | .bvAshr a b | .bvEq a b | .bvNe a b | .bvUlt a b | .bvUle a b | .bvUgt a b | .bvUge a b
  | .bvSlt a b | .bvSle a b | .bvSgt a b | .bvSge a b | .bvUaddOverflows a b
  | .bvSaddOverflows a b | .bvUsubOverflows a b | .bvSsubOverflows a b | .bvUmulOverflows a b
  | .bvSmulOverflows a b | .bvSdivOverflows a b => .bv a :: b.given
  | .bvConcat a b => [.bv a, .bv b]
  | .boolNot x | .assert x | .assertNamed _ x | .assume x => [.bool x]
  | .boolAnd a b | .boolOr a b | .boolImplies a b | .boolEq a b => [.bool a, .bool b]
  | .ite c t e => [.bool c, t, e]
  | .bvIte c t e => [.bool c, .bv t, .bv e]
  | .boolIte c t e => [.bool c, .bool t, .bool e]
  | .bvSelect selectors values default =>
    .bv default :: (selectors.map Term.bool ++ values.map Term.bv)
  | .assertMutex selectors => selectors.map Term.bool
  | .buildSimplifyRequest _ target => [target]
  | .buildMinimizeRequest _ target _ _ _ | .buildMaximizeRequest _ target _ _ _ => [.bv target]
  | .termWidth t | .termOp t | .termChildren t | .termName t | .termValueBytesLe t
  | .termBoolValue t | .termParams t => [t]

def ofBv (m : BuilderM BvTerm) : BuilderM (List Term) := do
  let t ← m
  pure [.bv t]

def ofBool (m : BuilderM BoolTerm) : BuilderM (List Term) := do
  let t ← m
  pure [.bool t]

def ofTerm (m : BuilderM Term) : BuilderM (List Term) := do
  let t ← m
  pure [t]

def ofUnit (m : BuilderM Unit) : BuilderM (List Term) := do
  m
  pure []

/-- A method that only reads, with the handles among what it returns. -/
def reading (f : ExprBuilder → Result α) (handles : α → List Term) : BuilderM (List Term) := do
  let a ← Grow.read f
  pure (handles a)

/-- A method of a handle reads the context of the handle; here it does nothing for a handle of
another context. -/
def ofHandle (ctx : Nat) (t : Term) (f : ExprBuilder → Result α) (handles : α → List Term) :
    BuilderM (List Term) :=
  if t.ctx = ctx then reading f handles else pure []

/-- The method behind a call, as the handles it returns; `reset` is not one that only appends. -/
def method (ctx : Nat) : Op → Option (BuilderM (List Term))
  | .reset => none
  | .bvVar name width => some (ofBv (Context.bvVar ctx name width))
  | .boolVar name => some (ofBool (Context.boolVar ctx name))
  | .bvConst value width => some (ofBv (Context.bvConst ctx value width))
  | .bvConstI64 value width => some (ofBv (Context.bvConstI64 ctx value width))
  | .bvConstWide bytes width => some (ofBv (Context.bvConstWide ctx bytes width))
  | .boolConst value => some (ofBool (Context.boolConst ctx value))
  | .trueTerm => some (ofBool (Context.trueTerm ctx))
  | .falseTerm => some (ofBool (Context.falseTerm ctx))
  | .bvNot x => some (ofBv (Context.bvNot ctx x))
  | .bvNeg x => some (ofBv (Context.bvNeg ctx x))
  | .bvAnd a b => some (ofBv (Context.bvAnd ctx a b))
  | .bvOr a b => some (ofBv (Context.bvOr ctx a b))
  | .bvXor a b => some (ofBv (Context.bvXor ctx a b))
  | .bvAdd a b => some (ofBv (Context.bvAdd ctx a b))
  | .bvSub a b => some (ofBv (Context.bvSub ctx a b))
  | .bvMul a b => some (ofBv (Context.bvMul ctx a b))
  | .bvUdiv a b => some (ofBv (Context.bvUdiv ctx a b))
  | .bvUrem a b => some (ofBv (Context.bvUrem ctx a b))
  | .bvSdiv a b => some (ofBv (Context.bvSdiv ctx a b))
  | .bvSrem a b => some (ofBv (Context.bvSrem ctx a b))
  | .bvSmod a b => some (ofBv (Context.bvSmod ctx a b))
  | .bvShl a b => some (ofBv (Context.bvShl ctx a b))
  | .bvLshr a b => some (ofBv (Context.bvLshr ctx a b))
  | .bvAshr a b => some (ofBv (Context.bvAshr ctx a b))
  | .bvEq a b => some (ofBool (Context.bvEq ctx a b))
  | .bvNe a b => some (ofBool (Context.bvNe ctx a b))
  | .bvUlt a b => some (ofBool (Context.bvUlt ctx a b))
  | .bvUle a b => some (ofBool (Context.bvUle ctx a b))
  | .bvUgt a b => some (ofBool (Context.bvUgt ctx a b))
  | .bvUge a b => some (ofBool (Context.bvUge ctx a b))
  | .bvSlt a b => some (ofBool (Context.bvSlt ctx a b))
  | .bvSle a b => some (ofBool (Context.bvSle ctx a b))
  | .bvSgt a b => some (ofBool (Context.bvSgt ctx a b))
  | .bvSge a b => some (ofBool (Context.bvSge ctx a b))
  | .bvUaddOverflows a b => some (ofBool (Context.bvUaddOverflows ctx a b))
  | .bvSaddOverflows a b => some (ofBool (Context.bvSaddOverflows ctx a b))
  | .bvUsubOverflows a b => some (ofBool (Context.bvUsubOverflows ctx a b))
  | .bvSsubOverflows a b => some (ofBool (Context.bvSsubOverflows ctx a b))
  | .bvUmulOverflows a b => some (ofBool (Context.bvUmulOverflows ctx a b))
  | .bvSmulOverflows a b => some (ofBool (Context.bvSmulOverflows ctx a b))
  | .bvNegOverflows x => some (ofBool (Context.bvNegOverflows ctx x))
  | .bvSdivOverflows a b => some (ofBool (Context.bvSdivOverflows ctx a b))
  | .bvExtract x hi lo => some (ofBv (Context.bvExtract ctx x hi lo))
  | .bvConcat high low => some (ofBv (Context.bvConcat ctx high low))
  | .bvZext x amount => some (ofBv (Context.bvZext ctx x amount))
  | .bvSext x amount => some (ofBv (Context.bvSext ctx x amount))
  | .boolNot x => some (ofBool (Context.boolNot ctx x))
  | .boolAnd a b => some (ofBool (Context.boolAnd ctx a b))
  | .boolOr a b => some (ofBool (Context.boolOr ctx a b))
  | .boolImplies a b => some (ofBool (Context.boolImplies ctx a b))
  | .boolEq a b => some (ofBool (Context.boolEq ctx a b))
  | .ite c t e => some (ofTerm (Context.ite ctx c t e))
  | .bvIte c t e => some (ofBv (Context.bvIte ctx c t e))
  | .boolIte c t e => some (ofBool (Context.boolIte ctx c t e))
  | .bvSelect selectors values default =>
    some (ofBv (Context.bvSelect ctx selectors values default))
  | .bvRotateLeft x amount => some (ofBv (Context.bvRotateLeft ctx x amount))
  | .bvRotateRight x amount => some (ofBv (Context.bvRotateRight ctx x amount))
  | .assert root => some (ofUnit (Context.assert ctx root))
  | .assertNamed name root => some (ofUnit (Context.assertNamed ctx name root))
  | .assume root => some (ofUnit (Context.assume ctx root))
  | .assertMutex selectors => some (ofUnit (Context.assertMutex ctx selectors))
  | .clearAssumptions => some (ofUnit ExprBuilder.clearAssumptions)
  | .push => some (ofUnit ExprBuilder.push)
  | .pop => some (ofUnit ExprBuilder.pop)
  | .term reference => some (reading (Context.term ctx reference) fun t => [t])
  | .assertions => some (reading (Context.assertions ctx) fun ts => ts.map Term.bool)
  | .namedAssertions => some (reading (Context.namedAssertions ctx) fun ts =>
      ts.map fun named => Term.bool named.2)
  | .assumptions => some (reading (Context.assumptions ctx) fun ts => ts.map Term.bool)
  | .toBytes => some (reading ExprBuilder.toBytes fun _ => [])
  | .buildSolveRequest requestId budgetMs wantModel wantCore =>
    some (reading (fun s => s.buildSolveRequest requestId budgetMs wantModel wantCore) fun _ => [])
  | .buildSimplifyRequest requestId target =>
    some (reading (Context.buildSimplifyRequest ctx requestId target) fun _ => [])
  | .buildMinimizeRequest requestId target signed budgetMs wantModel =>
    some (reading (Context.buildMinimizeRequest ctx requestId target signed budgetMs wantModel)
      fun _ => [])
  | .buildMaximizeRequest requestId target signed budgetMs wantModel =>
    some (reading (Context.buildMaximizeRequest ctx requestId target signed budgetMs wantModel)
      fun _ => [])
  | .termWidth t => some (ofHandle ctx t t.width fun _ => [])
  | .termOp t => some (ofHandle ctx t t.op fun _ => [])
  | .termChildren t => some (ofHandle ctx t t.children fun ts => ts)
  | .termName t => some (ofHandle ctx t t.name fun _ => [])
  | .termValueBytesLe t => some (ofHandle ctx t t.valueBytesLe fun _ => [])
  | .termBoolValue t => some (ofHandle ctx t t.boolValue fun _ => [])
  | .termParams t => some (ofHandle ctx t t.params fun _ => [])

/-- A call on a context: the handles it returns, and the context it leaves whether or not it
succeeds. -/
def run (op : Op) (c : Context) : Result (List Term) × Context :=
  match op.method c.id with
  | some m => ((m.run c.builder).1, ⟨c.id, (m.run c.builder).2⟩)
  | none => (ok [], ⟨c.id, ExprBuilder.new⟩)

/-! ## Every call -/

/-- What a call leaves and returns. -/
structure Behaves (ctx : Nat) (m : BuilderM (List Term)) : Prop where
  inv : ∀ s, s.Inv → (m.run s).2.Inv
  owns : ∀ s, s.Inv → Grow.Returns m s fun ts s' => ∀ t ∈ ts, Owns ctx s' t

theorem behaves_of_spec {m : BuilderM (List Term)}
    (h : ∀ s, Spec m s fun ts s' => ∀ t ∈ ts, Owns ctx s' t) : Behaves ctx m := by
  refine ⟨fun s hs => ?_, fun s hs ts s' hr => ?_⟩
  · have hrun := h s hs trivial
    revert hrun
    cases m.run s with
    | mk o s' =>
      cases o with
      | ok ts => exact fun hrun => hrun.1
      | err e => exact fun hrun => hrun.2
      | panic => exact fun hrun => hrun.elim
  · exact ((h s hs).of_ok hr trivial).2

theorem behaves_ofBv {m : BuilderM BvTerm} (h : Hands ctx .bv m) : Behaves ctx (ofBv m) := by
  refine behaves_of_spec fun s => (h s).bind fun t s' _ ht => spec_pure ?_
  simpa using ht

theorem behaves_ofBool {m : BuilderM BoolTerm} (h : Hands ctx .bool m) :
    Behaves ctx (ofBool m) := by
  refine behaves_of_spec fun s => (h s).bind fun t s' _ ht => spec_pure ?_
  simpa using ht

theorem behaves_ofTerm {m : BuilderM Term} (h : Hands ctx (fun t => t) m) :
    Behaves ctx (ofTerm m) := by
  refine behaves_of_spec fun s => (h s).bind fun t s' _ ht => spec_pure ?_
  simpa using ht

theorem behaves_ofUnit {m : BuilderM Unit} (h : Keeps m) : Behaves ctx (ofUnit m) := by
  refine behaves_of_spec fun s => (h s).bind fun _ s' _ _ => spec_pure ?_
  simp

theorem run_reading {f : ExprBuilder → Result α} {handles : α → List Term} :
    ((reading f handles).run s).2 = s := by
  unfold reading
  rw [Grow.run_bind, Grow.run_read]
  cases f s <;> rfl

theorem behaves_reading {f : ExprBuilder → Result α} {handles : α → List Term}
    (h : ∀ s a, f s = ok a → ∀ t ∈ handles a, Owns ctx s t) : Behaves ctx (reading f handles) := by
  refine ⟨fun s hs => run_reading ▸ hs, fun s _ => ?_⟩
  refine Grow.Returns.bind (P := fun a s' => f s' = ok a) (Grow.returns_read fun a ha => ha) ?_
  intro a s' _ ha
  exact Grow.returns_pure (h s' a ha)

theorem behaves_ofHandle {t : Term} {f : ExprBuilder → Result α} {handles : α → List Term}
    (h : t.ctx = ctx → ∀ s a, f s = ok a → ∀ u ∈ handles a, Owns ctx s u) :
    Behaves ctx (ofHandle ctx t f handles) := by
  unfold ofHandle
  split
  · exact behaves_reading (h ‹_›)
  · exact behaves_of_spec fun s => spec_pure (by simp)

/-- A method that returns no handle. -/
theorem behaves_silent {f : ExprBuilder → Result α} : Behaves ctx (reading f fun _ => []) :=
  behaves_reading (by simp)

theorem behaves_silentHandle {t : Term} {f : ExprBuilder → Result α} :
    Behaves ctx (ofHandle ctx t f fun _ => []) :=
  behaves_ofHandle (by simp)

theorem owns_of_boolTerms {xs : List β} {f : β → NodeRef} {ts : List BoolTerm}
    (h : xs.mapM (fun x => boolTerm ctx (f x) s) = ok ts) : ∀ t ∈ ts.map Term.bool, Owns ctx s t := by
  intro t ht
  obtain ⟨u, hu, rfl⟩ := List.mem_map.mp ht
  obtain ⟨x, -, hx⟩ := exists_of_mapM h u hu
  exact owns_of_boolTerm hx

theorem owns_of_namedAssertions {ts : List (String × BoolTerm)}
    (h : Context.namedAssertions ctx s = ok ts) :
    ∀ t ∈ ts.map fun named => Term.bool named.2, Owns ctx s t := by
  intro t ht
  obtain ⟨named, hnamed, h⟩ := bind_eq_ok.mp h
  obtain rfl := Outcome.ok.inj h
  obtain ⟨⟨name, u⟩, hu, rfl⟩ := List.mem_map.mp ht
  obtain ⟨entry, hentry, hsome⟩ := List.mem_filterMap.mp hu
  obtain ⟨a, -, ha⟩ := exists_of_mapM hnamed entry hentry
  unfold namedAssertion at ha
  split at ha
  · obtain ⟨text, -, ha⟩ := bind_eq_ok.mp ha
    obtain ⟨root, hroot, ha⟩ := bind_eq_ok.mp ha
    obtain rfl := Outcome.ok.inj ha
    obtain ⟨-, rfl⟩ := Prod.mk.inj (Option.some.inj hsome)
    exact owns_of_boolTerm hroot
  · obtain rfl := Outcome.ok.inj ha
    cases hsome

theorem owns_of_children {t : Term} (ht : t.ctx = ctx) {ts : List Term}
    (h : t.children s = ok ts) : ∀ u ∈ ts, Owns ctx s u := by
  intro u hu
  obtain ⟨node, -, h⟩ := bind_eq_ok.mp h
  obtain ⟨refs, -, h⟩ := bind_eq_ok.mp h
  obtain ⟨r, -, hr⟩ := exists_of_mapM h u hu
  exact ht ▸ owns_of_term hr

/-- **Every call** keeps the invariant and returns handles of nodes that are there. -/
theorem behaves_method (op : Op) {m : BuilderM (List Term)} (h : op.method ctx = some m) :
    Behaves ctx m := by
  cases op with
  | reset => cases h
  | bvVar => exact Option.some.inj h ▸ behaves_ofBv (hands_bvHandle keeps_bvVar)
  | boolVar => exact Option.some.inj h ▸ behaves_ofBool (hands_boolHandle keeps_boolVar)
  | bvConst => exact Option.some.inj h ▸ behaves_ofBv hands_bvConst
  | bvConstI64 => exact Option.some.inj h ▸ behaves_ofBv hands_bvConst
  | bvConstWide => exact Option.some.inj h ▸ behaves_ofBv (hands_bvHandle keeps_bvConstWide)
  | trueTerm | falseTerm =>
    exact Option.some.inj h ▸ behaves_ofBool (hands_boolHandle (keeps_boolConst (by simp)))
  | boolConst value =>
    refine Option.some.inj h ▸ behaves_ofBool ?_
    cases value <;> exact hands_boolHandle (keeps_boolConst (by simp))
  | bvNot | bvNeg => exact Option.some.inj h ▸ behaves_ofBv hands_bvUnary
  | bvAnd | bvOr | bvXor | bvAdd | bvSub | bvMul | bvUdiv | bvUrem | bvSdiv | bvSrem | bvSmod
  | bvShl | bvLshr | bvAshr =>
    exact Option.some.inj h ▸ behaves_ofBv hands_bvBinary
  | bvEq | bvUlt | bvUle | bvSlt | bvSle | bvUaddOverflows | bvSaddOverflows | bvUsubOverflows
  | bvSsubOverflows | bvUmulOverflows | bvSmulOverflows | bvSdivOverflows =>
    exact Option.some.inj h ▸ behaves_ofBool hands_bvCmp
  | bvUgt | bvUge | bvSgt | bvSge => exact Option.some.inj h ▸ behaves_ofBool hands_bvCmpReverse
  | bvNe => exact Option.some.inj h ▸ behaves_ofBool hands_bvNe
  | bvNegOverflows =>
    exact Option.some.inj h ▸ behaves_ofBool
      (Hands.check (fun _ => safe_expectBv) fun _ => hands_boolHandle keeps_negOvf)
  | bvExtract =>
    exact Option.some.inj h ▸ behaves_ofBv
      (Hands.check (fun _ => safe_expectBv) fun _ => hands_bvHandle keeps_bvExtract)
  | bvConcat =>
    exact Option.some.inj h ▸ behaves_ofBv
      (Hands.check (fun _ => safe_expectBv) fun _ => Hands.check (fun _ => safe_expectBv) fun _ =>
        hands_bvHandle keeps_bvConcat)
  | bvZext | bvSext =>
    exact Option.some.inj h ▸ behaves_ofBv
      (Hands.check (fun _ => safe_expectBv) fun _ => hands_bvHandle
        (keeps_bvExtend ⟨by simp, by simp, by simp⟩ rfl rfl fun _ _ _ => Iff.rfl))
  | boolNot => exact Option.some.inj h ▸ behaves_ofBool hands_boolNot
  | boolAnd | boolOr | boolImplies => exact Option.some.inj h ▸ behaves_ofBool hands_boolBinary
  | boolEq => exact Option.some.inj h ▸ behaves_ofBool hands_boolEq
  | ite => exact Option.some.inj h ▸ behaves_ofTerm hands_ite
  | bvIte => exact Option.some.inj h ▸ behaves_ofBv hands_bvIte
  | boolIte => exact Option.some.inj h ▸ behaves_ofBool hands_boolIte
  | bvSelect => exact Option.some.inj h ▸ behaves_ofBv hands_bvSelect
  | bvRotateLeft =>
    exact Option.some.inj h ▸ behaves_ofBv
      (Hands.check (fun _ => safe_expectBv) fun _ => hands_bvHandle keeps_bvRotateLeft)
  | bvRotateRight =>
    exact Option.some.inj h ▸ behaves_ofBv
      (Hands.check (fun _ => safe_expectBv) fun _ => hands_bvHandle keeps_bvRotateRight)
  | assert =>
    exact Option.some.inj h ▸ behaves_ofUnit
      (Keeps.check (fun _ _ => safe_expectBool) fun _ => keeps_assert)
  | assertNamed =>
    exact Option.some.inj h ▸ behaves_ofUnit
      (Keeps.check (fun _ _ => safe_expectBool) fun _ _ => assertNamed_spec.forget)
  | assume =>
    exact Option.some.inj h ▸ behaves_ofUnit
      (Keeps.check (fun _ _ => safe_expectBool) fun _ => keeps_assume)
  | assertMutex =>
    exact Option.some.inj h ▸ behaves_ofUnit
      (Keeps.check (fun _ _ => safe_mapM fun _ _ => safe_boolRef) fun _ => keeps_assertMutex)
  | clearAssumptions => exact Option.some.inj h ▸ behaves_ofUnit keeps_clearAssumptions
  | push => exact Option.some.inj h ▸ behaves_ofUnit keeps_push
  | pop => exact Option.some.inj h ▸ behaves_ofUnit keeps_pop
  | term reference =>
    refine Option.some.inj h ▸ behaves_reading fun s t ht u hu => ?_
    exact List.mem_singleton.mp hu ▸ owns_of_term ht
  | assertions | assumptions =>
    exact Option.some.inj h ▸ behaves_reading fun s ts hts => owns_of_boolTerms hts
  | namedAssertions =>
    exact Option.some.inj h ▸ behaves_reading fun s ts hts => owns_of_namedAssertions hts
  | toBytes | buildSolveRequest | buildSimplifyRequest | buildMinimizeRequest
  | buildMaximizeRequest =>
    exact Option.some.inj h ▸ behaves_silent
  | termChildren t =>
    exact Option.some.inj h ▸ behaves_ofHandle fun ht s ts hts => owns_of_children ht hts
  | termWidth | termOp | termName | termValueBytesLe | termBoolValue | termParams =>
    exact Option.some.inj h ▸ behaves_silentHandle

theorem refuses_ofBv {m : BuilderM BvTerm} (h : Refuses m s) : Refuses (ofBv m) s := h.bind
theorem refuses_ofBool {m : BuilderM BoolTerm} (h : Refuses m s) : Refuses (ofBool m) s := h.bind
theorem refuses_ofUnit {m : BuilderM Unit} (h : Refuses m s) : Refuses (ofUnit m) s := h.bind

theorem refuses_reading {f : ExprBuilder → Result α} {handles : α → List Term}
    (h : ∃ e, f s = err e) : Refuses (reading f handles) s :=
  refuses_check h

/-- A method of a handle begins with the lookup of its node. -/
theorem refuses_ofHandle {t : Term} (ht : t.ctx = ctx) {f : ExprBuilder → Result α}
    {handles : α → List Term} (h : ∃ e, f s = err e) : Refuses (ofHandle ctx t f handles) s := by
  unfold ofHandle
  rw [if_pos ht]
  exact refuses_reading h

/-- **A dangling argument makes every call fail.** -/
theorem refuses_method (op : Op) {m : BuilderM (List Term)} (h : op.method ctx = some m) {t : Term}
    (ht : t ∈ op.given) (hown : t.ctx = ctx) (hd : Dangling s t) : Refuses m s := by
  cases op with
  | reset | bvVar | boolVar | bvConst | bvConstI64 | bvConstWide | boolConst | trueTerm | falseTerm
  | clearAssumptions | push | pop | term | assertions | namedAssertions | assumptions | toBytes
  | buildSolveRequest =>
    simp [given] at ht
  | bvNot | bvNeg =>
    obtain rfl := List.mem_singleton.mp ht
    exact Option.some.inj h ▸ refuses_ofBv (refuses_check hd.expectBv)
  | bvNegOverflows =>
    obtain rfl := List.mem_singleton.mp ht
    exact Option.some.inj h ▸ refuses_ofBool (refuses_check hd.expectBv)
  | bvExtract | bvZext | bvSext | bvRotateLeft | bvRotateRight =>
    obtain rfl := List.mem_singleton.mp ht
    exact Option.some.inj h ▸ refuses_ofBv (refuses_check hd.expectBv)
  | bvAnd | bvOr | bvXor | bvAdd | bvSub | bvMul | bvUdiv | bvUrem | bvSdiv | bvSrem | bvSmod
  | bvShl | bvLshr | bvAshr =>
    exact Option.some.inj h ▸ refuses_ofBv (hd.bvBinary ht)
  | bvEq | bvUlt | bvUle | bvSlt | bvSle | bvUaddOverflows | bvSaddOverflows | bvUsubOverflows
  | bvSsubOverflows | bvUmulOverflows | bvSmulOverflows | bvSdivOverflows =>
    exact Option.some.inj h ▸ refuses_ofBool (hd.bvCmp ht)
  | bvUgt | bvUge | bvSgt | bvSge =>
    exact Option.some.inj h ▸ refuses_ofBool (hd.bvCmpReverse ht)
  | bvNe => exact Option.some.inj h ▸ refuses_ofBool (hd.bvCmp ht).bind
  | bvConcat a b =>
    simp only [given, List.mem_cons, List.not_mem_nil, or_false] at ht
    refine Option.some.inj h ▸ refuses_ofBv ?_
    rcases ht with rfl | rfl
    · exact refuses_check hd.expectBv
    · exact refuses_after safe_expectBv fun _ _ => refuses_check hd.expectBv
  | boolNot =>
    obtain rfl := List.mem_singleton.mp ht
    exact Option.some.inj h ▸ refuses_ofBool (refuses_check hd.expectBool)
  | boolAnd | boolOr | boolImplies | boolEq =>
    exact Option.some.inj h ▸ refuses_ofBool (hd.twoBools ht)
  | ite => exact Option.some.inj h ▸ (hd.ite ht).bind
  | bvIte => exact Option.some.inj h ▸ refuses_ofBv (hd.bvIte ht)
  | boolIte => exact Option.some.inj h ▸ refuses_ofBool (hd.boolIte ht)
  | bvSelect => exact Option.some.inj h ▸ refuses_ofBv (hd.bvSelect ht)
  | assert | assertNamed | assume =>
    obtain rfl := List.mem_singleton.mp ht
    exact Option.some.inj h ▸ refuses_ofUnit (refuses_check hd.expectBool)
  | assertMutex selectors =>
    obtain ⟨x, hx, rfl⟩ := List.mem_map.mp ht
    exact Option.some.inj h ▸ refuses_ofUnit (refuses_check (hd.boolRefs hx))
  | buildSimplifyRequest requestId target =>
    obtain rfl := List.mem_singleton.mp ht
    obtain ⟨e, he⟩ : ∃ e, Context.expectTerm ctx t "simplify" s = err e := hd.expectTerm
    exact Option.some.inj h ▸ refuses_reading ⟨e, by rw [Context.buildSimplifyRequest, he]; rfl⟩
  | buildMinimizeRequest requestId target =>
    obtain rfl := List.mem_singleton.mp ht
    obtain ⟨e, he⟩ : ∃ e, Context.expectBv ctx target "minimize" s = err e := hd.expectBv
    exact Option.some.inj h ▸ refuses_reading
      ⟨e, by rw [Context.buildMinimizeRequest, buildOptimizeRequest, he]; rfl⟩
  | buildMaximizeRequest requestId target =>
    obtain rfl := List.mem_singleton.mp ht
    obtain ⟨e, he⟩ : ∃ e, Context.expectBv ctx target "maximize" s = err e := hd.expectBv
    exact Option.some.inj h ▸ refuses_reading
      ⟨e, by rw [Context.buildMaximizeRequest, buildOptimizeRequest, he]; rfl⟩
  | termWidth =>
    obtain rfl := List.mem_singleton.mp ht
    obtain ⟨e, he⟩ := hd
    exact Option.some.inj h ▸ refuses_ofHandle hown ⟨e, by rw [Term.width, he]; rfl⟩
  | termOp | termChildren | termName | termValueBytesLe | termParams =>
    obtain rfl := List.mem_singleton.mp ht
    exact Option.some.inj h ▸ refuses_ofHandle hown hd.nodeForRef
  | termBoolValue =>
    obtain rfl := List.mem_singleton.mp ht
    obtain ⟨e, he⟩ := hd.nodeForRef (g := fun node => Context.parseTag node.tag)
    exact Option.some.inj h ▸ refuses_ofHandle hown
      ⟨e, by rw [Term.boolValue, Term.op, he]; rfl⟩

/-- **One call** keeps the invariant and the identity of the context. -/
theorem run_inv (op : Op) {c : Context} (hc : c.builder.Inv) :
    (op.run c).2.builder.Inv ∧ (op.run c).2.id = c.id := by
  unfold run
  cases hm : op.method c.id with
  | none => exact ⟨inv_new, rfl⟩
  | some m => exact ⟨(behaves_method op hm).inv _ hc, rfl⟩

/-- A call other than `reset` only appends. -/
theorem run_le (op : Op) (hop : op ≠ .reset) (c : Context) :
    c.builder ≤ (op.run c).2.builder := by
  unfold run
  cases hm : op.method c.id with
  | none =>
    cases op
    case reset => exact absurd rfl hop
    all_goals cases hm
  | some m => exact m.grows c.builder

/-- The handles a call returns stand for nodes of the context it leaves. -/
theorem run_owns (op : Op) {c : Context} (hc : c.builder.Inv) {ts : List Term}
    (h : (op.run c).1 = ok ts) : ∀ t ∈ ts, Owns c.id (op.run c).2.builder t := by
  unfold run at h ⊢
  cases hm : op.method c.id with
  | none =>
    rw [hm] at h
    obtain rfl := Outcome.ok.inj h
    simp
  | some m =>
    rw [hm] at h
    exact (behaves_method op hm).owns _ hc ts _ (Prod.ext h rfl)

/-- A call with a dangling handle of this context fails. -/
theorem run_refuses (op : Op) {c : Context} {t : Term} (ht : t ∈ op.given) (hown : t.ctx = c.id)
    (hd : Dangling c.builder t) : ∃ e, (op.run c).1 = err e := by
  unfold run
  cases hm : op.method c.id with
  | none =>
    cases op
    case reset => simp [given] at ht
    all_goals cases hm
  | some m => exact refuses_method op hm ht hown hd

end Op

/-! ## Runs -/

/-- The context after a sequence of calls. -/
def after (c : Context) (ops : List Op) : Context := ops.foldl (fun c op => (op.run c).2) c

theorem after_append (c : Context) (ops ops' : List Op) :
    c.after (ops ++ ops') = (c.after ops).after ops' :=
  List.foldl_append ..

/-- **Any sequence of calls** keeps the invariant and the identity of the context. -/
theorem after_inv (ops : List Op) {c : Context} (hc : c.builder.Inv) :
    (c.after ops).builder.Inv ∧ (c.after ops).id = c.id := by
  induction ops generalizing c with
  | nil => exact ⟨hc, rfl⟩
  | cons op ops ih =>
    obtain ⟨hinv, hid⟩ := op.run_inv hc
    obtain ⟨hinv', hid'⟩ := ih hinv
    exact ⟨hinv', hid'.trans hid⟩

/-- Calls without a `reset` among them only append. -/
theorem after_le {ops : List Op} (hops : Op.reset ∉ ops) (c : Context) :
    c.builder ≤ (c.after ops).builder := by
  induction ops generalizing c with
  | nil => exact le_refl _
  | cons op ops ih =>
    rw [List.mem_cons, not_or] at hops
    exact (op.run_le (Ne.symm hops.1) c).trans (ih hops.2 _)

end Context
end Wire
end SmtServer
