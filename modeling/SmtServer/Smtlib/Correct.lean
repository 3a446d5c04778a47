import SmtServer.Smtlib.Meaning

/-!
# Sinks that mean what they build

A sink is correct for a relation `Denotes` when each of its operations, given nodes that denote
values of the right sorts, can only return a node that denotes the operator's value, and when what
a node denotes is never changed. Nothing is asked of an operation that fails.

The lowering reads a term against its value under all assignments at once: `TermMeans` says that
a run which returns leaves a node of the reported sort that denotes the value. `OperatorMeans` says
it of an operator, given that its arguments do, and is proved once per family of operators; the
tables of the lowering and of the theory are then compared row by row.
-/

namespace SmtServer
namespace Smtlib

open Lib Grow
open Lib.Smt (Value)
open Qfbv.Bytes (Spells)

/-- A value for every name at every sort it may be declared with. -/
structure Assignment where
  value : String → SmtSort → Value
  sorted : ∀ name sort, sortOf (value name sort) = sort

/-- Some value of a sort. -/
def defaultValue : SmtSort → Value
  | .bool => .bool false
  | .bv w => .bv w 0

theorem sortOf_defaultValue (sort : SmtSort) : sortOf (defaultValue sort) = sort := by
  cases sort <;> rfl

instance : Inhabited Assignment := ⟨fun _ => defaultValue, fun _ => sortOf_defaultValue⟩

/-- What a node stands for, under every assignment. -/
abbrev Meaning := Assignment → Value

/-- The values of the arguments, when all of them have one. -/
def valuesAt : List (Assignment → Option Value) → Assignment → Option (List Value)
  | [], _ => some []
  | v :: vs, ρ => do
    let first ← v ρ
    let rest ← valuesAt vs ρ
    some (first :: rest)

def HasSort (x : Meaning) (sort : SmtSort) : Prop := ∀ ρ, sortOf (x ρ) = sort

section

variable {S N : Type} [Preorder S] (Inv : S → Prop) (Denotes : S → N → Meaning → Prop)

/-- A run that returns keeps the invariant and gives a node for `x`. -/
def Gives (m : SinkM S N) (x : Meaning) (s : S) : Prop :=
  Inv s → Returns m s fun n s' => Inv s' ∧ Denotes s' n x

/-- `op` computes `f` on operands of sort `sort`. -/
def Unary (op : N → SinkM S N) (sort : SmtSort) (f : Value → Value) : Prop :=
  ∀ {s a x}, Denotes s a x → HasSort x sort → Gives Inv Denotes (op a) (fun ρ => f (x ρ)) s

def Binary (op : N → N → SinkM S N) (sort : SmtSort) (f : Value → Value → Value) : Prop :=
  ∀ {s a b x y}, Denotes s a x → Denotes s b y → HasSort x sort → HasSort y sort →
    Gives Inv Denotes (op a b) (fun ρ => f (x ρ) (y ρ)) s

def Ternary (op : N → N → N → SinkM S N) (sort : SmtSort) : Prop :=
  ∀ {s c a b z x y}, Denotes s c z → Denotes s a x → Denotes s b y → HasSort z .bool →
    HasSort x sort → HasSort y sort →
      Gives Inv Denotes (op c a b) (fun ρ => Smt.ite (z ρ) (x ρ) (y ρ)) s

/-- Each operation meets the specification of its operator. -/
structure Sink.Correct (sink : Sink S N) : Prop where
  mono : ∀ {s s' n x}, Inv s → Inv s' → s ≤ s' → Denotes s n x → Denotes s' n x
  boolConst : ∀ {s b}, Gives Inv Denotes (sink.boolConst b) (fun _ => .bool b) s
  bvConst : ∀ {s bytes w} {x : BitVec w}, 1 ≤ w → w ≤ 65536 → Spells bytes x →
    Gives Inv Denotes (sink.bvConst bytes w) (fun _ => .bv w x) s
  boolVar : ∀ {s name}, Gives Inv Denotes (sink.boolVar name) (fun ρ => ρ.value name .bool) s
  bvVar : ∀ {s name w}, 1 ≤ w → w ≤ 65536 →
    Gives Inv Denotes (sink.bvVar name w) (fun ρ => ρ.value name (.bv w)) s
  boolNot : Unary Inv Denotes sink.boolNot .bool Smt.not
  boolAnd : Binary Inv Denotes sink.boolAnd .bool Smt.and
  boolOr : Binary Inv Denotes sink.boolOr .bool Smt.or
  boolImplies : Binary Inv Denotes sink.boolImplies .bool Smt.implies
  boolEq : Binary Inv Denotes sink.boolEq .bool Smt.iff
  boolXor : Binary Inv Denotes sink.boolXor .bool fun a b => Smt.not (Smt.iff a b)
  boolIte : Ternary Inv Denotes sink.boolIte .bool
  bvNot : ∀ w, Unary Inv Denotes sink.bvNot (.bv w) Smt.bvnot
  bvNeg : ∀ w, Unary Inv Denotes sink.bvNeg (.bv w) Smt.bvneg
  bvAnd : ∀ w, Binary Inv Denotes sink.bvAnd (.bv w) Smt.bvand
  bvOr : ∀ w, Binary Inv Denotes sink.bvOr (.bv w) Smt.bvor
  bvXor : ∀ w, Binary Inv Denotes sink.bvXor (.bv w) Smt.bvxor
  bvAdd : ∀ w, Binary Inv Denotes sink.bvAdd (.bv w) Smt.bvadd
  bvSub : ∀ w, Binary Inv Denotes sink.bvSub (.bv w) Smt.bvsub
  bvMul : ∀ w, Binary Inv Denotes sink.bvMul (.bv w) Smt.bvmul
  bvUdiv : ∀ w, Binary Inv Denotes sink.bvUdiv (.bv w) Smt.bvudiv
  bvUrem : ∀ w, Binary Inv Denotes sink.bvUrem (.bv w) Smt.bvurem
  bvSdiv : ∀ w, Binary Inv Denotes sink.bvSdiv (.bv w) Smt.bvsdiv
  bvSrem : ∀ w, Binary Inv Denotes sink.bvSrem (.bv w) Smt.bvsrem
  bvSmod : ∀ w, Binary Inv Denotes sink.bvSmod (.bv w) Smt.bvsmod
  bvShl : ∀ w, Binary Inv Denotes sink.bvShl (.bv w) Smt.bvshl
  bvLshr : ∀ w, Binary Inv Denotes sink.bvLshr (.bv w) Smt.bvlshr
  bvAshr : ∀ w, Binary Inv Denotes sink.bvAshr (.bv w) Smt.bvashr
  bvExtract : ∀ {s a x w hi lo}, Denotes s a x → HasSort x (.bv w) → lo ≤ hi →
    Inv s → Returns (sink.bvExtract a hi lo) s fun n s' =>
      hi < w ∧ Inv s' ∧ Denotes s' n fun ρ => Smt.extract hi lo (x ρ)
  bvConcat : ∀ {s a b x y w v}, Denotes s a x → Denotes s b y → HasSort x (.bv w) →
    HasSort y (.bv v) → Gives Inv Denotes (sink.bvConcat a b) (fun ρ => Smt.concat (x ρ) (y ρ)) s
  bvZext : ∀ amount w, Unary Inv Denotes (sink.bvZext · amount) (.bv w) (Smt.zeroExtend amount)
  bvSext : ∀ amount w, Unary Inv Denotes (sink.bvSext · amount) (.bv w) (Smt.signExtend amount)
  bvRepeat : ∀ count w, 0 < count →
    Unary Inv Denotes (sink.bvRepeat · count) (.bv w) (Smt.repeated count)
  bvRotateLeft : ∀ amount w,
    Unary Inv Denotes (sink.bvRotateLeft · amount) (.bv w) (Smt.rotateLeft amount)
  bvRotateRight : ∀ amount w,
    Unary Inv Denotes (sink.bvRotateRight · amount) (.bv w) (Smt.rotateRight amount)
  bvIte : ∀ w, Ternary Inv Denotes sink.bvIte (.bv w)
  bvEq : ∀ w, Binary Inv Denotes sink.bvEq (.bv w) Smt.bveq
  bvUlt : ∀ w, Binary Inv Denotes sink.bvUlt (.bv w) Smt.bvult
  bvUle : ∀ w, Binary Inv Denotes sink.bvUle (.bv w) Smt.bvule
  bvSlt : ∀ w, Binary Inv Denotes sink.bvSlt (.bv w) Smt.bvslt
  bvSle : ∀ w, Binary Inv Denotes sink.bvSle (.bv w) Smt.bvsle
  uaddOvf : ∀ w, Binary Inv Denotes sink.uaddOvf (.bv w) Smt.bvuaddo
  saddOvf : ∀ w, Binary Inv Denotes sink.saddOvf (.bv w) Smt.bvsaddo
  usubOvf : ∀ w, Binary Inv Denotes sink.usubOvf (.bv w) Smt.bvusubo
  ssubOvf : ∀ w, Binary Inv Denotes sink.ssubOvf (.bv w) Smt.bvssubo
  umulOvf : ∀ w, Binary Inv Denotes sink.umulOvf (.bv w) Smt.bvumulo
  smulOvf : ∀ w, Binary Inv Denotes sink.smulOvf (.bv w) Smt.bvsmulo
  negOvf : ∀ w, Unary Inv Denotes sink.negOvf (.bv w) Smt.bvnego
  sdivOvf : ∀ w, Binary Inv Denotes sink.sdivOvf (.bv w) Smt.bvsdivo

/-- A lowered term stands for `x`, which has the reported sort. -/
structure Means (s : S) (e : LoweredExpr N) (x : Meaning) : Prop where
  denotes : Denotes s e.node x
  sort : HasSort x e.sort

/-- From every later state: a run that returns leaves a node for the value `v`, which exists. -/
def TermMeans (s₀ : S) (m : Term S N) (v : Assignment → Option Value) : Prop :=
  ∀ s, s₀ ≤ s → Inv s → Returns m s fun e s' =>
    Inv s' ∧ ∃ x, Means Denotes s' e x ∧ ∀ ρ, v ρ = some (x ρ)

/-- An operator computes `f` on the values of its arguments. -/
def OperatorMeans (op : List (Term S N) → Term S N) (f : Operation) : Prop :=
  ∀ {s₀ terms} {vs : List (Assignment → Option Value)},
    List.Forall₂ (TermMeans Inv Denotes s₀) terms vs →
      TermMeans Inv Denotes s₀ (op terms) fun ρ => (valuesAt vs ρ).bind f

end

/-! ## Rules -/

section

variable {S N : Type} [Preorder S] {Inv : S → Prop} {Denotes : S → N → Meaning → Prop}
  {sink : Sink S N} {α β : Type} {s₀ s : S} {Q : β → S → Prop}

theorem Means.mono (h : sink.Correct Inv Denotes) {s s' : S} {e : LoweredExpr N} {x : Meaning}
    (hs : Inv s) (hs' : Inv s') (hle : s ≤ s') (hx : Means Denotes s e x) :
    Means Denotes s' e x :=
  ⟨h.mono hs hs' hle hx.denotes, hx.sort⟩

/-- Run an argument. -/
theorem TermMeans.step {m : Term S N} {v : Assignment → Option Value}
    {k : LoweredExpr N → LowerM S β} (hm : TermMeans Inv Denotes s₀ m v) (hle : s₀ ≤ s)
    (hs : Inv s)
    (hk : ∀ e s' x, s ≤ s' → Inv s' → Means Denotes s' e x → (∀ ρ, v ρ = some (x ρ)) →
      Returns (k e) s' Q) : Returns (m >>= k) s Q :=
  (hm s hle hs).bind fun e s' hle' ⟨hs', x, hx, hv⟩ => hk e s' x hle' hs' hx hv

/-- Run an operation of the sink. -/
theorem Gives.step {m : SinkM S N} {x : Meaning} {k : N → LowerM S β}
    (hm : Gives Inv Denotes m x s) (hs : Inv s)
    (hk : ∀ n s', s ≤ s' → Inv s' → Denotes s' n x → Returns (k n) s' Q) :
    Returns (sinkResult m >>= k) s Q :=
  (hm hs).mapErr.bind fun n s' hle ⟨hs', hn⟩ => hk n s' hle hs' hn

/-- Run a check. -/
theorem returns_lift_bind {o : Result α} {k : α → LowerM S β}
    (hk : ∀ a, o = .ok a → Returns (k a) s Q) : Returns (Grow.lift o >>= k) s Q := by
  refine Returns.bind (P := fun a s' => o = .ok a ∧ s' = s) (returns_read fun a ha => ⟨ha, rfl⟩) ?_
  rintro a s' - ⟨ha, rfl⟩
  exact hk a ha

theorem returns_lowerSort_bind {actual expected : SmtSort} {context : String}
    {k : Unit → LowerM S β} (hk : actual = expected → Returns (k ()) s Q) :
    Returns (lowerSort actual expected context >>= k) s Q :=
  returns_lift_bind fun _ ha => hk (Outcome.ensure_eq_ok.mp ha)

theorem returns_invalid {context message : String} :
    Returns (invalid context message : LowerM S β) s Q :=
  returns_fail

/-- The end of an operator: the node it returns stands for its value. -/
theorem returns_means {n : N} {sort : SmtSort} {x : Meaning} {v : Assignment → Option Value}
    (hs : Inv s) (hn : Denotes s n x) (hsort : HasSort x sort) (hv : ∀ ρ, v ρ = some (x ρ)) :
    Returns (pure ⟨n, sort⟩ : Term S N) s fun e s' =>
      Inv s' ∧ ∃ x, Means Denotes s' e x ∧ ∀ ρ, v ρ = some (x ρ) :=
  returns_pure ⟨hs, x, ⟨hn, hsort⟩, hv⟩

end

end Smtlib
end SmtServer
