import SmtServer.Smtlib.Operators

/-!
# The sink of values

Nodes that are their own meaning: nothing is stored but the assertions, the assumptions and the
scopes. It is the sink every correct one implements, and the one on which a fixed script can be
run without a solver behind it.
-/

namespace SmtServer
namespace Smtlib

open Lib Grow
open Lib.Smt (Value)

/-- A meaning and the sort it has. -/
structure SortedMeaning where
  sort : SmtSort
  meaning : Meaning

/-- What a script leaves behind; the marks of open scopes, innermost first. -/
structure ValueStore where
  assertions : List (SortedMeaning × Option String)
  assumptions : List SortedMeaning
  scopes : List Nat

/-- A node does not depend on the store. -/
instance : Preorder ValueStore where
  le _ _ := True
  le_refl _ := trivial
  le_trans _ _ _ _ _ := trivial

def valueNode (sort : SmtSort) (x : Meaning) : SinkM ValueStore SortedMeaning := pure ⟨sort, x⟩

def valueUnary (sort : SmtSort → SmtSort) (f : Value → Value) (a : SortedMeaning) :
    SinkM ValueStore SortedMeaning :=
  valueNode (sort a.sort) fun ρ => f (a.meaning ρ)

def valueBinary (sort : SmtSort → SmtSort) (f : Value → Value → Value) (a b : SortedMeaning) :
    SinkM ValueStore SortedMeaning :=
  valueNode (sort a.sort) fun ρ => f (a.meaning ρ) (b.meaning ρ)

def valueIte (c a b : SortedMeaning) : SinkM ValueStore SortedMeaning :=
  valueNode a.sort fun ρ => Smt.ite (c.meaning ρ) (a.meaning ρ) (b.meaning ρ)

def valueAssert (root : SortedMeaning) (name : Option String) : SinkM ValueStore Unit where
  run s :=
    if root.sort = .bool then (.ok (), { s with assertions := s.assertions ++ [(root, name)] })
    else (.err "assertion is not Bool", s)
  grows _ := trivial

def valueAssume (root : SortedMeaning) : SinkM ValueStore Unit where
  run s :=
    if root.sort = .bool then (.ok (), { s with assumptions := s.assumptions ++ [root] })
    else (.err "assumption is not Bool", s)
  grows _ := trivial

def valuePush : SinkM ValueStore Unit where
  run s := (.ok (), { s with scopes := s.assertions.length :: s.scopes })
  grows _ := trivial

def valuePop : SinkM ValueStore Unit where
  run s :=
    match s.scopes with
    | [] => (.err "pop without matching push", s)
    | len :: scopes => (.ok (), { s with assertions := s.assertions.take len, scopes })
  grows _ := trivial

/-- The width a bit-vector sort has. -/
def SmtSort.width : SmtSort → Nat
  | .bool => 0
  | .bv w => w

def valueSink : Sink ValueStore SortedMeaning where
  boolConst b := valueNode .bool fun _ => .bool b
  bvConst bytes w := valueNode (.bv w) fun _ => .bv w (.ofNat w (leNat bytes))
  boolVar name := valueNode .bool fun ρ => ρ.value name .bool
  bvVar name w := valueNode (.bv w) fun ρ => ρ.value name (.bv w)
  boolNot := valueUnary id Smt.not
  boolAnd := valueBinary id Smt.and
  boolOr := valueBinary id Smt.or
  boolImplies := valueBinary id Smt.implies
  boolEq := valueBinary id Smt.iff
  boolXor := valueBinary id fun a b => Smt.not (Smt.iff a b)
  boolIte := valueIte
  bvNot := valueUnary id Smt.bvnot
  bvNeg := valueUnary id Smt.bvneg
  bvAnd := valueBinary id Smt.bvand
  bvOr := valueBinary id Smt.bvor
  bvXor := valueBinary id Smt.bvxor
  bvAdd := valueBinary id Smt.bvadd
  bvSub := valueBinary id Smt.bvsub
  bvMul := valueBinary id Smt.bvmul
  bvUdiv := valueBinary id Smt.bvudiv
  bvUrem := valueBinary id Smt.bvurem
  bvSdiv := valueBinary id Smt.bvsdiv
  bvSrem := valueBinary id Smt.bvsrem
  bvSmod := valueBinary id Smt.bvsmod
  bvShl := valueBinary id Smt.bvshl
  bvLshr := valueBinary id Smt.bvlshr
  bvAshr := valueBinary id Smt.bvashr
  bvExtract a hi lo :=
    if hi < a.sort.width then
      valueUnary (fun _ => .bv (hi - lo + 1)) (Smt.extract hi lo) a
    else Grow.fail "extract out of range"
  bvConcat a b := valueNode (.bv (a.sort.width + b.sort.width)) fun ρ =>
    Smt.concat (a.meaning ρ) (b.meaning ρ)
  bvZext a amount := valueUnary (fun sort => .bv (sort.width + amount)) (Smt.zeroExtend amount) a
  bvSext a amount := valueUnary (fun sort => .bv (sort.width + amount)) (Smt.signExtend amount) a
  bvRepeat a count := valueUnary (fun sort => .bv (sort.width * count)) (Smt.repeated count) a
  bvRotateLeft a amount := valueUnary id (Smt.rotateLeft amount) a
  bvRotateRight a amount := valueUnary id (Smt.rotateRight amount) a
  bvIte := valueIte
  bvEq := valueBinary (fun _ => .bool) Smt.bveq
  bvUlt := valueBinary (fun _ => .bool) Smt.bvult
  bvUle := valueBinary (fun _ => .bool) Smt.bvule
  bvSlt := valueBinary (fun _ => .bool) Smt.bvslt
  bvSle := valueBinary (fun _ => .bool) Smt.bvsle
  uaddOvf := valueBinary (fun _ => .bool) Smt.bvuaddo
  saddOvf := valueBinary (fun _ => .bool) Smt.bvsaddo
  usubOvf := valueBinary (fun _ => .bool) Smt.bvusubo
  ssubOvf := valueBinary (fun _ => .bool) Smt.bvssubo
  umulOvf := valueBinary (fun _ => .bool) Smt.bvumulo
  smulOvf := valueBinary (fun _ => .bool) Smt.bvsmulo
  negOvf := valueUnary (fun _ => .bool) Smt.bvnego
  sdivOvf := valueBinary (fun _ => .bool) Smt.bvsdivo
  assert := valueAssert
  assume := valueAssume
  push := valuePush
  pop := valuePop

/-! ## It is correct -/

/-- A node stands for its meaning, which has its sort. -/
def ValueDenotes (_ : ValueStore) (n : SortedMeaning) (x : Meaning) : Prop :=
  n.meaning = x ∧ HasSort x n.sort

variable {Inv : ValueStore → Prop}

theorem sort_unique {x : Meaning} {a b : SmtSort} (ha : HasSort x a) (hb : HasSort x b) : a = b :=
  (ha default).symm.trans (hb default)

theorem gives_valueNode {sort : SmtSort} {x : Meaning} {s : ValueStore} (h : HasSort x sort) :
    Gives Inv ValueDenotes (valueNode sort x) x s :=
  fun hs => returns_pure ⟨hs, rfl, h⟩

theorem valueUnary_correct {g : SmtSort → SmtSort} {f : Value → Value} {sort : SmtSort}
    (hf : ∀ v, sortOf v = sort → sortOf (f v) = g sort) :
    Unary Inv ValueDenotes (valueUnary g f) sort f := by
  rintro s a _ ⟨rfl, hsort⟩ hx
  obtain rfl := sort_unique hsort hx
  exact gives_valueNode fun ρ => hf _ (hx ρ)

theorem valueBinary_correct {g : SmtSort → SmtSort} {f : Value → Value → Value} {sort : SmtSort}
    (hf : ∀ u v, sortOf u = sort → sortOf (f u v) = g sort) :
    Binary Inv ValueDenotes (valueBinary g f) sort f := by
  rintro s a b _ _ ⟨rfl, hsort⟩ ⟨rfl, -⟩ hx hy
  obtain rfl := sort_unique hsort hx
  exact gives_valueNode fun ρ => hf _ _ (hx ρ)

theorem valueIte_correct {sort : SmtSort} : Ternary Inv ValueDenotes valueIte sort := by
  rintro s c a b _ _ _ ⟨rfl, -⟩ ⟨rfl, hsort⟩ ⟨rfl, -⟩ hz hx hy
  obtain rfl := sort_unique hsort hx
  exact gives_valueNode fun ρ => sortOf_ite (hx ρ) (hy ρ)

/-- An operator whose result has the width of its operands. -/
theorem valueWidth_correct {f : Value → Value → Value} (hf : ∀ u v, sortOf (f u v) = .bv u.width)
    (w : Nat) : Binary Inv ValueDenotes (valueBinary id f) (.bv w) f :=
  valueBinary_correct fun u v hu => by rw [hf, width_of_sortOf hu, id]

theorem valueWidth_correct₁ {f : Value → Value} (hf : ∀ u, sortOf (f u) = .bv u.width) (w : Nat) :
    Unary Inv ValueDenotes (valueUnary id f) (.bv w) f :=
  valueUnary_correct fun u hu => by rw [hf, width_of_sortOf hu, id]

/-- A relation. -/
theorem valueRel_correct {f : Value → Value → Value} (hf : ∀ u v, sortOf (f u v) = .bool)
    {sort : SmtSort} : Binary Inv ValueDenotes (valueBinary (fun _ => .bool) f) sort f :=
  valueBinary_correct fun u v _ => hf u v

/-- No operation on terms touches the store, so any property of it is kept. -/
theorem valueSink_correct : valueSink.Correct Inv ValueDenotes where
  mono _ _ _ h := h
  boolConst := gives_valueNode fun _ => rfl
  bvConst {s bytes w x} _ _ h := by
    rw [← h.ofNat_leNat]
    exact gives_valueNode fun _ => rfl
  boolVar := gives_valueNode fun ρ => ρ.sorted _ _
  bvVar _ _ := gives_valueNode fun ρ => ρ.sorted _ _
  boolNot := valueUnary_correct fun _ _ => rfl
  boolAnd := valueBinary_correct fun _ _ _ => rfl
  boolOr := valueBinary_correct fun _ _ _ => rfl
  boolImplies := valueBinary_correct fun _ _ _ => rfl
  boolEq := valueBinary_correct fun _ _ _ => rfl
  boolXor := valueBinary_correct (f := fun a b => Smt.not (Smt.iff a b)) fun _ _ _ => rfl
  boolIte := valueIte_correct
  bvNot w := valueWidth_correct₁ (fun _ => rfl) w
  bvNeg w := valueWidth_correct₁ (fun _ => rfl) w
  bvAnd w := valueWidth_correct (fun _ _ => rfl) w
  bvOr w := valueWidth_correct (fun _ _ => rfl) w
  bvXor w := valueWidth_correct (fun _ _ => rfl) w
  bvAdd w := valueWidth_correct (fun _ _ => rfl) w
  bvSub w := valueWidth_correct (fun _ _ => rfl) w
  bvMul w := valueWidth_correct (fun _ _ => rfl) w
  bvUdiv w := valueWidth_correct (fun _ _ => rfl) w
  bvUrem w := valueWidth_correct (fun _ _ => rfl) w
  bvSdiv w := valueWidth_correct (fun _ _ => rfl) w
  bvSrem w := valueWidth_correct (fun _ _ => rfl) w
  bvSmod w := valueWidth_correct (fun _ _ => rfl) w
  bvShl w := valueWidth_correct (fun _ _ => rfl) w
  bvLshr w := valueWidth_correct (fun _ _ => rfl) w
  bvAshr w := valueWidth_correct (fun _ _ => rfl) w
  bvExtract {s a x w hi lo} ha hx hle hs := by
    obtain ⟨rfl, hsort⟩ := ha
    have hw := sort_unique hsort hx
    show Returns (if hi < a.sort.width then _ else _) s _
    split
    · rename_i hlt
      rw [hw] at hlt
      exact returns_pure ⟨hlt, hs, rfl, fun _ => rfl⟩
    · exact returns_fail
  bvConcat {s a b x y w v} ha hb hx hy := by
    obtain ⟨rfl, hsa⟩ := ha
    obtain ⟨rfl, hsb⟩ := hb
    refine gives_valueNode fun ρ => ?_
    rw [sort_unique hsa hx, sort_unique hsb hy, Smt.concat, sortOf, width_of_sortOf (hx ρ),
      width_of_sortOf (hy ρ)]
    rfl
  bvZext amount w := valueUnary_correct (g := fun sort => .bv (sort.width + amount)) fun v hv => by
    rw [Smt.zeroExtend, sortOf, width_of_sortOf hv, SmtSort.width]
  bvSext amount w := valueUnary_correct (g := fun sort => .bv (sort.width + amount)) fun v hv => by
    rw [Smt.signExtend, sortOf, width_of_sortOf hv, SmtSort.width]
  bvRepeat count w _ := valueUnary_correct (g := fun sort => .bv (sort.width * count)) fun v hv => by
    rw [Smt.repeated, sortOf, width_of_sortOf hv, SmtSort.width]
  bvRotateLeft amount w := valueWidth_correct₁ (fun _ => rfl) w
  bvRotateRight amount w := valueWidth_correct₁ (fun _ => rfl) w
  bvIte _ := valueIte_correct
  bvEq _ := valueRel_correct fun _ _ => rfl
  bvUlt _ := valueRel_correct fun _ _ => rfl
  bvUle _ := valueRel_correct fun _ _ => rfl
  bvSlt _ := valueRel_correct fun _ _ => rfl
  bvSle _ := valueRel_correct fun _ _ => rfl
  uaddOvf _ := valueRel_correct fun _ _ => rfl
  saddOvf _ := valueRel_correct fun _ _ => rfl
  usubOvf _ := valueRel_correct fun _ _ => rfl
  ssubOvf _ := valueRel_correct fun _ _ => rfl
  umulOvf _ := valueRel_correct fun _ _ => rfl
  smulOvf _ := valueRel_correct fun _ _ => rfl
  negOvf _ := valueUnary_correct (g := fun _ => .bool) (f := Smt.bvnego) fun _ _ => rfl
  sdivOvf _ := valueRel_correct fun _ _ => rfl

end Smtlib
end SmtServer
