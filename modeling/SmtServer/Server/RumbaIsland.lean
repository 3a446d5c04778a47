import SmtServer.Server.Rumba
import SmtServer.Wire.BuilderMeaning

/-!
# What an island means

An expression of `rumba_core` is evaluated at a width, under values for its variables
(`RumbaExpr.eval`), and `RumbaCore.Lawful` says what the backend relies on: the operators build
what they are named after, constants go in and out modulo `2 ^ bits`, and `simplify_mba` changes
no value.

The conversion of an island is then correct in this sense (`Represents`): under **any** values for
the variables that agree with what the variables stand for, the expression has the value of the
node. Agreement is a condition on the variables there are, so more variables do no harm.
-/

namespace SmtServer
namespace Server

open Lib Outcome Wire
open Lib.Smt (Value)

/-! ## Expressions of `rumba_core` -/

/-- A constant at a width: what `get` returns for the width's mask. -/
def RumbaCore.constant (R : RumbaCore) (bits : Nat) (c : R.VarInt) : BitVec bits :=
  .ofNat bits (R.get c (R.makeMask (UInt8.ofNat bits))).toNat

namespace RumbaExpr

variable {R : RumbaCore} {bits : Nat}

mutual

/-- The value of an expression modulo `2 ^ bits`. -/
def eval (env : Nat → BitVec bits) : RumbaExpr R.VarInt → BitVec bits
  | .var id => env id
  | .const value => R.constant bits value
  | .not child => ~~~eval env child
  | .scale coeff child => R.constant bits coeff * eval env child
  | .and children => (evalAll env children).foldl (· &&& ·) (.allOnes bits)
  | .or children => (evalAll env children).foldl (· ||| ·) 0
  | .xor children => (evalAll env children).foldl (· ^^^ ·) 0
  | .add children => (evalAll env children).foldl (· + ·) 0
  | .mul children => (evalAll env children).foldl (· * ·) 1

def evalAll (env : Nat → BitVec bits) : List (RumbaExpr R.VarInt) → List (BitVec bits)
  | [] => []
  | child :: rest => eval env child :: evalAll env rest

end

theorem evalAll_append (env : Nat → BitVec bits) (xs ys : List (RumbaExpr R.VarInt)) :
    evalAll env (xs ++ ys) = evalAll env xs ++ evalAll env ys := by
  induction xs with
  | nil => rfl
  | cons x xs ih => simp only [List.cons_append, evalAll, ih]

end RumbaExpr

/-- What the backend relies on. -/
structure RumbaCore.Lawful (R : RumbaCore) : Prop where
  makeMask : ∀ bits, 1 ≤ bits → bits ≤ 64 → (R.makeMask (UInt8.ofNat bits)).toNat = 2 ^ bits - 1
  get_fromU64 : ∀ value bits, 1 ≤ bits → bits ≤ 64 →
    R.get (R.fromU64 value) (R.makeMask (UInt8.ofNat bits)) =
      value &&& R.makeMask (UInt8.ofNat bits)
  not : ∀ bits env x, 1 ≤ bits → bits ≤ 64 →
    RumbaExpr.eval env (R.not x) = ~~~(RumbaExpr.eval env x : BitVec bits)
  neg : ∀ bits env x, 1 ≤ bits → bits ≤ 64 →
    RumbaExpr.eval env (R.neg x) = -(RumbaExpr.eval env x : BitVec bits)
  sub : ∀ bits env x y, 1 ≤ bits → bits ≤ 64 →
    RumbaExpr.eval env (R.sub x y) = (RumbaExpr.eval env x : BitVec bits) - RumbaExpr.eval env y
  simplifyMba : ∀ bits env x y, 1 ≤ bits → bits ≤ 64 →
    R.simplifyMba x (UInt8.ofNat bits) = some y →
      (RumbaExpr.eval env y : BitVec bits) = RumbaExpr.eval env x

/-! ## References into the request's expression -/

/-- `r` is a reference to the node `n` of `p`, with the node's sort. -/
structure RefersTo (p : Parts) (r : NodeRef) (n : RawNode) (t : Tag) : Prop where
  node : p.nodes[r.idx]? = some n
  tag : Tag.tryFrom n.tag = some t
  sort : r.sort = t.resultSort

section

variable {p : Parts} {v : ExprView} {r : NodeRef} {n : RawNode} {t : Tag} {i k w : Nat}
  {σ : WireSort}

theorem RefersTo.shaped (h : RefersTo p r n t) (hp : p.WellFormed) (ρ : Env) :
    Shaped r.sort n.width.toNat (p.value ρ r.idx) := by
  rw [h.sort]
  exact hp.value_shaped h.node h.tag

/-- The operand a node has at a position, as the code reads it. -/
theorem srcChild_of_operand (hv : IsViewOf v p) (h : p.Operand i n k σ w)
    (hk : k < n.arity.toNat) : ∃ r m u, srcChild v n k = ok r ∧ RefersTo p r m u ∧ r.sort = σ ∧
      r.idx < i ∧ m.width.toNat = w ∧
      ∀ f : NodeRef → Value, ((p.operands n).map f).getD k default = f r := by
  obtain ⟨r, m, u, hr, hs, hlt, hm, hu, hσ, hw⟩ := h
  refine ⟨r, m, u, ?_, ⟨hm, hu, hs.trans hσ.symm⟩, hs, hlt, hw, ?_⟩
  · have hlen := (List.getElem?_eq_some_iff.mp hr).1
    have hcount := v.header.childCount.toNat_lt
    rw [hv.childCount] at hcount
    have hadd : checkedAdd32 n.children.toNat k "child array index" =
        ok (n.children.toNat + k) := if_pos (by omega)
    rw [srcChild, hadd]
    exact hv.childRef.mpr hr
  · intro f
    rw [List.getD_eq_getElem?_getD, List.getElem?_map, Parts.getElem?_operands hk, hr]
    rfl

end

namespace IslandConversion

/-- What a variable of an island of width `w` stands for. -/
def varValue (p : Parts) (w : UInt32) (ρ : Env) : IslandVar → Value
  | .named name => ExprBuilder.bvSymbol name w.toNat ρ
  | .boundary reference => p.value ρ reference.idx

/-- Values for the variables that agree with what they stand for. -/
def Agrees (p : Parts) (w : UInt32) (ρ : Env) (vars : List IslandVar)
    (env : Nat → BitVec w.toNat) : Prop :=
  ∀ id var, vars[id]? = some var → varValue p w ρ var = .bv w.toNat (env id)

variable {R : RumbaCore} {p : Parts} {view : ExprView} {w : UInt32} {bound : Nat}
  {s s' : IslandConversion} {α β : Type}

/-- The expression has the value `v` whenever the variables have theirs. -/
def Represents (p : Parts) (w : UInt32) (vars : List IslandVar) (e : RumbaExpr R.VarInt)
    (v : Env → Value) : Prop :=
  ∀ ρ env, Agrees p w ρ vars env → v ρ = .bv w.toNat (e.eval env)

theorem Agrees.mono {ρ : Env} {env : Nat → BitVec w.toNat} (h : s ≤ s')
    (ha : Agrees p w ρ s'.vars env) : Agrees p w ρ s.vars env := by
  intro id var hvar
  exact ha id var (Parts.getElem?_of_extends h hvar)

theorem Represents.mono {e : RumbaExpr R.VarInt} {v : Env → Value} (h : s ≤ s')
    (he : Represents p w s.vars e v) : Represents p w s'.vars e v :=
  fun ρ env ha => he ρ env (ha.mono h)

/-- The invariant of a conversion: boundaries are vectors of the island's width before the
island's root, and each table leads to a variable that stands for its key. -/
structure Inv (p : Parts) (w : UInt32) (bound : Nat) (s : IslandConversion) : Prop where
  boundary : ∀ {r}, IslandVar.boundary r ∈ s.vars →
    ∃ n t, RefersTo p r n t ∧ r.sort = .bv ∧ n.width = w ∧ r.idx < bound
  byRef : ∀ {r id}, s.byRef.lookup r = some id →
    ∃ var, s.vars[id]? = some var ∧ ∀ ρ, varValue p w ρ var = p.value ρ r.idx
  byName : ∀ {name id}, s.byName.lookup name = some id → s.vars[id]? = some (.named name)

theorem inv_new : Inv p w bound new :=
  ⟨fun h => by simp [new] at h, fun h => by simp [new] at h, fun h => by simp [new] at h⟩

/-- A computation over the conversion that keeps its invariant. -/
def Converts (p : Parts) (w : UInt32) (bound : Nat) (m : ConvertM α) (s : IslandConversion)
    (Q : α → IslandConversion → Prop) : Prop :=
  Grow.Spec (fun _ => True) (Inv p w bound) (fun _ _ => True) m s Q

theorem Converts.bind {m : ConvertM α} {f : α → ConvertM β} {P : α → IslandConversion → Prop}
    {Q : β → IslandConversion → Prop} (hm : Converts p w bound m s P)
    (hf : ∀ a s', s ≤ s' → P a s' → Converts p w bound (f a) s' Q) :
    Converts p w bound (m >>= f) s Q :=
  Grow.Spec.bind (fun _ _ => trivial) hm hf

theorem converts_pure {a : α} {Q : α → IslandConversion → Prop} (h : Q a s) :
    Converts p w bound (pure a) s Q :=
  Grow.spec_pure h

theorem converts_read {f : IslandConversion → Result α} {g : α → ConvertM β}
    {Q : β → IslandConversion → Prop} (hsafe : Safe (f s))
    (hg : ∀ a, f s = ok a → Converts p w bound (g a) s Q) :
    Converts p w bound (Grow.read f >>= g) s Q :=
  Grow.spec_read hsafe (fun _ _ => trivial) hg

/-- A step whose result is known. -/
theorem converts_lift {x : Result α} {g : α → ConvertM β} {Q : β → IslandConversion → Prop}
    {a : α} (h : x = ok a) (hg : Converts p w bound (g a) s Q) :
    Converts p w bound (Grow.lift x >>= g) s Q := by
  subst h
  refine @converts_read p w bound s α β (fun _ => ok a) g Q (safe_ok a) fun a' ha => ?_
  obtain rfl := Outcome.ok.inj ha
  exact hg

theorem converts_modify {f : IslandConversion → IslandConversion} {h} {g : Unit → ConvertM β}
    {Q : β → IslandConversion → Prop} (hf : Inv p w bound s → Inv p w bound (f s))
    (hg : Converts p w bound (g ()) (f s) Q) : Converts p w bound (Grow.modify f h >>= g) s Q := by
  intro hs
  exact Grow.wp_bind_modify (hg (hf hs))

theorem converts_of_inv {m : ConvertM α} {Q : α → IslandConversion → Prop}
    (h : Inv p w bound s → Converts p w bound m s Q) : Converts p w bound m s Q :=
  fun hs => h hs hs

/-! ## Variables -/

/-- A variable stands for what agreement makes of it. -/
theorem represents_var {vars : List IslandVar} {id : Nat} {var : IslandVar} {v : Env → Value}
    (hvar : vars[id]? = some var) (hv : ∀ ρ, varValue p w ρ var = v ρ) :
    Represents p w vars (.var id : RumbaExpr R.VarInt) v := by
  intro ρ env ha
  rw [← hv, ha id var hvar, RumbaExpr.eval]

theorem Inv.remember (hs : Inv p w bound s) {r : NodeRef} {id : Nat} {var : IslandVar}
    (hvar : s.vars[id]? = some var) (hv : ∀ ρ, varValue p w ρ var = p.value ρ r.idx) :
    Inv p w bound { s with byRef := (r, id) :: s.byRef } := by
  refine ⟨hs.boundary, ?_, hs.byName⟩
  intro r' id' hl
  rw [List.lookup_cons] at hl
  split at hl
  · rename_i heq
    obtain rfl := beq_iff_eq.mp heq
    obtain rfl := Option.some.inj hl
    exact ⟨var, hvar, hv⟩
  · exact hs.byRef hl

/-- A new variable for a reference: either the cap is reached or it is there. -/
theorem pushVar_spec {var : IslandVar} {r : NodeRef}
    (hv : ∀ ρ, varValue p w ρ var = p.value ρ r.idx)
    (hb : ∀ r', var = .boundary r' →
      ∃ n t, RefersTo p r' n t ∧ r'.sort = .bv ∧ n.width = w ∧ r'.idx < bound) :
    Converts p w bound (pushVar var r) s fun o s' =>
      ∀ id, o = some id → s'.vars[id]? = some var := by
  refine converts_read (by simp) fun id hid => ?_
  obtain rfl := Outcome.ok.inj hid
  split
  · exact converts_pure fun _ h => by cases h
  · have hlast : (s.vars ++ [var])[s.vars.length]? = some var := by simp
    refine converts_modify ?_ (converts_modify (fun hs => hs.remember hlast hv) (converts_pure ?_))
    · intro hs
      refine ⟨?_, ?_, ?_⟩
      · intro r' hr'
        rcases List.mem_append.mp hr' with hold | hnew
        · exact hs.boundary hold
        · exact hb r' (List.mem_singleton.mp hnew).symm
      · intro r' id hl
        obtain ⟨var', hvar', hval'⟩ := hs.byRef hl
        exact ⟨var', Parts.getElem?_of_extends (List.prefix_append _ _) hvar', hval'⟩
      · intro name id hl
        exact Parts.getElem?_of_extends (List.prefix_append _ _) (hs.byName hl)
    · intro id hid
      obtain rfl := Option.some.inj hid
      exact hlast

/-- What `named`, `boundary` and `convert` promise for a reference. -/
def Yields (p : Parts) (w : UInt32) (r : NodeRef) (o : Option (RumbaExpr R.VarInt))
    (s' : IslandConversion) : Prop :=
  ∀ e, o = some e → Represents p w s'.vars e fun ρ => p.value ρ r.idx

theorem yields_of_byRef {r : NodeRef} {id : Nat} (hs : Inv p w bound s)
    (hl : s.byRef.lookup r = some id) : Yields p w r (some (.var id : RumbaExpr R.VarInt)) s := by
  intro e he
  obtain rfl := Option.some.inj he
  obtain ⟨var, hvar, hv⟩ := hs.byRef hl
  exact represents_var hvar hv

theorem boundary_spec {r : NodeRef} {n : RawNode} {t : Tag} (hr : RefersTo p r n t)
    (hsort : r.sort = .bv) (hw : n.width = w) (hlt : r.idx < bound) :
    Converts p w bound (boundary R r) s (Yields p w r) := by
  refine converts_read (by simp) fun cached hl => converts_of_inv fun hs => ?_
  have hl := Outcome.ok.inj hl
  cases cached with
  | some id => exact converts_pure (yields_of_byRef hs hl)
  | none =>
    refine (pushVar_spec (fun _ => rfl) ?_).bind fun o s' _ hpush => converts_pure ?_
    · intro r' heq
      obtain rfl := IslandVar.boundary.inj heq
      exact ⟨n, t, hr, hsort, hw, hlt⟩
    · intro e he
      obtain ⟨id, rfl, rfl⟩ := Option.map_eq_some_iff.mp he
      exact represents_var (hpush id rfl) fun _ => rfl

theorem named_spec (hp : p.WellFormed) (hv : IsViewOf view p) {r : NodeRef} {n : RawNode}
    (hr : RefersTo p r n .bvVar) (hw : n.width = w) :
    Converts p w bound (named R view r n) s (Yields p w r) := by
  obtain ⟨t, ht, hrule⟩ := hp.node _ _ hr.node
  obtain rfl : t = .bvVar := Option.some.inj (ht.symm.trans hr.tag)
  obtain ⟨name, hname⟩ := hrule.blob.name (.inl rfl)
  -- the variable with this name has the value of the node
  have hval : ∀ ρ, varValue p w ρ (.named name) = p.value ρ r.idx := by
    intro ρ
    rw [hp.value_eq hr.node, Parts.sem, ht]
    subst hw
    simp only [Parts.semTag, Parts.symbol, hname, varValue, ExprBuilder.bvSymbol, Option.getD_some]
  refine converts_read (by simp) fun cached hl => converts_of_inv fun hs => ?_
  have hl := Outcome.ok.inj hl
  cases cached with
  | some id => exact converts_pure (yields_of_byRef hs hl)
  | none =>
    refine converts_lift (hv.blobStr.mpr hname) ?_
    refine converts_read (by simp) fun known hl' => ?_
    have hl' := Outcome.ok.inj hl'
    cases known with
    | some id =>
      have hvar := hs.byName hl'
      refine converts_modify (fun hs => hs.remember hvar hval) (converts_pure ?_)
      intro e he
      obtain rfl := Option.some.inj he
      exact represents_var hvar hval
    | none =>
      refine (pushVar_spec hval (fun _ h => by cases h)).bind fun o s' _ hpush => ?_
      cases o with
      | none => exact converts_pure fun _ h => by cases h
      | some id =>
        have hvar := hpush id rfl
        refine converts_modify ?_ (converts_pure ?_)
        · intro hs'
          refine ⟨hs'.boundary, hs'.byRef, ?_⟩
          intro name' id' hl''
          rw [List.lookup_cons] at hl''
          split at hl''
          · rename_i heq
            obtain rfl := beq_iff_eq.mp heq
            obtain rfl := Option.some.inj hl''
            exact hvar
          · exact hs'.byName hl''
        · intro e he
          obtain rfl := Option.some.inj he
          exact represents_var hvar hval

/-! ## The stack of `nary` -/

/-- An operator whose nested uses may be read as one fold. -/
structure NaryOp (t : Tag) {w : Nat} (f : BitVec w → BitVec w → BitVec w) (e : BitVec w) :
    Prop where
  arity : t.fixedArity = some 2
  rule : ∀ {p : Parts} {i n}, p.OperandRule i n t →
    p.Operand i n 0 .bv n.width.toNat ∧ p.Operand i n 1 .bv n.width.toNat
  sem : ∀ (p : Parts) ρ n args x y, args.getD 0 default = .bv w x → args.getD 1 default = .bv w y →
    p.semTag ρ n args t = .bv w (f x y)
  assoc : ∀ x y z, f (f x y) z = f x (f y z)
  ident : ∀ x, f e x = x

variable {t : Tag} {f : BitVec w.toNat → BitVec w.toNat → BitVec w.toNat} {e : BitVec w.toNat}

/-- A node of such an operator has two operands, which the code reads, and is their combination. -/
theorem NaryOp.children (ht : NaryOp t f e) (hp : p.WellFormed) (hv : IsViewOf view p)
    {r : NodeRef} {n : RawNode} (hr : RefersTo p r n t) (hw : n.width = w) :
    ∃ a b m u m' u', srcChild view n 0 = ok a ∧ srcChild view n 1 = ok b ∧ n.arity.toNat = 2 ∧
      RefersTo p a m u ∧ a.sort = .bv ∧ m.width = w ∧ a.idx < r.idx ∧
      RefersTo p b m' u' ∧ b.sort = .bv ∧ m'.width = w ∧ b.idx < r.idx ∧
      ∀ ρ, p.value ρ r.idx =
        .bv w.toNat (f ((p.value ρ a.idx).toBv w.toNat) ((p.value ρ b.idx).toBv w.toNat)) := by
  obtain ⟨u, hu, hrule⟩ := hp.node _ _ hr.node
  obtain rfl : u = t := Option.some.inj (hu.symm.trans hr.tag)
  have harity : n.arity.toNat = 2 := by
    have h := hrule.arity
    rw [Parts.ArityRule, ht.arity] at h
    rw [h]
    rfl
  obtain ⟨h0, h1⟩ := ht.rule hrule.operands
  obtain ⟨a, m, u, ha, hra, hsa, hia, hwa, hga⟩ := srcChild_of_operand hv h0 (by omega)
  obtain ⟨b, m', u', hb, hrb, hsb, hib, hwb, hgb⟩ := srcChild_of_operand hv h1 (by omega)
  have hma : m.width = w := by rw [← hw]; exact UInt32.toNat_inj.mp hwa
  have hmb : m'.width = w := by rw [← hw]; exact UInt32.toNat_inj.mp hwb
  refine ⟨a, b, m, u, m', u', ha, hb, harity, hra, hsa, hma, hia, hrb, hsb, hmb, hib, fun ρ => ?_⟩
  have hxa := hra.shaped hp ρ
  have hxb := hrb.shaped hp ρ
  rw [hsa, hma] at hxa
  rw [hsb, hmb] at hxb
  obtain ⟨x, hx⟩ := hxa
  obtain ⟨y, hy⟩ := hxb
  rw [hp.value_eq hr.node, Parts.sem, hu, hx, hy, Value.toBv_bv, Value.toBv_bv]
  exact ht.sem _ _ _ _ x y ((hga _).trans hx) ((hgb _).trans hy)

/-- The number of rounds an entry of the stack can cause: the nodes of a binary tree. -/
def rounds (stack : List NodeRef) : Nat := (stack.map fun r => 2 ^ (r.idx + 1) - 1).sum

theorem rounds_children {a b r : NodeRef} (ha : a.idx < r.idx) (hb : b.idx < r.idx)
    (stack : List NodeRef) : rounds (a :: b :: stack) < rounds (r :: stack) := by
  have hpow : ∀ {i : Nat}, i < r.idx → 2 ^ (i + 1) ≤ 2 ^ r.idx := fun h =>
    Nat.pow_le_pow_right (by decide) h
  have h1 := hpow ha
  have h2 := hpow hb
  have h3 : 0 < 2 ^ r.idx := Nat.pow_pos (by decide)
  have h4 : 2 ^ (r.idx + 1) = 2 ^ r.idx * 2 := Nat.pow_succ ..
  simp only [rounds, List.map_cons, List.sum_cons]
  omega

theorem foldl_flatten (ht : NaryOp t f e) (xs : List (BitVec w.toNat)) (x y : BitVec w.toNat)
    (ys : List (BitVec w.toNat)) :
    (xs ++ f x y :: ys).foldl f e = (xs ++ x :: y :: ys).foldl f e := by
  simp only [List.foldl_append, List.foldl_cons, ht.assoc]

/-- The terms collected so far and the references still on the stack combine to `v`. -/
def Combines (p : Parts) (w : UInt32) (f : BitVec w.toNat → BitVec w.toNat → BitVec w.toNat)
    (e : BitVec w.toNat) (v : Env → Value) (vars : List IslandVar)
    (terms : List (RumbaExpr R.VarInt)) (stack : List NodeRef) : Prop :=
  ∀ ρ env, Agrees p w ρ vars env → v ρ = .bv w.toNat ((RumbaExpr.evalAll env terms ++
    stack.map fun r => (p.value ρ r.idx).toBv w.toNat).foldl f e)

theorem naryLoop_spec (ht : NaryOp t f e) (hp : p.WellFormed) (hv : IsViewOf view p)
    {convert : NodeRef → ConvertM (Option (RumbaExpr R.VarInt))} {root : Nat} {v : Env → Value}
    (hconvert : ∀ {r n u} {s : IslandConversion}, RefersTo p r n u → r.sort = .bv → n.width = w →
      r.idx < root → Converts p w bound (convert r) s (Yields p w r)) :
    ∀ (fuel : Nat) (stack : List NodeRef) (terms : List (RumbaExpr R.VarInt))
      (s : IslandConversion), rounds stack < fuel →
      (∀ r ∈ stack, ∃ n u, RefersTo p r n u ∧ r.sort = .bv ∧ n.width = w ∧ r.idx ≤ root ∧
        (u = t ∨ r.idx < root)) →
      Combines p w f e v s.vars terms stack →
      Converts p w bound (naryLoop R view w convert t.toByte fuel stack terms) s fun o s' =>
        ∀ ts, o = some ts → Combines p w f e v s'.vars ts [] := by
  intro fuel
  induction fuel with
  | zero => exact fun _ _ _ h => absurd h (Nat.not_lt_zero _)
  | succ fuel ih =>
    intro stack terms s hfuel hstack hcomb
    cases stack with
    | nil =>
      refine converts_pure fun ts hts => ?_
      obtain rfl := Option.some.inj hts
      exact hcomb
    | cons r stack =>
      obtain ⟨n, u, hr, hsort, hw, hle, hkind⟩ := hstack r List.mem_cons_self
      have hrest := fun x hx => hstack x (List.mem_cons_of_mem r hx)
      refine converts_lift (hv.node.mpr hr.node) ?_
      split
      · -- a node of the operator: its operands take its place on the stack
        rename_i hcond
        obtain rfl : u = t := by
          have := hr.tag
          rw [hcond.2.1, Tag.tryFrom_toByte] at this
          exact (Option.some.inj this).symm
        obtain ⟨a, b, m, ua, m', ub, ha, hb, harity, hra, hsa, hwa, hia, hrb, hsb, hwb, hib, hval⟩ :=
          ht.children hp hv hr hw
        have hpush : pushChildren view n n.arity.toNat stack = ok (a :: b :: stack) := by
          rw [harity]
          simp only [pushChildren, ha, hb, ok_bind, pure_eq]
        refine converts_lift hpush (ih _ _ _ ?_ ?_ ?_)
        · have := rounds_children hia hib stack
          omega
        · intro x hx
          rcases List.mem_cons.mp hx with rfl | hx
          · exact ⟨m, ua, hra, hsa, hwa, by omega, .inr (by omega)⟩
          rcases List.mem_cons.mp hx with rfl | hx
          · exact ⟨m', ub, hrb, hsb, hwb, by omega, .inr (by omega)⟩
          · exact hrest x hx
        · intro ρ env ha
          rw [hcomb ρ env ha]
          simp only [List.map_cons, hval ρ, Value.toBv_bv]
          rw [foldl_flatten ht]
      · -- anything else is a term
        rename_i hcond
        have hlt : r.idx < root := by
          refine hkind.resolve_left fun hut => hcond ⟨hsort, ?_, hw⟩
          exact Tag.tryFrom_eq_some.mp (hut ▸ hr.tag)
        refine (hconvert hr hsort hw hlt).bind fun o s' hs' hyield => ?_
        cases o with
        | none => exact converts_pure fun _ h => by cases h
        | some term =>
          refine ih _ _ _ ?_ hrest ?_
          · have hpos : 0 < 2 ^ r.idx := Nat.pow_pos (by decide)
            have hsucc : 2 ^ (r.idx + 1) = 2 ^ r.idx * 2 := Nat.pow_succ ..
            simp only [rounds, List.map_cons, List.sum_cons] at hfuel ⊢
            omega
          · intro ρ env ha
            have hterm := hyield term rfl ρ env ha
            rw [hcomb ρ env (ha.mono hs'), RumbaExpr.evalAll_append]
            simp only [List.map_cons, hterm, Value.toBv_bv, RumbaExpr.evalAll, List.append_assoc,
              List.cons_append, List.nil_append]

theorem nary_spec (ht : NaryOp t f e) (hp : p.WellFormed) (hv : IsViewOf view p)
    {convert : NodeRef → ConvertM (Option (RumbaExpr R.VarInt))} {r : NodeRef} {n : RawNode}
    (hr : RefersTo p r n t) (hsort : r.sort = .bv) (hw : n.width = w)
    (hconvert : ∀ {x m u} {s : IslandConversion}, RefersTo p x m u → x.sort = .bv → m.width = w →
      x.idx < r.idx → Converts p w bound (convert x) s (Yields p w x))
    {g : List (RumbaExpr R.VarInt) → RumbaExpr R.VarInt}
    (hg : ∀ env ts, (g ts).eval env = (RumbaExpr.evalAll env ts).foldl f e) :
    Converts p w bound (nary R view w convert r t >>= fun terms => pure (terms.map g)) s
      (Yields p w r) := by
  have hloop := @naryLoop_spec R p view w bound t f e ht hp hv convert r.idx
    (fun ρ => p.value ρ r.idx) hconvert (2 ^ (r.idx + 1)) [r] [] s ?_ ?_ ?_
  · refine hloop.bind fun o s' _ ho => converts_pure ?_
    intro e' he'
    obtain ⟨ts, rfl, rfl⟩ := Option.map_eq_some_iff.mp he'
    intro ρ env ha
    rw [hg, ho ts rfl ρ env ha]
    simp only [List.map_nil, List.append_nil]
  · have hpos : 0 < 2 ^ (r.idx + 1) := Nat.pow_pos (by decide)
    simp only [rounds, List.map_cons, List.map_nil, List.sum_cons, List.sum_nil]
    omega
  · intro x hx
    obtain rfl := List.mem_singleton.mp hx
    exact ⟨n, t, hr, hsort, hw, le_refl _, .inl rfl⟩
  · intro ρ env _
    have hx := hr.shaped hp ρ
    rw [hsort, hw] at hx
    obtain ⟨x, hx⟩ := hx
    simp only [RumbaExpr.evalAll, List.nil_append, List.map_cons, List.map_nil, List.foldl_cons,
      List.foldl_nil, hx, Value.toBv_bv, ht.ident]

/-! ## The operators -/

theorem naryOp_and : NaryOp .bvAnd (fun x y => x &&& y) (.allOnes w.toNat) where
  arity := rfl
  rule h := h
  sem p ρ n args x y hx hy := by simp only [Parts.semTag, hx, hy, Smt.bvand, Value.map₂_bv]
  assoc := BitVec.and_assoc
  ident x := BitVec.allOnes_and

theorem naryOp_or : NaryOp .bvOr (fun x y => x ||| y) (0 : BitVec w.toNat) where
  arity := rfl
  rule h := h
  sem p ρ n args x y hx hy := by simp only [Parts.semTag, hx, hy, Smt.bvor, Value.map₂_bv]
  assoc := BitVec.or_assoc
  ident x := BitVec.zero_or

theorem naryOp_xor : NaryOp .bvXor (fun x y => x ^^^ y) (0 : BitVec w.toNat) where
  arity := rfl
  rule h := h
  sem p ρ n args x y hx hy := by simp only [Parts.semTag, hx, hy, Smt.bvxor, Value.map₂_bv]
  assoc := BitVec.xor_assoc
  ident x := BitVec.zero_xor

theorem naryOp_add : NaryOp .bvAdd (fun x y => x + y) (0 : BitVec w.toNat) where
  arity := rfl
  rule h := h
  sem p ρ n args x y hx hy := by simp only [Parts.semTag, hx, hy, Smt.bvadd, Value.map₂_bv]
  assoc := BitVec.add_assoc
  ident := BitVec.zero_add

theorem naryOp_mul : NaryOp .bvMul (fun x y => x * y) (1 : BitVec w.toNat) where
  arity := rfl
  rule h := h
  sem p ρ n args x y hx hy := by simp only [Parts.semTag, hx, hy, Smt.bvmul, Value.map₂_bv]
  assoc := BitVec.mul_assoc
  ident x := BitVec.one_mul x

/-- Reading a child of an operator and converting it. -/
theorem convertChild_spec (hv : IsViewOf view p)
    {convert : NodeRef → ConvertM (Option (RumbaExpr R.VarInt))} {i k : Nat} {n : RawNode}
    (ho : p.Operand i n k .bv w.toNat) (hk : k < n.arity.toNat)
    (hconvert : ∀ {x m u} {s : IslandConversion}, RefersTo p x m u → x.sort = .bv → m.width = w →
      x.idx < i → Converts p w bound (convert x) s (Yields p w x)) :
    Converts p w bound (convertChild R view convert n k) s fun o s' => ∀ e, o = some e →
      Represents p w s'.vars e fun ρ =>
        ((p.operands n).map fun r => p.value ρ r.idx).getD k default := by
  obtain ⟨x, m, u, hx, hrx, hsx, hix, hwx, hgx⟩ := srcChild_of_operand hv ho hk
  refine converts_lift hx (Grow.Spec.mono (hconvert hrx hsx (UInt32.toNat_inj.mp hwx) hix) ?_)
  intro o s' _ _ ho e he ρ env ha
  exact (hgx _).trans (ho e he ρ env ha)

/-- The operators that extend an island. -/
def MbaTag (t : Tag) : Prop :=
  t = .bvNot ∨ t = .bvNeg ∨ t = .bvAnd ∨ t = .bvOr ∨ t = .bvXor ∨ t = .bvAdd ∨ t = .bvSub ∨ t = .bvMul

theorem mbaTag_of_isMbaOp {n : RawNode} (ht : Tag.tryFrom n.tag = some t)
    (h : isMbaOp n.tag = true) : MbaTag t := by
  rw [Tag.tryFrom_eq_some] at ht
  rw [ht] at h
  simp only [isMbaOp, Bool.or_eq_true, beq_iff_eq] at h
  have hinj : ∀ u : Tag, t.toByte = u.toByte → t = u := by
    intro u hu
    exact Option.some.inj ((Tag.tryFrom_toByte t).symm.trans (hu ▸ Tag.tryFrom_toByte u))
  rcases h with (((((((h | h) | h) | h) | h) | h) | h) | h)
  all_goals
    obtain rfl := hinj _ h
    simp [MbaTag]

theorem maskForWidth_eq (hw : 1 ≤ w.toNat ∧ w.toNat ≤ 64) :
    maskForWidth R w = ok (R.makeMask (UInt8.ofNat w.toNat)) := if_pos hw

/-- A constant of the island is the node's payload modulo the width. -/
theorem constant_fromU64 (hR : R.Lawful) (hw : 1 ≤ w.toNat ∧ w.toNat ≤ 64) (value : UInt64) :
    R.constant w.toNat (R.fromU64 (value &&& R.makeMask (UInt8.ofNat w.toNat))) =
      BitVec.ofNat w.toNat value.toNat := by
  rw [RumbaCore.constant, hR.get_fromU64 _ _ hw.1 hw.2]
  refine ExprBuilder.bitVec_ofNat_congr ?_
  simp only [UInt64.toNat_and, hR.makeMask _ hw.1 hw.2, Nat.and_two_pow_sub_one_eq_mod, Nat.mod_mod]

/-- **Conversion is correct.** -/
theorem convert_spec (hR : R.Lawful) (hp : p.WellFormed) (hv : IsViewOf view p)
    (hw : 1 ≤ w.toNat ∧ w.toNat ≤ 64) : ∀ (fuel : Nat) {r : NodeRef} {n : RawNode} {t : Tag}
      {s : IslandConversion}, RefersTo p r n t → r.sort = .bv → n.width = w → r.idx < fuel →
      r.idx ≤ bound → (MbaTag t ∨ r.idx < bound) →
      Converts p w bound (convert R view w fuel r) s (Yields p w r) := by
  intro fuel
  induction fuel with
  | zero => exact fun _ _ _ h => absurd h (Nat.not_lt_zero _)
  | succ fuel ih =>
    intro r n t s hr hsort hnw hfuel hle hkind
    have hconvert : ∀ {x m u} {s : IslandConversion}, RefersTo p x m u → x.sort = .bv →
        m.width = w → x.idx < r.idx → Converts p w bound (convert R view w fuel x) s (Yields p w x) :=
      fun hx hs hw hlt => ih hx hs hw (by omega) (by omega) (.inr (by omega))
    obtain ⟨t', ht', hrule⟩ := hp.node _ _ hr.node
    obtain rfl : t' = t := Option.some.inj (ht'.symm.trans hr.tag)
    have hval : ∀ ρ, p.value ρ r.idx =
        p.semTag ρ n ((p.operands n).map fun x => p.value ρ x.idx) t' := by
      intro ρ
      rw [hp.value_eq hr.node, Parts.sem, ht']
    have hboundary : ¬MbaTag t' → Converts p w bound (boundary R r) s (Yields p w r) :=
      fun h => boundary_spec hr hsort hnw (hkind.resolve_left h)
    have fixed : ∀ {c : UInt8}, t'.fixedArity = some c → n.arity.toNat = c.toNat := by
      intro c hc
      have ha := hrule.arity
      rw [Parts.ArityRule, hc] at ha
      rw [ha]
    rw [convert, if_neg (by simp [hsort])]
    refine converts_lift (hv.node.mpr hr.node) ?_
    rw [if_neg (by simp [hnw]), convertNode, ht']
    have ho := hrule.operands
    cases t' with
    | bvVar => exact named_spec hp hv hr hnw
    | bvConst =>
      have hle64 : n.width.toNat ≤ maxRumbaWidth := by
        rw [hnw]
        exact hw.2
      dsimp only
      rw [if_pos hle64]
      refine converts_lift (maskForWidth_eq hw) (converts_pure ?_)
      intro e he ρ env _
      obtain rfl := Option.some.inj he
      refine (hval ρ).trans ?_
      rw [RumbaExpr.eval, constant_fromU64 hR hw]
      subst hnw
      simp only [Parts.semTag, Parts.constant]
      rw [if_pos hw.2]
    | bvNot =>
      have h1 : n.arity.toNat = 1 := fixed rfl
      refine (convertChild_spec hv (hnw ▸ ho) (by omega) hconvert).bind fun o s' _ hchild =>
        converts_pure ?_
      intro e he ρ env ha
      obtain ⟨x, rfl, rfl⟩ := Option.map_eq_some_iff.mp he
      refine (hval ρ).trans ?_
      rw [hR.not _ _ _ hw.1 hw.2]
      simp only [Parts.semTag, hchild x rfl ρ env ha, Smt.bvnot, Value.map_bv]
    | bvNeg =>
      have h1 : n.arity.toNat = 1 := fixed rfl
      refine (convertChild_spec hv (hnw ▸ ho) (by omega) hconvert).bind fun o s' _ hchild =>
        converts_pure ?_
      intro e he ρ env ha
      obtain ⟨x, rfl, rfl⟩ := Option.map_eq_some_iff.mp he
      refine (hval ρ).trans ?_
      rw [hR.neg _ _ _ hw.1 hw.2]
      simp only [Parts.semTag, hchild x rfl ρ env ha, Smt.bvneg, Value.map_bv]
    | bvAnd => exact nary_spec naryOp_and hp hv hr hsort hnw hconvert fun _ _ => rfl
    | bvOr => exact nary_spec naryOp_or hp hv hr hsort hnw hconvert fun _ _ => rfl
    | bvXor => exact nary_spec naryOp_xor hp hv hr hsort hnw hconvert fun _ _ => rfl
    | bvAdd => exact nary_spec naryOp_add hp hv hr hsort hnw hconvert fun _ _ => rfl
    | bvMul => exact nary_spec naryOp_mul hp hv hr hsort hnw hconvert fun _ _ => rfl
    | bvSub =>
      have h2 : n.arity.toNat = 2 := fixed rfl
      have hpair : Converts p w bound (children2 R view (convert R view w fuel) n) s fun o s' =>
          ∀ a b, o = some (a, b) →
            Represents p w s'.vars (R.sub a b) fun ρ => p.value ρ r.idx := by
        refine (convertChild_spec hv (hnw ▸ ho.1) (by omega) hconvert).bind fun o s' _ hchild => ?_
        cases o with
        | none => exact converts_pure fun _ _ h => by cases h
        | some a =>
          refine (convertChild_spec hv (hnw ▸ ho.2) (by omega) hconvert).bind
            fun o s'' hs'' hchild' => ?_
          cases o with
          | none => exact converts_pure fun _ _ h => by cases h
          | some b =>
            refine converts_pure ?_
            intro a' b' hab ρ env ha
            obtain ⟨rfl, rfl⟩ := Prod.mk.inj (Option.some.inj hab)
            have hx := hchild a rfl ρ env (ha.mono hs'')
            have hy := hchild' b rfl ρ env ha
            refine (hval ρ).trans ?_
            rw [hR.sub _ _ _ _ hw.1 hw.2]
            simp only [Parts.semTag, hx, hy, Smt.bvsub, Value.map₂_bv]
      refine hpair.bind fun o s' _ ho => converts_pure ?_
      intro e he
      obtain ⟨⟨a, b⟩, rfl, rfl⟩ := Option.map_eq_some_iff.mp he
      exact ho a b rfl
    | _ => exact hboundary (by simp [MbaTag])

end IslandConversion
end Server
end SmtServer
