import SmtServer.Qfbv.Builder.Runs
import SmtServer.Qfbv.FromWire
import SmtServer.Wire.Shape

/-!
# The terms of the nodes of a request

The two sides name their variables differently: an assignment for a request is keyed by names, one
for a query by terms. `ByName` relates them, and the term of a node has, under every related pair,
the value that the wire format gives the node (`TermOf`); rewriting stays behind `TermOp.build_spec`.

That the relation loses nothing either way rests on one property of the tables: the variables of the
arena are those of the nodes that declare a name **first** (`WireVar`), so a name has one term.
-/

namespace SmtServer
namespace Qfbv

open Lib Outcome
open Lib.Smt (Value)
open Wire (ExprView RawNode NodeRef BlobRef Tag BinaryRequest Parts WireSort)

variable {p : Parts} {expr : ExprView} {s s' : Arena} {ρ : Env} {ω : Wire.Env} {i k : Nat}
variable {n : RawNode} {st : WireTerms} {tag : Tag} {t u : TermId} {name : String} {w : Nat}
variable {σ : WireSort} {α : Type}

/-! ## Variables -/

/-- Every variable has the value that `ω` gives its name. -/
structure ByName (s : Arena) (ρ : Env) (ω : Wire.Env) : Prop where
  bv : ∀ t w name external, s.kindAt t = some (.bvVar w name external) →
    BitVec.ofNat w (ρ.bv t) = BitVec.ofNat w (ω.bv name)
  bool : ∀ t name external, s.kindAt t = some (.boolVar name external) → ρ.bool t = ω.bool name

theorem ByName.of_le (h : ByName s' ρ ω) (hle : s ≤ s') : ByName s ρ ω where
  bv t w name external hk := h.bv t w name external (Arena.kindAt_mono hle hk)
  bool t name external hk := h.bool t name external (Arena.kindAt_mono hle hk)

/-- The first node that declares the name. -/
structure FirstNode (p : Parts) (tag : Tag) (name : String) (i : Nat) (n : RawNode) : Prop where
  declares : p.Declares i n tag name
  first : ∀ j < i, ∀ m, ¬p.Declares j m tag name

theorem FirstNode.unique {j : Nat} {m : RawNode} (h : FirstNode p tag name i n)
    (h' : FirstNode p tag name j m) : i = j ∧ n = m := by
  rcases Nat.lt_trichotomy i j with hij | rfl | hij
  · exact absurd h.declares (h'.first i hij n)
  · exact ⟨rfl, Option.some.inj (h.declares.1.symm.trans h'.declares.1)⟩
  · exact absurd h'.declares (h.first j hij m)

/-- The variables that the pass makes. -/
def WireVar (p : Parts) : NodeKind → Prop
  | .bvVar width name external => ∃ i n, FirstNode p .bvVar name i n ∧ width = n.width.toNat ∧
      external = some (NodeRef.mk' .bv i).raw.toNat
  | .boolVar name external => ∃ i n, FirstNode p .boolVar name i n ∧
      external = some (NodeRef.mk' .bool i).raw.toNat
  | _ => True

theorem node_of_kind {kind : NodeKind} {τ : TermSort} (hs : s.Inv) (hk : s.kindAt t = some kind)
    (hτ : ∀ τ', kind.HasSort s.sortAt τ' → τ' = τ) : s.nodes[t]? = some ⟨kind, τ⟩ := by
  obtain ⟨m, hm, rfl⟩ := Arena.kindAt_eq_some.mp hk
  rw [hm, ← hτ m.sort (hs.sorted t m hm)]

theorem eq_of_node {m : Node} (hs : s.Inv) (ht : s.nodes[t]? = some m) (hu : s.nodes[u]? = some m) :
    t = u := by
  obtain ⟨hlt, rfl⟩ := List.getElem?_eq_some_iff.mp ht
  exact (List.getElem?_inj hlt hs.nodup).mp (ht.trans hu.symm)

/-- A name of a vector is the name of one term. -/
theorem bvVar_unique {v : Nat} {e e' : Option Nat} (hs : Built (WireVar p) s)
    (ht : s.kindAt t = some (.bvVar w name e)) (hu : s.kindAt u = some (.bvVar v name e')) :
    t = u := by
  obtain ⟨i, n, hi, hw, he⟩ : WireVar p (.bvVar w name e) := hs.canonical t _ ht
  obtain ⟨j, m, hj, hv, he'⟩ : WireVar p (.bvVar v name e') := hs.canonical u _ hu
  obtain ⟨rfl, rfl⟩ := hi.unique hj
  obtain rfl : w = v := hw.trans hv.symm
  obtain rfl : e = e' := he.trans he'.symm
  exact eq_of_node hs.inv (node_of_kind hs.inv ht fun _ h => h) (node_of_kind hs.inv hu fun _ h => h)

theorem boolVar_unique {e e' : Option Nat} (hs : Built (WireVar p) s)
    (ht : s.kindAt t = some (.boolVar name e)) (hu : s.kindAt u = some (.boolVar name e')) :
    t = u := by
  obtain ⟨i, n, hi, he⟩ : WireVar p (.boolVar name e) := hs.canonical t _ ht
  obtain ⟨j, m, hj, he'⟩ : WireVar p (.boolVar name e') := hs.canonical u _ hu
  obtain ⟨rfl, rfl⟩ := hi.unique hj
  obtain rfl : e = e' := he.trans he'.symm
  exact eq_of_node hs.inv (node_of_kind hs.inv ht fun _ h => h) (node_of_kind hs.inv hu fun _ h => h)

/-- The variables have the values of their names. -/
def envByName (s : Arena) (ω : Wire.Env) : Env where
  bv t :=
    match s.kindAt t with
    | some (.bvVar _ name _) => ω.bv name
    | _ => 0
  bool t :=
    match s.kindAt t with
    | some (.boolVar name _) => ω.bool name
    | _ => false

/-- An assignment to names is one to terms. -/
theorem exists_env (s : Arena) (ω : Wire.Env) : ∃ ρ, ByName s ρ ω := by
  refine ⟨envByName s ω, fun t w name e hk => ?_, fun t name e hk => ?_⟩
  · simp only [envByName, hk]
  · simp only [envByName, hk]

open Classical in
/-- An assignment to terms is one to names, for a name has one term. -/
theorem exists_wireEnv (hs : Built (WireVar p) s) (ρ : Env) : ∃ ω, ByName s ρ ω := by
  refine ⟨⟨fun name => if h : ∃ t w e, s.kindAt t = some (.bvVar w name e) then ρ.bv h.choose else 0,
    fun name => if h : ∃ t e, s.kindAt t = some (.boolVar name e) then ρ.bool h.choose else false⟩,
    fun t w name e hk => ?_, fun t name e hk => ?_⟩
  · have h : ∃ t w e, s.kindAt t = some (.bvVar w name e) := ⟨t, w, e, hk⟩
    obtain ⟨v, e', hchosen⟩ := h.choose_spec
    simp only [dif_pos h]
    rw [← bvVar_unique hs hk hchosen]
  · have h : ∃ t e, s.kindAt t = some (.boolVar name e) := ⟨t, e, hk⟩
    obtain ⟨e', hchosen⟩ := h.choose_spec
    simp only [dif_pos h]
    rw [← boolVar_unique hs hk hchosen]

/-! ## Terms of nodes -/

/-- The sort of the term of a node. -/
def wireSort : WireSort → Nat → TermSort
  | .bv, w => .bv w
  | .bool, _ => .bool

/-- The term has the sort of the node, and its value whatever the variables are. -/
structure TermOf (p : Parts) (s : Arena) (k : Nat) (t : TermId) : Prop where
  sort : ∀ n tag, p.nodes[k]? = some n → Tag.tryFrom n.tag = some tag →
    s.sortAt t = some (wireSort tag.resultSort n.width.toNat)
  value : ∀ ρ ω, ByName s ρ ω → s.value ρ t = p.value ω k

/-- As many nodes as have been visited have a term. -/
structure Visited (p : Parts) (s : Arena) (i : Nat) (terms : List (Option TermId)) : Prop where
  length : terms.length = p.nodes.length
  term : ∀ k < i, ∃ t, terms[k]? = some (some t) ∧ TermOf p s k t

/-- The tables hold the variables of the nodes that have been visited. -/
structure Tables (p : Parts) (s : Arena) (i : Nat) (st : WireTerms) : Prop where
  bvVar : ∀ name w t, st.bvVars.lookup (name, w) = some t → ∃ e, s.kindAt t = some (.bvVar w name e)
  boolVar : ∀ name t, st.boolVars.lookup name = some t → ∃ e, s.kindAt t = some (.boolVar name e)
  bvSeen : ∀ k < i, ∀ n name, p.Declares k n .bvVar name →
    ∃ t, st.bvVars.lookup (name, n.width.toNat) = some t
  boolSeen : ∀ k < i, ∀ n name, p.Declares k n .boolVar name → ∃ t, st.boolVars.lookup name = some t

theorem TermOf.mono (hp : p.WellFormed) (h : TermOf p s k t) (hk : k < p.nodes.length) (hle : s ≤ s') :
    TermOf p s' k t := by
  refine ⟨fun n tag hn ht => Arena.sortAt_mono hle (h.sort n tag hn ht), fun ρ ω hρω => ?_⟩
  obtain ⟨tag, ht, -⟩ := hp.node k _ (List.getElem?_eq_getElem hk)
  rw [Arena.value_mono hle (h.sort _ tag (List.getElem?_eq_getElem hk) ht)]
  exact h.value ρ ω (hρω.of_le hle)

theorem Visited.mono {terms : List (Option TermId)} (hp : p.WellFormed) (h : Visited p s i terms)
    (hi : i ≤ p.nodes.length) (hle : s ≤ s') : Visited p s' i terms := by
  refine ⟨h.length, fun k hk => ?_⟩
  obtain ⟨t, ht, hof⟩ := h.term k hk
  exact ⟨t, ht, hof.mono hp (hk.trans_le hi) hle⟩

theorem Tables.mono (h : Tables p s i st) (hle : s ≤ s') : Tables p s' i st where
  bvVar name w t ht := (h.bvVar name w t ht).imp fun _ hk => Arena.kindAt_mono hle hk
  boolVar name t ht := (h.boolVar name t ht).imp fun _ hk => Arena.kindAt_mono hle hk
  bvSeen := h.bvSeen
  boolSeen := h.boolSeen

/-- A node that declares nothing leaves the tables as they are. -/
theorem Tables.next (h : Tables p s i st) (hn : p.nodes[i]? = some n)
    (ht : Tag.tryFrom n.tag = some tag) (hbv : tag ≠ .bvVar) (hbool : tag ≠ .boolVar) :
    Tables p s (i + 1) st := by
  have htag {m : RawNode} {tag' : Tag} {name : String} (hd : p.Declares i m tag' name) : tag' = tag := by
    obtain ⟨hm, htag, -⟩ := hd
    obtain rfl := Option.some.inj (hm.symm.trans hn)
    exact Option.some.inj (htag.symm.trans ht)
  refine ⟨h.bvVar, h.boolVar, fun k hk m name hd => ?_, fun k hk m name hd => ?_⟩
  · rcases Nat.lt_succ_iff_lt_or_eq.mp hk with hk | rfl
    · exact h.bvSeen k hk m name hd
    · exact absurd (htag hd).symm hbv
  · rcases Nat.lt_succ_iff_lt_or_eq.mp hk with hk | rfl
    · exact h.boolSeen k hk m name hd
    · exact absurd (htag hd).symm hbool

/-! ## Operands -/

/-- The values of the operands of a node. -/
def argsOf (p : Parts) (ω : Wire.Env) (n : RawNode) : List Value :=
  (p.operands n).map fun r => p.value ω r.idx

/-- The term stands for operand `k` of the node. -/
structure ArgOf (p : Parts) (s : Arena) (n : RawNode) (k : Nat) (τ : TermSort) (t : TermId) : Prop where
  sort : s.sortAt t = some τ
  value : ∀ ρ ω, ByName s ρ ω → s.value ρ t = (argsOf p ω n).getD k default

theorem wireErr_ok {context : String} {x : Wire.Result α} {a : α} (h : x = ok a) :
    wireErr context x = ok a := by
  rw [h]
  rfl

theorem termForRef_eq {terms : List (Option TermId)} {r : NodeRef}
    (h : terms[r.idx]? = some (some t)) : termForRef terms r = ok t := by
  rw [termForRef, h]
  rfl

theorem child_eq (hv : Wire.IsViewOf expr p) (h : Visited p s i st.terms) (ho : p.Operand i n k σ w)
    (hk : k < n.arity.toNat) :
    ∃ t, child expr st.terms n k = ok t ∧ ArgOf p s n k (wireSort σ w) t := by
  obtain ⟨r, m, tag, hr, -, hlt, hm, htag, rfl, rfl⟩ := ho
  obtain ⟨t, ht, hof⟩ := h.term r.idx hlt
  have hindex := (List.getElem?_eq_some_iff.mp hr).1
  have hcount := expr.header.childCount.toNat_lt
  rw [hv.childCount] at hcount
  refine ⟨t, ?_, hof.sort m tag hm htag, fun ρ ω hρω => ?_⟩
  · rw [child, addU_of_lt (by omega), ok_bind, wireErr_ok (hv.childRef.mpr hr), ok_bind]
    exact termForRef_eq ht
  · rw [hof.value ρ ω hρω, argsOf, List.getD_eq_getElem?_getD, List.getElem?_map,
      Parts.getElem?_operands hk, hr]
    rfl

theorem child2_eq {σ' : WireSort} {v : Nat} (hv : Wire.IsViewOf expr p) (h : Visited p s i st.terms)
    (h0 : p.Operand i n 0 σ w) (h1 : p.Operand i n 1 σ' v) (harity : n.arity.toNat = 2) :
    ∃ a b, child2 expr st.terms n = ok (a, b) ∧ ArgOf p s n 0 (wireSort σ w) a ∧
      ArgOf p s n 1 (wireSort σ' v) b := by
  obtain ⟨a, ha, hofa⟩ := child_eq hv h h0 (by omega)
  obtain ⟨b, hb, hofb⟩ := child_eq hv h h1 (by omega)
  refine ⟨a, b, ?_, hofa, hofb⟩
  rw [child2, ha, ok_bind, hb]
  rfl

/-! ## Calls -/

/-- What is known before round `i`. -/
structure Round (p : Parts) (expr : ExprView) (s : Arena) (i : Nat) (n : RawNode) (tag : Tag)
    (st : WireTerms) : Prop where
  view : Wire.IsViewOf expr p
  wellFormed : p.WellFormed
  count : p.nodes.length ≤ Wire.maxNodeCount
  node : p.nodes[i]? = some n
  tag : Tag.tryFrom n.tag = some tag
  visited : Visited p s i st.terms
  tables : Tables p s i st

theorem Round.rule (h : Round p expr s i n tag st) : p.NodeRule i n tag := by
  obtain ⟨tag', ht, hrule⟩ := h.wellFormed.node i n h.node
  obtain rfl := Option.some.inj (ht.symm.trans h.tag)
  exact hrule

theorem Round.arity {c : UInt8} (h : Round p expr s i n tag st) (hc : tag.fixedArity = some c) :
    n.arity.toNat = c.toNat := by
  have ha := h.rule.arity
  rw [Parts.ArityRule, hc] at ha
  rw [ha]

/-- What a round adds: the term of its node. -/
structure Adds (p : Parts) (i : Nat) (st : WireTerms) (r : TermId × WireTerms) (s : Arena) : Prop where
  term : TermOf p s i r.1
  terms : r.2.terms = st.terms
  tables : Tables p s (i + 1) r.2

theorem Round.termOf (h : Round p expr s i n tag st)
    (hsort : s'.sortAt t = some (wireSort tag.resultSort n.width.toNat))
    (hvalue : ∀ ρ ω, ByName s' ρ ω → s'.value ρ t = p.semTag ω n (argsOf p ω n) tag) :
    TermOf p s' i t := by
  refine ⟨fun m tag' hm ht => ?_, fun ρ ω hρω => ?_⟩
  · obtain rfl := Option.some.inj (hm.symm.trans h.node)
    obtain rfl := Option.some.inj (ht.symm.trans h.tag)
    exact hsort
  · rw [hvalue ρ ω hρω, h.wellFormed.value_eq h.node, Parts.sem, h.tag]
    rfl

/-- A method whose arguments fit makes the term of the node. -/
theorem callTerm_spec {m : Result TermOp} {f : TermOp} (h : Round p expr s i n tag st)
    (hm : m = ok f) (hvar : tag ≠ .bvVar ∧ tag ≠ .boolVar) (hV : f.VarsIn (WireVar p))
    (hsort : f.sortOf s.sortAt = some (wireSort tag.resultSort n.width.toNat))
    (hsem : ∀ ρ ω id, ByName s ρ ω →
      f.sem ρ id (s.value ρ) = p.semTag ω n (argsOf p ω n) tag) :
    Builder.Spec (WireVar p) (callTerm st m) s (Adds p i st) := by
  refine Builder.spec_read hm ((Builder.Spec.all fun ρ => TermOp.build_spec (ρ := ρ) hV hsort).bind ?_)
  intro t s' hle _ ht
  have ρ₀ : Env := ⟨fun _ => 0, fun _ => false⟩
  refine Builder.spec_pure ⟨h.termOf (ht ρ₀).1 fun ρ ω hρω => ?_, rfl, ?_⟩
  · rw [(ht ρ).2]
    exact hsem ρ ω t (hρω.of_le hle)
  · exact (h.tables.next h.node h.tag hvar.1 hvar.2).mono hle

theorem callOne_spec {op : TermId → TermOp} (h : Round p expr s i n tag st)
    (harity : 0 < n.arity.toNat) (ho : p.Operand i n 0 σ w)
    (hvar : tag ≠ .bvVar ∧ tag ≠ .boolVar) (hV : ∀ x, (op x).VarsIn (WireVar p))
    (hsort : ∀ x, s.sortAt x = some (wireSort σ w) →
      (op x).sortOf s.sortAt = some (wireSort tag.resultSort n.width.toNat))
    (hsem : ∀ ρ ω id x, s.value ρ x = (argsOf p ω n).getD 0 default →
      (op x).sem ρ id (s.value ρ) = p.semTag ω n (argsOf p ω n) tag) :
    Builder.Spec (WireVar p) (callOne expr st n op) s (Adds p i st) := by
  obtain ⟨x, hx, hof⟩ := child_eq h.view h.visited ho harity
  refine callTerm_spec (f := op x) h ?_ hvar (hV x) (hsort x hof.sort) ?_
  · rw [hx]
    rfl
  · exact fun ρ ω id hρω => hsem ρ ω id x (hof.value ρ ω hρω)

theorem callTwo_spec {op : TermId → TermId → TermOp} {σ' : WireSort} {v : Nat}
    (h : Round p expr s i n tag st) (harity : tag.fixedArity = some 2)
    (ho : p.Operand i n 0 σ w ∧ p.Operand i n 1 σ' v)
    (hvar : tag ≠ .bvVar ∧ tag ≠ .boolVar) (hV : ∀ x y, (op x y).VarsIn (WireVar p))
    (hsort : ∀ x y, s.sortAt x = some (wireSort σ w) → s.sortAt y = some (wireSort σ' v) →
      (op x y).sortOf s.sortAt = some (wireSort tag.resultSort n.width.toNat))
    (hsem : ∀ ρ ω id x y, s.value ρ x = (argsOf p ω n).getD 0 default →
      s.value ρ y = (argsOf p ω n).getD 1 default →
      (op x y).sem ρ id (s.value ρ) = p.semTag ω n (argsOf p ω n) tag) :
    Builder.Spec (WireVar p) (callTwo expr st n op) s (Adds p i st) := by
  obtain ⟨x, y, hxy, hx, hy⟩ := child2_eq h.view h.visited ho.1 ho.2 (h.arity harity)
  refine callTerm_spec (f := op x y) h ?_ hvar (hV x y) (hsort x y hx.sort hy.sort) ?_
  · rw [hxy]
    rfl
  · exact fun ρ ω id hρω => hsem ρ ω id x y (hx.value ρ ω hρω) (hy.value ρ ω hρω)

/-! ### Families -/

/-- A method of two vectors of one width. -/
theorem vectors_spec {op : TermId → TermId → TermOp} {f : Value → Value → Value}
    {τ : Nat → TermSort} (h : Round p expr s i n tag st) (harity : tag.fixedArity = some 2)
    (ho : p.Operand i n 0 .bv w ∧ p.Operand i n 1 .bv w)
    (hτ : τ w = wireSort tag.resultSort n.width.toNat) (hV : ∀ x y, (op x y).VarsIn (WireVar p))
    (hsort : ∀ x y, (op x y).sortOf s.sortAt = (sameWidth? (s.sortAt x) (s.sortAt y)).map τ)
    (hlook : ∀ ρ id look x y, (op x y).sem ρ id look = f (look x) (look y))
    (hsem : ∀ ω args, p.semTag ω n args tag = f (args.getD 0 default) (args.getD 1 default)) :
    Builder.Spec (WireVar p) (callTwo expr st n op) s (Adds p i st) := by
  refine callTwo_spec h harity ho ?_ hV (fun x y hx hy => ?_) ?_
  · constructor <;> (rintro rfl; cases harity)
  · rw [hsort, sameWidth?_eq.mpr ⟨hx, hy⟩, Option.map_some, hτ]
  · intro ρ ω id x y hx hy
    rw [hlook, hx, hy, hsem]

theorem binary_spec {op : BinaryOp} (h : Round p expr s i n tag st) (harity : tag.fixedArity = some 2)
    (ho : p.Operand i n 0 .bv n.width.toNat ∧ p.Operand i n 1 .bv n.width.toNat)
    (hresult : tag.resultSort = .bv)
    (hsem : ∀ ω args, p.semTag ω n args tag = op.sem (args.getD 0 default) (args.getD 1 default)) :
    Builder.Spec (WireVar p) (callTwo expr st n (.binary op)) s (Adds p i st) :=
  vectors_spec h harity ho (by rw [hresult]; rfl) (fun _ _ => trivial) (fun _ _ => rfl)
    (fun _ _ _ _ _ => rfl) hsem

theorem relation_spec {op : Relation} (h : Round p expr s i n tag st)
    (harity : tag.fixedArity = some 2) (ho : ∃ w, p.Operand i n 0 .bv w ∧ p.Operand i n 1 .bv w)
    (hresult : tag.resultSort = .bool)
    (hsem : ∀ ω args, p.semTag ω n args tag = op.sem (args.getD 0 default) (args.getD 1 default)) :
    Builder.Spec (WireVar p) (callTwo expr st n (.relation op)) s (Adds p i st) := by
  obtain ⟨w, ho⟩ := ho
  exact vectors_spec h harity ho (by rw [hresult]; rfl) (fun _ _ => trivial) (fun _ _ => rfl)
    (fun _ _ _ _ _ => rfl) hsem

theorem overflow_spec {op : OverflowOp} (h : Round p expr s i n tag st)
    (harity : tag.fixedArity = some 2) (ho : ∃ w, p.Operand i n 0 .bv w ∧ p.Operand i n 1 .bv w)
    (hresult : tag.resultSort = .bool)
    (hsem : ∀ ω args, p.semTag ω n args tag = op.sem (args.getD 0 default) (args.getD 1 default)) :
    Builder.Spec (WireVar p) (callTwo expr st n (.overflow op)) s (Adds p i st) := by
  obtain ⟨w, ho⟩ := ho
  exact vectors_spec h harity ho (by rw [hresult]; rfl) (fun _ _ => trivial) (fun _ _ => rfl)
    (fun _ _ _ _ _ => rfl) hsem

theorem connective_spec {op : Connective} (h : Round p expr s i n tag st)
    (harity : tag.fixedArity = some 2) (ho : p.BoolOperand i n 0 ∧ p.BoolOperand i n 1)
    (hresult : tag.resultSort = .bool)
    (hsem : ∀ ω args, p.semTag ω n args tag = op.sem (args.getD 0 default) (args.getD 1 default)) :
    Builder.Spec (WireVar p) (callTwo expr st n (.connective op)) s (Adds p i st) := by
  obtain ⟨⟨w, h0⟩, v, h1⟩ := ho
  refine callTwo_spec h harity ⟨h0, h1⟩ ?_ (fun _ _ => trivial) (fun x y hx hy => ?_) ?_
  · constructor <;> (rintro rfl; cases harity)
  · have hx : s.sortAt x = some .bool := hx
    have hy : s.sortAt y = some .bool := hy
    rw [TermOp.sortOf, if_pos ⟨hx, hy⟩, hresult]
    rfl
  · intro ρ ω id x y hx hy
    rw [TermOp.sem, hx, hy, hsem]

theorem unary_spec {op : UnaryOp} (h : Round p expr s i n tag st) (harity : tag.fixedArity = some 1)
    (ho : p.Operand i n 0 .bv n.width.toNat) (hresult : tag.resultSort = .bv)
    (hsem : ∀ ω args, p.semTag ω n args tag = op.sem (args.getD 0 default)) :
    Builder.Spec (WireVar p) (callOne expr st n (.unary op)) s (Adds p i st) := by
  refine callOne_spec h (by rw [h.arity harity]; decide) ho ?_ (fun _ => trivial) (fun x hx => ?_) ?_
  · constructor <;> (rintro rfl; cases harity)
  · rw [TermOp.sortOf, hx, hresult]
    rfl
  · intro ρ ω id x hx
    rw [TermOp.sem, hx, hsem]

/-! ### Constants -/

theorem Round.width (h : Round p expr s i n tag st) (hresult : tag.resultSort = .bv) :
    Arena.SortOk (.bv n.width.toNat) := by
  have hw := h.rule.width
  rw [Parts.WidthRule, hresult] at hw
  exact hw

/-- The payload is a number of 64 bits, of which the bytes kept hold the low ones. -/
theorem ofNat_take_leBytes (w value : Nat) (hw : w ≤ 64) :
    BitVec.ofNat w (leNat ((leBytes 8 value).take (divCeil8 w))) = BitVec.ofNat w value := by
  apply BitVec.eq_of_toNat_eq
  have hlen : divCeil8 w ≤ 8 := by
    unfold divCeil8
    omega
  have hdvd : (2 : Nat) ^ w ∣ 256 ^ divCeil8 w := by
    rw [show (256 : Nat) = 2 ^ 8 from rfl, ← Nat.pow_mul]
    refine Nat.pow_dvd_pow 2 ?_
    unfold divCeil8
    omega
  have hdvd' : (256 : Nat) ^ divCeil8 w ∣ 256 ^ 8 := Nat.pow_dvd_pow 256 hlen
  rw [BitVec.toNat_ofNat, BitVec.toNat_ofNat, leNat_take, leNat_leBytes, Nat.mod_mod_of_dvd _ hdvd',
    Nat.mod_mod_of_dvd _ hdvd]

theorem wireConstBytes_eq (h : Round p expr s i n .bvConst st) :
    ∃ bytes, wireConstBytes expr n.width.toNat n.payload = ok bytes ∧
      bytes.length = divCeil8 n.width.toNat ∧
      BitVec.ofNat n.width.toNat (leNat bytes) = BitVec.ofNat n.width.toNat (p.constant n) := by
  have hw := h.width rfl
  rw [wireConstBytes, Parts.constant]
  by_cases hle : n.width.toNat ≤ 64
  · rw [if_pos hle, if_pos hle]
    refine ⟨_, rfl, ?_, ofNat_take_leBytes _ _ hle⟩
    rw [List.length_take, length_leBytes, Nat.min_eq_left]
    unfold divCeil8
    omega
  · obtain ⟨hlen, bytes, hbytes⟩ := h.rule.blob.const rfl (Nat.not_le.mp hle)
    rw [if_neg hle, if_neg hle, hbytes]
    exact ⟨bytes, wireErr_ok (h.view.blobRef.mpr hbytes), (Parts.length_of_blobAt hbytes).trans hlen, rfl⟩

theorem bvConst_spec (h : Round p expr s i n .bvConst st) :
    Builder.Spec (WireVar p) (nodeTerm expr i n st .bvConst) s (Adds p i st) := by
  obtain ⟨bytes, hbytes, hlen, hvalue⟩ := wireConstBytes_eq h
  refine callTerm_spec (f := .bvConstBytes bytes n.width.toNat) h ?_ ⟨nofun, nofun⟩ trivial ?_ ?_
  · rw [hbytes]
    rfl
  · rw [TermOp.sortOf, if_pos hlen]
    exact vectorSort_eq.mpr ⟨h.width rfl, rfl⟩
  · intro ρ ω id hρω
    rw [TermOp.sem, hvalue]
    rfl

/-! ### Choices -/

theorem ite_spec (h : Round p expr s i n .bvIte st) :
    Builder.Spec (WireVar p) (nodeTerm expr i n st .bvIte) s (Adds p i st) := by
  obtain ⟨⟨v, h0⟩, h1, h2⟩ := h.rule.operands
  have harity : n.arity.toNat = 3 := h.arity rfl
  obtain ⟨c, hc, hofc⟩ := child_eq h.view h.visited h0 (by omega)
  obtain ⟨x, hx, hofx⟩ := child_eq h.view h.visited h1 (by omega)
  obtain ⟨y, hy, hofy⟩ := child_eq h.view h.visited h2 (by omega)
  refine callTerm_spec (f := .bvIte c x y) h ?_ ⟨nofun, nofun⟩ trivial ?_ ?_
  · rw [hc, ok_bind, hx, ok_bind, hy]
    rfl
  · have hc : s.sortAt c = some .bool := hofc.sort
    rw [TermOp.sortOf, if_pos hc, sameWidth?_eq.mpr ⟨hofx.sort, hofy.sort⟩]
    rfl
  · intro ρ ω id hρω
    rw [TermOp.sem, hofc.value ρ ω hρω, hofx.value ρ ω hρω, hofy.value ρ ω hρω]
    rfl

/-- The terms of case `k`. -/
def CaseOf (p : Parts) (s : Arena) (n : RawNode) (k : Nat) (c : TermId × TermId) : Prop :=
  ArgOf p s n (k * 2) .bool c.1 ∧ ArgOf p s n (k * 2 + 1) (.bv n.width.toNat) c.2

theorem selectCases_answers (h : Round p expr s i n .bvSelect st) :
    Answers (selectCases expr st.terms n n.auxHi.toNat)
      (List.Forall₂ (CaseOf p s n) (List.range n.auxHi.toNat)) := by
  obtain ⟨haux, -, hpairs⟩ := h.rule.operands
  have hodd : n.arity.toNat % 2 = 1 := h.rule.arity
  refine answers_mapM fun k hk => ?_
  have hk := List.mem_range.mp hk
  obtain ⟨⟨v, h0⟩, h1⟩ := hpairs k hk
  obtain ⟨c, hc, hofc⟩ := child_eq h.view h.visited h0 (by omega)
  obtain ⟨x, hx, hofx⟩ := child_eq h.view h.visited h1 (by omega)
  rw [hc, ok_bind, hx]
  exact answers_ok ⟨hofc, hofx⟩

/-- The cases of the term are those of the node. -/
theorem cases_of {ks : List Nat} {cases : List (TermId × TermId)}
    (h : List.Forall₂ (CaseOf p s n) ks cases) :
    (∀ c ∈ cases, s.sortAt c.1 = some .bool ∧ s.sortAt c.2 = some (.bv n.width.toNat)) ∧
      ∀ ρ ω, ByName s ρ ω → (cases.map fun (c, v) => (s.value ρ c, s.value ρ v)) =
        ks.map fun k => ((argsOf p ω n).getD (k * 2) default,
          (argsOf p ω n).getD (k * 2 + 1) default) := by
  induction h with
  | nil => exact ⟨nofun, fun _ _ _ => rfl⟩
  | cons hc _ ih =>
    refine ⟨List.forall_mem_cons.mpr ⟨⟨hc.1.sort, hc.2.sort⟩, ih.1⟩, fun ρ ω hρω => ?_⟩
    exact congrArg₂ List.cons (Prod.ext (hc.1.value ρ ω hρω) (hc.2.value ρ ω hρω)) (ih.2 ρ ω hρω)

theorem select_spec (h : Round p expr s i n .bvSelect st) :
    Builder.Spec (WireVar p) (nodeTerm expr i n st .bvSelect) s (Adds p i st) := by
  obtain ⟨haux, hdefault, -⟩ := h.rule.operands
  have hodd : n.arity.toNat % 2 = 1 := h.rule.arity
  obtain ⟨cases, hcases, hofs⟩ := selectCases_answers h
  obtain ⟨d, hd, hofd⟩ := child_eq h.view h.visited hdefault (by omega)
  obtain ⟨hsort, hvalue⟩ := cases_of hofs
  refine callTerm_spec (f := .bvSelect cases d) h ?_ ⟨nofun, nofun⟩ trivial ?_ ?_
  · dsimp only
    rw [hcases, ok_bind, hd]
    rfl
  · have hd : bvWidth? (s.sortAt d) = some n.width.toNat := bvWidth?_eq.mpr hofd.sort
    rw [TermOp.sortOf, hd, Option.bind_some, if_pos hsort]
    rfl
  · intro ρ ω id hρω
    rw [TermOp.sem, hvalue ρ ω hρω, hofd.value ρ ω hρω]
    rfl

/-! ## Variables, read and declared -/

theorem symbol_eq (h : p.textAt n.blobRef = some name) : p.symbol n = name := by
  rw [Parts.symbol, h]
  rfl

theorem Round.bvVar {e : Option Nat} (h : Round p expr s i n .bvVar st) (hs : s'.Inv)
    (hname : p.textAt n.blobRef = some name)
    (hk : s'.kindAt t = some (.bvVar n.width.toNat name e)) : TermOf p s' i t := by
  have hnode := node_of_kind hs hk fun _ h => h
  refine h.termOf (Arena.sortAt_eq_some.mpr ⟨_, hnode, rfl⟩) fun ρ ω hρω => ?_
  rw [hs.value_eq hnode, NodeKind.sem, hρω.bv t _ name e hk, Parts.semTag, symbol_eq hname]

theorem Round.boolVar {e : Option Nat} (h : Round p expr s i n .boolVar st) (hs : s'.Inv)
    (hname : p.textAt n.blobRef = some name) (hk : s'.kindAt t = some (.boolVar name e)) :
    TermOf p s' i t := by
  have hnode := node_of_kind hs hk fun _ h => h
  refine h.termOf (Arena.sortAt_eq_some.mpr ⟨_, hnode, rfl⟩) fun ρ ω hρω => ?_
  rw [hs.value_eq hnode, NodeKind.sem, hρω.bool t name e hk, Parts.semTag, symbol_eq hname]

/-- The tables after a round that declares a vector, whose name they hold now. -/
theorem Tables.bvNext (h : Tables p s i st) (hn : p.Declares i n .bvVar name)
    (hlook : st.bvVars.lookup (name, n.width.toNat) = some t) : Tables p s (i + 1) st := by
  refine ⟨h.bvVar, h.boolVar, fun k hk m name' hd => ?_, fun k hk m name' hd => ?_⟩
  · rcases Nat.lt_succ_iff_lt_or_eq.mp hk with hk | rfl
    · exact h.bvSeen k hk m name' hd
    · obtain rfl := Option.some.inj (hd.1.symm.trans hn.1)
      obtain rfl := Option.some.inj (hd.2.2.2.symm.trans hn.2.2.2)
      exact ⟨t, hlook⟩
  · rcases Nat.lt_succ_iff_lt_or_eq.mp hk with hk | rfl
    · exact h.boolSeen k hk m name' hd
    · obtain rfl := Option.some.inj (hd.1.symm.trans hn.1)
      cases Option.some.inj (hd.2.1.symm.trans hn.2.1)

theorem Tables.boolNext (h : Tables p s i st) (hn : p.Declares i n .boolVar name)
    (hlook : st.boolVars.lookup name = some t) : Tables p s (i + 1) st := by
  refine ⟨h.bvVar, h.boolVar, fun k hk m name' hd => ?_, fun k hk m name' hd => ?_⟩
  · rcases Nat.lt_succ_iff_lt_or_eq.mp hk with hk | rfl
    · exact h.bvSeen k hk m name' hd
    · obtain rfl := Option.some.inj (hd.1.symm.trans hn.1)
      cases Option.some.inj (hd.2.1.symm.trans hn.2.1)
  · rcases Nat.lt_succ_iff_lt_or_eq.mp hk with hk | rfl
    · exact h.boolSeen k hk m name' hd
    · obtain rfl := Option.some.inj (hd.1.symm.trans hn.1)
      obtain rfl := Option.some.inj (hd.2.2.2.symm.trans hn.2.2.2)
      exact ⟨t, hlook⟩

theorem lookup_insert {κ : Type} [BEq κ] [LawfulBEq κ] {key key' : κ} {l : List (κ × α)} {a b : α}
    (h : ((key, a) :: l).lookup key' = some b) : (key' = key ∧ b = a) ∨ l.lookup key' = some b := by
  rw [List.lookup_cons] at h
  split at h
  · exact .inl ⟨eq_of_beq ‹_›, (Option.some.inj h).symm⟩
  · exact .inr h

theorem exists_lookup_insert {κ : Type} [BEq κ] [LawfulBEq κ] {key key' : κ} {l : List (κ × α)} {a : α}
    (h : ∃ b, l.lookup key' = some b) : ∃ b, ((key, a) :: l).lookup key' = some b := by
  rw [List.lookup_cons]
  split
  · exact ⟨a, rfl⟩
  · exact h

theorem Tables.insertBv {e : Option Nat} (h : Tables p s i st)
    (hk : s.kindAt t = some (.bvVar w name e)) :
    Tables p s i { st with bvVars := ((name, w), t) :: st.bvVars } where
  bvVar name' w' t' ht := by
    rcases lookup_insert ht with ⟨heq, rfl⟩ | ht
    · obtain ⟨rfl, rfl⟩ := Prod.mk.inj heq
      exact ⟨e, hk⟩
    · exact h.bvVar name' w' t' ht
  boolVar := h.boolVar
  bvSeen k hk n name' hd := exists_lookup_insert (h.bvSeen k hk n name' hd)
  boolSeen := h.boolSeen

theorem Tables.insertBool {e : Option Nat} (h : Tables p s i st)
    (hk : s.kindAt t = some (.boolVar name e)) :
    Tables p s i { st with boolVars := (name, t) :: st.boolVars } where
  bvVar := h.bvVar
  boolVar name' t' ht := by
    rcases lookup_insert ht with ⟨rfl, rfl⟩ | ht
    · exact ⟨e, hk⟩
    · exact h.boolVar name' t' ht
  bvSeen := h.bvSeen
  boolSeen k hk n name' hd := exists_lookup_insert (h.boolSeen k hk n name' hd)

theorem nodeRef_eq {sort : WireSort} (h : Round p expr s i n tag st) :
    NodeRef.new sort (UInt32.ofNat i) = ok (.mk' sort i) := by
  have hi : i < 2 ^ 31 := (List.getElem?_eq_some_iff.mp h.node).1.trans_le h.count
  have hindex : (UInt32.ofNat i).toNat = i := by
    rw [UInt32.toNat_ofNat', Nat.mod_eq_of_lt (hi.trans (by decide))]
  refine NodeRef.new_eq_ok.mpr ?_
  rw [hindex]
  exact ⟨hi, rfl⟩

theorem bvVarTerm_spec (h : Round p expr s i n .bvVar st) :
    Builder.Spec (WireVar p) (bvVarTerm expr i n st) s (Adds p i st) := by
  refine Builder.Spec.intro fun hs => ?_
  obtain ⟨name, hname⟩ := h.rule.blob.name (.inl rfl)
  have hd : p.Declares i n .bvVar name := ⟨h.node, h.tag, .inl rfl, hname⟩
  refine Builder.spec_read (wireErr_ok (h.view.blobStr.mpr hname)) ?_
  cases hlook : st.bvVars.lookup (name, n.width.toNat) with
  | some t =>
    obtain ⟨e, hk⟩ := h.tables.bvVar _ _ _ hlook
    exact Builder.spec_pure ⟨h.bvVar hs.inv hname hk, rfl, h.tables.bvNext hd hlook⟩
  | none =>
    -- had an earlier node declared the name, its term would be in the table
    have hfirst : FirstNode p .bvVar name i n := by
      refine ⟨hd, fun j hj m hm => ?_⟩
      obtain ⟨t, ht⟩ := h.tables.bvSeen j hj m name hm
      rw [(h.wellFormed.symbols hm hd).2, hlook] at ht
      cases ht
    have hw := h.width rfl
    refine Builder.spec_read (wireErr_ok (nodeRef_eq h)) ?_
    refine Builder.Spec.bind (P := fun t s' => s'.nodes[t]? = some ⟨.bvVar n.width.toNat name
      (some (NodeRef.mk' .bv i).raw.toNat), .bv n.width.toNat⟩) ?_ fun t s' hle hs' ht => ?_
    · exact Builder.spec_validate hw (Builder.spec_add hw rfl ⟨i, n, hfirst, rfl, rfl⟩)
    · have hk := Arena.kindAt_of_node ht
      refine Builder.spec_pure ⟨h.bvVar hs'.inv hname hk, rfl, ?_⟩
      exact ((h.tables.mono hle).insertBv hk).bvNext hd List.lookup_cons_self

theorem boolVarTerm_spec (h : Round p expr s i n .boolVar st) :
    Builder.Spec (WireVar p) (boolVarTerm expr i n st) s (Adds p i st) := by
  refine Builder.Spec.intro fun hs => ?_
  obtain ⟨name, hname⟩ := h.rule.blob.name (.inr rfl)
  have hd : p.Declares i n .boolVar name := ⟨h.node, h.tag, .inr rfl, hname⟩
  refine Builder.spec_read (wireErr_ok (h.view.blobStr.mpr hname)) ?_
  cases hlook : st.boolVars.lookup name with
  | some t =>
    obtain ⟨e, hk⟩ := h.tables.boolVar _ _ hlook
    exact Builder.spec_pure ⟨h.boolVar hs.inv hname hk, rfl, h.tables.boolNext hd hlook⟩
  | none =>
    have hfirst : FirstNode p .boolVar name i n := by
      refine ⟨hd, fun j hj m hm => ?_⟩
      obtain ⟨t, ht⟩ := h.tables.boolSeen j hj m name hm
      rw [hlook] at ht
      cases ht
    refine Builder.spec_read (wireErr_ok (nodeRef_eq h)) ?_
    refine Builder.Spec.bind (P := fun t s' => s'.nodes[t]? = some ⟨.boolVar name
      (some (NodeRef.mk' .bool i).raw.toNat), .bool⟩) ?_ fun t s' hle hs' ht => ?_
    · exact Builder.spec_add (σ := .bool) trivial rfl ⟨i, n, hfirst, rfl⟩
    · have hk := Arena.kindAt_of_node ht
      refine Builder.spec_pure ⟨h.boolVar hs'.inv hname hk, rfl, ?_⟩
      exact ((h.tables.mono hle).insertBool hk).boolNext hd List.lookup_cons_self

/-! ## The pass -/

/-- **A round makes the term of its node**, whatever the operator. -/
theorem nodeTerm_spec (h : Round p expr s i n tag st) :
    Builder.Spec (WireVar p) (nodeTerm expr i n st tag) s (Adds p i st) := by
  have ho := h.rule.operands
  cases tag with
  | bvVar => exact bvVarTerm_spec h
  | boolVar => exact boolVarTerm_spec h
  | bvConst => exact bvConst_spec h
  | boolTrue | boolFalse =>
    exact callTerm_spec h rfl ⟨by decide, by decide⟩ trivial rfl fun _ _ _ _ => rfl
  | bvNot | bvNeg => exact unary_spec h rfl ho rfl fun _ _ => rfl
  | bvAnd | bvOr | bvXor | bvAdd | bvSub | bvMul | bvUdiv | bvUrem | bvSdiv | bvSrem | bvSmod
  | bvShl | bvLshr | bvAshr => exact binary_spec h rfl ho rfl fun _ _ => rfl
  | bvExtract =>
    obtain ⟨w, h0, hle, hlt, hw⟩ := ho
    refine callOne_spec h (by rw [h.arity rfl]; decide) h0 ⟨by decide, by decide⟩ (fun _ => trivial) ?_ ?_
    · intro x hx
      have hx : bvWidth? (s.sortAt x) = some w := bvWidth?_eq.mpr hx
      rw [TermOp.sortOf, hx, Option.bind_some, if_pos ⟨hle, hlt⟩, hw]
      rfl
    · exact fun ρ ω id x hx => congrArg (Smt.extract _ _) hx
  | bvConcat =>
    obtain ⟨hi, lo, h0, h1, hw⟩ := ho
    refine callTwo_spec h rfl ⟨h0, h1⟩ ⟨by decide, by decide⟩ (fun _ _ => trivial) ?_ ?_
    · intro x y hx hy
      have hx : bvWidth? (s.sortAt x) = some hi := bvWidth?_eq.mpr hx
      have hy : bvWidth? (s.sortAt y) = some lo := bvWidth?_eq.mpr hy
      rw [TermOp.sortOf, hx, Option.bind_some, hy, Option.bind_some, ← hw]
      exact vectorSort_eq.mpr ⟨h.width rfl, rfl⟩
    · exact fun ρ ω id x y hx hy => congrArg₂ Smt.concat hx hy
  | bvZext | bvSext =>
    obtain ⟨w, h0, hw⟩ := ho
    refine callOne_spec h (by rw [h.arity rfl]; decide) h0 ⟨by decide, by decide⟩ (fun _ => trivial) ?_ ?_
    · intro x hx
      have hx : bvWidth? (s.sortAt x) = some w := bvWidth?_eq.mpr hx
      rw [TermOp.sortOf, hx, Option.bind_some, ← hw]
      exact vectorSort_eq.mpr ⟨h.width rfl, rfl⟩
    · intro ρ ω id x hx
      rw [TermOp.sem, hx]
      rfl
  | bvIte => exact ite_spec h
  | bvSelect => exact select_spec h
  | boolNot =>
    obtain ⟨w, h0⟩ := ho
    refine callOne_spec h (by rw [h.arity rfl]; decide) h0 ⟨by decide, by decide⟩ (fun _ => trivial) ?_ ?_
    · exact fun x hx => if_pos hx
    · exact fun ρ ω id x hx => congrArg Smt.not hx
  | boolAnd | boolOr | boolImplies => exact connective_spec h rfl ho rfl fun _ _ => rfl
  | bvEq | bvUlt | bvUle | bvSlt | bvSle => exact relation_spec h rfl ho rfl fun _ _ => rfl
  | uaddOvf | saddOvf | usubOvf | ssubOvf | umulOvf | smulOvf | sdivOvf =>
    exact overflow_spec h rfl ho rfl fun _ _ => rfl
  | negOvf =>
    obtain ⟨w, h0⟩ := ho
    refine callOne_spec h (by rw [h.arity rfl]; decide) h0 ⟨by decide, by decide⟩ (fun _ => trivial) ?_ ?_
    · intro x hx
      have hx : bvWidth? (s.sortAt x) = some w := bvWidth?_eq.mpr hx
      rw [TermOp.sortOf, hx]
      rfl
    · exact fun ρ ω id x hx => congrArg Smt.bvnego hx

/-- What holds between two rounds. -/
structure Translated (p : Parts) (i : Nat) (st : WireTerms) (s : Arena) : Prop where
  visited : Visited p s i st.terms
  tables : Tables p s i st

theorem translated_start (s : Arena) (count : Nat) (hcount : count = p.nodes.length) :
    Translated p 0 ⟨List.replicate count none, [], []⟩ s where
  visited := ⟨by rw [List.length_replicate, hcount], nofun⟩
  tables := ⟨nofun, nofun, nofun, nofun⟩

theorem wireNode_spec (hv : Wire.IsViewOf expr p) (hp : p.WellFormed)
    (hcount : p.nodes.length ≤ Wire.maxNodeCount) (hi : i < p.nodes.length)
    (h : Translated p i st s) :
    Builder.Spec (WireVar p) (wireNode expr st i) s (Translated p (i + 1)) := by
  have hn : p.nodes[i]? = some p.nodes[i] := List.getElem?_eq_getElem hi
  obtain ⟨tag, ht, -⟩ := hp.node i _ hn
  have hround : Round p expr s i p.nodes[i] tag st := ⟨hv, hp, hcount, hn, ht, h.visited, h.tables⟩
  refine Builder.spec_read (wireErr_ok (hv.node.mpr hn)) ?_
  simp only [ht]
  refine (nodeTerm_spec hround).bind fun (t, st') s' hle _ ⟨hterm, hterms, htables⟩ => ?_
  have hlt : i < st'.terms.length := by
    rw [hterms, h.visited.length]
    exact hi
  refine Builder.spec_read (expect_eq_ok.mpr (List.getElem?_eq_getElem hlt)) ?_
  have hvisited := h.visited.mono hp hi.le hle
  refine Builder.spec_pure ⟨⟨?_, fun k hk => ?_⟩, ⟨htables.bvVar, htables.boolVar, htables.bvSeen,
    htables.boolSeen⟩⟩
  · rw [List.length_set, hterms, h.visited.length]
  · rcases Nat.lt_succ_iff_lt_or_eq.mp hk with hk | rfl
    · obtain ⟨u, hu, hof⟩ := hvisited.term k hk
      refine ⟨u, ?_, hof⟩
      rw [List.getElem?_set_ne (Nat.ne_of_gt hk), hterms, hu]
    · exact ⟨t, List.getElem?_set_self hlt, hterm⟩

theorem wireTerms_spec (hv : Wire.IsViewOf expr p) (hp : p.WellFormed)
    (hcount : p.nodes.length ≤ Wire.maxNodeCount) :
    Builder.Spec (WireVar p) (wireTerms expr) s (Translated p p.nodes.length) := by
  rw [wireTerms, hv.nodeCount]
  refine Grow.spec_foldlM_range (fun _ _ => trivial) (J := fun i st s => Translated p i st s)
    (fun i hi st s h => wireNode_spec hv hp hcount hi h) (translated_start s _ rfl)

end Qfbv
end SmtServer
