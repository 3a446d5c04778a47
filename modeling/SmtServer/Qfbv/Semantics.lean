import SmtServer.Lib.Dag
import SmtServer.Lib.Smt
import SmtServer.Qfbv.Ir

/-!
# What a term means

`NodeKind.sem` gives each kind of node its SMT-LIB meaning as a function of its children's
values, and `Arena.value` is the forward pass over the arena (`Lib.Dag`). An assignment is
keyed by the id of a variable node: two variable nodes are two variables, which is how the
solver and its models treat them.

`Arena.Inv` is the representation invariant of an arena: children come first, every node has
the sort its kind prescribes from its children's, constants are normalised, and no node
occurs twice. The two consequences that everything else uses are that a term's value has the
term's sort (`value_sort`) and that extending the arena changes no existing value
(`value_mono`).
-/

namespace SmtServer
namespace Qfbv

open Lib
open Lib.Smt (Value)

/-- An assignment to the variable nodes of an arena. A bit-vector variable of width `w` has
the value of the given number modulo `2 ^ w`. -/
structure Env where
  bv : TermId → Nat
  bool : TermId → Bool

/-- The sort of a value. -/
def valueSort : Value → TermSort
  | .bool _ => .bool
  | .bv w _ => .bv w

theorem eq_bool_of_sort {v : Value} (h : valueSort v = .bool) : v = .bool v.toBool := by
  cases v with
  | bool b => rfl
  | bv w x => exact absurd h (by simp [valueSort])

theorem eq_bv_of_sort {v : Value} {w : Nat} (h : valueSort v = .bv w) : v = .bv w (v.toBv w) := by
  cases v with
  | bool b => exact absurd h (by simp [valueSort])
  | bv w' x =>
    simp only [valueSort, TermSort.bv.injEq] at h
    subst h
    simp

/-! ## Kinds -/

namespace NodeKind

/-- The children of a node, in the order the reachability pass pushes them. -/
def children : NodeKind → List TermId
  | .bvConst .. | .bvVar .. | .boolConst _ | .boolVar .. => []
  | .bvNot x | .bvNeg x | .bvExtract x _ _ | .bvZeroExtend x _ | .bvSignExtend x _
  | .bvRepeat x _ | .bvRotateLeft x _ | .bvRotateRight x _ | .boolNot x | .negOverflow x => [x]
  | .bvAnd a b | .bvOr a b | .bvXor a b | .bvAdd a b | .bvSub a b | .bvMul a b
  | .bvUDiv a b | .bvURem a b | .bvSDiv a b | .bvSRem a b | .bvSMod a b
  | .bvShl a b | .bvLShr a b | .bvAShr a b | .bvConcat a b
  | .boolAnd a b | .boolOr a b | .boolImplies a b | .boolEq a b
  | .bvEq a b | .bvUlt a b | .bvUle a b | .bvSlt a b | .bvSle a b
  | .uAddOverflow a b | .sAddOverflow a b | .uSubOverflow a b | .sSubOverflow a b
  | .uMulOverflow a b | .sMulOverflow a b | .sDivOverflow a b => [a, b]
  | .bvIte c t e | .boolIte c t e => [c, t, e]
  | .bvSelect cases default => default :: cases.flatMap fun (c, v) => [c, v]

/-- The meaning of a node at row `id`, given the meaning of its children. -/
def sem (ρ : Env) (id : TermId) (look : TermId → Value) : NodeKind → Value
  | .bvConst w bytes => .bv w (.ofNat w (leNat bytes))
  | .bvVar w _ _ => .bv w (.ofNat w (ρ.bv id))
  | .boolConst value => .bool value
  | .boolVar _ _ => .bool (ρ.bool id)
  | .bvNot x => Smt.bvnot (look x)
  | .bvNeg x => Smt.bvneg (look x)
  | .bvAnd a b => Smt.bvand (look a) (look b)
  | .bvOr a b => Smt.bvor (look a) (look b)
  | .bvXor a b => Smt.bvxor (look a) (look b)
  | .bvAdd a b => Smt.bvadd (look a) (look b)
  | .bvSub a b => Smt.bvsub (look a) (look b)
  | .bvMul a b => Smt.bvmul (look a) (look b)
  | .bvUDiv a b => Smt.bvudiv (look a) (look b)
  | .bvURem a b => Smt.bvurem (look a) (look b)
  | .bvSDiv a b => Smt.bvsdiv (look a) (look b)
  | .bvSRem a b => Smt.bvsrem (look a) (look b)
  | .bvSMod a b => Smt.bvsmod (look a) (look b)
  | .bvShl a b => Smt.bvshl (look a) (look b)
  | .bvLShr a b => Smt.bvlshr (look a) (look b)
  | .bvAShr a b => Smt.bvashr (look a) (look b)
  | .bvExtract c high low => Smt.extract high low (look c)
  | .bvConcat h l => Smt.concat (look h) (look l)
  | .bvZeroExtend c extra => Smt.zeroExtend extra (look c)
  | .bvSignExtend c extra => Smt.signExtend extra (look c)
  | .bvRepeat c count => Smt.repeated count (look c)
  | .bvRotateLeft c amount => Smt.rotateLeft amount (look c)
  | .bvRotateRight c amount => Smt.rotateRight amount (look c)
  | .bvIte c t e => Smt.ite (look c) (look t) (look e)
  | .bvSelect cases default =>
      Smt.select (cases.map fun (c, v) => (look c, look v)) (look default)
  | .boolNot x => Smt.not (look x)
  | .boolAnd a b => Smt.and (look a) (look b)
  | .boolOr a b => Smt.or (look a) (look b)
  | .boolImplies a b => Smt.implies (look a) (look b)
  | .boolEq a b => Smt.iff (look a) (look b)
  | .boolIte c t e => Smt.ite (look c) (look t) (look e)
  | .bvEq a b => Smt.bveq (look a) (look b)
  | .bvUlt a b => Smt.bvult (look a) (look b)
  | .bvUle a b => Smt.bvule (look a) (look b)
  | .bvSlt a b => Smt.bvslt (look a) (look b)
  | .bvSle a b => Smt.bvsle (look a) (look b)
  | .uAddOverflow a b => Smt.bvuaddo (look a) (look b)
  | .sAddOverflow a b => Smt.bvsaddo (look a) (look b)
  | .uSubOverflow a b => Smt.bvusubo (look a) (look b)
  | .sSubOverflow a b => Smt.bvssubo (look a) (look b)
  | .uMulOverflow a b => Smt.bvumulo (look a) (look b)
  | .sMulOverflow a b => Smt.bvsmulo (look a) (look b)
  | .negOverflow x => Smt.bvnego (look x)
  | .sDivOverflow a b => Smt.bvsdivo (look a) (look b)

/-- The sort a node has, given the sorts of its children: what every constructor of the
builder checks before it adds a node. -/
def HasSort (srt : TermId → Option TermSort) : NodeKind → TermSort → Prop
  | .bvConst w bytes, t => t = .bv w ∧ bytes.length = divCeil8 w ∧ leNat bytes < 2 ^ w
  | .bvVar w _ _, t => t = .bv w
  | .boolConst _, t | .boolVar _ _, t => t = .bool
  | .bvNot x, t | .bvNeg x, t | .bvRotateLeft x _, t | .bvRotateRight x _, t =>
      ∃ w, t = .bv w ∧ srt x = some (.bv w)
  | .bvAnd a b, t | .bvOr a b, t | .bvXor a b, t | .bvAdd a b, t | .bvSub a b, t
  | .bvMul a b, t | .bvUDiv a b, t | .bvURem a b, t | .bvSDiv a b, t | .bvSRem a b, t
  | .bvSMod a b, t | .bvShl a b, t | .bvLShr a b, t | .bvAShr a b, t =>
      ∃ w, t = .bv w ∧ srt a = some (.bv w) ∧ srt b = some (.bv w)
  | .bvExtract c high low, t =>
      ∃ w, t = .bv (high - low + 1) ∧ srt c = some (.bv w) ∧ low ≤ high ∧ high < w
  | .bvConcat h l, t =>
      ∃ hw lw, t = .bv (hw + lw) ∧ srt h = some (.bv hw) ∧ srt l = some (.bv lw)
  | .bvZeroExtend c extra, t | .bvSignExtend c extra, t =>
      ∃ w, t = .bv (w + extra) ∧ srt c = some (.bv w)
  | .bvRepeat c count, t => ∃ w, t = .bv (w * count) ∧ srt c = some (.bv w)
  | .bvIte c x y, t =>
      ∃ w, t = .bv w ∧ srt c = some .bool ∧ srt x = some (.bv w) ∧ srt y = some (.bv w)
  | .bvSelect cases default, t =>
      ∃ w, t = .bv w ∧ srt default = some (.bv w) ∧
        ∀ p ∈ cases, srt p.1 = some .bool ∧ srt p.2 = some (.bv w)
  | .boolNot x, t => t = .bool ∧ srt x = some .bool
  | .boolAnd a b, t | .boolOr a b, t | .boolImplies a b, t | .boolEq a b, t =>
      t = .bool ∧ srt a = some .bool ∧ srt b = some .bool
  | .boolIte c x y, t =>
      t = .bool ∧ srt c = some .bool ∧ srt x = some .bool ∧ srt y = some .bool
  | .bvEq a b, t | .bvUlt a b, t | .bvUle a b, t | .bvSlt a b, t | .bvSle a b, t
  | .uAddOverflow a b, t | .sAddOverflow a b, t | .uSubOverflow a b, t
  | .sSubOverflow a b, t | .uMulOverflow a b, t | .sMulOverflow a b, t
  | .sDivOverflow a b, t =>
      ∃ w, t = .bool ∧ srt a = some (.bv w) ∧ srt b = some (.bv w)
  | .negOverflow x, t => ∃ w, t = .bool ∧ srt x = some (.bv w)

theorem sem_congr {ρ : Env} {id : TermId} {g h : TermId → Value} (k : NodeKind)
    (hgh : ∀ j ∈ k.children, g j = h j) : k.sem ρ id g = k.sem ρ id h := by
  cases k with
  | bvSelect cases default =>
    simp only [children, List.mem_cons, List.mem_flatMap] at hgh
    have hcases : (cases.map fun (c, v) => (g c, g v)) = cases.map fun (c, v) => (h c, h v) := by
      refine List.map_congr_left fun p hp => ?_
      exact Prod.ext (hgh p.1 (.inr ⟨p, hp, by simp⟩)) (hgh p.2 (.inr ⟨p, hp, by simp⟩))
    simp only [sem]
    rw [hcases, hgh default (.inl rfl)]
  | _ => simp_all [children, sem]

/-- A sort rule only looks at the children's sorts. -/
theorem HasSort.mono {srt srt' : TermId → Option TermSort} {k : NodeKind} {σ : TermSort}
    (h : k.HasSort srt σ) (hle : ∀ t ∈ k.children, ∀ τ, srt t = some τ → srt' t = some τ) :
    k.HasSort srt' σ := by
  cases k with
  | bvSelect cases default =>
    obtain ⟨w, h1, h2, h3⟩ := h
    simp only [children, List.mem_cons, List.mem_flatMap] at hle
    refine ⟨w, h1, hle _ (.inl rfl) _ h2, fun p hp => ?_⟩
    exact ⟨hle _ (.inr ⟨p, hp, by simp⟩) _ (h3 p hp).1, hle _ (.inr ⟨p, hp, by simp⟩) _ (h3 p hp).2⟩
  | bvConst | bvVar | boolConst | boolVar => exact h
  | _ =>
    simp only [children, List.mem_cons, List.not_mem_nil, or_false, forall_eq_or_imp,
      forall_eq] at hle
    simp only [HasSort] at h ⊢
    grind

/-- The children of a well-sorted node exist. -/
theorem HasSort.children_some {srt : TermId → Option TermSort} {k : NodeKind} {σ : TermSort}
    (h : k.HasSort srt σ) {j : TermId} (hj : j ∈ k.children) : ∃ τ, srt j = some τ := by
  cases k with
  | bvSelect cases default =>
    obtain ⟨w, -, h2, h3⟩ := h
    simp only [children, List.mem_cons, List.mem_flatMap] at hj
    rcases hj with rfl | ⟨p, hp, hj⟩
    · exact ⟨_, h2⟩
    · simp only [List.not_mem_nil, or_false] at hj
      rcases hj with rfl | rfl
      · exact ⟨_, (h3 p hp).1⟩
      · exact ⟨_, (h3 p hp).2⟩
  | bvConst | bvVar | boolConst | boolVar => exact absurd hj (by simp [children])
  | _ =>
    simp only [children, List.mem_cons, List.not_mem_nil, or_false] at hj
    simp only [HasSort] at h
    grind

/-- A well-sorted node has a value of its sort. -/
theorem sem_sort {ρ : Env} {id : TermId} {srt : TermId → Option TermSort}
    {look : TermId → Value} (hl : ∀ t σ, srt t = some σ → valueSort (look t) = σ)
    {k : NodeKind} {σ : TermSort} (h : k.HasSort srt σ) : valueSort (k.sem ρ id look) = σ := by
  have hbv : ∀ {t w}, srt t = some (.bv w) → (look t).width = w := by
    intro t w ht
    rw [eq_bv_of_sort (hl t _ ht)]
    rfl
  cases k with
  | bvSelect cases default =>
    obtain ⟨w, rfl, hd, hcs⟩ := h
    simp only [sem]
    induction cases with
    | nil => exact hl _ _ hd
    | cons p rest ih =>
      simp only [List.map_cons, Smt.select]
      split
      · exact hl _ _ (hcs p (by simp)).2
      · exact ih fun q hq => hcs q (by simp [hq])
  | bvIte c x y =>
    obtain ⟨w, rfl, -, hx, hy⟩ := h
    simp only [sem, Smt.ite]
    split
    · exact hl _ _ hx
    · exact hl _ _ hy
  | boolIte c x y =>
    obtain ⟨rfl, -, hx, hy⟩ := h
    simp only [sem, Smt.ite]
    split
    · exact hl _ _ hx
    · exact hl _ _ hy
  | bvConst | bvVar =>
    simp only [HasSort] at h
    simp [sem, valueSort, h]
  | boolConst | boolVar => exact h.symm
  | bvExtract c high low =>
    obtain ⟨w, rfl, -⟩ := h
    rfl
  | bvConcat hi lo =>
    obtain ⟨hw, lw, rfl, hh, hlo⟩ := h
    simp [sem, Smt.concat, valueSort, hbv hh, hbv hlo]
  | bvZeroExtend | bvSignExtend | bvRepeat | bvNot | bvNeg | bvRotateLeft | bvRotateRight =>
    obtain ⟨w, rfl, hx⟩ := h
    simp [sem, Smt.zeroExtend, Smt.signExtend, Smt.repeated, Smt.bvnot, Smt.bvneg,
      Smt.rotateLeft, Smt.rotateRight, Smt.Value.map, valueSort, hbv hx]
  | boolNot | boolAnd | boolOr | boolImplies | boolEq => exact h.1.symm
  | negOverflow x =>
    obtain ⟨w, rfl, -⟩ := h
    rfl
  | bvEq | bvUlt | bvUle | bvSlt | bvSle | uAddOverflow | sAddOverflow | uSubOverflow
  | sSubOverflow | uMulOverflow | sMulOverflow | sDivOverflow =>
    obtain ⟨w, rfl, -⟩ := h
    rfl
  | _ =>
    obtain ⟨w, rfl, ha, -⟩ := h
    simp [sem, Smt.bvand, Smt.bvor, Smt.bvxor, Smt.bvadd, Smt.bvsub, Smt.bvmul, Smt.bvudiv,
      Smt.bvurem, Smt.bvsdiv, Smt.bvsrem, Smt.bvsmod, Smt.bvshl, Smt.bvlshr, Smt.bvashr,
      Smt.Value.map₂, valueSort, hbv ha]

end NodeKind

/-! ## Arenas -/

namespace Arena

/-- The sort of a term, where there is such a term. -/
def sortAt (s : Arena) (t : TermId) : Option TermSort := s.nodes[t]?.map (·.sort)

/-- The kind of a term, where there is such a term. -/
def kindAt (s : Arena) (t : TermId) : Option NodeKind := s.nodes[t]?.map (·.kind)

/-- The value of a term under an assignment. -/
def value (s : Arena) (ρ : Env) (t : TermId) : Value :=
  Dag.value (fun i (n : Node) look => n.kind.sem ρ i look) default s.nodes t

/-- The representation invariant of an arena. -/
structure Inv (s : Arena) : Prop where
  ordered : Dag.Ordered (fun n : Node => n.kind.children) s.nodes
  sorted : ∀ (t : TermId) (n : Node), s.nodes[t]? = some n → n.kind.HasSort s.sortAt n.sort
  width_le : ∀ t w, s.sortAt t = some (.bv w) → 1 ≤ w ∧ w ≤ maxBvWidth
  nodup : s.nodes.Nodup
  bounded : s.nodes.length ≤ 2 ^ 32

theorem inv_empty : Arena.empty.Inv := by
  constructor <;> simp [empty, Dag.Ordered, sortAt]

variable {s s' : Arena} {ρ : Env} {t : TermId} {n : Node} {w : Nat}

theorem local_sem : Dag.Local (fun i (n : Node) look => n.kind.sem ρ i look)
    (fun n => n.kind.children) :=
  fun _ n _ _ h => n.kind.sem_congr h

theorem sortAt_eq_some {σ : TermSort} : s.sortAt t = some σ ↔ ∃ n, s.nodes[t]? = some n ∧ n.sort = σ := by
  simp [sortAt]

theorem lt_of_sortAt {σ : TermSort} (h : s.sortAt t = some σ) : t < s.nodes.length := by
  obtain ⟨n, hn, -⟩ := sortAt_eq_some.mp h
  exact (List.getElem?_eq_some_iff.mp hn).1

theorem nodes_mono (h : s ≤ s') (hn : s.nodes[t]? = some n) : s'.nodes[t]? = some n := by
  obtain ⟨ys, hys⟩ := h
  rw [← hys, List.getElem?_append_left (List.getElem?_eq_some_iff.mp hn).1, hn]

theorem sortAt_mono {σ : TermSort} (h : s ≤ s') (ht : s.sortAt t = some σ) :
    s'.sortAt t = some σ := by
  obtain ⟨n, hn, rfl⟩ := sortAt_eq_some.mp ht
  exact sortAt_eq_some.mpr ⟨n, nodes_mono h hn, rfl⟩

theorem kindAt_mono {k : NodeKind} (h : s ≤ s') (ht : s.kindAt t = some k) :
    s'.kindAt t = some k := by
  simp only [kindAt, Option.map_eq_some_iff] at ht ⊢
  obtain ⟨n, hn, rfl⟩ := ht
  exact ⟨n, nodes_mono h hn, rfl⟩

/-- Extending an arena changes the value of no existing term. -/
theorem value_mono {σ : TermSort} (h : s ≤ s') (ht : s.sortAt t = some σ) :
    s'.value ρ t = s.value ρ t :=
  Dag.value_extend h (lt_of_sortAt ht)

/-- The value of a term is the meaning of its node. -/
theorem Inv.value_eq (hs : s.Inv) (hn : s.nodes[t]? = some n) :
    s.value ρ t = n.kind.sem ρ t (s.value ρ) :=
  Dag.value_eq local_sem hs.ordered hn

/-- A term's value has the term's sort. -/
theorem Inv.value_sort (hs : s.Inv) {σ : TermSort} (ht : s.sortAt t = some σ) :
    valueSort (s.value ρ t) = σ := by
  induction t using Nat.strongRecOn generalizing σ with
  | ind t ih =>
    obtain ⟨n, hn, rfl⟩ := sortAt_eq_some.mp ht
    rw [hs.value_eq hn]
    -- only the children are looked up, and they come first
    have before : ∀ j τ, (if j < t then s.sortAt j else none) = some τ →
        valueSort (s.value ρ j) = τ := by
      intro j τ hj
      split at hj
      · rename_i hlt
        exact ih j hlt hj
      · cases hj
    refine NodeKind.sem_sort before ?_
    refine (hs.sorted t n hn).mono fun j hj τ hτ => ?_
    rwa [if_pos (hs.ordered t n hn j hj)]

theorem Inv.value_bool (hs : s.Inv) (ht : s.sortAt t = some .bool) :
    s.value ρ t = .bool (s.value ρ t).toBool :=
  eq_bool_of_sort (hs.value_sort ht)

theorem Inv.value_bv (hs : s.Inv) (ht : s.sortAt t = some (.bv w)) :
    s.value ρ t = .bv w ((s.value ρ t).toBv w) :=
  eq_bv_of_sort (hs.value_sort ht)

end Arena
end Qfbv
end SmtServer
