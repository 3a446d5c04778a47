import SmtServer.Lib.Lfsr
import SmtServer.Qfbv.Bits
import SmtServer.Qfbv.Query

/-!
# Shortcuts: what the passes share

`common.rs` and the helpers the passes borrow from each other. A pass looks at the assertions of a
query and, on a shape it knows, answers without the SAT solver. It reads the arena and changes
nothing.

The recursions that take a term apart (`collect_bool_and_conjuncts` and its like) go down to
children, which come earlier in the arena; they take a number of rounds here, and the number they
are started with is enough (`collect_total`).
-/

namespace SmtServer
namespace Qfbv

open Lib Outcome

namespace Shortcuts

abbrev BvPair := TermId × TermId

/-- `&query.arena.node(term)?.kind`. -/
def kind (s : Arena) (term : TermId) : Result NodeKind := do
  return (← s.node term).kind

/-- The recursion of the `collect_*` helpers: a node that `split` knows is replaced by its two
parts, any other is pushed. -/
def collect (split : NodeKind → Option (TermId × TermId)) (s : Arena) :
    (rounds : Nat) → (term : TermId) → Result (List TermId)
  | 0, _ => .panic
  | rounds + 1, term => do
    match split (← kind s term) with
    | some (a, b) => return (← collect split s rounds a) ++ (← collect split s rounds b)
    | none => return [term]

end Shortcuts

namespace NodeKind

/-- `matches!(kind, NodeKind::BvVar { .. })`. -/
def isBvVar : NodeKind → Bool
  | .bvVar .. => true
  | _ => false

def boolAnd? : NodeKind → Option (TermId × TermId)
  | .boolAnd a b => some (a, b)
  | _ => none

def boolOr? : NodeKind → Option (TermId × TermId)
  | .boolOr a b => some (a, b)
  | _ => none

def bvXor? : NodeKind → Option (TermId × TermId)
  | .bvXor a b => some (a, b)
  | _ => none

def bvEq? : NodeKind → Option (TermId × TermId)
  | .bvEq a b => some (a, b)
  | _ => none

def bvUle? : NodeKind → Option (TermId × TermId)
  | .bvUle a b => some (a, b)
  | _ => none

variable {k : NodeKind} {p : TermId × TermId}

theorem boolAnd?_eq : k.boolAnd? = some p ↔ k = .boolAnd p.1 p.2 := by
  cases k <;> simp [boolAnd?, Prod.ext_iff]

theorem boolOr?_eq : k.boolOr? = some p ↔ k = .boolOr p.1 p.2 := by
  cases k <;> simp [boolOr?, Prod.ext_iff]

theorem bvXor?_eq : k.bvXor? = some p ↔ k = .bvXor p.1 p.2 := by
  cases k <;> simp [bvXor?, Prod.ext_iff]

theorem bvEq?_eq : k.bvEq? = some p ↔ k = .bvEq p.1 p.2 := by
  cases k <;> simp [bvEq?, Prod.ext_iff]

theorem bvUle?_eq : k.bvUle? = some p ↔ k = .bvUle p.1 p.2 := by
  cases k <;> simp [bvUle?, Prod.ext_iff]

end NodeKind

namespace Shortcuts

def collectBoolAndConjuncts (s : Arena) (term : TermId) : Result (List TermId) :=
  collect (·.boolAnd?) s (term + 1) term

def collectBoolOrLeaves (s : Arena) (term : TermId) : Result (List TermId) :=
  collect (·.boolOr?) s (term + 1) term

def collectBvXorTerms (s : Arena) (term : TermId) : Result (List TermId) :=
  collect (·.bvXor?) s (term + 1) term

/-- The loop over the assertions that fills `leaves`. -/
def conjuncts (q : Query) : Result (List TermId) := do
  return (← q.assertions.mapM fun assertion => collectBoolAndConjuncts q.arena assertion.root).flatten

/-- The recursion of the passes that do something for every conjunct and carry a state. -/
def forConjuncts {σ : Type} (s : Arena) (act : TermId → σ → Result σ) :
    (rounds : Nat) → (term : TermId) → σ → Result σ
  | 0, _, _ => .panic
  | rounds + 1, term, st => do
    match (← kind s term).boolAnd? with
    | some (a, b) => forConjuncts s act rounds b (← forConjuncts s act rounds a st)
    | none => act term st

/-- The loop over the assertions around it. -/
def forAllConjuncts {σ : Type} (q : Query) (act : TermId → σ → Result σ) (st : σ) : Result σ :=
  q.assertions.foldlM (fun st assertion =>
    forConjuncts q.arena act (assertion.root + 1) assertion.root st) st

def sameUnorderedPair (a b x y : TermId) : Bool := (a == x && b == y) || (a == y && b == x)

def bvEqPair (s : Arena) (term : TermId) : Result (Option BvPair) := do
  return (← kind s term).bvEq?

def isZeroBvConst (s : Arena) (term : TermId) : Result Bool := do
  match ← kind s term with
  | .bvConst _ bytes => return bytes.all (· == 0)
  | _ => return false

def isOneBvConst (s : Arena) (term : TermId) : Result Bool := do
  match ← kind s term with
  | .bvConst _ bytes => return bytes.head? == some 1 && (bytes.drop 1).all (· == 0)
  | _ => return false

/-! ## Looking at terms -/

variable {s : Arena} {ρ : Env} {t a b : TermId} {σ : TermSort} {k : NodeKind} {w : Nat}

theorem kind_eq_ok : kind s t = ok k ↔ s.kindAt t = some k := by
  rw [kind, bind_eq_ok, Arena.kindAt_eq_some]
  simp only [Arena.node_eq_ok, pure_eq, Outcome.ok.injEq]

theorem kind_answers (h : s.sortAt t = some σ) :
    Answers (kind s t) fun k => s.kindAt t = some k := by
  obtain ⟨n, hn, -⟩ := Arena.sortAt_eq_some.mp h
  exact ⟨n.kind, kind_eq_ok.mpr (Arena.kindAt_of_node hn), Arena.kindAt_of_node hn⟩

theorem sort_answers (h : s.sortAt t = some σ) : Answers (s.sort t) (· = σ) :=
  ⟨σ, Arena.sort_eq_ok.mpr h, rfl⟩

theorem bvEqPair_answers (h : s.sortAt t = some σ) :
    Answers (bvEqPair s t) fun o => ∀ p, o = some p → s.kindAt t = some (.bvEq p.1 p.2) := by
  refine (kind_answers h).bind fun k hk => ?_
  refine answers_ok fun p hp => ?_
  rwa [NodeKind.bvEq?_eq.mp hp] at hk

theorem isZeroBvConst_answers (hs : s.Inv) (hw : s.IsBv t w) :
    Answers (isZeroBvConst s t) fun z => z = true → ∀ ρ, s.num ρ t = 0 := by
  refine (kind_answers hw).bind fun k hk => ?_
  cases k with
  | bvConst v bytes =>
    refine answers_ok fun hz ρ => ?_
    obtain ⟨rfl, hb⟩ := hs.bvConst (hw.denotes (ρ := ρ) hs) hk
    rw [(hw.denotes hs).num, hb.isZeroBytes.mp hz]
    rfl
  | _ => exact answers_ok fun hz => nomatch hz

theorem isOneBvConst_answers (hs : s.Inv) (hw : s.IsBv t w) :
    Answers (isOneBvConst s t) fun z => z = true → ∀ ρ, s.num ρ t = 1 := by
  refine (kind_answers hw).bind fun k hk => ?_
  cases k with
  | bvConst v bytes =>
    refine answers_ok fun hz ρ => ?_
    obtain ⟨rfl, hb⟩ := hs.bvConst (hw.denotes (ρ := ρ) hs) hk
    rw [(hw.denotes hs).num, (hb.isOneBytes (hw.pos hs)).mp hz]
    exact BitVec.toNat_one (hw.pos hs)
  | _ => exact answers_ok fun hz => nomatch hz

/-! ## Taking terms apart -/

section Collect

variable {split : NodeKind → Option (TermId × TermId)}

/-- What holds of leaves and is kept by putting two parts together holds of every term that has
been taken apart. Children come first, so a term has no more rounds in it than its id. -/
theorem collect_answers (hs : s.Inv) {P : TermId → List TermId → Prop}
    (hsplit : ∀ k a b, split k = some (a, b) → a ∈ k.children ∧ b ∈ k.children)
    (leaf : ∀ t k, s.kindAt t = some k → split k = none → P t [t])
    (parts : ∀ t k a b la lb, s.kindAt t = some k → split k = some (a, b) → P a la → P b lb →
      P t (la ++ lb)) :
    ∀ (rounds : Nat) (t : TermId), t < rounds → s.sortAt t = some σ →
      Answers (collect split s rounds t) (P t) := by
  intro rounds
  induction rounds generalizing σ with
  | zero =>
    intro t ht
    exact absurd ht (Nat.not_lt_zero t)
  | succ rounds ih =>
    intro t ht hσ
    rw [collect]
    refine (kind_answers hσ).bind fun k hk => ?_
    cases hp : split k with
    | none => exact answers_ok (leaf t k hk hp)
    | some p =>
      obtain ⟨τ, -, hsort⟩ := hs.hasSort hk
      obtain ⟨ha, hb⟩ := hsplit k p.1 p.2 hp
      obtain ⟨τa, hτa⟩ := hsort.children_some ha
      obtain ⟨τb, hτb⟩ := hsort.children_some hb
      have hle := Nat.lt_succ_iff.mp ht
      refine (ih p.1 (Nat.lt_of_lt_of_le (hs.child_lt hk ha) hle) hτa).bind fun la hla => ?_
      refine (ih p.2 (Nat.lt_of_lt_of_le (hs.child_lt hk hb) hle) hτb).bind fun lb hlb => ?_
      exact answers_ok (parts t k p.1 p.2 la lb hk hp hla hlb)

end Collect

/-- The leaves of a conjunction are Bools, and it is true when they are. -/
theorem collectBoolAndConjuncts_answers (hs : s.Inv) (ht : s.sortAt t = some .bool) :
    Answers (collectBoolAndConjuncts s t) fun leaves =>
      (∀ leaf ∈ leaves, s.sortAt leaf = some .bool) ∧
      ∀ ρ, s.IsTrue ρ t ↔ ∀ leaf ∈ leaves, s.IsTrue ρ leaf := by
  refine (collect_answers (P := fun t leaves => s.sortAt t = some .bool →
    (∀ leaf ∈ leaves, s.sortAt leaf = some .bool) ∧
      ∀ ρ, s.IsTrue ρ t ↔ ∀ leaf ∈ leaves, s.IsTrue ρ leaf) hs ?_ ?_ ?_ _ t
      (Nat.lt_succ_self t) ht).mono fun leaves h => h ht
  · intro k a b hk
    rw [NodeKind.boolAnd?_eq.mp hk]
    simp [NodeKind.children]
  · intro t k _ _ ht
    simp [ht]
  · intro t k a b la lb hk hsplit iha ihb ht
    rw [NodeKind.boolAnd?_eq.mp hsplit] at hk
    obtain ⟨-, ha, hb⟩ := hs.sort_kind hk ht
    obtain ⟨hla, hta⟩ := iha ha
    obtain ⟨hlb, htb⟩ := ihb hb
    refine ⟨List.forall_mem_append.mpr ⟨hla, hlb⟩, fun ρ => ?_⟩
    rw [Arena.isTrue_boolAnd hs hk, hta ρ, htb ρ, List.forall_mem_append]

/-- The leaves of a disjunction are Bools, and it is true when one of them is. -/
theorem collectBoolOrLeaves_answers (hs : s.Inv) (ht : s.sortAt t = some .bool) :
    Answers (collectBoolOrLeaves s t) fun leaves =>
      (∀ leaf ∈ leaves, s.sortAt leaf = some .bool) ∧
      ∀ ρ, s.IsTrue ρ t ↔ ∃ leaf ∈ leaves, s.IsTrue ρ leaf := by
  refine (collect_answers (P := fun t leaves => s.sortAt t = some .bool →
    (∀ leaf ∈ leaves, s.sortAt leaf = some .bool) ∧
      ∀ ρ, s.IsTrue ρ t ↔ ∃ leaf ∈ leaves, s.IsTrue ρ leaf) hs ?_ ?_ ?_ _ t
      (Nat.lt_succ_self t) ht).mono fun leaves h => h ht
  · intro k a b hk
    rw [NodeKind.boolOr?_eq.mp hk]
    simp [NodeKind.children]
  · intro t k _ _ ht
    simp [ht]
  · intro t k a b la lb hk hsplit iha ihb ht
    rw [NodeKind.boolOr?_eq.mp hsplit] at hk
    obtain ⟨-, ha, hb⟩ := hs.sort_kind hk ht
    obtain ⟨hla, hta⟩ := iha ha
    obtain ⟨hlb, htb⟩ := ihb hb
    refine ⟨List.forall_mem_append.mpr ⟨hla, hlb⟩, fun ρ => ?_⟩
    rw [Arena.isTrue_boolOr hs hk, hta ρ, htb ρ]
    simp only [List.mem_append, or_and_right, exists_or]

/-- The leaves of an exclusive or have its width, and it is the exclusive or of them. -/
theorem collectBvXorTerms_answers (hs : s.Inv) (ht : s.IsBv t w) :
    Answers (collectBvXorTerms s t) fun leaves => (∀ leaf ∈ leaves, s.IsBv leaf w) ∧
      ∀ ρ i, s.bit ρ t i = Lfsr.parity (s.bit ρ · i) leaves := by
  refine (collect_answers (P := fun t leaves => s.IsBv t w →
    (∀ leaf ∈ leaves, s.IsBv leaf w) ∧
      ∀ ρ i, s.bit ρ t i = Lfsr.parity (s.bit ρ · i) leaves) hs ?_ ?_ ?_ _ t
      (Nat.lt_succ_self t) ht).mono fun leaves h => h ht
  · intro k a b hk
    rw [NodeKind.bvXor?_eq.mp hk]
    simp [NodeKind.children]
  · intro t k _ _ ht
    simp [ht]
  · intro t k a b la lb hk hsplit iha ihb ht
    rw [NodeKind.bvXor?_eq.mp hsplit] at hk
    obtain ⟨ha, hb⟩ := hs.binary_sort hk ht id
    obtain ⟨hla, hta⟩ := iha ha
    obtain ⟨hlb, htb⟩ := ihb hb
    refine ⟨List.forall_mem_append.mpr ⟨hla, hlb⟩, fun ρ i => ?_⟩
    rw [Arena.bit_bvXor hs hk, hta ρ, htb ρ, Lfsr.parity_append]

/-- The assertions of the query are true. -/
def Asserted (q : Query) (ρ : Env) : Prop := ∀ a ∈ q.assertions, q.arena.IsTrue ρ a.root

/-- Two terms of one sort, with one value wherever the assertions are true. -/
def EqualTerms (q : Query) (a b : TermId) : Prop :=
  q.arena.sortAt a = q.arena.sortAt b ∧
    ∀ ρ, Asserted q ρ → q.arena.value ρ a = q.arena.value ρ b

theorem equalTerms_equivalence (q : Query) : Equivalence (EqualTerms q) where
  refl _ := ⟨rfl, fun _ _ => rfl⟩
  symm h := ⟨h.1.symm, fun ρ hρ => (h.2 ρ hρ).symm⟩
  trans h h' := ⟨h.1.trans h'.1, fun ρ hρ => (h.2 ρ hρ).trans (h'.2 ρ hρ)⟩

/-- The conjuncts of a query are Bools, and the query's assertions are true when they are. -/
theorem conjuncts_answers {q : Query} (hq : q.WellFormed) :
    Answers (conjuncts q) fun leaves =>
      (∀ leaf ∈ leaves, q.arena.sortAt leaf = some .bool) ∧
      ∀ ρ, Asserted q ρ ↔ ∀ leaf ∈ leaves, q.arena.IsTrue ρ leaf := by
  unfold Asserted
  have hroots : ∀ a ∈ q.assertions, q.arena.sortAt a.root = some .bool := by
    intro a ha
    exact hq.roots a.root (Query.mem_roots.mpr (.inl ⟨a, ha, rfl⟩))
  refine (answers_mapM fun a ha =>
    collectBoolAndConjuncts_answers hq.arena (hroots a ha)).bind fun lss hlss => ?_
  refine answers_ok ?_
  clear hroots
  generalize q.assertions = assertions at hlss ⊢
  induction hlss with
  | nil => simp
  | cons hl _ ih =>
    obtain ⟨hsorts, htrue⟩ := hl
    rw [List.flatten_cons]
    refine ⟨List.forall_mem_append.mpr ⟨hsorts, ih.1⟩, fun ρ => ?_⟩
    rw [List.forall_mem_cons, htrue ρ, ih.2 ρ, List.forall_mem_append]

/-- Doing something for every conjunct is doing it for the leaves, in order. -/
theorem forConjuncts_eq {τ : Type} {act : TermId → τ → Result τ} :
    ∀ (rounds : Nat) (t : TermId) (leaves : List TermId),
      collect (·.boolAnd?) s rounds t = ok leaves → ∀ st,
        forConjuncts s act rounds t st = leaves.foldlM (fun st leaf => act leaf st) st := by
  intro rounds
  induction rounds with
  | zero =>
    intro t leaves h
    cases h
  | succ rounds ih =>
    intro t leaves h st
    rw [collect, bind_eq_ok] at h
    obtain ⟨k, hk, h⟩ := h
    rw [forConjuncts, hk, ok_bind]
    cases hp : k.boolAnd? with
    | none =>
      simp only [hp, pure_eq, Outcome.ok.injEq] at h
      subst h
      rw [List.foldlM_cons]
      cases act t st <;> rfl
    | some p =>
      simp only [hp, bind_eq_ok, pure_eq, Outcome.ok.injEq] at h
      obtain ⟨la, hla, lb, hlb, rfl⟩ := h
      rw [List.foldlM_append, ← ih p.1 la hla]
      exact bind_congr fun st' => ih p.2 lb hlb st'

theorem forAllConjuncts_eq {τ : Type} {act : TermId → τ → Result τ} {q : Query}
    {leaves : List TermId} (h : conjuncts q = ok leaves) (st : τ) :
    forAllConjuncts q act st = leaves.foldlM (fun st leaf => act leaf st) st := by
  rw [conjuncts, bind_eq_ok] at h
  obtain ⟨lss, hlss, h⟩ := h
  rw [pure_eq, Outcome.ok.injEq] at h
  subst h
  unfold forAllConjuncts
  generalize q.assertions = assertions at hlss
  induction assertions generalizing lss st with
  | nil =>
    obtain rfl := Outcome.ok.inj hlss
    rfl
  | cons a rest ih =>
    simp only [List.mapM_cons, bind_eq_ok, pure_eq, Outcome.ok.injEq] at hlss
    obtain ⟨leaves, hl, lss', hrest, rfl⟩ := hlss
    rw [List.foldlM_cons, List.flatten_cons, List.foldlM_append, forConjuncts_eq _ _ _ hl]
    exact bind_congr fun st' => ih st' lss' hrest

/-- In a query that holds every assertion is true. -/
theorem isTrue_of_holds {q : Query} (hρ : q.Holds ρ) : Asserted q ρ :=
  fun a ha => hρ a.root (Query.mem_roots.mpr (.inl ⟨a, ha, rfl⟩))

end Shortcuts
end Qfbv
end SmtServer
