import SmtServer.Qfbv.Shortcuts.Equivalences
import SmtServer.Qfbv.Shortcuts.Popcount

/-!
# `direct_eq.rs` and `division_remainder.rs` — closing asserted equalities

The first pass puts the two sides of every asserted equality into one class and looks for an
asserted disequality within a class. The second looks for a remainder that is asserted to be a
remainder by its divisor, or that divisor, while it is denied to be the remainder of itself: a
remainder is left alone by a second division, also where the divisor is zero and nothing was taken
off.

`TermUnion` and `equivalent_under_equalities` answer the same question, one by classes and one by a
search (`congruence_shortcuts_are_sound`). `division_remainder.rs` has the search a second time, word
for word as in `common.rs`.
-/

namespace SmtServer
namespace Qfbv

open Lib Outcome

namespace NodeKind

/-- `NodeKind::BvEq(a, b) | NodeKind::BoolEq(a, b)`. -/
def equality? : NodeKind → Option (TermId × TermId)
  | .bvEq a b | .boolEq a b => some (a, b)
  | _ => none

end NodeKind

namespace Shortcuts

/-! ## Equalities against disequalities -/

/-- `collect_direct_equalities_and_disequalities` on a conjunct. -/
def collectDirectEqualitiesAndDisequalities (s : Arena) (leaf : TermId)
    (out : List BvPair × List BvPair) : Result (List BvPair × List BvPair) := do
  match ← kind s leaf with
  | .bvEq a b | .boolEq a b => return (out.1 ++ [(a, b)], out.2)
  | .boolNot child =>
    match (← kind s child).equality? with
    | some p => return (out.1, out.2 ++ [p])
    | none => return out
  | _ => return out

def directEqualitiesAndDisequalities (q : Query) : Result (List BvPair × List BvPair) :=
  forAllConjuncts q (collectDirectEqualitiesAndDisequalities q.arena) ([], [])

/-- The loop over the equalities that calls `union.union(a, b)`. -/
def unionOf (equalities : List BvPair) : Result TermUnion :=
  equalities.foldlM (fun union p => union.union p.1 p.2) .default

/-- `any(|(a, b)| union.equivalent(a, b))`. -/
def anyEquivalent : List BvPair → TermUnion → Result Bool
  | [], _ => return false
  | (a, b) :: rest, union => do
    let (same, union) ← union.equivalent a b
    if same then return true else anyEquivalent rest union

def hasDirectEqualityDisequalityContradiction (q : Query) : Result Bool := do
  if q.assumptions ≠ [] ∨ 500000 < q.arena.nodes.length then return false
  let (equalities, disequalities) ← directEqualitiesAndDisequalities q
  if equalities = [] ∨ disequalities = [] ∨ 100000 < equalities.length then return false
  anyEquivalent disequalities (← unionOf equalities)

/-! ## Remainders -/

/-- A numerator, a divisor and what is said to be the remainder. -/
abbrev UremGuard := TermId × TermId × TermId

def bvUremEqSide (s : Arena) (term : TermId) : Result (Option UremGuard) := do
  let some (a, b) ← bvEqPair s term | return none
  match ← kind s a with
  | .bvURem numerator divisor => return some (numerator, divisor, b)
  | _ =>
    match ← kind s b with
    | .bvURem numerator divisor => return some (numerator, divisor, a)
    | _ => return none

def isBvEqPair (s : Arena) (term x y : TermId) : Result Bool := do
  return (← bvEqPair s term).any fun (a, b) => sameUnorderedPair a b x y

def uremGuardClause (s : Arena) (term : TermId) : Result (Option UremGuard) := do
  let leaves ← collectBoolOrLeaves s term
  if leaves.length ≠ 2 then return none
  match ← leaves.findSomeM? (bvUremEqSide s) with
  | none => return none
  | some (numerator, divisor, remainder) =>
    if ← leaves.anyM fun leaf => isBvEqPair s leaf remainder divisor then
      return some (numerator, divisor, remainder)
    else return none

/-- What the pass makes of the child of a negated leaf. -/
def negativeGuard (s : Arena) (leaf : TermId) : Result (Option UremGuard) := do
  match ← kind s leaf with
  | .boolNot child => uremGuardClause s child
  | _ => return none

structure UremParts where
  equalities : List BvPair
  positiveGuards : List UremGuard
  negativeGuards : List UremGuard

/-- The loop over the leaves. -/
def uremParts (s : Arena) (leaves : List TermId) : Result UremParts :=
  leaves.foldlM (fun out leaf => do
    let pair ← bvEqPair s leaf
    let positive ← uremGuardClause s leaf
    let negative ← negativeGuard s leaf
    return ⟨out.equalities ++ pair.toList, out.positiveGuards ++ positive.toList,
      out.negativeGuards ++ negative.toList⟩) ⟨[], [], []⟩

/-- The test of the inner loop over the guards. -/
def sameRemainder (equalities : List BvPair) (positive negative : UremGuard) : Result Bool :=
  equivalentUnderEqualities positive.2.1 negative.2.1 equalities <&&>
    equivalentUnderEqualities positive.2.2 negative.2.2 equalities <&&>
    equivalentUnderEqualities negative.1 positive.2.2 equalities

def hasUremRemainderFixedPointContradiction (q : Query) : Result Bool := do
  if q.assumptions ≠ [] ∨ 100000 < q.arena.nodes.length then return false
  let leaves ← conjuncts q
  let found ← uremParts q.arena leaves
  found.positiveGuards.anyM fun positive =>
    found.negativeGuards.anyM (sameRemainder found.equalities positive)

/-! ## Classes and links -/

variable {q : Query} {ρ : Env} {t a b : TermId} {w : Nat} {u : TermUnion}
  {equalities disequalities : List BvPair} {leaves : List TermId}

theorem unionOf_answers (equalities : List BvPair) :
    Answers (unionOf equalities) fun u => TermUnion.Adds .default u fun x y => (x, y) ∈ equalities := by
  refine answers_foldlM (fun done u => TermUnion.Adds .default u fun x y => (x, y) ∈ done) ?_ ?_
  · exact (TermUnion.adds_none TermUnion.grounded_default).congr fun x y => by simp
  · intro p _ done u hu
    refine (TermUnion.union_adds hu.grounded p.1 p.2).mono fun u' hu' =>
      (hu.trans hu').congr fun x y => ?_
    simp [Prod.ext_iff]

/-- The classes are those of the linked terms. -/
theorem inClass_iff_linked (h : TermUnion.Adds .default u fun x y => (x, y) ∈ equalities) :
    u.InClass a b ↔ Linked equalities a b := by
  constructor
  · refine h.least _ (Relation.EqvGen.is_equivalence _) (fun x y hxy => ?_) (fun x y hxy => .rel x y hxy)
      a b
    rw [TermUnion.inClass_default] at hxy
    exact hxy ▸ .refl x
  · refine Linked.least ⟨h.grounded.same_refl, UnionFind.Same.symm, UnionFind.Same.trans⟩ fun p hp => ?_
    exact h.new p.1 p.2 hp

theorem anyEquivalent_answers : ∀ {disequalities : List BvPair} {u : TermUnion},
    UnionFind.Grounded u.parentOf → Answers (anyEquivalent disequalities u) fun found =>
      found = true ↔ ∃ p ∈ disequalities, u.InClass p.1 p.2 := by
  intro disequalities
  induction disequalities with
  | nil => exact fun _ => answers_ok (by simp)
  | cons p rest ih =>
    intro u hg
    rw [anyEquivalent]
    refine (TermUnion.equivalent_answers hg p.1 p.2).bind fun r hr => ?_
    obtain ⟨hsame, hroots⟩ := hr
    dsimp only
    split
    · rename_i hfound
      exact answers_ok (iff_of_true rfl ⟨p, List.mem_cons_self, hsame.mp hfound⟩)
    · rename_i hfound
      refine (ih (hroots.grounded hg)).mono fun found h => h.trans ?_
      rw [List.exists_mem_cons_iff, or_iff_right fun hp => hfound (hsame.mpr hp)]
      simp only [hroots.inClass]

/-! ## Equalities against disequalities -/

/-- Two terms with different values wherever the assertions are true. -/
def DistinctTerms (q : Query) (a b : TermId) : Prop :=
  ∀ ρ, Asserted q ρ → q.arena.value ρ a ≠ q.arena.value ρ b

/-- An equality of Bools or of words is true when its two sides have one value. -/
theorem isTrue_equality {k : NodeKind} {p : BvPair} (hs : q.arena.Inv)
    (hk : q.arena.kindAt t = some k) (hp : k.equality? = some p) :
    q.arena.sortAt p.1 = q.arena.sortAt p.2 ∧
      ∀ ρ, q.arena.IsTrue ρ t ↔ q.arena.value ρ p.1 = q.arena.value ρ p.2 := by
  cases k <;> simp only [NodeKind.equality?, Option.some.injEq, reduceCtorEq] at hp <;> subst hp
  case bvEq a b =>
    obtain ⟨w, ha, hb⟩ := hs.bvEq_sort hk
    exact ⟨ha.trans hb.symm, fun ρ => Arena.isTrue_bvEq hs hk⟩
  case boolEq a b =>
    obtain ⟨σ, -, -, ha, hb⟩ := hs.hasSort hk
    refine ⟨ha.trans hb.symm, fun ρ => ?_⟩
    rw [Arena.isTrue_boolEq hs hk, hs.value_bool ha, hs.value_bool hb, Arena.IsTrue, Arena.IsTrue,
      ← Bool.eq_iff_iff, Smt.Value.bool.injEq]

theorem directEqualitiesAndDisequalities_answers (hq : q.WellFormed) :
    Answers (directEqualitiesAndDisequalities q) fun out =>
      (∀ p ∈ out.1, EqualTerms q p.1 p.2) ∧ ∀ p ∈ out.2, DistinctTerms q p.1 p.2 := by
  have hs := hq.arena
  obtain ⟨leaves, hleaves, hsorts, htrue⟩ := conjuncts_answers hq
  rw [directEqualitiesAndDisequalities, forAllConjuncts_eq hleaves]
  refine answers_foldlM (fun _ (out : List BvPair × List BvPair) =>
    (∀ p ∈ out.1, EqualTerms q p.1 p.2) ∧ ∀ p ∈ out.2, DistinctTerms q p.1 p.2) (by simp) ?_
  rintro leaf hleaf - ⟨equalities, disequalities⟩ ⟨heq, hne⟩
  have hleaf' : ∀ ρ, Asserted q ρ → q.arena.IsTrue ρ leaf := fun ρ hρ => (htrue ρ).mp hρ leaf hleaf
  refine (kind_answers (hsorts leaf hleaf)).bind fun k hk => ?_
  have hequal : ∀ p, k.equality? = some p → ∀ x ∈ equalities ++ [p], EqualTerms q x.1 x.2 := by
    intro p hp
    obtain ⟨hsort, hval⟩ := isTrue_equality hs hk hp
    refine List.forall_mem_append.mpr ⟨heq, ?_⟩
    simpa using ⟨hsort, fun ρ hρ => (hval ρ).mp (hleaf' ρ hρ)⟩
  cases k with
  | bvEq a b => exact answers_ok ⟨hequal _ rfl, hne⟩
  | boolEq a b => exact answers_ok ⟨hequal _ rfl, hne⟩
  | boolNot child =>
    refine (kind_answers (hs.sort_kind hk (hsorts leaf hleaf)).2).bind fun k' hk' => ?_
    cases hp : k'.equality? with
    | none => exact answers_ok ⟨heq, hne⟩
    | some p =>
      have hval := (isTrue_equality hs hk' hp).2
      have hdistinct : DistinctTerms q p.1 p.2 := fun ρ hρ heq =>
        (Arena.isTrue_boolNot hs hk).mp (hleaf' ρ hρ) ((hval ρ).mpr heq)
      refine answers_ok ⟨heq, List.forall_mem_append.mpr ⟨hne, ?_⟩⟩
      simpa using hdistinct
  | _ => exact answers_ok ⟨heq, hne⟩

theorem hasDirectContradiction_answers (hq : q.WellFormed) :
    Answers (hasDirectEqualityDisequalityContradiction q) fun found =>
      found = true → ¬∃ ρ, Asserted q ρ := by
  rw [hasDirectEqualityDisequalityContradiction]
  split
  · exact answers_ok fun h => nomatch h
  · refine (directEqualitiesAndDisequalities_answers hq).bind fun out hout => ?_
    obtain ⟨heq, hne⟩ := hout
    dsimp only
    split
    · exact answers_ok fun h => nomatch h
    · refine (unionOf_answers out.1).bind fun u hu => ?_
      refine (anyEquivalent_answers hu.grounded).mono fun found h hfound => ?_
      obtain ⟨p, hp, hclass⟩ := h.mp hfound
      rintro ⟨ρ, hρ⟩
      have hlinked := (inClass_iff_linked hu).mp hclass
      exact hne p hp ρ hρ ((hlinked.least (equalTerms_equivalence q) heq).2 ρ hρ)

/-! ## Remainders -/

/-- What a guard says: one word is the remainder of two others, or it is their divisor. -/
def UremGuard.Says (s : Arena) (ρ : Env) (g : UremGuard) : Prop :=
  s.num ρ g.2.2 = s.num ρ g.1 % s.num ρ g.2.1 ∨ s.num ρ g.2.2 = s.num ρ g.2.1

/-- The term is an equation between the remainder of the guard and the third word of it. -/
structure IsUremEq (s : Arena) (t : TermId) (g : UremGuard) : Prop where
  sides : ∃ a, (s.kindAt t = some (.bvEq a g.2.2) ∨ s.kindAt t = some (.bvEq g.2.2 a)) ∧
    s.kindAt a = some (.bvURem g.1 g.2.1)
  isTrue : ∀ ρ, s.IsTrue ρ t ↔ s.num ρ g.2.2 = s.num ρ g.1 % s.num ρ g.2.1

theorem num_eq_iff_bv (hs : q.arena.Inv) (ha : q.arena.IsBv a w) (hb : q.arena.IsBv b w) :
    q.arena.num ρ a = q.arena.num ρ b ↔ q.arena.bv ρ a w = q.arena.bv ρ b w := by
  rw [ha.num_eq hs, hb.num_eq hs, BitVec.toNat_inj]

theorem num_bvURem {n d : TermId} (hs : q.arena.Inv) (hk : q.arena.kindAt a = some (.bvURem n d))
    (ha : q.arena.IsBv a w) : q.arena.num ρ a = q.arena.num ρ n % q.arena.num ρ d := by
  obtain ⟨hn, hd, hval⟩ := Arena.bv_bvURem (ρ := ρ) hs hk ha
  rw [ha.num_eq hs, hval, hn.num_eq hs, hd.num_eq hs]
  exact BitVec.toNat_umod

/-- An equation of words is true when their numbers are equal. -/
theorem isTrue_bvEq_num (hs : q.arena.Inv) (hk : q.arena.kindAt t = some (.bvEq a b)) :
    q.arena.IsTrue ρ t ↔ q.arena.num ρ a = q.arena.num ρ b := by
  obtain ⟨w, ha, hb⟩ := hs.bvEq_sort hk
  rw [(Arena.isTrue_bvEq_bv hs hk ha).2, num_eq_iff_bv hs ha hb]

theorem bvUremEqSide_answers (hs : q.arena.Inv) (ht : q.arena.sortAt t = some .bool) :
    Answers (bvUremEqSide q.arena t) fun o => ∀ g, o = some g → IsUremEq q.arena t g := by
  refine (bvEqPair_answers ht).bind fun o ho => ?_
  cases o with
  | none => exact answers_none
  | some p =>
    obtain ⟨a, b⟩ := p
    have hk := ho _ rfl
    obtain ⟨w, ha, hb⟩ := hs.bvEq_sort hk
    refine (kind_answers ha).bind fun ka hka => ?_
    have hother : Answers (do
        match ← kind q.arena b with
        | .bvURem numerator divisor => return some (numerator, divisor, a)
        | _ => return none) fun o => ∀ g, o = some g → IsUremEq q.arena t g := by
      refine (kind_answers hb).bind fun kb hkb => ?_
      cases kb with
      | bvURem n d =>
        refine answers_some ⟨⟨b, .inr hk, hkb⟩, fun ρ => ?_⟩
        rw [isTrue_bvEq_num hs hk, num_bvURem hs hkb hb]
      | _ => exact answers_none
    cases ka with
    | bvURem n d =>
      refine answers_some ⟨⟨a, .inl hk, hka⟩, fun ρ => ?_⟩
      rw [isTrue_bvEq_num hs hk, num_bvURem hs hka ha, eq_comm]
    | _ => exact hother

theorem isBvEqPair_answers (ht : q.arena.sortAt t = some .bool) :
    Answers (isBvEqPair q.arena t a b) fun found => found = true →
      q.arena.kindAt t = some (.bvEq a b) ∨ q.arena.kindAt t = some (.bvEq b a) := by
  refine (bvEqPair_answers ht).bind fun o ho => ?_
  cases o with
  | none => exact answers_ok fun h => nomatch h
  | some p =>
    refine answers_ok fun h => ?_
    rcases sameUnorderedPair_eq.mp h with ⟨rfl, rfl⟩ | ⟨rfl, rfl⟩
    · exact .inl (ho _ rfl)
    · exact .inr (ho _ rfl)

/-- One equation is not both: the divisor would be the term that divides by it. -/
theorem IsUremEq.ne {g : UremGuard} {u e : TermId} (hs : q.arena.Inv) (hu : IsUremEq q.arena u g)
    (he : q.arena.kindAt e = some (.bvEq g.2.2 g.2.1) ∨
      q.arena.kindAt e = some (.bvEq g.2.1 g.2.2)) : u ≠ e := by
  rintro rfl
  obtain ⟨a, hkind, hk⟩ := hu.sides
  have hlt : g.2.1 < a := hs.child_lt hk (by simp [NodeKind.children])
  have hne : a ≠ g.2.1 := fun h => Nat.lt_irrefl _ (h ▸ hlt)
  rcases hkind with hkind | hkind <;> rcases he with he | he <;>
    have h := NodeKind.bvEq.inj (Option.some.inj (hkind.symm.trans he))
  · exact hne (h.1.trans h.2)
  · exact hne h.1
  · exact hne h.2
  · exact hne (h.2.trans h.1)

theorem uremGuardClause_answers (hs : q.arena.Inv) (ht : q.arena.sortAt t = some .bool) :
    Answers (uremGuardClause q.arena t) fun o => ∀ g, o = some g →
      ∀ ρ, q.arena.IsTrue ρ t ↔ g.Says q.arena ρ := by
  refine (collectBoolOrLeaves_answers hs ht).bind fun leaves hleaves => ?_
  obtain ⟨hsorts, htrue⟩ := hleaves
  split
  · exact answers_none
  · rename_i hlen
    obtain ⟨x, y, rfl⟩ := List.length_eq_two.mp (not_not.mp hlen)
    refine (answers_findSomeM? (P := fun leaf g => IsUremEq q.arena leaf g) fun leaf hleaf =>
      bvUremEqSide_answers hs (hsorts leaf hleaf)).bind fun o ho => ?_
    cases o with
    | none => exact answers_none
    | some g =>
      obtain ⟨u, hu, hurem⟩ := ho g rfl
      dsimp only
      refine (answers_anyM (P := fun leaf => q.arena.kindAt leaf = some (.bvEq g.2.2 g.2.1) ∨
        q.arena.kindAt leaf = some (.bvEq g.2.1 g.2.2)) fun leaf hleaf =>
          isBvEqPair_answers (hsorts leaf hleaf)).bind fun found hfound => ?_
      split
      · rename_i h
        obtain ⟨e, he, hpair⟩ := hfound h
        refine answers_some fun ρ => ?_
        have hne := hurem.ne hs hpair
        have heq : q.arena.IsTrue ρ e ↔ q.arena.num ρ g.2.2 = q.arena.num ρ g.2.1 := by
          rcases hpair with hk | hk
          · exact isTrue_bvEq_num hs hk
          · exact (isTrue_bvEq_num hs hk).trans eq_comm
        rw [htrue ρ, UremGuard.Says, ← hurem.isTrue ρ, ← heq]
        have hboth : ∀ P : TermId → Prop, (∃ leaf ∈ [x, y], P leaf) ↔ P u ∨ P e := by
          intro P
          rcases List.mem_pair.mp hu with rfl | rfl <;> rcases List.mem_pair.mp he with rfl | rfl
          · exact absurd rfl hne
          · simp
          · simp [or_comm]
          · exact absurd rfl hne
        exact hboth _
      · exact answers_none

/-- The equations are true wherever the assertions are, and so are the guards; the negated guards
are false there. -/
structure UremParts.Asserted (q : Query) (parts : UremParts) : Prop where
  equalities : ∀ p ∈ parts.equalities, EqualTerms q p.1 p.2
  positive : ∀ g ∈ parts.positiveGuards, ∀ ρ, Shortcuts.Asserted q ρ → g.Says q.arena ρ
  negative : ∀ g ∈ parts.negativeGuards, ∀ ρ, Shortcuts.Asserted q ρ → ¬g.Says q.arena ρ

theorem uremParts_answers (hs : q.arena.Inv) (hsorts : ∀ leaf ∈ leaves, q.arena.sortAt leaf = some .bool)
    (htrue : ∀ leaf ∈ leaves, ∀ ρ, Asserted q ρ → q.arena.IsTrue ρ leaf) :
    Answers (uremParts q.arena leaves) (UremParts.Asserted q) := by
  refine answers_foldlM (fun _ parts => UremParts.Asserted q parts) ⟨by simp, by simp, by simp⟩ ?_
  intro leaf hleaf _ parts hparts
  have hbool := hsorts leaf hleaf
  refine (bvEqPair_answers hbool).bind fun pair hpair => ?_
  refine (uremGuardClause_answers hs hbool).bind fun positive hpositive => ?_
  have hnegative : Answers (negativeGuard q.arena leaf) fun o => ∀ g, o = some g →
      ∀ ρ, q.arena.IsTrue ρ leaf → ¬g.Says q.arena ρ := by
    refine (kind_answers hbool).bind fun k hk => ?_
    cases k with
    | boolNot child =>
      refine (uremGuardClause_answers hs (hs.sort_kind hk hbool).2).mono fun o ho g hg ρ hleaf => ?_
      rw [← ho g hg ρ]
      exact (Arena.isTrue_boolNot hs hk).mp hleaf
    | _ => exact answers_none
  refine hnegative.bind fun negative hnegative => answers_ok ⟨?_, ?_, ?_⟩
  · refine List.forall_mem_append.mpr ⟨hparts.equalities, fun p hp => ?_⟩
    obtain rfl := Option.mem_toList.mp hp
    exact (equalBv_of_kind hs (hpair p rfl) (htrue leaf hleaf)).equalTerms hs
  · refine List.forall_mem_append.mpr ⟨hparts.positive, fun g hg ρ hρ => ?_⟩
    exact (hpositive g (Option.mem_toList.mp hg) ρ).mp (htrue leaf hleaf ρ hρ)
  · refine List.forall_mem_append.mpr ⟨hparts.negative, fun g hg ρ hρ => ?_⟩
    exact hnegative g (Option.mem_toList.mp hg) ρ (htrue leaf hleaf ρ hρ)

/-- The remainder of a remainder by the same divisor is itself, for the divisor zero too. -/
theorem UremGuard.remainder_again {s : Arena} {positive negative : UremGuard} (h : positive.Says s ρ)
    (hdivisor : s.num ρ positive.2.1 = s.num ρ negative.2.1)
    (hremainder : s.num ρ positive.2.2 = s.num ρ negative.2.2)
    (hnumerator : s.num ρ negative.1 = s.num ρ positive.2.2) : negative.Says s ρ := by
  rcases h with h | h
  · left
    calc s.num ρ negative.2.2 = s.num ρ positive.1 % s.num ρ positive.2.1 := hremainder.symm.trans h
      _ = s.num ρ positive.1 % s.num ρ positive.2.1 % s.num ρ positive.2.1 := (Nat.mod_mod _ _).symm
      _ = s.num ρ negative.1 % s.num ρ negative.2.1 := by rw [← h, ← hnumerator, hdivisor]
  · right
    rw [← hremainder, ← hdivisor, h]

theorem hasUremContradiction_answers (hq : q.WellFormed) :
    Answers (hasUremRemainderFixedPointContradiction q) fun found =>
      found = true → ¬∃ ρ, Asserted q ρ := by
  rw [hasUremRemainderFixedPointContradiction]
  split
  · exact answers_ok fun h => nomatch h
  · refine (conjuncts_answers hq).bind fun leaves hleaves => ?_
    obtain ⟨hsorts, htrue⟩ := hleaves
    refine (uremParts_answers hq.arena hsorts fun leaf hleaf ρ hρ =>
      (htrue ρ).mp hρ leaf hleaf).bind fun parts hparts => ?_
    have hsame : ∀ positive negative, Answers (sameRemainder parts.equalities positive negative)
        fun found => found = true → ∀ ρ, Asserted q ρ → positive.Says q.arena ρ →
          negative.Says q.arena ρ := by
      intro positive negative
      have hsearch := fun a b => (equivalentUnderEqualities_answers a b parts.equalities).mono
        fun found h (hfound : found = true) =>
          (h.mp hfound).least (equalTerms_equivalence q) hparts.equalities
      refine ((hsearch _ _).and ((hsearch _ _).and (hsearch _ _))).mono fun found h hfound ρ hρ hguard => ?_
      obtain ⟨hdivisor, hremainder, hnumerator⟩ := h hfound
      have hnum : ∀ {a b}, EqualTerms q a b → q.arena.num ρ a = q.arena.num ρ b := fun h => by
        rw [Arena.num, Arena.num, h.2 ρ hρ]
      exact UremGuard.remainder_again hguard (hnum hdivisor) (hnum hremainder) (hnum hnumerator)
    refine (answers_anyM (P := fun _ => ¬∃ ρ, Asserted q ρ) fun positive hpositive =>
      (answers_anyM (P := fun _ => ¬∃ ρ, Asserted q ρ) fun negative hnegative =>
        (hsame positive negative).mono fun found h hfound => ?_).mono ?_).mono ?_
    · rintro ⟨ρ, hρ⟩
      exact hparts.negative negative hnegative ρ hρ
        (h hfound ρ hρ (hparts.positive positive hpositive ρ hρ))
    · exact fun found h hfound => (h hfound).elim fun _ h => h.2
    · exact fun found h hfound => (h hfound).elim fun _ h => h.2

/-- **Whatever equal terms are put together, the classes and the search agree, and what they relate
is equal; both passes return, and find a contradiction only where there is one.** -/
theorem congruence_shortcuts_are_sound (hq : q.WellFormed) :
    (∀ equalities, (∀ p ∈ equalities, EqualTerms q p.1 p.2) → ∀ a b, ∃ u,
      unionOf equalities = ok u ∧
      (Equivalent u a b ↔ equivalentUnderEqualities a b equalities = ok true) ∧
      (Equivalent u a b → EqualTerms q a b)) ∧
    Answers (hasDirectEqualityDisequalityContradiction q)
      (fun found => found = true → ¬∃ ρ, Asserted q ρ) ∧
    Answers (hasUremRemainderFixedPointContradiction q)
      (fun found => found = true → ¬∃ ρ, Asserted q ρ) := by
  refine ⟨fun equalities heq a b => ?_, hasDirectContradiction_answers hq,
    hasUremContradiction_answers hq⟩
  obtain ⟨u, hrun, hu⟩ := unionOf_answers equalities
  obtain ⟨found, hsearch, hfound⟩ := equivalentUnderEqualities_answers a b equalities
  have hlinked : Equivalent u a b ↔ Linked equalities a b :=
    (equivalent_iff hu.grounded).trans (inClass_iff_linked hu)
  refine ⟨u, hrun, ?_, fun h => (hlinked.mp h).least (equalTerms_equivalence q) heq⟩
  rw [hlinked, hsearch, ← hfound, Outcome.ok.injEq]

/-- `r` is the remainder of `x` by `d` or it is `d`, and it is neither `d` nor its own remainder. -/
def dividedTwice : Query := .asserting [
    ⟨.bvVar 8 "x" (some 0), .bv 8⟩,
    ⟨.bvVar 8 "d" (some 1), .bv 8⟩,
    ⟨.bvVar 8 "r" (some 2), .bv 8⟩,
    ⟨.bvURem 0 1, .bv 8⟩,
    ⟨.bvEq 2 3, .bool⟩,
    ⟨.bvEq 2 1, .bool⟩,
    ⟨.boolOr 4 5, .bool⟩,
    ⟨.bvURem 2 1, .bv 8⟩,
    ⟨.bvEq 2 7, .bool⟩,
    ⟨.boolOr 8 5, .bool⟩,
    ⟨.boolNot 9, .bool⟩] [6, 10]

theorem congruence_of_divided_twice :
    hasUremRemainderFixedPointContradiction dividedTwice = ok true ∧
      ¬∃ ρ, Asserted dividedTwice ρ := by
  have hq : dividedTwice.WellFormed :=
    Query.wellFormed_of_check (by decide) (by decide)
  have hfound : hasUremRemainderFixedPointContradiction dividedTwice = ok true := by decide
  exact ⟨hfound, (congruence_shortcuts_are_sound hq).2.2.of_eq hfound rfl⟩

end Shortcuts
end Qfbv
end SmtServer
