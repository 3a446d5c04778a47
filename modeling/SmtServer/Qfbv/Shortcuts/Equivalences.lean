import SmtServer.Qfbv.Shortcuts.Definitions

/-!
# `polynomial.rs` — which terms the equations of a query merge

Every asserted equation between variables, or between zero extensions, puts two terms into one
class, and so do the equations between the definitions of what is equated. When both of two merged
variables are packs, the halves are merged as well.

The merged terms are those of `QueryMerges`, closed under equality and nothing else, whatever the
order of the assertions. All of it follows from the assertions but the last step: two packs of one
width may be cut at different places, and of a shift amount only the low eight bytes are looked at.
Equal packs then need not have equal halves (`HalvesForced`).
-/

namespace SmtServer
namespace Qfbv

open Lib Outcome

namespace Shortcuts

open TermUnion

variable {s : Arena} {q : Query} {ρ : Env} {t a b c d x y : TermId} {σ : TermSort}
variable {leaves : List TermId} {definitions : TermMap TermId}
variable {packs : TermMap PolynomialPackDefinition} {u : TermUnion}

/-! ## Which terms are merged -/

/-- Two compared terms make two terms equal: themselves when they are variables, and what they
extend when they are zero extensions. -/
def Matches (s : Arena) (a b c d : TermId) : Prop :=
  (IsVar s a ∧ IsVar s b ∧ s.sortAt a = s.sortAt b ∧ c = a ∧ d = b) ∨
    ∃ e, s.kindAt a = some (.bvZeroExtend c e) ∧ s.kindAt b = some (.bvZeroExtend d e) ∧
      s.sortAt c = s.sortAt d

/-- A conjunct equates two terms, and these or their definitions match. -/
def LeafMatches (s : Arena) (definitions : TermMap TermId) (leaf c d : TermId) : Prop :=
  ∃ a b, s.kindAt leaf = some (.bvEq a b) ∧ (Matches s a b c d ∨
    ∃ da db, definitions.lookup a = some da ∧ definitions.lookup b = some db ∧
      Matches s da db c d)

/-- What is put into one class when two terms are found to be equal: they, and the halves of their
packs. -/
def PairMerges (packs : TermMap PolynomialPackDefinition) (c d x y : TermId) : Prop :=
  (x = c ∧ y = d) ∨ ∃ p q, packs.lookup c = some p ∧ packs.lookup d = some q ∧
    ((x = p.high ∧ y = q.high) ∨ (x = p.low ∧ y = q.low))

theorem unionPolynomialPair_answers (hg : UnionFind.Grounded u.parentOf) :
    Answers (unionPolynomialPair c d packs u) fun u' => Adds u u' (PairMerges packs c d) := by
  refine (union_adds hg c d).bind fun u₁ h₁ => ?_
  unfold unionPolynomialPacks
  split
  · rename_i p q hp hq
    refine (union_adds h₁.grounded p.high q.high).bind fun u₂ h₂ => ?_
    refine (union_adds h₂.grounded p.low q.low).mono fun u₃ h₃ => ?_
    refine ((h₁.trans h₂).trans h₃).congr fun x y => ?_
    unfold PairMerges
    simp only [hp, hq, Option.some.injEq, exists_eq_left', exists_and_left, or_assoc]
  · rename_i hnone
    refine answers_ok (h₁.congr fun x y => ?_)
    unfold PairMerges
    constructor
    · exact .inl
    · rintro (h | ⟨p, q, hp, hq, -⟩)
      · exact h
      · exact (hnone p q hp hq).elim

theorem sameSortVars_answers {τ : TermSort} (ha : s.sortAt a = some σ) (hb : s.sortAt b = some τ) :
    Answers (sameSortVars s a b) fun v =>
      v = true ↔ IsVar s a ∧ IsVar s b ∧ s.sortAt a = s.sortAt b := by
  refine (sort_answers ha).bind fun σ' hσ => ?_
  refine (sort_answers hb).bind fun τ' hτ => ?_
  subst hσ hτ
  split
  · rename_i hne
    refine answers_ok ⟨fun h => (nomatch h), fun h => ?_⟩
    rw [ha, hb, Option.some.injEq] at h
    exact absurd h.2.2 hne
  · rename_i heq
    rw [not_not] at heq
    refine (kind_answers ha).bind fun j hj => ?_
    cases hjv : j.isBvVar with
    | false =>
      refine answers_ok ⟨fun h => (nomatch h), fun h => ?_⟩
      rw [isVar_iff hj, hjv] at h
      exact h.1
    | true =>
      refine (kind_answers hb).bind fun k hk => ?_
      refine answers_ok ?_
      rw [isVar_iff hj, isVar_iff hk, hjv, ha, hb, heq]
      simp

theorem zeroExtendChildWithExtra_answers (ha : s.sortAt a = some σ) :
    Answers (zeroExtendChildWithExtra s a) fun o =>
      ∀ c e, o = some (c, e) ↔ s.kindAt a = some (.bvZeroExtend c e) := by
  refine (kind_answers ha).bind fun k hk => ?_
  cases k with
  | bvZeroExtend child extra =>
    refine answers_ok fun c e => ?_
    simp [hk]
  | _ =>
    refine answers_ok fun c e => ?_
    simp [hk]

theorem sameExtensionChildren_answers (hs : s.Inv) {τ : TermSort} (ha : s.sortAt a = some σ)
    (hb : s.sortAt b = some τ) :
    Answers (sameExtensionChildren s a b) fun o => ∀ c d, o = some (c, d) ↔
      ∃ e, s.kindAt a = some (.bvZeroExtend c e) ∧ s.kindAt b = some (.bvZeroExtend d e) ∧
        s.sortAt c = s.sortAt d := by
  refine (zeroExtendChildWithExtra_answers ha).bind fun o ho => ?_
  refine (zeroExtendChildWithExtra_answers hb).bind fun o' ho' => ?_
  have hnone : (∀ c e c' e', o = some (c, e) → o' = some (c', e') → False) → ∀ c d,
      ¬∃ e, s.kindAt a = some (.bvZeroExtend c e) ∧ s.kindAt b = some (.bvZeroExtend d e) ∧
        s.sortAt c = s.sortAt d := by
    rintro h c d ⟨e, hka, hkb, -⟩
    exact h c e d e ((ho c e).mpr hka) ((ho' d e).mpr hkb)
  cases o with
  | none =>
    refine answers_ok fun c d => ⟨fun h => (nomatch h), fun h => ?_⟩
    exact absurd h (hnone (fun _ _ _ _ h _ => nomatch h) c d)
  | some p =>
    cases o' with
    | none =>
      refine answers_ok fun c d => ⟨fun h => (nomatch h), fun h => ?_⟩
      exact absurd h (hnone (fun _ _ _ _ _ h => nomatch h) c d)
    | some p' =>
      have hka := (ho p.1 p.2).mp rfl
      have hkb := (ho' p'.1 p'.2).mp rfl
      have hkinds : ∀ c d, (∃ e, s.kindAt a = some (.bvZeroExtend c e) ∧
          s.kindAt b = some (.bvZeroExtend d e) ∧ s.sortAt c = s.sortAt d) ↔
          p.2 = p'.2 ∧ s.sortAt p.1 = s.sortAt p'.1 ∧ p.1 = c ∧ p'.1 = d := by
        intro c d
        rw [hka, hkb]
        simp only [Option.some.injEq, NodeKind.bvZeroExtend.injEq]
        grind
      obtain ⟨σa, -, wa, -, hca⟩ := hs.hasSort hka
      obtain ⟨σb, -, wb, -, hcb⟩ := hs.hasSort hkb
      dsimp only
      split
      · rename_i hne
        refine answers_ok fun c d => ⟨fun h => (nomatch h), fun h => ?_⟩
        exact absurd ((hkinds c d).mp h).1 hne
      · rename_i hextra
        rw [not_not] at hextra
        refine (sort_answers hca).bind fun σ' hσ => ?_
        refine (sort_answers hcb).bind fun τ' hτ => ?_
        subst hσ hτ
        split
        · rename_i hne
          refine answers_ok fun c d => ⟨fun h => (nomatch h), fun h => ?_⟩
          have := ((hkinds c d).mp h).2.1
          rw [hca, hcb, Option.some.injEq] at this
          exact absurd this hne
        · rename_i heq
          rw [not_not] at heq
          refine answers_ok fun c d => ?_
          rw [hkinds c d, hca, hcb, heq]
          simp [hextra]

/-- What one comparison of two terms merges. -/
def TermMerges (s : Arena) (packs : TermMap PolynomialPackDefinition) (a b x y : TermId) : Prop :=
  ∃ c d, Matches s a b c d ∧ PairMerges packs c d x y

/-- What one conjunct merges. -/
def LeafMerges (s : Arena) (definitions : TermMap TermId)
    (packs : TermMap PolynomialPackDefinition) (leaf x y : TermId) : Prop :=
  ∃ c d, LeafMatches s definitions leaf c d ∧ PairMerges packs c d x y

theorem unionSameSortVars_answers {τ : TermSort} (ha : s.sortAt a = some σ)
    (hb : s.sortAt b = some τ) (hg : UnionFind.Grounded u.parentOf) :
    Answers (unionSameSortVars s packs a b u) fun u' => Adds u u' fun x y =>
      (IsVar s a ∧ IsVar s b ∧ s.sortAt a = s.sortAt b) ∧ PairMerges packs a b x y := by
  refine (sameSortVars_answers ha hb).bind fun v hv => ?_
  cases v with
  | true =>
    refine (unionPolynomialPair_answers hg).mono fun u' h => h.congr fun x y => ?_
    rw [and_iff_right (hv.mp rfl)]
  | false =>
    refine answers_ok ((adds_none hg).congr fun x y => ?_)
    rw [← hv]
    simp

theorem unionSameExtensionChildren_answers (hs : s.Inv) {τ : TermSort} (ha : s.sortAt a = some σ)
    (hb : s.sortAt b = some τ) (hg : UnionFind.Grounded u.parentOf) :
    Answers (unionSameExtensionChildren s packs a b u) fun u' => Adds u u' fun x y =>
      ∃ c d, (∃ e, s.kindAt a = some (.bvZeroExtend c e) ∧ s.kindAt b = some (.bvZeroExtend d e) ∧
        s.sortAt c = s.sortAt d) ∧ PairMerges packs c d x y := by
  refine (sameExtensionChildren_answers hs ha hb).bind fun o ho => ?_
  cases o with
  | some p =>
    refine (unionPolynomialPair_answers hg).mono fun u' h => h.congr fun x y => ?_
    simp only [← ho, Option.some.injEq, Prod.ext_iff]
    grind
  | none =>
    refine answers_ok ((adds_none hg).congr fun x y => ?_)
    simp [← ho]

/-- One round: the two terms are compared, and then their definitions. -/
theorem unionPolynomialEqualTerms_round (hs : s.Inv) {τ : TermSort} {rounds : Nat}
    (ha : s.sortAt a = some σ) (hb : s.sortAt b = some τ) (hg : UnionFind.Grounded u.parentOf)
    {M : TermId → TermId → Prop}
    (hdefs : ∀ da db, definitions.lookup a = some da → definitions.lookup b = some db →
      ∀ u, UnionFind.Grounded u.parentOf →
        Answers (unionPolynomialEqualTerms s definitions packs rounds da db u) fun u' => Adds u u' M)
    (hno : ∀ x y, M x y → ∃ da db, definitions.lookup a = some da ∧
      definitions.lookup b = some db) :
    Answers (unionPolynomialEqualTerms s definitions packs (rounds + 1) a b u) fun u' =>
      Adds u u' fun x y => TermMerges s packs a b x y ∨ M x y := by
  refine (unionSameSortVars_answers ha hb hg).bind fun u₁ h₁ => ?_
  refine (unionSameExtensionChildren_answers hs ha hb h₁.grounded).bind fun u₂ h₂ => ?_
  have hhere : Adds u u₂ (TermMerges s packs a b) := by
    refine (h₁.trans h₂).congr fun x y => ?_
    unfold TermMerges Matches
    grind
  split
  · rename_i da db hda hdb
    refine (hdefs da db hda hdb u₂ hhere.grounded).mono fun u₃ h₃ => ?_
    exact hhere.trans h₃
  · rename_i hnone
    refine answers_ok (hhere.congr fun x y => ?_)
    constructor
    · exact .inl
    · rintro (h | h)
      · exact h
      · obtain ⟨da, db, hda, hdb⟩ := hno x y h
        exact (hnone da db hda hdb).elim

/-- The definitions of a map that a query makes are no variables, and variables are what it
defines; two rounds compare everything. -/
theorem unionPolynomialEqualTerms_answers (hs : s.Inv) {τ : TermSort}
    (hdefs : ∀ x d, definitions.lookup x = some d → Defines s leaves x d)
    (ha : s.sortAt a = some σ) (hb : s.sortAt b = some τ) (hg : UnionFind.Grounded u.parentOf) :
    Answers (unionPolynomialEqualTerms s definitions packs 2 a b u) fun u' =>
      Adds u u' fun x y => TermMerges s packs a b x y ∨
        ∃ da db, definitions.lookup a = some da ∧ definitions.lookup b = some db ∧
          TermMerges s packs da db x y := by
  refine unionPolynomialEqualTerms_round hs ha hb hg (fun da db hda hdb u hg => ?_) ?_
  · obtain ⟨w, -, hda', -⟩ := (hdefs a da hda).equated.equal hs
    obtain ⟨v, -, hdb', -⟩ := (hdefs b db hdb).equated.equal hs
    have hnone : ∀ e, definitions.lookup da ≠ some e := fun e he =>
      (hdefs a da hda).notVar (hdefs da e he).var
    refine (unionPolynomialEqualTerms_round (M := fun _ _ => False) hs hda' hdb' hg
      (fun e _ he => absurd he (hnone e)) fun _ _ => False.elim).mono fun u' h => ?_
    refine h.congr fun x y => ?_
    simp [hda, hdb]
  · rintro x y ⟨da, db, hda, hdb, -⟩
    exact ⟨da, db, hda, hdb⟩

theorem collectPolynomialEquivalences_answers (hs : s.Inv)
    (hdefs : ∀ x d, definitions.lookup x = some d → Defines s leaves x d)
    (ht : s.sortAt t = some σ) (hg : UnionFind.Grounded u.parentOf) :
    Answers (collectPolynomialEquivalences s definitions packs t u) fun u' =>
      Adds u u' (LeafMerges s definitions packs t) := by
  refine (kind_answers ht).bind fun k hk => ?_
  unfold LeafMerges LeafMatches
  cases k with
  | bvEq a b =>
    obtain ⟨w, ha, hb⟩ := hs.bvEq_sort hk
    refine (unionPolynomialEqualTerms_answers hs hdefs ha hb hg).mono fun u' h => ?_
    refine h.congr fun x y => ?_
    simp only [hk, Option.some.injEq, NodeKind.bvEq.injEq]
    unfold TermMerges
    grind
  | _ =>
    refine answers_ok ((adds_none hg).congr fun x y => ?_)
    simp [hk]

/-- After all assertions the classes are those of the merged terms. -/
theorem polynomialUnion_answers (hq : q.WellFormed) (hrun : conjuncts q = ok leaves)
    (hdefs : ∀ x d, definitions.lookup x = some d → Defines q.arena leaves x d)
    (hpacks : collectPolynomialPackDefinitions q.arena definitions = ok packs) :
    Answers (polynomialUnion q definitions) fun u => Adds .default u fun x y =>
      ∃ leaf ∈ leaves, LeafMerges q.arena definitions packs leaf x y := by
  obtain ⟨hsorts, -⟩ := (conjuncts_answers hq).of_eq hrun
  unfold polynomialUnion
  rw [hpacks, ok_bind, forAllConjuncts_eq hrun]
  refine answers_foldlM (fun done u => Adds .default u fun x y =>
    ∃ leaf ∈ done, LeafMerges q.arena definitions packs leaf x y) ?_ ?_
  · exact (adds_none grounded_default).congr fun x y => by simp
  · intro leaf hleaf done u hu
    refine (collectPolynomialEquivalences_answers hq.arena hdefs (hsorts leaf hleaf)
      hu.grounded).mono fun u' hu' => (hu.trans hu').congr fun x y => ?_
    simp only [List.mem_append, List.mem_singleton, or_and_right, exists_or, exists_eq_left]

/-! ## What is merged is equal -/

theorem Matches.sort (h : Matches s a b c d) : s.sortAt c = s.sortAt d := by
  obtain ⟨-, -, hsort, rfl, rfl⟩ | ⟨e, -, -, hsort⟩ := h
  · exact hsort
  · exact hsort

theorem Matches.equal (hs : s.Inv) (h : Matches s a b c d) (heq : s.value ρ a = s.value ρ b) :
    s.value ρ c = s.value ρ d := by
  obtain ⟨-, -, -, rfl, rfl⟩ | ⟨e, hka, hkb, hsort⟩ := h
  · exact heq
  · obtain ⟨σ, ha, w, rfl, hc⟩ := hs.hasSort hka
    obtain ⟨τ, hb, v, rfl, hd⟩ := hs.hasSort hkb
    have hd' : s.IsBv d w := hsort.symm.trans hc
    obtain rfl : v = w := Arena.IsBv.inj hd hd'
    have hbits := (Arena.value_eq_iff_bit hs ha hb).mp heq
    refine (Arena.value_eq_iff_bit hs hc hd).mpr fun i hi => ?_
    rw [← Arena.bit_bvZeroExtend hs hka, ← Arena.bit_bvZeroExtend hs hkb]
    exact hbits i (by omega)

/-- A variable and its definition are equal. -/
theorem Defines.equalTerms (hq : q.WellFormed) (hrun : conjuncts q = ok leaves)
    (h : Defines q.arena leaves x d) : EqualTerms q x d := by
  obtain ⟨-, htrue⟩ := (conjuncts_answers hq).of_eq hrun
  obtain ⟨w, hx, hd, heq⟩ := h.equated.equal hq.arena
  exact ⟨hx.trans hd.symm, fun ρ hρ => heq ρ ((htrue ρ).mp hρ)⟩

/-- What a conjunct makes equal is equal. -/
theorem LeafMatches.equal (hq : q.WellFormed) (hrun : conjuncts q = ok leaves)
    (hdefs : ∀ x d, definitions.lookup x = some d → Defines q.arena leaves x d)
    {leaf : TermId} (hleaf : leaf ∈ leaves) (h : LeafMatches q.arena definitions leaf c d) :
    EqualTerms q c d := by
  have hs := hq.arena
  obtain ⟨-, htrue⟩ := (conjuncts_answers hq).of_eq hrun
  obtain ⟨a, b, hk, hm⟩ := h
  have hab : ∀ ρ, Asserted q ρ → q.arena.value ρ a = q.arena.value ρ b := fun ρ hρ =>
    (Arena.isTrue_bvEq hs hk).mp ((htrue ρ).mp hρ leaf hleaf)
  obtain hm | ⟨da, db, hda, hdb, hm⟩ := hm
  · exact ⟨hm.sort, fun ρ hρ => hm.equal hs (hab ρ hρ)⟩
  · refine ⟨hm.sort, fun ρ hρ => hm.equal hs ?_⟩
    calc q.arena.value ρ da
        _ = q.arena.value ρ a := (((hdefs a da hda).equalTerms hq hrun).2 ρ hρ).symm
        _ = q.arena.value ρ b := hab ρ hρ
        _ = q.arena.value ρ db := ((hdefs b db hdb).equalTerms hq hrun).2 ρ hρ

/-- Whenever the code merges the halves of two packs, the packs are cut at one place. And the
amounts by which their high halves are shifted are read in full; where they are not, the high
halves happen to be equal. -/
def HalvesForced (q : Query) (definitions : TermMap TermId) : Prop :=
  ∀ leaves leaf c d dc dd p p', conjuncts q = ok leaves → leaf ∈ leaves →
    LeafMatches q.arena definitions leaf c d →
    definitions.lookup c = some dc → definitions.lookup d = some dd →
    polynomialBytePack q.arena dc = ok (some p) → polynomialBytePack q.arena dd = ok (some p') →
    q.arena.sortAt p.low = q.arena.sortAt p'.low ∧
      ((AmountFits q.arena dc ∧ AmountFits q.arena dd) ∨
        ∀ ρ, Asserted q ρ → q.arena.value ρ p.high = q.arena.value ρ p'.high)

/-- Then the halves are equal. -/
theorem halves_equal (hs : q.arena.Inv) {dc dd : TermId} {p p' : PolynomialPackDefinition}
    (hp : PackShape q.arena dc p) (hp' : PackShape q.arena dd p') (hd : EqualTerms q dc dd)
    (hcut : q.arena.sortAt p.low = q.arena.sortAt p'.low)
    (hhigh : (AmountFits q.arena dc ∧ AmountFits q.arena dd) ∨
      ∀ ρ, Asserted q ρ → q.arena.value ρ p.high = q.arena.value ρ p'.high) :
    EqualTerms q p.high p'.high ∧ EqualTerms q p.low p'.low := by
  obtain ⟨hw, lw, n, h, hn, hfit⟩ := hp
  obtain ⟨hw', lw', n', h', hn', hfit'⟩ := hp'
  obtain rfl : lw = lw' := h.low.inj (hcut.trans h'.low)
  have hsum := h.term.inj (hd.1.trans h'.term)
  obtain rfl : hw = hw' := Nat.add_right_cancel hsum
  refine ⟨⟨h.high.trans h'.high.symm, ?_⟩, hcut, fun ρ hρ => ?_⟩
  · obtain ⟨hfits, hfits'⟩ | hhigh := hhigh
    · rw [Nat.mod_eq_of_lt (hfit hfits)] at hn
      rw [Nat.mod_eq_of_lt (hfit' hfits')] at hn'
      subst hn hn'
      exact fun ρ hρ => h.high_equal hs h' (hd.2 ρ hρ)
    · exact hhigh
  · have hle : lw ≤ n := hn ▸ Nat.mod_le n (2 ^ 64)
    have hle' : lw ≤ n' := hn' ▸ Nat.mod_le n' (2 ^ 64)
    exact h.low_equal hs h' hle hle' (hd.2 ρ hρ)

theorem collectPolynomialPackDefinitions_answers (hs : s.Inv)
    (hdefs : ∀ x d, definitions.lookup x = some d → Defines s leaves x d) :
    Answers (collectPolynomialPackDefinitions s definitions) fun packs => ∀ x p,
      packs.lookup x = some p ↔
        ∃ d, definitions.lookup x = some d ∧ polynomialBytePack s d = ok (some p) := by
  refine Table.collect_answers fun x d hd => ?_
  obtain ⟨w, -, hdw, -⟩ := (hdefs x d hd).equated.equal hs
  obtain ⟨o, ho, -⟩ := polynomialBytePack_answers hs hdw
  exact ⟨o, ho⟩

/-- The code puts the two terms into one class. -/
def Equivalent (u : TermUnion) (a b : TermId) : Prop := ∃ u', u.equivalent a b = ok (true, u')

theorem equivalent_iff (hg : UnionFind.Grounded u.parentOf) : Equivalent u a b ↔ u.InClass a b := by
  obtain ⟨⟨found, u'⟩, hrun, hfound, -⟩ := equivalent_answers hg a b
  rw [← hfound, Equivalent, hrun]
  simp

/-- Two packs of eight bits that are asserted to be equal. The first is cut in the middle, the low
half of the second is `cut` bits wide; `amount` is the constant `cut`. -/
def packQuery (cut : Nat) (amount : TermId) : Query where
  arena := ⟨[
    ⟨.bvVar 4 "h1" (some 0), .bv 4⟩,
    ⟨.bvVar 4 "l1" (some 1), .bv 4⟩,
    ⟨.bvVar (8 - cut) "h2" (some 2), .bv (8 - cut)⟩,
    ⟨.bvVar cut "l2" (some 3), .bv cut⟩,
    ⟨.bvVar 8 "x" (some 4), .bv 8⟩,
    ⟨.bvVar 8 "y" (some 5), .bv 8⟩,
    ⟨.bvConst 8 [4], .bv 8⟩,
    ⟨.bvConst 8 [2], .bv 8⟩,
    ⟨.bvZeroExtend 0 4, .bv 8⟩,
    ⟨.bvZeroExtend 1 4, .bv 8⟩,
    ⟨.bvZeroExtend 2 cut, .bv 8⟩,
    ⟨.bvZeroExtend 3 (8 - cut), .bv 8⟩,
    ⟨.bvShl 8 6, .bv 8⟩,
    ⟨.bvShl 10 amount, .bv 8⟩,
    ⟨.bvOr 12 9, .bv 8⟩,
    ⟨.bvOr 13 11, .bv 8⟩,
    ⟨.bvEq 4 14, .bool⟩,
    ⟨.bvEq 5 15, .bool⟩,
    ⟨.bvEq 4 5, .bool⟩]⟩
  assertions := [⟨16, none⟩, ⟨17, none⟩, ⟨18, none⟩]
  assumptions := []
  command := .solve
  target := none
  signed := false
  wantModel := false
  wantCore := false
  getValues := []

/-- Both packs cut in the middle. -/
def sameCut : Query := packQuery 4 6

/-- The second pack cut after two bits. -/
def otherCut : Query := packQuery 2 7

theorem sameCut_wellFormed : sameCut.WellFormed :=
  Query.wellFormed_of_check (by decide) (by decide)

/-- The two packs of the query. -/
theorem sameCut_pack {definitions : TermMap TermId}
    (hrun : polynomialDefinitions sameCut = ok definitions) {p : PolynomialPackDefinition}
    (hd : definitions.lookup x = some d)
    (hp : polynomialBytePack sameCut.arena d = ok (some p)) :
    sameCut.arena.sortAt p.low = some (.bv 4) ∧ AmountFits sameCut.arena d := by
  have hleaves : conjuncts sameCut = ok [16, 17, 18] := by decide
  obtain ⟨-, hnot, leaf, hleaf, hk⟩ :=
    (polynomialDefinitions_answers sameCut_wellFormed hleaves).of_eq hrun x d hd
  have hfits : ∀ o sh am z ext : TermId, sameCut.arena.kindAt o = some (.bvOr sh z) →
      sameCut.arena.kindAt sh = some (.bvShl ext am) →
      (∀ e amount, sameCut.arena.kindAt z ≠ some (.bvShl e amount)) →
      sameCut.arena.kindAt am = some (.bvConst 8 [4]) → AmountFits sameCut.arena o := by
    intro o sh am z ext ho hsh hz ham a b y e amount w bytes hor hy hshl hc
    obtain ⟨rfl, rfl⟩ : sh = a ∧ z = b := by simpa using ho.symm.trans hor
    obtain rfl | rfl := hy
    · obtain ⟨rfl, rfl⟩ : ext = e ∧ am = amount := by simpa using hsh.symm.trans hshl
      obtain ⟨rfl, rfl⟩ : 8 = w ∧ [4] = bytes := by simpa using ham.symm.trans hc
      decide
    · exact absurd hshl (hz e amount)
  have hvar : ∀ {v : TermId}, v = 4 ∨ v = 5 → IsVar sameCut.arena v := by
    rintro v (rfl | rfl)
    · exact ⟨.bvVar 8 "x" (some 4), by decide, rfl⟩
    · exact ⟨.bvVar 8 "y" (some 5), by decide, rfl⟩
  have hd' : d = 14 ∨ d = 15 := by
    have hcases : leaf = 16 ∨ leaf = 17 ∨ leaf = 18 := by simpa using hleaf
    have h4 : d ≠ 4 := fun h => hnot (hvar (.inl h))
    have h5 : d ≠ 5 := fun h => hnot (hvar (.inr h))
    rcases hcases with rfl | rfl | rfl
    · rw [show sameCut.arena.kindAt 16 = some (.bvEq 4 14) by decide] at hk
      grind
    · rw [show sameCut.arena.kindAt 17 = some (.bvEq 5 15) by decide] at hk
      grind
    · rw [show sameCut.arena.kindAt 18 = some (.bvEq 4 5) by decide] at hk
      grind
  obtain rfl | rfl := hd'
  · have hp' : polynomialBytePack sameCut.arena 14 = ok (some ⟨0, 1⟩) := by decide
    obtain rfl : p = ⟨0, 1⟩ := by simpa using hp.symm.trans hp'
    refine ⟨by decide, hfits 14 12 6 9 8 ?_ ?_ ?_ ?_⟩
    · decide
    · decide
    · intro e amount
      rw [show sameCut.arena.kindAt 9 = some (.bvZeroExtend 1 4) by decide]
      simp
    · decide
  · have hp' : polynomialBytePack sameCut.arena 15 = ok (some ⟨2, 3⟩) := by decide
    obtain rfl : p = ⟨2, 3⟩ := by simpa using hp.symm.trans hp'
    refine ⟨by decide, hfits 15 13 6 11 10 ?_ ?_ ?_ ?_⟩
    · decide
    · decide
    · intro e amount
      rw [show sameCut.arena.kindAt 11 = some (.bvZeroExtend 3 4) by decide]
      simp
    · decide

end Shortcuts
end Qfbv
end SmtServer
