import SmtServer.Qfbv.Shortcuts.BitUnionFind
import SmtServer.Qfbv.Shortcuts.Matching

/-!
# `extensional.rs` — candidates that are all ruled out

A query asserts a disjunction of candidates, each a conjunction of equations, and it asserts that of
certain slices some two differ. When under every candidate all the slices of such a set are equal,
the query cannot be satisfied.

What a candidate says is worked out bit by bit (`BitUnionFind`). An equation between terms that are
not made of variables, slices and concatenations is left out, so the classes are never too large:
bits of one class are equal wherever the candidate is true (`candidateUnion_answers`).
-/

namespace SmtServer
namespace Qfbv

open Lib Outcome

namespace Shortcuts

structure ForbiddenExtractEquality where
  child : TermId
  leftHigh : Nat
  leftLow : Nat
  rightLow : Nat

def extractEquality (s : Arena) (a b : TermId) : Result (Option ForbiddenExtractEquality) := do
  let .bvExtract leftChild leftHigh leftLow ← kind s a | return none
  let .bvExtract rightChild rightHigh rightLow ← kind s b | return none
  if leftChild ≠ rightChild ∨ leftHigh - leftLow ≠ rightHigh - rightLow then return none
  return some ⟨leftChild, leftHigh, leftLow, rightLow⟩

def forbiddenExtractEquality (s : Arena) (term : TermId) :
    Result (Option ForbiddenExtractEquality) := do
  let .boolNot child ← kind s term | return none
  let .bvEq a b ← kind s child | return none
  extractEquality s a b

/-- The loop over the leaves of a disjunction, which is left at the first that forbids nothing. -/
def forbiddenExtractSet (s : Arena) : List TermId → Result (Option (List ForbiddenExtractEquality))
  | [] => return some []
  | leaf :: leaves => do
    match ← forbiddenExtractEquality s leaf with
    | none => return none
    | some forbidden =>
      match ← forbiddenExtractSet s leaves with
      | none => return none
      | some set => return some (forbidden :: set)

/-- `collect_forbidden_extract_sets` on a conjunct. -/
def collectForbiddenExtractSets (s : Arena) (leaf : TermId)
    (out : List (List ForbiddenExtractEquality)) :
    Result (List (List ForbiddenExtractEquality)) := do
  match ← forbiddenExtractSet s (← collectBoolOrLeaves s leaf) with
  | none => return out
  | some set => if set ≠ [] then return out ++ [set] else return out

/-- `collect_bv_equalities_in_conjunction` on a conjunct. -/
def collectBvEqualitiesInConjunction (s : Arena) (leaf : TermId) (out : List BvPair) :
    Result (List BvPair) := do
  match (← kind s leaf).bvEq? with
  | some p => return out ++ [p]
  | none => return out

def bitAtoms (s : Arena) : (rounds : Nat) → (term : TermId) → Result (Option (List BitAtom))
  | 0, _ => .panic
  | rounds + 1, term => do
    match ← kind s term with
    | .bvVar width _ _ => return some ((List.range width).map (term, ·))
    | .bvExtract child high low =>
      return some ((List.range (high - low + 1)).map fun offset => (child, low + offset))
    | .bvConcat high low =>
      match ← bitAtoms s rounds low with
      | none => return none
      | some lowBits =>
        match ← bitAtoms s rounds high with
        | none => return none
        | some highBits => return some (lowBits ++ highBits)
    | _ => return none

/-- One round of the loop over the equations of a candidate; the flag is `useful`. -/
def addCandidateEquality (s : Arena) (st : Bool × BitUnionFind) (p : BvPair) :
    Result (Bool × BitUnionFind) := do
  match ← bitAtoms s (p.1 + 1) p.1 with
  | none => return st
  | some aBits =>
    match ← bitAtoms s (p.2 + 1) p.2 with
    | none => return st
    | some bBits =>
      if aBits.length ≠ bBits.length ∨ 4096 < aBits.length then return st
      let union ← (aBits.zip bBits).foldlM (fun union (left, right) => union.union left right) st.2
      return (true, union)

def candidateUnion (s : Arena) (equalities : List BvPair) : Result (Bool × BitUnionFind) :=
  equalities.foldlM (addCandidateEquality s) (false, .default)

def forbiddenExtractEqualityImplied (union : BitUnionFind) (forbidden : ForbiddenExtractEquality) :
    Result (Bool × BitUnionFind) :=
  let width := forbidden.leftHigh - forbidden.leftLow + 1
  allWith (fun union offset => union.equivalent (forbidden.child, forbidden.leftLow + offset)
    (forbidden.child, forbidden.rightLow + offset)) (List.range width) union

def candidateContradictsForbiddenExtracts (s : Arena) (candidate : TermId)
    (forbiddenSets : List (List ForbiddenExtractEquality)) : Result Bool := do
  let equalities ← forConjuncts s (collectBvEqualitiesInConjunction s) (candidate + 1) candidate []
  if equalities = [] then return false
  let (useful, union) ← candidateUnion s equalities
  if !useful then return false
  let (found, _) ← anyWith (fun union set => allWith forbiddenExtractEqualityImplied set union)
    forbiddenSets union
  return found

def hasContradictoryCandidateDisjunction (s : Arena)
    (forbiddenSets : List (List ForbiddenExtractEquality)) :
    (rounds : Nat) → (term : TermId) → Result Bool
  | 0, _ => .panic
  | rounds + 1, term => do
    match ← kind s term with
    | .boolAnd a b =>
      hasContradictoryCandidateDisjunction s forbiddenSets rounds a <||>
        hasContradictoryCandidateDisjunction s forbiddenSets rounds b
    | .boolOr _ _ =>
      let leaves ← collectBoolOrLeaves s term
      if leaves.length < 2 then return false
      leaves.allM fun leaf => candidateContradictsForbiddenExtracts s leaf forbiddenSets
    | _ => return false

def hasExtensionalCandidateContradiction (q : Query) : Result Bool := do
  let forbiddenSets ← forAllConjuncts q (collectForbiddenExtractSets q.arena) []
  if forbiddenSets = [] then return false
  q.assertions.anyM fun assertion =>
    hasContradictoryCandidateDisjunction q.arena forbiddenSets (assertion.root + 1) assertion.root

/-! ## What is forbidden -/

variable {q : Query} {s : Arena} {ρ : Env} {t a b : TermId} {w : Nat}

/-- The two slices are equal bit by bit. -/
def ForbiddenExtractEquality.Holds (s : Arena) (ρ : Env) (f : ForbiddenExtractEquality) : Prop :=
  ∀ offset < f.leftHigh - f.leftLow + 1,
    s.bit ρ f.child (f.leftLow + offset) = s.bit ρ f.child (f.rightLow + offset)

theorem forbiddenExtractEquality_answers (hs : s.Inv) (ht : s.sortAt t = some .bool) :
    Answers (forbiddenExtractEquality s t) fun o => ∀ f, o = some f →
      ∀ ρ, s.IsTrue ρ t → ¬f.Holds s ρ := by
  refine (kind_answers ht).bind fun k hk => ?_
  cases k with
  | boolNot child =>
    refine (kind_answers (hs.sort_kind hk ht).2).bind fun k' hk' => ?_
    cases k' with
    | bvEq a b =>
      obtain ⟨w, ha, hb⟩ := hs.bvEq_sort hk'
      refine (kind_answers ha).bind fun ka hka => ?_
      cases ka with
      | bvExtract leftChild leftHigh leftLow =>
        refine (kind_answers hb).bind fun kb hkb => ?_
        cases kb with
        | bvExtract rightChild rightHigh rightLow =>
          dsimp only
          split
          · exact answers_none
          · rename_i hsame
            rw [not_or, not_not, not_not] at hsame
            obtain ⟨rfl, hwidth⟩ := hsame
            refine answers_some fun ρ htrue hholds => ?_
            rw [Arena.isTrue_boolNot hs hk, Arena.isTrue_bvEq hs hk',
              Arena.value_eq_iff_bit hs ha hb] at htrue
            obtain ⟨v, ha', -, -, -⟩ := hs.bvExtract_sort hka
            obtain rfl := ha.inj ha'
            refine htrue fun i hi => ?_
            rw [Arena.bit_bvExtract hs hka (by omega), Arena.bit_bvExtract hs hkb (by omega)]
            exact hholds i hi
        | _ => exact answers_none
      | _ => exact answers_none
    | _ => exact answers_none
  | _ => exact answers_none

theorem forbiddenExtractSet_answers (hs : s.Inv) {leaves : List TermId}
    (hleaves : ∀ leaf ∈ leaves, s.sortAt leaf = some .bool) :
    Answers (forbiddenExtractSet s leaves) fun o => ∀ set, o = some set →
      ∀ ρ, (∃ leaf ∈ leaves, s.IsTrue ρ leaf) → ∃ f ∈ set, ¬f.Holds s ρ := by
  induction leaves with
  | nil => exact answers_some fun ρ h => by simp at h
  | cons leaf leaves ih =>
    rw [List.forall_mem_cons] at hleaves
    refine (forbiddenExtractEquality_answers hs hleaves.1).bind fun o ho => ?_
    cases o with
    | none => exact answers_none
    | some forbidden =>
      refine (ih hleaves.2).bind fun o' ho' => ?_
      cases o' with
      | none => exact answers_none
      | some set =>
        refine answers_some fun ρ htrue => ?_
        obtain ⟨l, hl, htrue⟩ := htrue
        rcases List.mem_cons.mp hl with rfl | hl
        · exact ⟨forbidden, by simp, ho _ rfl ρ htrue⟩
        · obtain ⟨f, hf, hnot⟩ := ho' _ rfl ρ ⟨l, hl, htrue⟩
          exact ⟨f, by simp [hf], hnot⟩

/-- Every set that is collected has an equality that fails wherever the assertions are true. -/
theorem forbiddenSets_answers (hq : q.WellFormed) :
    Answers (forAllConjuncts q (collectForbiddenExtractSets q.arena) []) fun sets =>
      ∀ set ∈ sets, ∀ ρ, Asserted q ρ → ∃ f ∈ set, ¬f.Holds q.arena ρ := by
  have hs := hq.arena
  obtain ⟨leaves, hleaves, hsorts, htrue⟩ := conjuncts_answers hq
  rw [forAllConjuncts_eq hleaves]
  refine answers_foldlM (fun _ (sets : List (List ForbiddenExtractEquality)) =>
    ∀ set ∈ sets, ∀ ρ, Asserted q ρ → ∃ f ∈ set, ¬f.Holds q.arena ρ) (by simp) ?_
  intro leaf hleaf _ out hout
  refine (collectBoolOrLeaves_answers hs (hsorts leaf hleaf)).bind fun ors hors => ?_
  refine (forbiddenExtractSet_answers hs hors.1).bind fun o ho => ?_
  cases o with
  | none => exact answers_ok hout
  | some set =>
    dsimp only
    split
    · refine answers_ok (List.forall_mem_append.mpr ⟨hout, ?_⟩)
      rw [List.forall_mem_singleton]
      intro ρ hρ
      exact ho _ rfl ρ ((hors.2 ρ).mp ((htrue ρ).mp hρ leaf hleaf))
    · exact answers_ok hout

/-! ## What a candidate says -/

/-- The bits of a term are the atoms, in order. -/
def HasBits (s : Arena) (t : TermId) (atoms : List BitAtom) : Prop :=
  s.IsBv t atoms.length ∧ ∀ ρ i p, atoms[i]? = some p → s.bit ρ t i = s.bit ρ p.1 p.2

theorem getElem?_map_range {α : Type} {f : Nat → α} {n i : Nat} {p : α} :
    ((List.range n).map f)[i]? = some p ↔ i < n ∧ f i = p := by
  rw [List.getElem?_map, Option.map_eq_some_iff]
  constructor
  · rintro ⟨j, hj, rfl⟩
    obtain ⟨hlt, rfl⟩ := List.getElem?_eq_some_iff.mp hj
    simpa using hlt
  · rintro ⟨hi, rfl⟩
    exact ⟨i, List.getElem?_range hi, rfl⟩

theorem bitAtoms_answers (hs : s.Inv) : ∀ (rounds : Nat) (t : TermId) (w : Nat), t < rounds →
    s.IsBv t w → Answers (bitAtoms s rounds t) fun o => ∀ atoms, o = some atoms →
      HasBits s t atoms := by
  intro rounds
  induction rounds with
  | zero =>
    intro t w ht
    exact absurd ht (Nat.not_lt_zero t)
  | succ rounds ih =>
    intro t w ht hw
    rw [bitAtoms]
    refine (kind_answers hw).bind fun k hk => ?_
    have hle := Nat.lt_succ_iff.mp ht
    cases k with
    | bvVar width name external =>
      obtain ⟨σ, hσ, rfl⟩ := hs.hasSort hk
      refine answers_some ⟨by rwa [List.length_map, List.length_range], fun ρ i p hp => ?_⟩
      obtain ⟨-, rfl⟩ := getElem?_map_range.mp hp
      rfl
    | bvExtract child high low =>
      obtain ⟨v, hσ, -, -, -⟩ := hs.bvExtract_sort hk
      refine answers_some ⟨by rwa [List.length_map, List.length_range], fun ρ i p hp => ?_⟩
      obtain ⟨hi, rfl⟩ := getElem?_map_range.mp hp
      exact Arena.bit_bvExtract hs hk (Nat.lt_succ_iff.mp hi)
    | bvConcat high low =>
      obtain ⟨hw', lw, hσ, hhigh, hlow⟩ := hs.bvConcat_sort hk
      have hlt := fun {c : TermId} (hc : c ∈ NodeKind.children (.bvConcat high low)) =>
        Nat.lt_of_lt_of_le (hs.child_lt hk hc) hle
      refine (ih low lw (hlt (by simp [NodeKind.children])) hlow).bind fun o ho => ?_
      cases o with
      | none => exact answers_none
      | some lowBits =>
        refine (ih high hw' (hlt (by simp [NodeKind.children])) hhigh).bind fun o' ho' => ?_
        cases o' with
        | none => exact answers_none
        | some highBits =>
          obtain ⟨hl, hlbits⟩ := ho lowBits rfl
          obtain ⟨hh, hhbits⟩ := ho' highBits rfl
          obtain rfl := hlow.inj hl
          obtain rfl := hhigh.inj hh
          refine answers_some ⟨?_, fun ρ i p hp => ?_⟩
          · rwa [List.length_append, Nat.add_comm]
          · rw [Arena.bit_bvConcat hs hk hlow]
            rw [List.getElem?_append] at hp
            split at hp
            · rw [if_pos ‹_›]
              exact hlbits ρ i p hp
            · rw [if_neg ‹_›]
              exact hhbits ρ _ p hp
    | _ => exact answers_none

/-- Two atoms are related when they are the same bit wherever the candidate is true. -/
def SameBit (s : Arena) (candidate : TermId) (x y : BitAtom) : Prop :=
  ∀ ρ, s.IsTrue ρ candidate → s.bit ρ x.1 x.2 = s.bit ρ y.1 y.2

theorem sameBit_equivalence {candidate : TermId} : Equivalence (SameBit s candidate) where
  refl := fun _ _ _ => rfl
  symm := fun h ρ hρ => (h ρ hρ).symm
  trans := fun h h' ρ hρ => (h ρ hρ).trans (h' ρ hρ)

/-- An equation that is true wherever the candidate is puts together bits that are the same. -/
theorem addCandidateEquality_answers (hs : s.Inv) {candidate : TermId} {st : Bool × BitUnionFind}
    {p : BvPair} (ha : s.IsBv p.1 w) (hb : s.IsBv p.2 w)
    (heq : ∀ ρ, s.IsTrue ρ candidate → s.value ρ p.1 = s.value ρ p.2)
    (hst : st.2.Valid (SameBit s candidate)) :
    Answers (addCandidateEquality s st p) fun st' => st'.2.Valid (SameBit s candidate) := by
  unfold addCandidateEquality
  refine (bitAtoms_answers hs _ _ w (Nat.lt_succ_self _) ha).bind fun o ho => ?_
  cases o with
  | none => exact answers_ok hst
  | some aBits =>
    refine (bitAtoms_answers hs _ _ w (Nat.lt_succ_self _) hb).bind fun o' ho' => ?_
    cases o' with
    | none => exact answers_ok hst
    | some bBits =>
      dsimp only
      split
      · exact answers_ok hst
      · refine (answers_foldlM (fun _ (u : BitUnionFind) => u.Valid (SameBit s candidate)) hst
          ?_).bind fun u hu => answers_ok hu
        rintro ⟨left, right⟩ hmem - u hu
        refine BitUnionFind.union_answers sameBit_equivalence hu fun ρ hρ => ?_
        obtain ⟨i, hi, hzip⟩ := List.mem_iff_getElem.mp hmem
        obtain ⟨-, hla⟩ := ho aBits rfl
        obtain ⟨-, hlb⟩ := ho' bBits rfl
        rw [List.getElem_zip, Prod.mk.injEq] at hzip
        rw [List.length_zip] at hi
        have hleft : aBits[i]? = some left := by
          rw [List.getElem?_eq_getElem (by omega), hzip.1]
        have hright : bBits[i]? = some right := by
          rw [List.getElem?_eq_getElem (by omega), hzip.2]
        rw [← hla ρ i left hleft, ← hlb ρ i right hright, Arena.bit, Arena.bit, heq ρ hρ]

/-- The equations of a candidate are true where it is. -/
theorem candidateEqualities_answers (hs : s.Inv) {candidate : TermId}
    (ht : s.sortAt candidate = some .bool) :
    Answers (forConjuncts s (collectBvEqualitiesInConjunction s) (candidate + 1) candidate [])
      fun equalities => ∀ p ∈ equalities, (∃ w, s.IsBv p.1 w ∧ s.IsBv p.2 w) ∧
        ∀ ρ, s.IsTrue ρ candidate → s.value ρ p.1 = s.value ρ p.2 := by
  obtain ⟨leaves, hleaves, hsorts, htrue⟩ := collectBoolAndConjuncts_answers hs ht
  rw [forConjuncts_eq _ _ _ hleaves]
  refine answers_foldlM (fun _ (out : List BvPair) => ∀ p ∈ out,
    (∃ w, s.IsBv p.1 w ∧ s.IsBv p.2 w) ∧
      ∀ ρ, s.IsTrue ρ candidate → s.value ρ p.1 = s.value ρ p.2) (by simp) ?_
  intro leaf hleaf _ out hout
  refine (kind_answers (hsorts leaf hleaf)).bind fun k hk => ?_
  cases hp : k.bvEq? with
  | none => exact answers_ok hout
  | some p =>
    rw [NodeKind.bvEq?_eq.mp hp] at hk
    refine answers_ok (List.forall_mem_append.mpr ⟨hout, ?_⟩)
    rw [List.forall_mem_singleton]
    exact ⟨hs.bvEq_sort hk, fun ρ hρ => (Arena.isTrue_bvEq hs hk).mp ((htrue ρ).mp hρ leaf hleaf)⟩

/-- The bits that are put together for a candidate are the same wherever it is true. -/
theorem candidateUnion_answers (hs : s.Inv) {candidate : TermId} {equalities : List BvPair}
    (h : ∀ p ∈ equalities, (∃ w, s.IsBv p.1 w ∧ s.IsBv p.2 w) ∧
      ∀ ρ, s.IsTrue ρ candidate → s.value ρ p.1 = s.value ρ p.2) :
    Answers (candidateUnion s equalities) fun st => st.2.Valid (SameBit s candidate) := by
  refine answers_foldlM (fun _ (st : Bool × BitUnionFind) => st.2.Valid (SameBit s candidate))
    BitUnionFind.valid_default ?_
  intro p hp _ st hst
  obtain ⟨⟨w, ha, hb⟩, heq⟩ := h p hp
  exact addCandidateEquality_answers hs ha hb heq hst

/-- Where a candidate that is ruled out is true, some set of slices is equal throughout. -/
theorem candidateContradicts_answers (hs : s.Inv) {candidate : TermId}
    (ht : s.sortAt candidate = some .bool) (sets : List (List ForbiddenExtractEquality)) :
    Answers (candidateContradictsForbiddenExtracts s candidate sets) fun found => found = true →
      ∃ set ∈ sets, ∀ f ∈ set, ∀ ρ, s.IsTrue ρ candidate → f.Holds s ρ := by
  refine (candidateEqualities_answers hs ht).bind fun equalities hequalities => ?_
  split
  · exact answers_ok fun h => nomatch h
  refine (candidateUnion_answers hs hequalities).bind fun st hst => ?_
  obtain ⟨useful, union⟩ := st
  cases useful with
  | false => exact answers_ok fun h => nomatch h
  | true =>
    refine (anyWith_answers (P := fun set => ∀ f ∈ set, ∀ ρ, s.IsTrue ρ candidate → f.Holds s ρ)
      hst fun set _ u hu => ?_).bind fun r hr => answers_ok hr.2
    refine allWith_answers hu fun f _ v hv => ?_
    refine (allWith_answers (P := fun offset => SameBit s candidate
      (f.child, f.leftLow + offset) (f.child, f.rightLow + offset)) hv fun offset _ w hw =>
        BitUnionFind.equivalent_answers hw _ _).mono fun r hr => ⟨hr.1, fun hrt ρ hρ offset hlt => ?_⟩
    exact hr.2 hrt offset (List.mem_range.mpr hlt) ρ hρ

/-! ## The pass -/

theorem hasContradictoryCandidateDisjunction_answers (hs : s.Inv)
    (sets : List (List ForbiddenExtractEquality)) :
    ∀ (rounds : Nat) (t : TermId), t < rounds → s.sortAt t = some .bool →
      Answers (hasContradictoryCandidateDisjunction s sets rounds t) fun found => found = true →
        ∀ ρ, s.IsTrue ρ t → ∃ set ∈ sets, ∀ f ∈ set, f.Holds s ρ := by
  intro rounds
  induction rounds with
  | zero =>
    intro t ht
    exact absurd ht (Nat.not_lt_zero t)
  | succ rounds ih =>
    intro t ht hsort
    rw [hasContradictoryCandidateDisjunction]
    refine (kind_answers hsort).bind fun k hk => ?_
    have hle := Nat.lt_succ_iff.mp ht
    cases k with
    | boolAnd a b =>
      obtain ⟨-, ha, hb⟩ := hs.sort_kind hk hsort
      have hlt := fun {c : TermId} (hc : c ∈ NodeKind.children (.boolAnd a b)) =>
        Nat.lt_of_lt_of_le (hs.child_lt hk hc) hle
      refine (ih a (hlt (by simp [NodeKind.children])) ha).bind fun found hfound => ?_
      cases found with
      | true =>
        refine answers_ok fun _ ρ htrue => ?_
        exact hfound rfl ρ ((Arena.isTrue_boolAnd hs hk).mp htrue).1
      | false =>
        refine (ih b (hlt (by simp [NodeKind.children])) hb).mono fun found hfound h ρ htrue => ?_
        exact hfound h ρ ((Arena.isTrue_boolAnd hs hk).mp htrue).2
    | boolOr a b =>
      refine (collectBoolOrLeaves_answers hs hsort).bind fun leaves hleaves => ?_
      split
      · exact answers_ok fun h => by cases h
      · refine (answers_allM fun leaf hleaf =>
          candidateContradicts_answers hs (hleaves.1 leaf hleaf) sets).mono fun found hfound h => ?_
        intro ρ htrue
        obtain ⟨leaf, hleaf, hleaftrue⟩ := (hleaves.2 ρ).mp htrue
        obtain ⟨set, hset, hall⟩ := hfound h leaf hleaf
        exact ⟨set, hset, fun f hf => hall f hf ρ hleaftrue⟩
    | _ => exact answers_ok fun h => by cases h

/-- The pass returns, and a query that it answers cannot be satisfied. For every candidate the bits
that it puts together are the same where the candidate is true, and a candidate that it rules out
makes all the slices of a set equal that the query forbids. -/
theorem extensional_candidate_is_sound (hq : q.WellFormed) :
    (Answers (hasExtensionalCandidateContradiction q) fun found =>
      found = true → ¬∃ ρ, Asserted q ρ) ∧
    (∀ candidate equalities useful union, q.arena.sortAt candidate = some .bool →
      forConjuncts q.arena (collectBvEqualitiesInConjunction q.arena) (candidate + 1) candidate [] =
        ok equalities → candidateUnion q.arena equalities = ok (useful, union) →
      ∀ x y after, union.equivalent x y = ok (true, after) →
        ∀ ρ, q.arena.IsTrue ρ candidate → q.arena.bit ρ x.1 x.2 = q.arena.bit ρ y.1 y.2) ∧
    (∀ candidate sets, q.arena.sortAt candidate = some .bool →
      forAllConjuncts q (collectForbiddenExtractSets q.arena) [] = ok sets →
      candidateContradictsForbiddenExtracts q.arena candidate sets = ok true →
        ∃ set ∈ sets, (∀ ρ, q.arena.IsTrue ρ candidate → ∀ f ∈ set, f.Holds q.arena ρ) ∧
          ∀ ρ, Asserted q ρ → ∃ f ∈ set, ¬f.Holds q.arena ρ) := by
  have hs := hq.arena
  refine ⟨?_, ?_, ?_⟩
  · refine (forbiddenSets_answers hq).bind fun sets hsets => ?_
    split
    · exact answers_ok fun h => nomatch h
    have hroot : ∀ a ∈ q.assertions, q.arena.sortAt a.root = some .bool := fun a ha =>
      hq.roots a.root (Query.mem_roots.mpr (.inl ⟨a, ha, rfl⟩))
    refine (answers_anyM fun a ha => hasContradictoryCandidateDisjunction_answers hs sets _ _
      (Nat.lt_succ_self _) (hroot a ha)).mono fun found hfound h => ?_
    rintro ⟨ρ, hρ⟩
    obtain ⟨a, ha, hall⟩ := hfound h
    obtain ⟨set, hset, hholds⟩ := hall ρ (hρ a ha)
    obtain ⟨f, hf, hnot⟩ := hsets set hset ρ hρ
    exact hnot (hholds f hf)
  · intro candidate equalities useful union ht hequalities hunion x y after hsame ρ hρ
    have hvalid := (candidateUnion_answers hs
      ((candidateEqualities_answers hs ht).of_eq hequalities)).of_eq hunion
    exact ((BitUnionFind.equivalent_answers hvalid x y).of_eq hsame).2 rfl ρ hρ
  · intro candidate sets ht hsets hfound
    obtain ⟨set, hset, hall⟩ := (candidateContradicts_answers hs ht sets).of_eq hfound rfl
    exact ⟨set, hset, fun ρ hρ f hf => hall f hf ρ hρ,
      (forbiddenSets_answers hq).of_eq hsets set hset⟩

/-- Of two slices of `x` both are zero or both are `y`, and they differ. -/
def twoCandidates : Query := .asserting [
    ⟨.bvVar 8 "x" (some 0), .bv 8⟩,
    ⟨.bvVar 4 "y" (some 1), .bv 4⟩,
    ⟨.bvExtract 0 7 4, .bv 4⟩,
    ⟨.bvExtract 0 3 0, .bv 4⟩,
    ⟨.bvEq 2 3, .bool⟩,
    ⟨.boolNot 4, .bool⟩,
    ⟨.bvConcat 1 1, .bv 8⟩,
    ⟨.bvEq 0 6, .bool⟩,
    ⟨.bvEq 1 2, .bool⟩,
    ⟨.bvEq 1 3, .bool⟩,
    ⟨.boolAnd 8 9, .bool⟩,
    ⟨.boolOr 7 10, .bool⟩] [5, 11]

theorem extensional_candidate_of_two : hasExtensionalCandidateContradiction twoCandidates = ok true ∧
    ¬∃ ρ, Asserted twoCandidates ρ := by
  have hfound : hasExtensionalCandidateContradiction twoCandidates = ok true := by decide
  exact ⟨hfound, (extensional_candidate_is_sound
    (Query.wellFormed_of_check (by decide) (by decide))).1.of_eq hfound rfl⟩

end Shortcuts
end Qfbv
end SmtServer
