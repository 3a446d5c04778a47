import SmtServer.Lib.UnionFind
import SmtServer.Qfbv.Shortcuts.Common
import Mathlib.Data.List.AList

/-!
# `BitUnionFind` — classes of bits

The union-find of `extensional.rs`. An atom is a bit of a term; atoms are numbered in the order in
which they come, and the parents are a vector over the numbers.

What is proved is what the pass needs: if the pairs that are put together are related by some
equivalence, so are the atoms of one class (`Valid`), and no operation panics.
-/

namespace SmtServer
namespace Qfbv

open Lib Outcome UnionFind

namespace Shortcuts

/-- Bit `i` of a term. -/
abbrev BitAtom := TermId × Nat

structure BitUnionFind where
  indices : AList fun _ : BitAtom => Nat
  parent : List Nat

namespace BitUnionFind

def default : BitUnionFind := ⟨∅, []⟩

def insert (u : BitUnionFind) (atom : BitAtom) : Nat × BitUnionFind :=
  match u.indices.lookup atom with
  | some index => (index, u)
  | none =>
    let index := u.parent.length
    (index, ⟨u.indices.insert atom index, u.parent ++ [index]⟩)

/-- The recursion of `find`; every round goes up to a parent. -/
def findRounds : (rounds : Nat) → (u : BitUnionFind) → (index : Nat) → Result (Nat × BitUnionFind)
  | 0, _, _ => .panic
  | rounds + 1, u, index => do
    let parent ← expect u.parent[index]?
    if parent = index then
      return (index, u)
    else
      let (root, u) ← findRounds rounds u parent
      return (root, ⟨u.indices, u.parent.set index root⟩)

def find (u : BitUnionFind) (index : Nat) : Result (Nat × BitUnionFind) :=
  findRounds (u.parent.length + 1) u index

def union (u : BitUnionFind) (a b : BitAtom) : Result BitUnionFind := do
  let (ai, u) := u.insert a
  let (bi, u) := u.insert b
  let (ar, u) ← u.find ai
  let (br, u) ← u.find bi
  if ar ≠ br then
    return ⟨u.indices, u.parent.set br ar⟩
  else
    return u

def equivalent (u : BitUnionFind) (a b : BitAtom) : Result (Bool × BitUnionFind) :=
  match u.indices.lookup a, u.indices.lookup b with
  | some ai, some bi => do
    let (ar, u) ← u.find ai
    let (br, u) ← u.find bi
    return (ar == br, u)
  | _, _ => return (false, u)

/-! ## Classes -/

variable {u v : BitUnionFind} {a b : BitAtom} {i j r : Nat} {R : BitAtom → BitAtom → Prop}

/-- The parent of a number, itself when it is not in use. -/
def parentOf (u : BitUnionFind) (i : Nat) : Nat := u.parent.getD i i

/-- The atoms are numbered, the numbers have roots, and atoms of one class are related. -/
structure Valid (R : BitAtom → BitAtom → Prop) (u : BitUnionFind) : Prop where
  grounded : Grounded u.parentOf
  bounded : ∀ i < u.parent.length, u.parentOf i < u.parent.length
  numbered : ∀ a i, u.indices.lookup a = some i → i < u.parent.length
  related : ∀ a b i j, u.indices.lookup a = some i → u.indices.lookup b = some j →
    Same u.parentOf i j → R a b

theorem valid_default : Valid R default where
  grounded := fun x => ⟨x, rootOf_self rfl⟩
  bounded := fun _ h => nomatch h
  numbered := fun _ _ h => nomatch h
  related := fun _ _ _ _ h => nomatch h

theorem getElem?_parent (h : i < u.parent.length) : u.parent[i]? = some (u.parentOf i) := by
  rw [parentOf, List.getD_eq_getElem?_getD, List.getElem?_eq_getElem h]
  rfl

theorem parentOf_of_le (h : u.parent.length ≤ i) : u.parentOf i = i := by
  rw [parentOf, List.getD_eq_default _ _ h]

theorem parentOf_set (h : i < u.parent.length) :
    parentOf ⟨u.indices, u.parent.set i r⟩ = Function.update u.parentOf i r := by
  funext x
  by_cases hx : x = i
  · subst hx
    simp [parentOf, h]
  · simp [parentOf, Function.update_of_ne hx, List.getElem?_set_ne (Ne.symm hx)]

/-- The new number is its own root, and no other number has it for a root. -/
theorem parentOf_push : parentOf ⟨u.indices.insert a u.parent.length,
    u.parent ++ [u.parent.length]⟩ = u.parentOf := by
  funext x
  simp only [parentOf, List.getD_eq_getElem?_getD]
  rcases Nat.lt_trichotomy x u.parent.length with h | h | h
  · rw [List.getElem?_append_left h]
  · subst h
    simp
  · rw [List.getElem?_eq_none (by simpa using h), List.getElem?_eq_none (Nat.le_of_lt h)]

/-- A number in use has its root among the numbers in use. -/
theorem Valid.root_lt (hu : Valid R u) (h : RootOf u.parentOf i r) (hi : i < u.parent.length) :
    r < u.parent.length := by
  obtain ⟨n, h⟩ := h
  induction h with
  | root => exact hi
  | step _ _ ih => exact ih (hu.bounded _ hi)

theorem insert_valid (hR : Equivalence R) (hu : Valid R u) (a : BitAtom) :
    Valid R (u.insert a).2 ∧ (u.insert a).2.indices.lookup a = some (u.insert a).1 ∧
      ∀ b i, u.indices.lookup b = some i → (u.insert a).2.indices.lookup b = some i := by
  unfold insert
  cases h : u.indices.lookup a with
  | some index => exact ⟨hu, h, fun b i hb => hb⟩
  | none =>
    dsimp only
    have hnew : ∀ b i, (u.indices.insert a u.parent.length).lookup b = some i →
        (b = a ∧ i = u.parent.length) ∨ (u.indices.lookup b = some i ∧ i < u.parent.length) := by
      intro b i hb
      by_cases hba : b = a
      · subst hba
        rw [AList.lookup_insert, Option.some.injEq] at hb
        exact .inl ⟨rfl, hb.symm⟩
      · rw [AList.lookup_insert_ne hba] at hb
        exact .inr ⟨hb, hu.numbered b i hb⟩
    have hself : RootOf u.parentOf u.parent.length u.parent.length :=
      rootOf_self (parentOf_of_le (Nat.le_refl _))
    have hapart : ∀ i < u.parent.length, ¬Same u.parentOf i u.parent.length := by
      rintro i hi ⟨r, hir, hr⟩
      have := hu.root_lt hir hi
      obtain rfl := hr.unique hself
      omega
    refine ⟨⟨?_, ?_, ?_, ?_⟩, AList.lookup_insert _, ?_⟩
    · rw [parentOf_push]
      exact hu.grounded
    · intro i hi
      rw [parentOf_push, List.length_append, List.length_singleton]
      rw [List.length_append, List.length_singleton] at hi
      by_cases hlt : i < u.parent.length
      · exact Nat.lt_succ_of_lt (hu.bounded i hlt)
      · rw [parentOf_of_le (Nat.le_of_not_lt hlt)]
        exact hi
    · intro b i hb
      rw [List.length_append, List.length_singleton]
      rcases hnew b i hb with ⟨-, rfl⟩ | ⟨-, hi⟩
      · exact Nat.lt_succ_self _
      · exact Nat.lt_succ_of_lt hi
    · intro b c i j hb hc hsame
      rw [parentOf_push] at hsame
      rcases hnew b i hb with ⟨rfl, rfl⟩ | ⟨hb, hi⟩
      · rcases hnew c j hc with ⟨rfl, rfl⟩ | ⟨hc, hj⟩
        · exact hR.refl _
        · exact absurd hsame.symm (hapart j hj)
      · rcases hnew c j hc with ⟨rfl, rfl⟩ | ⟨hc, hj⟩
        · exact absurd hsame (hapart i hi)
        · exact hu.related b c i j hb hc hsame
    · intro b i hb
      rw [AList.lookup_insert_ne]
      · exact hb
      · rintro rfl
        rw [h] at hb
        cases hb

/-! ## Operations -/

/-- The two vectors number the same atoms and have the same roots. -/
structure SameRoots (u v : BitUnionFind) : Prop where
  indices : v.indices = u.indices
  length : v.parent.length = u.parent.length
  bounded : ∀ i < v.parent.length, v.parentOf i < v.parent.length
  roots : ∀ x r, RootOf u.parentOf x r ↔ RootOf v.parentOf x r

theorem SameRoots.valid (h : SameRoots u v) (hu : Valid R u) : Valid R v where
  grounded := fun x => (hu.grounded x).imp fun r => (h.roots x r).mp
  bounded := h.bounded
  numbered := fun a i ha => h.length ▸ hu.numbered a i (h.indices ▸ ha)
  related := by
    rintro a b i j ha hb ⟨r, hi, hj⟩
    rw [h.indices] at ha hb
    exact hu.related a b i j ha hb ⟨r, (h.roots i r).mpr hi, (h.roots j r).mpr hj⟩

theorem SameRoots.trans {w : BitUnionFind} (h : SameRoots u v) (h' : SameRoots v w) :
    SameRoots u w :=
  ⟨h'.indices.trans h.indices, h'.length.trans h.length, h'.bounded,
    fun x r => (h.roots x r).trans (h'.roots x r)⟩

/-- Pointing a number at its root. -/
theorem sameRoots_set (hu : Valid R u) (h : RootOf u.parentOf i r) (hi : i < u.parent.length) :
    SameRoots u ⟨u.indices, u.parent.set i r⟩ := by
  refine ⟨rfl, List.length_set, ?_, ?_⟩
  · intro x hx
    rw [parentOf_set hi, List.length_set]
    rw [List.length_set] at hx
    by_cases hxi : x = i
    · rw [hxi, Function.update_self]
      exact hu.root_lt h hi
    · rw [Function.update_of_ne hxi]
      exact hu.bounded x hx
  · intro x s
    rw [parentOf_set hi]
    refine ⟨h.compress, fun hx => ?_⟩
    obtain ⟨s', hs'⟩ := hu.grounded x
    rwa [hx.unique (h.compress hs')]

theorem findRounds_answers : ∀ {n : Nat} {u : BitUnionFind} {i rounds : Nat}, Valid R u →
    RootIn u.parentOf r n i → i < u.parent.length → n < rounds →
      Answers (findRounds rounds u i) fun p => p.1 = r ∧ SameRoots u p.2 := by
  intro n
  induction n with
  | zero =>
    intro u i rounds hu h hi hlt
    obtain ⟨k, rfl⟩ : ∃ k, rounds = k + 1 := ⟨rounds - 1, by omega⟩
    rw [findRounds, getElem?_parent hi, expect_some, ok_bind]
    cases h with
    | root h =>
      rw [if_pos h]
      exact answers_ok ⟨rfl, rfl, rfl, hu.bounded, fun x s => Iff.rfl⟩
  | succ n ih =>
    intro u i rounds hu h hi hlt
    obtain ⟨k, rfl⟩ : ∃ k, rounds = k + 1 := ⟨rounds - 1, by omega⟩
    rw [findRounds, getElem?_parent hi, expect_some, ok_bind]
    cases h with
    | step hne h =>
      rw [if_neg hne]
      refine (ih hu h (hu.bounded i hi) (by omega)).bind fun p hp => ?_
      obtain ⟨rfl, hroots⟩ := hp
      have htop := (hroots.roots i p.1).mp ⟨n + 1, .step hne h⟩
      exact answers_ok ⟨rfl, hroots.trans (sameRoots_set (hroots.valid hu) htop (hroots.length ▸ hi))⟩

/-- `find` returns the root, and changes no root. -/
theorem find_answers (hu : Valid R u) (hi : i < u.parent.length) :
    Answers (u.find i) fun p => RootOf u.parentOf i p.1 ∧ SameRoots u p.2 := by
  obtain ⟨r, n, h⟩ := hu.grounded i
  refine (findRounds_answers hu h hi ?_).mono fun p hp => ⟨hp.1 ▸ ⟨n, h⟩, hp.2⟩
  have hle : n ≤ (List.range u.parent.length).length := h.le_length fun y hy => by
    rw [List.mem_range]
    exact Nat.lt_of_not_le fun hle => hy (parentOf_of_le hle)
  rw [List.length_range] at hle
  omega

/-- Pointing the root of one class at the root of another, when members of the two are related. -/
theorem link_valid {ai bi ar br : Nat} (hR : Equivalence R) (hu : Valid R u)
    (ha : u.indices.lookup a = some ai) (hb : u.indices.lookup b = some bi)
    (har : RootOf u.parentOf ai ar) (hbr : RootOf u.parentOf bi br) (hne : ar ≠ br) (hab : R a b) :
    Valid R ⟨u.indices, u.parent.set br ar⟩ := by
  have hrlt := hu.root_lt har (hu.numbered a ai ha)
  have hblt := hu.root_lt hbr (hu.numbered b bi hb)
  have hlink : ∀ x s, RootOf u.parentOf x s →
      RootOf (parentOf ⟨u.indices, u.parent.set br ar⟩) x (if s = br then ar else s) := by
    intro x s hx
    rw [parentOf_set hblt]
    exact hx.link hbr.isRoot har.isRoot (Ne.symm hne)
  refine ⟨fun x => (hu.grounded x).elim fun s hs => ⟨_, hlink x s hs⟩, ?_, ?_, ?_⟩
  · intro i hi
    rw [parentOf_set hblt, List.length_set]
    rw [List.length_set] at hi
    by_cases hib : i = br
    · rw [hib, Function.update_self]
      exact hrlt
    · rw [Function.update_of_ne hib]
      exact hu.bounded i hi
  · intro c i hc
    rw [List.length_set]
    exact hu.numbered c i hc
  · intro c d i j hc hd hsame
    obtain ⟨s, hs⟩ := hu.grounded i
    obtain ⟨s', hs'⟩ := hu.grounded j
    have hmem : ∀ {e k r}, u.indices.lookup e = some k → RootOf u.parentOf k r →
        (r = ar → R e a) ∧ (r = br → R e b) := by
      rintro e k r he hk
      constructor
      · rintro rfl
        exact hu.related e a k ai he ha ⟨r, hk, har⟩
      · rintro rfl
        exact hu.related e b k bi he hb ⟨r, hk, hbr⟩
    have heq := (same_iff_root (hlink i s hs) (hlink j s' hs')).mp hsame
    split at heq
    · rename_i hsb
      have hcb := (hmem hc hs).2 hsb
      split at heq
      · rename_i hsb'
        exact hR.trans hcb (hR.symm ((hmem hd hs').2 hsb'))
      · exact hR.trans hcb (hR.symm (hR.trans ((hmem hd hs').1 heq.symm) hab))
    · split at heq
      · rename_i hsb'
        exact hR.trans ((hmem hc hs).1 heq) (hR.trans hab (hR.symm ((hmem hd hs').2 hsb')))
      · exact hu.related c d i j hc hd ⟨s, hs, heq ▸ hs'⟩

/-- Two related atoms may be put together. -/
theorem union_answers (hR : Equivalence R) (hu : Valid R u) (hab : R a b) :
    Answers (u.union a b) (Valid R) := by
  unfold union
  obtain ⟨hu₁, ha, -⟩ := insert_valid hR hu a
  generalize u.insert a = first at hu₁ ha ⊢
  obtain ⟨ai, u₁⟩ := first
  dsimp only at hu₁ ha ⊢
  obtain ⟨hu, hb, hold⟩ := insert_valid hR hu₁ b
  replace ha := hold a _ ha
  generalize u₁.insert b = second at hu hb ha ⊢
  obtain ⟨bi, u⟩ := second
  dsimp only at hu hb ha ⊢
  refine (find_answers hu (hu.numbered a ai ha)).bind fun p hp => ?_
  obtain ⟨ar, v⟩ := p
  obtain ⟨hra, hv⟩ := hp
  have hvv := hv.valid hu
  refine (find_answers hvv (hv.length ▸ hu.numbered b bi hb)).bind fun p hp => ?_
  obtain ⟨br, w⟩ := p
  obtain ⟨hrb, hw⟩ := hp
  have hroots := hv.trans hw
  dsimp only
  split
  · rename_i hne
    exact answers_ok (link_valid hR (hroots.valid hu) (hroots.indices ▸ ha) (hroots.indices ▸ hb)
      ((hroots.roots ai ar).mp hra) ((hw.roots bi br).mp hrb) hne hab)
  · exact answers_ok (hroots.valid hu)

theorem equivalent_answers (hu : Valid R u) (a b : BitAtom) :
    Answers (u.equivalent a b) fun p => Valid R p.2 ∧ (p.1 = true → R a b) := by
  unfold equivalent
  split
  · rename_i ai bi ha hb
    refine (find_answers hu (hu.numbered a ai ha)).bind fun p hp => ?_
    have hp' := hp.2.valid hu
    refine (find_answers hp' (hp.2.length ▸ hu.numbered b bi hb)).bind fun p' hq => ?_
    refine answers_ok ⟨hq.2.valid hp', fun heq => ?_⟩
    refine hu.related a b ai bi ha hb ⟨p.1, hp.1, ?_⟩
    rw [(beq_iff_eq.mp heq : p.1 = p'.1)]
    exact (hp.2.roots bi p'.1).mpr hq.1
  · exact answers_ok ⟨hu, fun h => nomatch h⟩

end BitUnionFind
end Shortcuts
end Qfbv
end SmtServer
