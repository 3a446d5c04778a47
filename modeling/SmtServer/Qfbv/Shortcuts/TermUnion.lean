import SmtServer.Lib.Outcome
import SmtServer.Lib.UnionFind
import SmtServer.Qfbv.Ir
import Mathlib.Data.List.AList

/-!
# `TermUnion` — classes of terms

The union-find of `common.rs`. The parents are a `HashMap`; a term that is not in it is its own
parent, and looking a term up puts it there. `find` follows the parents by recursion and points
every term it passes at the root on its way back, so it changes the map but no class
(`find_answers`); `union` puts two classes together and changes nothing else (`union_answers`).
-/

namespace SmtServer
namespace Qfbv

open Lib Outcome UnionFind

namespace Shortcuts

structure TermUnion where
  parent : AList fun _ : TermId => TermId

namespace TermUnion

def default : TermUnion := ⟨∅⟩

/-- `*self.parent.entry(term).or_insert(term)`. -/
def parentOrInsert (u : TermUnion) (term : TermId) : TermId × TermUnion :=
  match u.parent.lookup term with
  | some parent => (parent, u)
  | none => (term, ⟨u.parent.insert term term⟩)

/-- The recursion of `find`; every round goes up to a parent. -/
def findRounds : (rounds : Nat) → (u : TermUnion) → (term : TermId) → Result (TermId × TermUnion)
  | 0, _, _ => .panic
  | rounds + 1, u, term => do
    let (parent, u) := u.parentOrInsert term
    if parent = term then
      return (term, u)
    else
      let (root, u) ← findRounds rounds u parent
      return (root, ⟨u.parent.insert term root⟩)

def find (u : TermUnion) (term : TermId) : Result (TermId × TermUnion) :=
  findRounds (u.parent.keys.length + 1) u term

def union (u : TermUnion) (a b : TermId) : Result TermUnion := do
  let (a, u) ← u.find a
  let (b, u) ← u.find b
  if a ≠ b then
    return ⟨u.parent.insert a b⟩
  else
    return u

def equivalent (u : TermUnion) (a b : TermId) : Result (Bool × TermUnion) := do
  let (a, u) ← u.find a
  let (b, u) ← u.find b
  return (a == b, u)

/-! ## Roots -/

variable {u u' : TermUnion} {t a b r : TermId}

/-- The parent of a term, itself when it is not in the map. -/
def parentOf (u : TermUnion) (t : TermId) : TermId := (u.parent.lookup t).getD t

/-- The two maps have the same roots. -/
def SameRoots (u u' : TermUnion) : Prop := ∀ x r, RootOf u.parentOf x r ↔ RootOf u'.parentOf x r

/-- The two terms are in one class. -/
def InClass (u : TermUnion) (a b : TermId) : Prop := Same u.parentOf a b

theorem SameRoots.inClass (h : SameRoots u u') : u.InClass a b ↔ u'.InClass a b := by
  simp only [InClass, Same, h a, h b]

theorem parentOf_insert (u : TermUnion) (a b : TermId) :
    (⟨u.parent.insert a b⟩ : TermUnion).parentOf = Function.update u.parentOf a b := by
  funext x
  by_cases hx : x = a
  · subst hx
    simp [parentOf]
  · simp [parentOf, AList.lookup_insert_ne hx, Function.update_of_ne hx]

theorem parentOrInsert_fst : (u.parentOrInsert t).1 = u.parentOf t := by
  unfold parentOrInsert parentOf
  cases u.parent.lookup t <;> rfl

theorem parentOrInsert_snd : (u.parentOrInsert t).2.parentOf = u.parentOf := by
  unfold parentOrInsert
  cases h : u.parent.lookup t with
  | some parent => rfl
  | none =>
    rw [parentOf_insert]
    conv_rhs => rw [← Function.update_eq_self t u.parentOf]
    rw [parentOf, h, Option.getD_none]

/-- A term that is not its own parent is in the map. -/
theorem mem_keys_of_parentOf (h : u.parentOf t ≠ t) : t ∈ u.parent.keys := by
  rw [← AList.mem_keys, ← AList.lookup_isSome]
  cases hl : u.parent.lookup t with
  | some parent => rfl
  | none =>
    rw [parentOf, hl] at h
    exact absurd rfl h

theorem compress_iff (hr : RootOf u.parentOf a r) (hg : Grounded u.parentOf) :
    SameRoots u ⟨u.parent.insert a r⟩ := by
  intro x s
  rw [parentOf_insert]
  constructor
  · exact hr.compress
  · intro h
    obtain ⟨s', hs'⟩ := hg x
    rwa [h.unique (hr.compress hs')]

theorem findRounds_answers : ∀ {n : Nat} {u : TermUnion} {t : TermId} {rounds : Nat},
    Grounded u.parentOf → RootIn u.parentOf r n t → n < rounds →
      Answers (findRounds rounds u t) fun p => p.1 = r ∧ SameRoots u p.2 := by
  intro n
  induction n with
  | zero =>
    intro u t rounds _ h hlt
    obtain ⟨k, rfl⟩ : ∃ k, rounds = k + 1 := ⟨rounds - 1, by omega⟩
    cases h with
    | root h =>
      simp only [findRounds, parentOrInsert_fst]
      rw [if_pos h]
      refine answers_ok ⟨rfl, fun x s => ?_⟩
      rw [parentOrInsert_snd]
  | succ n ih =>
    intro u t rounds hg h hlt
    obtain ⟨k, rfl⟩ : ∃ k, rounds = k + 1 := ⟨rounds - 1, by omega⟩
    cases h with
    | step hne h =>
      simp only [findRounds, parentOrInsert_fst]
      rw [if_neg hne]
      have hstart : (u.parentOrInsert t).2.parentOf = u.parentOf := parentOrInsert_snd
      refine (ih (u := (u.parentOrInsert t).2) (by rwa [hstart]) (by rwa [hstart])
        (by omega)).bind fun p hp => ?_
      obtain ⟨rfl, hroots⟩ := hp
      refine answers_ok ⟨rfl, ?_⟩
      have hroots' : SameRoots u p.2 := by
        intro x s
        rw [← hstart]
        exact hroots x s
      have hgp : Grounded p.2.parentOf := fun x => (hg x).imp fun s => (hroots' x s).mp
      have htop : RootOf p.2.parentOf t p.1 := (hroots' t p.1).mp ⟨n + 1, .step hne h⟩
      intro x s
      exact (hroots' x s).trans (compress_iff htop hgp x s)

/-- `find` returns the root, and changes no root. -/
theorem find_answers (hg : Grounded u.parentOf) (t : TermId) :
    Answers (u.find t) fun p => RootOf u.parentOf t p.1 ∧ SameRoots u p.2 := by
  obtain ⟨r, n, h⟩ := hg t
  refine (findRounds_answers hg h ?_).mono fun p hp => ⟨hp.1 ▸ ⟨n, h⟩, hp.2⟩
  exact Nat.lt_succ_of_le (h.le_length fun y hy => mem_keys_of_parentOf hy)

theorem SameRoots.grounded (h : SameRoots u u') (hg : Grounded u.parentOf) :
    Grounded u'.parentOf := fun x => (hg x).imp fun s => (h x s).mp

/-- Putting two roots together. -/
theorem link_inClass (hg : Grounded u.parentOf) (ha : u.parentOf a = a) (hb : u.parentOf b = b)
    (hab : a ≠ b) : Grounded (⟨u.parent.insert a b⟩ : TermUnion).parentOf ∧
      ∀ x y, (⟨u.parent.insert a b⟩ : TermUnion).InClass x y ↔
        u.InClass x y ∨ (u.InClass x a ∧ u.InClass b y) ∨ (u.InClass x b ∧ u.InClass a y) := by
  rw [show InClass = fun v x y => Same (parentOf v) x y from rfl]
  simp only [parentOf_insert]
  have hroot := fun {x s} (h : RootOf u.parentOf x s) => h.link ha hb hab
  refine ⟨fun x => (hg x).elim fun s hs => ⟨_, hroot hs⟩, fun x y => ?_⟩
  obtain ⟨s, hs⟩ := hg x
  obtain ⟨s', hs'⟩ := hg y
  rw [same_iff_root (hroot hs) (hroot hs'), same_iff_root hs hs', same_iff_root hs (rootOf_self ha),
    same_iff_root hs (rootOf_self hb), same_iff_root (rootOf_self ha) hs',
    same_iff_root (rootOf_self hb) hs']
  grind

/-- `union` puts the classes of the two terms together, and leaves the others as they were. -/
theorem union_answers (hg : Grounded u.parentOf) (a b : TermId) :
    Answers (u.union a b) fun u' => Grounded u'.parentOf ∧
      ∀ x y, u'.InClass x y ↔
        u.InClass x y ∨ (u.InClass x a ∧ u.InClass b y) ∨ (u.InClass x b ∧ u.InClass a y) := by
  refine (find_answers hg a).bind fun p hp => ?_
  obtain ⟨hra, h₁⟩ := hp
  have hg₁ := h₁.grounded hg
  refine (find_answers hg₁ b).bind fun q hq => ?_
  obtain ⟨hrb, h₂⟩ := hq
  have hg₂ := h₂.grounded hg₁
  have h : SameRoots u q.2 := fun x s => (h₁ x s).trans (h₂ x s)
  have ha : RootOf q.2.parentOf a p.1 := (h a p.1).mp hra
  have hb : RootOf q.2.parentOf b q.1 := (h₂ b q.1).mp hrb
  have hclass : ∀ x, (q.2.InClass x p.1 ↔ u.InClass x a) ∧ (q.2.InClass q.1 x ↔ u.InClass b x) ∧
      (q.2.InClass x q.1 ↔ u.InClass x b) ∧ (q.2.InClass p.1 x ↔ u.InClass a x) := by
    intro x
    obtain ⟨s, hs⟩ := hg₂ x
    have htop := rootOf_self ha.isRoot
    have htop' := rootOf_self hb.isRoot
    refine ⟨?_, ?_, ?_, ?_⟩
    · rw [h.inClass, InClass, InClass, same_iff_root hs htop, same_iff_root hs ha]
    · rw [h.inClass, InClass, InClass, same_iff_root htop' hs, same_iff_root hb hs]
    · rw [h.inClass, InClass, InClass, same_iff_root hs htop', same_iff_root hs hb]
    · rw [h.inClass, InClass, InClass, same_iff_root htop hs, same_iff_root ha hs]
  dsimp only
  split
  · rename_i hne
    obtain ⟨hg', hlink⟩ := link_inClass hg₂ ha.isRoot hb.isRoot hne
    refine answers_ok ⟨hg', fun x y => ?_⟩
    rw [hlink x y, h.inClass, (hclass x).1, (hclass y).2.1, (hclass x).2.2.1, (hclass y).2.2.2]
  · rename_i heq
    rw [not_not] at heq
    refine answers_ok ⟨hg₂, fun x y => ?_⟩
    have hab : u.InClass a b := by
      rw [h.inClass, InClass, same_iff_root ha hb]
      exact heq
    rw [← h.inClass]
    constructor
    · exact .inl
    · rintro (hxy | ⟨hxa, hby⟩ | ⟨hxb, hay⟩)
      · exact hxy
      · exact (hxa.trans hab).trans hby
      · exact (hxb.trans hab.symm).trans hay

/-- `equivalent` tells whether two terms are in one class, and changes no class. -/
theorem equivalent_answers (hg : Grounded u.parentOf) (a b : TermId) :
    Answers (u.equivalent a b) fun p => (p.1 = true ↔ u.InClass a b) ∧ SameRoots u p.2 := by
  refine (find_answers hg a).bind fun p hp => ?_
  refine (find_answers (hp.2.grounded hg) b).bind fun q hq => ?_
  refine answers_ok ⟨?_, fun x s => (hp.2 x s).trans (hq.2 x s)⟩
  rw [InClass, same_iff_root hp.1 ((hp.2 b q.1).mpr hq.1)]
  exact beq_iff_eq

theorem grounded_default : Grounded default.parentOf := fun x => ⟨x, rootOf_self rfl⟩

theorem inClass_default : default.InClass a b ↔ a = b := by
  rw [InClass, same_iff_root (rootOf_self (r := a) rfl) (rootOf_self (r := b) rfl)]

/-! ## Histories -/

/-- `u'` has the classes of `u`, with the pairs of `M` put together, and no others. -/
structure Adds (u u' : TermUnion) (M : TermId → TermId → Prop) : Prop where
  grounded : Grounded u'.parentOf
  old : ∀ x y, u.InClass x y → u'.InClass x y
  new : ∀ x y, M x y → u'.InClass x y
  least : ∀ R : TermId → TermId → Prop, Equivalence R → (∀ x y, u.InClass x y → R x y) →
    (∀ x y, M x y → R x y) → ∀ x y, u'.InClass x y → R x y

theorem adds_none (hg : Grounded u.parentOf) : Adds u u fun _ _ => False :=
  ⟨hg, fun _ _ => id, fun _ _ => False.elim, fun _ _ hold _ => hold⟩

theorem Adds.trans {u'' : TermUnion} {M M' : TermId → TermId → Prop} (h : Adds u u' M)
    (h' : Adds u' u'' M') : Adds u u'' fun x y => M x y ∨ M' x y := by
  refine ⟨h'.grounded, fun x y hxy => h'.old x y (h.old x y hxy), ?_, ?_⟩
  · rintro x y (hm | hm)
    · exact h'.old x y (h.new x y hm)
    · exact h'.new x y hm
  · intro R hR hold hnew
    refine h'.least R hR (h.least R hR hold fun x y hm => hnew x y (.inl hm)) ?_
    exact fun x y hm => hnew x y (.inr hm)

theorem Adds.congr {M M' : TermId → TermId → Prop} (h : Adds u u' M)
    (hiff : ∀ x y, M x y ↔ M' x y) : Adds u u' M' := by
  obtain rfl : M = M' := funext fun x => funext fun y => propext (hiff x y)
  exact h

theorem union_adds (hg : Grounded u.parentOf) (a b : TermId) :
    Answers (u.union a b) fun u' => Adds u u' fun x y => x = a ∧ y = b := by
  refine (union_answers hg a b).mono fun u' h => ?_
  obtain ⟨hg', hclass⟩ := h
  refine ⟨hg', fun x y hxy => (hclass x y).mpr (.inl hxy), ?_, ?_⟩
  · rintro x y ⟨rfl, rfl⟩
    exact (hclass x y).mpr (.inr (.inl ⟨hg.same_refl x, hg.same_refl y⟩))
  · intro R hR hold hnew x y hxy
    have hab := hnew a b ⟨rfl, rfl⟩
    rcases (hclass x y).mp hxy with h | ⟨hxa, hby⟩ | ⟨hxb, hay⟩
    · exact hold x y h
    · exact hR.trans (hold x a hxa) (hR.trans hab (hold b y hby))
    · exact hR.trans (hold x b hxb) (hR.trans (hR.symm hab) (hold a y hay))

end TermUnion
end Shortcuts
end Qfbv
end SmtServer
