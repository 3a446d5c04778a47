import Mathlib.Data.List.Perm.Subperm
import Mathlib.Logic.Function.Basic

/-!
# `UnionFind` — classes by parent pointers

A map of parents divides its elements into classes: an element that is its own parent is a root,
and every other element is in the class of its parent. Nothing is asked of the order of unions and
there are no ranks; what makes the structure work is that every element has a root (`Grounded`).

Both operations are described by what they do to the roots. Pointing an element at its own root
changes none (`RootIn.compress`), and pointing one root at another moves one class
(`RootIn.link`).
-/

namespace Lib
namespace UnionFind

variable {α : Type}

/-- From `x` it is `n` parents up to the root `r`. -/
inductive RootIn (parent : α → α) (r : α) : Nat → α → Prop where
  | root : parent r = r → RootIn parent r 0 r
  | step {n : Nat} {x : α} : parent x ≠ x → RootIn parent r n (parent x) → RootIn parent r (n + 1) x

def RootOf (parent : α → α) (x r : α) : Prop := ∃ n, RootIn parent r n x

/-- Every element has a root. -/
def Grounded (parent : α → α) : Prop := ∀ x, ∃ r, RootOf parent x r

/-- The two elements have one root. -/
def Same (parent : α → α) (x y : α) : Prop := ∃ r, RootOf parent x r ∧ RootOf parent y r

variable {parent : α → α} {a b r s x y z : α} {n m : Nat}

theorem RootIn.isRoot (h : RootIn parent r n x) : parent r = r := by
  induction h with
  | root h => exact h
  | step _ _ ih => exact ih

theorem RootIn.unique (hr : RootIn parent r n x) (hs : RootIn parent s m x) : r = s ∧ n = m := by
  induction hr generalizing m with
  | root h =>
    cases hs with
    | root => exact ⟨rfl, rfl⟩
    | step hne => exact absurd h hne
  | step hne _ ih =>
    cases hs with
    | root h => exact absurd h hne
    | step _ hs =>
      obtain ⟨h₁, h₂⟩ := ih hs
      exact ⟨h₁, congrArg (· + 1) h₂⟩

theorem RootOf.unique (hr : RootOf parent x r) (hs : RootOf parent x s) : r = s := by
  obtain ⟨n, hr⟩ := hr
  obtain ⟨m, hs⟩ := hs
  exact (hr.unique hs).1

theorem RootOf.isRoot (h : RootOf parent x r) : parent r = r := h.elim fun _ => RootIn.isRoot

theorem rootOf_self (h : parent r = r) : RootOf parent r r := ⟨0, .root h⟩

theorem RootOf.step (hne : parent x ≠ x) (h : RootOf parent (parent x) r) : RootOf parent x r := by
  obtain ⟨n, h⟩ := h
  exact ⟨n + 1, .step hne h⟩

theorem RootOf.up (h : RootOf parent x r) : RootOf parent (parent x) r := by
  obtain ⟨n, h⟩ := h
  cases h with
  | root h => exact ⟨0, h.symm ▸ .root h⟩
  | step _ h => exact ⟨_, h⟩

/-- The way to the root never comes back, so it is no longer than the number of elements that are
not roots. -/
theorem RootIn.le_length (h : RootIn parent r n x) {keys : List α}
    (hkeys : ∀ y, parent y ≠ y → y ∈ keys) : n ≤ keys.length := by
  have htrail : ∃ ys : List α, ys.Nodup ∧ ys.length = n ∧
      ∀ y ∈ ys, parent y ≠ y ∧ ∃ m ≤ n, RootIn parent r m y := by
    clear hkeys
    induction h with
    | root => exact ⟨[], by simp⟩
    | @step n x hne h ih =>
      obtain ⟨ys, hnodup, hlen, hys⟩ := ih
      refine ⟨x :: ys, List.nodup_cons.mpr ⟨fun hmem => ?_, hnodup⟩, by simp [hlen], ?_⟩
      · obtain ⟨-, m, hm, hroot⟩ := hys x hmem
        have := (hroot.unique (.step hne h)).2
        omega
      · refine List.forall_mem_cons.mpr ⟨⟨hne, n + 1, Nat.le_refl _, .step hne h⟩, fun y hy => ?_⟩
        obtain ⟨hne', m, hm, hroot⟩ := hys y hy
        exact ⟨hne', m, by omega, hroot⟩
  obtain ⟨ys, hnodup, rfl, hys⟩ := htrail
  exact (List.subperm_of_subset hnodup fun y hy => hkeys y (hys y hy).1).length_le

/-! ## Classes -/

theorem Grounded.same_refl (h : Grounded parent) (x : α) : Same parent x x :=
  (h x).elim fun r hr => ⟨r, hr, hr⟩

theorem Same.symm (h : Same parent x y) : Same parent y x :=
  h.elim fun r hr => ⟨r, hr.2, hr.1⟩

theorem Same.trans (hxy : Same parent x y) (hyz : Same parent y z) : Same parent x z := by
  obtain ⟨r, hx, hy⟩ := hxy
  obtain ⟨s, hy', hz⟩ := hyz
  exact ⟨s, hy.unique hy' ▸ hx, hz⟩

theorem same_iff_root (hx : RootOf parent x a) (hy : RootOf parent y b) :
    Same parent x y ↔ a = b := by
  constructor
  · rintro ⟨r, hxr, hyr⟩
    rw [hx.unique hxr, hy.unique hyr]
  · rintro rfl
    exact ⟨a, hx, hy⟩

/-! ## Operations -/

variable [DecidableEq α]

/-- Pointing an element at its root changes no root. -/
theorem RootOf.compress (hr : RootOf parent a r) (h : RootOf parent x s) :
    RootOf (Function.update parent a r) x s := by
  by_cases ha : a = r
  · subst ha
    rwa [show Function.update parent a a = parent from by
      conv_rhs => rw [← Function.update_eq_self a parent]
      rw [hr.isRoot]]
  obtain ⟨n, h⟩ := h
  have hne : parent a ≠ a := fun hroot => ha ((rootOf_self hroot).unique hr)
  induction h with
  | root h =>
    apply rootOf_self
    rw [Function.update_of_ne]
    · exact h
    · rintro rfl
      exact hne h
  | @step n x hx hrest ih =>
    by_cases hxa : x = a
    · subst hxa
      obtain rfl := (RootOf.step hx ⟨n, hrest⟩).unique hr
      refine .step ?_ ?_
      · rw [Function.update_self]
        exact Ne.symm ha
      · rw [Function.update_self]
        apply rootOf_self
        rw [Function.update_of_ne (Ne.symm ha), hr.isRoot]
    · refine .step ?_ ?_
      · rwa [Function.update_of_ne hxa]
      · rwa [Function.update_of_ne hxa]

/-- Pointing one root at another moves the one class into the other. -/
theorem RootOf.link (ha : parent a = a) (hb : parent b = b) (hab : a ≠ b)
    (h : RootOf parent x s) :
    RootOf (Function.update parent a b) x (if s = a then b else s) := by
  obtain ⟨n, h⟩ := h
  have hroot : RootOf (Function.update parent a b) b b := by
    apply rootOf_self
    rw [Function.update_of_ne (Ne.symm hab), hb]
  induction h with
  | root h =>
    by_cases hs : s = a
    · rw [if_pos hs, hs]
      refine .step ?_ ?_
      · rw [Function.update_self]
        exact Ne.symm hab
      · rwa [Function.update_self]
    · rw [if_neg hs]
      apply rootOf_self
      rw [Function.update_of_ne hs, h]
  | @step n x hx _ ih =>
    have hxa : x ≠ a := by
      rintro rfl
      exact hx ha
    refine .step ?_ ?_
    · rwa [Function.update_of_ne hxa]
    · rwa [Function.update_of_ne hxa]

end UnionFind
end Lib
