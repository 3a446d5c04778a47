import Mathlib.Data.List.Nodup
import Mathlib.Data.List.Perm.Subperm
import Mathlib.Order.Nat
import SmtServer.Lib.Outcome

/-!
# `Rounds` — recursion that may not end

A recursive function is its body, a function of the recursive calls. With a number of rounds it is
a total function that panics when they are used up (`rounds`), and the recursion ends when some
number of rounds is enough.

The order `Below` says that a call which panics may do anything instead. A body that only passes on
what its recursive calls do keeps it (`KeepsBelow`); then more rounds change no result, and the
recursion ends just when it never calls itself on an argument it is still working on: when it may
be guarded by the stack of its arguments without the guard ever being hit (`guarded_below`, `rounds_below_guarded`).
-/

namespace Lib
namespace Outcome

variable {ε α β σ : Type}

/-- `y` does what `x` does, unless `x` panics. -/
def Below (x y : Outcome ε α) : Prop := x = panic ∨ x = y

namespace Below

variable {x y z : Outcome ε α}

theorem refl (x : Outcome ε α) : Below x x := .inr rfl

theorem panic : Below (panic : Outcome ε α) y := .inl rfl

theorem trans (h : Below x y) (h' : Below y z) : Below x z := by
  obtain rfl | rfl := h
  · exact .inl rfl
  · exact h'

theorem eq (h : Below x y) (hx : Safe x) : x = y := h.resolve_left hx

theorem safe (h : Below x y) (hx : Safe x) : Safe y := h.eq hx ▸ hx

theorem bind {f g : α → Outcome ε β} (h : Below x y) (hf : ∀ a, Below (f a) (g a)) :
    Below (x >>= f) (y >>= g) := by
  obtain rfl | rfl := h
  · exact .inl rfl
  · cases x with
    | ok a => exact hf a
    | err e => exact .inr rfl
    | panic => exact .inl rfl

theorem bind_left {f : α → Outcome ε β} (h : Below x y) : Below (x >>= f) (y >>= f) :=
  h.bind fun a => refl (f a)

theorem bind_right {f g : α → Outcome ε β} (hf : ∀ a, Below (f a) (g a)) :
    Below (x >>= f) (x >>= g) :=
  (refl x).bind hf

theorem foldlM {f g : σ → α → Outcome ε σ} (h : ∀ st a, Below (f st a) (g st a)) :
    ∀ (xs : List α) (st : σ), Below (xs.foldlM f st) (xs.foldlM g st) := by
  intro xs
  induction xs with
  | nil => exact fun st => refl _
  | cons x xs ih =>
    intro st
    rw [List.foldlM_cons, List.foldlM_cons]
    exact (h st x).bind ih

theorem anyM {f g : α → Outcome ε Bool} (h : ∀ a, Below (f a) (g a)) :
    ∀ xs : List α, Below (xs.anyM f) (xs.anyM g) := by
  intro xs
  induction xs with
  | nil => exact refl _
  | cons x xs ih =>
    rw [List.anyM, List.anyM]
    refine (h x).bind fun found => ?_
    cases found with
    | true => exact refl _
    | false => exact ih

end Below

/-! ## The two recursions -/

section Recursion

variable {ι : Type} {α : ι → Type}

/-- A body makes a result of the results of its calls. -/
abbrev Body (ε : Type) (α : ι → Type) := (∀ i, Outcome ε (α i)) → ∀ i, Outcome ε (α i)

variable {F : Body ε α}

/-- The body passes on what its calls do. -/
def KeepsBelow (F : Body ε α) : Prop :=
  ∀ x y, (∀ i, Below (x i) (y i)) → ∀ i, Below (F x i) (F y i)

/-- The recursion, for a number of rounds. -/
def rounds (F : Body ε α) : Nat → ∀ i, Outcome ε (α i)
  | 0 => fun _ => panic
  | n + 1 => F (rounds F n)

/-- The recursion, with a stack of the arguments it is working on. -/
def guarded [DecidableEq ι] (F : Body ε α) : Nat → (stack : List ι) → ∀ i, Outcome ε (α i)
  | 0, _, _ => panic
  | n + 1, stack, i => if i ∈ stack then panic else F (guarded F n (i :: stack)) i

theorem rounds_le (hF : KeepsBelow F) {m n : Nat} (h : m ≤ n) (i : ι) :
    Below (rounds F m i) (rounds F n i) := by
  induction m generalizing n i with
  | zero => exact .inl rfl
  | succ m ih =>
    obtain ⟨k, rfl⟩ : ∃ k, n = k + 1 := ⟨n - 1, by omega⟩
    exact hF _ _ (ih (Nat.le_of_succ_le_succ h)) i

variable [DecidableEq ι]

/-- The guard only stops. -/
theorem guarded_below (hF : KeepsBelow F) (n : Nat) (stack : List ι) (i : ι) :
    Below (guarded F n stack i) (rounds F n i) := by
  induction n generalizing stack i with
  | zero => exact .inl rfl
  | succ n ih =>
    rw [guarded]
    split
    · exact .inl rfl
    · exact hF _ _ (ih (i :: stack)) i

/-- What ends in some number of rounds never calls itself on an argument it is working on: that
call would need as many rounds as it has itself. `U` lists the arguments that make calls at all. -/
theorem below_guarded (hF : KeepsBelow F) {U : List ι} (hU : ∀ i ∉ U, ∀ x y, F x i = F y i) :
    ∀ (m n : Nat) (stack : List ι), stack.Nodup → stack ⊆ U → U.length < n + stack.length →
      (∀ j ∈ stack, rounds F m j = panic) → ∀ i, Below (rounds F m i) (guarded F n stack i) := by
  intro m
  induction m using Nat.strongRecOn with
  | ind m ih =>
    intro n stack hnodup hsub hlen hpanic i
    by_cases hsafe : rounds F m i = panic
    · exact .inl hsafe
    -- the least number of rounds in which the call ends
    classical
    have hex : ∃ r, rounds F r i ≠ panic := ⟨m, hsafe⟩
    obtain ⟨k, hk⟩ : ∃ k, Nat.find hex = k + 1 := by
      refine Nat.exists_eq_succ_of_ne_zero fun h0 => ?_
      have := Nat.find_spec hex
      rw [h0] at this
      exact this rfl
    have hr : rounds F (k + 1) i ≠ panic := hk ▸ Nat.find_spec hex
    have hkm : k + 1 ≤ m := hk ▸ Nat.find_min' hex hsafe
    have hleast : rounds F k i = panic := by
      by_contra h
      have := Nat.find_min' hex h
      omega
    have heq : rounds F m i = rounds F (k + 1) i := ((rounds_le hF hkm i).eq hr).symm
    obtain ⟨n, rfl⟩ : ∃ n', n = n' + 1 := by
      have := (List.subperm_of_subset hnodup hsub).length_le
      exact ⟨n - 1, by omega⟩
    have hnot : i ∉ stack := fun h => hsafe (hpanic i h)
    rw [heq, guarded, if_neg hnot]
    by_cases hi : i ∈ U
    · refine hF _ _ (ih k (by omega) n (i :: stack) (List.nodup_cons.mpr ⟨hnot, hnodup⟩) ?_ ?_ ?_) i
      · exact List.cons_subset.mpr ⟨hi, hsub⟩
      · rw [List.length_cons]
        omega
      · refine List.forall_mem_cons.mpr ⟨hleast, fun j hj => ?_⟩
        have hbelow := rounds_le hF (Nat.le_of_succ_le hkm) j
        rw [hpanic j hj] at hbelow
        exact hbelow.elim id id
    · exact .inr (hU i hi _ _)

/-- The guarded recursion does what any number of rounds does. -/
theorem rounds_below_guarded (hF : KeepsBelow F) {U : List ι} (hU : ∀ i ∉ U, ∀ x y, F x i = F y i)
    (m : Nat) (i : ι) : Below (rounds F m i) (guarded F (U.length + 1) [] i) :=
  below_guarded hF hU m _ [] List.nodup_nil (List.nil_subset U) (Nat.lt_succ_self _)
    (fun _ h => nomatch h) i

end Recursion

end Outcome
end Lib
