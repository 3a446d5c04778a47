import Mathlib.Data.List.Nodup
import Mathlib.Logic.Function.Basic

/-!
# `Lfsr` — linear feedback shift registers

A step shifts the register up by one and feeds the exclusive or of the tapped bits in at the
bottom. A bit that is tapped an even number of times is not tapped at all, so what counts of the
taps is how often each occurs, modulo two (`step_congr`), and the step can be undone exactly when
the register is as wide as the step and its last bit is tapped an odd number of times
(`step_injective_iff`).
-/

namespace Lib
namespace Lfsr

/-- The exclusive or of `f` over a list. -/
def parity {α : Type} (f : α → Bool) (xs : List α) : Bool := xs.foldr (fun x acc => f x ^^ acc) false

section Parity

variable {α : Type} {f g : α → Bool}

@[simp] theorem parity_nil : parity f [] = false := rfl

@[simp] theorem parity_cons (x : α) (xs : List α) : parity f (x :: xs) = (f x ^^ parity f xs) := rfl

theorem parity_append (xs ys : List α) : parity f (xs ++ ys) = (parity f xs ^^ parity f ys) := by
  induction xs with
  | nil => simp
  | cons x xs ih => rw [List.cons_append, parity_cons, parity_cons, ih, Bool.xor_assoc]

theorem parity_false (xs : List α) (h : ∀ x ∈ xs, f x = false) : parity f xs = false := by
  induction xs with
  | nil => rfl
  | cons x xs ih => rw [parity_cons, h x (by simp), ih fun y hy => h y (by simp [hy]), Bool.xor_false]

theorem parity_congr {xs : List α} (h : ∀ x ∈ xs, f x = g x) : parity f xs = parity g xs := by
  induction xs with
  | nil => rfl
  | cons x xs ih => rw [parity_cons, parity_cons, h x (by simp), ih fun y hy => h y (by simp [hy])]

theorem parity_xor (xs : List α) : parity (fun x => f x ^^ g x) xs = (parity f xs ^^ parity g xs) := by
  induction xs with
  | nil => rfl
  | cons x xs ih =>
    rw [parity_cons, parity_cons, parity_cons, ih]
    cases f x <;> cases g x <;> simp

/-- Where `f` holds of one element only, it is the number of its occurrences that counts. -/
theorem parity_eq_count [DecidableEq α] {a : α} {xs : List α} (h : ∀ x ∈ xs, f x = decide (x = a)) :
    parity f xs = decide (xs.count a % 2 = 1) := by
  induction xs with
  | nil => simp
  | cons x xs ih =>
    rw [parity_cons, ih fun y hy => h y (by simp [hy]), h x (by simp)]
    by_cases hx : x = a
    · rw [hx, List.count_cons_self]
      by_cases hc : xs.count a % 2 = 1
      · simp [hc, show (xs.count a + 1) % 2 = 0 by omega]
      · simp [hc, show (xs.count a + 1) % 2 = 1 by omega]
    · rw [List.count_cons_of_ne hx]
      simp [hx]

end Parity

section Taps

variable {f : Nat → Bool} {xs ys : List Nat} {n : Nat}

/-- The taps in order: each counts when it occurs an odd number of times. -/
theorem parity_eq_range (h : ∀ x ∈ xs, x < n) :
    parity f xs = parity (fun i => f i && decide (xs.count i % 2 = 1)) (List.range n) := by
  induction xs with
  | nil => exact (parity_false _ fun i _ => by simp).symm
  | cons x xs ih =>
    have hone : parity (fun i => f i && decide (i = x)) (List.range n) = f x := by
      cases hf : f x with
      | true =>
        have hlt := h x (by simp)
        rw [parity_eq_count (a := x) fun i _ => by by_cases hi : i = x <;> simp [hi, hf],
          List.count_eq_one_of_mem List.nodup_range (List.mem_range.mpr hlt)]
        rfl
      | false =>
        refine parity_false _ fun i _ => ?_
        by_cases hi : i = x <;> simp [hi, hf]
    rw [parity_cons, ih fun y hy => h y (by simp [hy]), ← hone, ← parity_xor]
    refine parity_congr fun i _ => ?_
    by_cases hi : i = x
    · rw [hi, List.count_cons_self]
      by_cases hc : xs.count x % 2 = 1
      · simp [hc, show (xs.count x + 1) % 2 = 0 by omega]
      · simp [hc, show (xs.count x + 1) % 2 = 1 by omega]
    · rw [List.count_cons_of_ne (Ne.symm hi)]
      simp [hi]

theorem exists_bound (xs : List Nat) : ∃ n, ∀ x ∈ xs, x < n := by
  induction xs with
  | nil => exact ⟨0, by simp⟩
  | cons x xs ih =>
    obtain ⟨n, hn⟩ := ih
    refine ⟨max n (x + 1), List.forall_mem_cons.mpr ⟨by omega, fun y hy => ?_⟩⟩
    have := hn y hy
    omega

/-- Taps that occur twice cancel. -/
theorem parity_eq_of_count (h : ∀ i, xs.count i % 2 = ys.count i % 2) :
    parity f xs = parity f ys := by
  obtain ⟨n, hn⟩ := exists_bound (xs ++ ys)
  have hxs := parity_eq_range (f := f) fun x hx => hn x (List.mem_append_left ys hx)
  have hys := parity_eq_range (f := f) fun y hy => hn y (List.mem_append_right xs hy)
  rw [hxs, hys]
  exact parity_congr fun i _ => by rw [h i]

end Taps

/-! ## Steps -/

variable {v w : Nat} {taps taps' : List Nat} {x y : BitVec v}

/-- One step of a register, `w` bits of it kept. -/
def step (w : Nat) (taps : List Nat) (x : BitVec v) : BitVec w :=
  x.setWidth w <<< 1 ||| (BitVec.ofBool (parity x.getLsbD taps)).setWidth w

theorem getLsbD_step (hw : 1 ≤ w) (i : Nat) : (step w taps x).getLsbD i =
    if i = 0 then parity x.getLsbD taps else decide (i < w) && x.getLsbD (i - 1) := by
  rw [step, BitVec.getLsbD_or, BitVec.getLsbD_shiftLeft, BitVec.getLsbD_setWidth,
    BitVec.getLsbD_setWidth, BitVec.getLsbD_ofBool]
  by_cases hi : i = 0
  · subst hi
    simp [show 0 < w by omega]
  · by_cases hlt : i < w
    · simp [hi, hlt, show ¬i < 1 by omega, show i - 1 < w by omega]
    · simp [hi, hlt]

/-- Two registers take the same step when each bit is tapped as often, modulo two. -/
theorem step_congr (h : ∀ i, taps.count i % 2 = taps'.count i % 2) :
    step w taps x = step w taps' x := by
  rw [step, step, parity_eq_of_count h]

/-- **When two steps are one.** -/
theorem step_eq_iff (hw : 1 ≤ w) (ht : ∀ t ∈ taps, t < v) (ht' : ∀ t ∈ taps', t < v) :
    (∀ x : BitVec v, step w taps x = step w taps' x) ↔
      ∀ i, taps.count i % 2 = taps'.count i % 2 := by
  constructor
  · intro h i
    by_cases hi : i < v
    · have hone : ∀ zs : List Nat, (step w zs (BitVec.twoPow v i)).getLsbD 0 =
          decide (zs.count i % 2 = 1) := by
        intro zs
        rw [getLsbD_step hw, if_pos rfl]
        refine parity_eq_count fun t _ => ?_
        rw [BitVec.getLsbD_twoPow]
        simp [hi, eq_comm]
      have h₀ := congrArg (fun z => BitVec.getLsbD z 0) (h (BitVec.twoPow v i))
      simp only [hone, decide_eq_decide] at h₀
      omega
    · rw [List.count_eq_zero.mpr fun hmem => hi (ht i hmem),
        List.count_eq_zero.mpr fun hmem => hi (ht' i hmem)]
  · intro h x
    exact step_congr h

/-- **When a step can be undone.** -/
theorem step_injective_iff (hw : 1 ≤ w) (hv : w ≤ v) (htaps : ∀ t ∈ taps, t < w) :
    Function.Injective (step w taps : BitVec v → BitVec w) ↔
      v = w ∧ taps.count (w - 1) % 2 = 1 := by
  constructor
  · intro hinj
    -- a bit that the step does not see can be flipped
    have hseen : ∀ i, i < v → ∃ j, (step w taps (BitVec.twoPow v i)).getLsbD j = true := by
      intro i hi
      by_contra hnone
      have hzero : step w taps (BitVec.twoPow v i) = step w taps (0 : BitVec v) := by
        refine BitVec.eq_of_getLsbD_eq fun j _ => ?_
        have hj : (step w taps (BitVec.twoPow v i)).getLsbD j = false :=
          Bool.eq_false_iff.mpr fun h => hnone ⟨j, h⟩
        rw [hj, getLsbD_step hw]
        split
        · exact (parity_false _ fun t _ => by simp).symm
        · simp
      have hbit := congrArg (fun z => BitVec.getLsbD z i) (hinj hzero)
      simp [hi] at hbit
    have heq : v = w := by
      by_contra hne
      obtain ⟨j, hj⟩ := hseen w (by omega)
      rw [getLsbD_step hw] at hj
      split at hj
      · rw [parity_false] at hj
        · cases hj
        · intro t ht
          have := htaps t ht
          simp [show w ≠ t by omega]
      · simp only [BitVec.getLsbD_twoPow, Bool.and_eq_true, decide_eq_true_eq] at hj
        omega
    refine ⟨heq, ?_⟩
    obtain ⟨j, hj⟩ := hseen (w - 1) (by omega)
    rw [getLsbD_step hw] at hj
    split at hj
    · rw [parity_eq_count (a := w - 1)] at hj
      · simpa using hj
      · intro t _
        rw [BitVec.getLsbD_twoPow]
        simp [show w - 1 < v by omega, eq_comm]
    · simp only [BitVec.getLsbD_twoPow, Bool.and_eq_true, decide_eq_true_eq] at hj
      omega
  · rintro ⟨rfl, hodd⟩ x y hxy
    have hbits := fun i => congrArg (fun z => BitVec.getLsbD z i) hxy
    simp only [getLsbD_step hw] at hbits
    have hlow : ∀ i, i + 1 < v → x.getLsbD i = y.getLsbD i := by
      intro i hi
      have h := hbits (i + 1)
      simpa [hi] using h
    -- the fed back bit differs from the last one by bits that are known to agree
    have hlast : x.getLsbD (v - 1) = y.getLsbD (v - 1) := by
      have h := hbits 0
      rw [if_pos rfl, if_pos rfl] at h
      have hdiff : parity (fun i => x.getLsbD i ^^ y.getLsbD i) taps = false := by
        rw [parity_xor, h, Bool.xor_self]
      by_contra hne
      rw [parity_eq_count (a := v - 1)] at hdiff
      · simp [hodd] at hdiff
      · intro t ht
        have htv := htaps t ht
        by_cases htl : t = v - 1
        · subst htl
          simpa using hne
        · rw [hlow t (by omega)]
          simp [htl]
    refine BitVec.eq_of_getLsbD_eq fun i hi => ?_
    by_cases hil : i = v - 1
    · rw [hil, hlast]
    · exact hlow i (by omega)

end Lfsr
end Lib
