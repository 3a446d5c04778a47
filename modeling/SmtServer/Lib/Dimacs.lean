import Mathlib.Data.List.Count
import Mathlib.Data.List.Basic
import Mathlib.Tactic.Common

/-!
# `Dimacs` — clauses over numbered variables

A literal is a nonzero integer: `v` stands for the variable `v` and `-v` for its negation. A
clause is a list of literals and holds when one of them does; a list of clauses is a conjunction.

A search keeps a **partial** assignment, an optional value for each variable. What it means is the
set of valuations that agree with it (`Extends`), so a step of the search is right when it cuts
that set the way it says: giving an open variable a value is the meet with that value
(`extends_set`), and it makes one variable fewer open (`count_set_lt`).
-/

namespace Lib
namespace Dimacs

abbrev Clause := List Int

/-- The value of a literal. -/
def litHolds (v : Nat → Bool) (lit : Int) : Bool := if 0 < lit then v lit.natAbs else !v lit.natAbs

/-- One of the literals of the clause holds. -/
def Holds (v : Nat → Bool) (clause : Clause) : Prop := ∃ lit ∈ clause, litHolds v lit = true

def Models (v : Nat → Bool) (clauses : List Clause) : Prop := ∀ clause ∈ clauses, Holds v clause

instance (v : Nat → Bool) (clause : Clause) : Decidable (Holds v clause) :=
  inferInstanceAs (Decidable (∃ lit ∈ clause, litHolds v lit = true))

instance (v : Nat → Bool) (clauses : List Clause) : Decidable (Models v clauses) :=
  inferInstanceAs (Decidable (∀ clause ∈ clauses, Holds v clause))

variable {v : Nat → Bool} {lit : Int} {clause : Clause} {clauses clauses' : List Clause}

theorem litHolds_neg (h : lit ≠ 0) : litHolds v (-lit) = !litHolds v lit := by
  rw [litHolds, litHolds, Int.natAbs_neg]
  rcases Int.lt_or_gt_of_ne h with hneg | hpos
  · rw [if_pos (by omega), if_neg (by omega), Bool.not_not]
  · rw [if_neg (by omega), if_pos hpos]

/-- A clause holds or fails by the literals that are in it. -/
theorem holds_congr {clause' : Clause} (h : ∀ lit, lit ∈ clause ↔ lit ∈ clause') :
    Holds v clause ↔ Holds v clause' := by
  simp only [Holds, h]

theorem holds_of_complement (h : lit ≠ 0) (hmem : lit ∈ clause) (hneg : -lit ∈ clause) :
    Holds v clause := by
  cases hl : litHolds v lit with
  | true => exact ⟨lit, hmem, hl⟩
  | false => exact ⟨-lit, hneg, by rw [litHolds_neg h, hl]; rfl⟩

/-- A conjunction of clauses looks at the variables of its literals only. -/
theorem models_congr {v' : Nat → Bool}
    (h : ∀ clause ∈ clauses, ∀ lit ∈ clause, v lit.natAbs = v' lit.natAbs) :
    Models v clauses ↔ Models v' clauses := by
  refine forall₂_congr fun clause hc => ?_
  refine exists_congr fun lit => and_congr_right fun hl => ?_
  rw [litHolds, litHolds, h clause hc lit hl]

@[simp] theorem models_nil : Models v [] := by simp [Models]

@[simp] theorem models_cons : Models v (clause :: clauses) ↔ Holds v clause ∧ Models v clauses := by
  simp [Models]

@[simp] theorem models_append :
    Models v (clauses ++ clauses') ↔ Models v clauses ∧ Models v clauses' := by
  simp only [Models, List.mem_append, or_imp, forall_and]

/-! ## Partial assignments -/

/-- An optional value for each variable. -/
abbrev Partial := List (Option Bool)

/-- The valuation agrees with every value that is given. -/
def Extends (v : Nat → Bool) (a : Partial) : Prop := ∀ i b, a[i]? = some (some b) → v i = b

/-- The value of a literal, if its variable has one. -/
def litValue (a : Partial) (lit : Int) : Option Bool :=
  (a.getD lit.natAbs none).map fun value => if 0 < lit then value else !value

variable {a : Partial} {i : Nat} {b : Bool}

theorem extends_replicate (n : Nat) : Extends v (List.replicate n none) := by
  intro i b h
  rw [List.getElem?_replicate] at h
  split at h <;> simp at h

theorem litHolds_of_value (hv : Extends v a) (h : litValue a lit = some b) :
    litHolds v lit = b := by
  obtain ⟨c, hc, rfl⟩ := Option.map_eq_some_iff.mp h
  have hget : a[lit.natAbs]? = some (some c) := by
    rw [List.getD_eq_getElem?_getD] at hc
    cases hi : a[lit.natAbs]? with
    | none => simp [hi] at hc
    | some o => simpa [hi] using hc
  rw [litHolds, hv _ _ hget]

theorem litValue_eq_none (hlt : lit.natAbs < a.length) :
    litValue a lit = none ↔ a[lit.natAbs]? = some none := by
  simp [litValue, hlt]

theorem extends_set (hopen : a[i]? = some none) :
    Extends v (a.set i (some b)) ↔ Extends v a ∧ v i = b := by
  obtain ⟨hlt, -⟩ := List.getElem?_eq_some_iff.mp hopen
  constructor
  · intro h
    refine ⟨fun j c hj => ?_, h i b (by simp [hlt])⟩
    refine h j c ?_
    have hne : i ≠ j := by
      rintro rfl
      rw [hopen] at hj
      simp at hj
    rw [List.getElem?_set_ne hne, hj]
  · rintro ⟨h, rfl⟩ j c hj
    by_cases hij : i = j
    · subst hij
      simpa [hlt] using hj
    · rw [List.getElem?_set_ne hij] at hj
      exact h j c hj

/-- Giving an open variable a value leaves one variable fewer open. -/
theorem count_set_lt (hopen : a[i]? = some none) :
    (a.set i (some b)).count none < a.count none := by
  obtain ⟨hlt, hnone⟩ := List.getElem?_eq_some_iff.mp hopen
  have hpos : 0 < a.count none := List.count_pos_iff.mpr (hnone ▸ List.getElem_mem hlt)
  rw [List.count_set hlt, hnone]
  simp only [beq_self_eq_true, if_true, reduceCtorEq, beq_iff_eq, if_false]
  omega

end Dimacs
end Lib
