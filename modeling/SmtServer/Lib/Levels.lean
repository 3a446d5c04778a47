import Mathlib.Data.List.Basic

/-!
# Levels — a list with marks is a stack of levels

Scopes that open and close over a growing list are often kept as the list and, for each open scope,
the length the list had when it opened: closing a scope truncates. What this stands for is a stack
of levels, innermost first, where an item belongs to the level that was innermost when it came.
`Represents` relates the two; each operation on the one side is the operation on the other.
-/

namespace Lib
namespace Levels

variable {α : Type}

/-- The list, the marks of the open scopes and the levels, all innermost first. -/
def Represents : List α → List Nat → List (List α) → Prop
  | xs, [], [level] => xs = level
  | xs, mark :: marks, level :: levels =>
      mark ≤ xs.length ∧ xs.drop mark = level ∧ Represents (xs.take mark) marks levels
  | _, _, _ => False

/-- A new item goes to the innermost level. -/
def add (x : α) : List (List α) → List (List α)
  | [] => []
  | level :: levels => (level ++ [x]) :: levels

theorem represents_nil : Represents ([] : List α) [] [[]] := rfl

theorem Represents.add {xs : List α} {marks : List Nat} {levels : List (List α)}
    (h : Represents xs marks levels) (x : α) : Represents (xs ++ [x]) marks (add x levels) := by
  match marks, levels, h with
  | [], [_], h => exact congrArg (· ++ [x]) h
  | mark :: marks, level :: levels, ⟨hle, hdrop, htake⟩ =>
    refine ⟨?_, ?_, ?_⟩
    · rw [List.length_append]
      omega
    · rw [List.drop_append_of_le_length hle, hdrop]
    · rwa [List.take_append_of_le_length hle]

theorem Represents.push {xs : List α} {marks : List Nat} {levels : List (List α)}
    (h : Represents xs marks levels) : Represents xs (xs.length :: marks) ([] :: levels) :=
  ⟨Nat.le_refl _, List.drop_length, by rwa [List.take_length]⟩

theorem Represents.pop {xs : List α} {mark : Nat} {marks : List Nat} {levels : List (List α)}
    (h : Represents xs (mark :: marks) levels) :
    Represents (xs.take mark) marks levels.tail := by
  match levels, h with
  | _ :: _, ⟨_, _, htake⟩ => exact htake

/-- The items of all levels, outermost first. -/
def items (levels : List (List α)) : List α := levels.reverse.flatten

/-- The list is the items of all levels. -/
theorem Represents.eq_items {xs : List α} {marks : List Nat} {levels : List (List α)}
    (h : Represents xs marks levels) : xs = items levels := by
  induction marks generalizing xs levels with
  | nil =>
    match levels, h with
    | [level], h =>
      obtain rfl : xs = level := h
      simp [items]
  | cons mark marks ih =>
    match levels, h with
    | level :: levels, ⟨_, hdrop, htake⟩ =>
      rw [← List.take_append_drop mark xs, ih htake, hdrop]
      simp [items]

end Levels
end Lib
