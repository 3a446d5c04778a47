import Mathlib.Data.List.AList
import Mathlib.Data.List.ProdSigma

/-!
# Meet in the middle

To find two values whose keys fit each other, one from either side, it is enough to go through each
side once: the first side goes into a table under its keys, and the other one is looked up in it
(`meet`). The pair that is found is the one that the search through all pairs finds first
(`meet_eq`).
-/

namespace Lib
namespace MeetInMiddle

variable {κ α β : Type} [DecidableEq κ]

/-- The table of one side: of the values of one key, the first. -/
def firsts (left : List (κ × α)) : AList fun _ : κ => α :=
  left.foldl (fun t e => if e.1 ∈ t then t else t.insert e.1 e.2) ∅

/-- The first value of the other side whose partner is in the table. -/
def meet (left : List (κ × α)) (right : List (κ × β)) (need : κ → κ) : Option (α × β) :=
  right.findSome? fun e => ((firsts left).lookup (need e.1)).map (·, e.2)

theorem lookup_firsts (left : List (κ × α)) (k : κ) :
    (firsts left).lookup k = (left.find? fun e => decide (e.1 = k)).map (·.2) := by
  suffices h : ∀ t : AList fun _ : κ => α,
      (left.foldl (fun t e => if e.1 ∈ t then t else t.insert e.1 e.2) t).lookup k =
        (t.lookup k).or ((left.find? fun e => decide (e.1 = k)).map (·.2)) by
    simpa [firsts] using h ∅
  induction left with
  | nil => exact fun t => by simp
  | cons e left ih =>
    intro t
    rw [List.foldl_cons, ih, List.find?_cons]
    by_cases hk : e.1 = k
    · subst hk
      by_cases hmem : e.1 ∈ t
      · obtain ⟨a, ha⟩ := Option.isSome_iff_exists.mp (AList.lookup_isSome.mpr hmem)
        simp [hmem, ha]
      · simp [hmem, AList.lookup_eq_none.mpr hmem]
    · have hlookup : (if e.1 ∈ t then t else t.insert e.1 e.2).lookup k = t.lookup k := by
        split
        · rfl
        · exact AList.lookup_insert_ne (Ne.symm hk)
      rw [hlookup, decide_eq_false hk]

/-- Meeting in the middle is going through all pairs, the other side first. -/
theorem meet_eq (left : List (κ × α)) (right : List (κ × β)) (need : κ → κ) :
    meet left right need =
      ((right ×ˢ left).find? fun p => decide (p.2.1 = need p.1.1)).map
        fun p => (p.2.2, p.1.2) := by
  induction right with
  | nil => rfl
  | cons e right ih =>
    rw [meet, List.findSome?_cons, List.product_cons, List.find?_append, List.find?_map,
      lookup_firsts]
    cases h : left.find? fun p => decide (p.1 = need e.1) with
    | some p => simp [Function.comp_def, h]
    | none =>
      simp only [Function.comp_def, h, Option.map_none, Option.none_or]
      exact ih

end MeetInMiddle
end Lib
