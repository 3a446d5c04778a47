import Mathlib.Algebra.BigOperators.Group.Finset.Basic
import Mathlib.Logic.Relation
import SmtServer.Lib.Outcome

/-!
# `Reach` — marking what can be reached

The loop that marks a graph from a stack of roots: pop a node, skip it when it is marked, else mark
it and push what it points to. Two facts about a state of the loop are kept by every round — what is
marked or on the stack can be reached, and what a marked node points to is marked or on the stack —
and when the stack is empty they say together that the marked nodes are the reachable ones.

A round takes one node off the stack and may put the successors of one unmarked node on it. So the
length of the stack and the successors of all unmarked nodes together are a number of rounds that is
enough (`pending`), for any graph and without a look at its shape.
-/

namespace Lib
namespace Reach

open Outcome

variable {ε : Type}

/-- There is a path from one of the roots. -/
def Reachable (next : Nat → List Nat) (roots : List Nat) (i : Nat) : Prop :=
  ∃ root ∈ roots, Relation.ReflTransGen (fun i j => j ∈ next i) root i

/-- The loop. The top of the stack is its head; `visit` returns the successors in the order they are
pushed, and `check` is what is done before round `steps`. -/
def mark (check : Nat → Outcome ε Unit) (missing : Nat → ε) (visit : Nat → Outcome ε (List Nat)) :
    (rounds steps : Nat) → (marked : List Bool) → (stack : List Nat) → Outcome ε (List Bool)
  | _, _, marked, [] => ok marked
  | 0, _, _, _ :: _ => panic
  | rounds + 1, steps, marked, i :: stack => do
    check steps
    let slot ← ofOption marked[i]? (missing i)
    if slot then mark check missing visit rounds (steps + 1) marked stack
    else
      let successors ← visit i
      mark check missing visit rounds (steps + 1) (marked.set i true) (successors.reverse ++ stack)

/-- The successors of the nodes that are not marked. -/
def pending (next : Nat → List Nat) (marked : List Bool) : Nat :=
  ∑ i ∈ Finset.range marked.length, if marked[i]? = some true then 0 else (next i).length

variable {next : Nat → List Nat} {roots stack : List Nat} {marked : List Bool} {i j : Nat}

theorem pending_set (h : marked[i]? = some false) :
    pending next (marked.set i true) + (next i).length = pending next marked := by
  obtain ⟨hi, -⟩ := List.getElem?_eq_some_iff.mp h
  have hmem : i ∈ Finset.range marked.length := Finset.mem_range.mpr hi
  rw [pending, pending, List.length_set, ← Finset.add_sum_erase _ _ hmem,
    ← Finset.add_sum_erase _ _ hmem, List.getElem?_set_self hi, if_pos rfl, h, if_neg (by simp),
    Nat.zero_add, Nat.add_comm]
  congr 1
  refine Finset.sum_congr rfl fun j hj => ?_
  rw [List.getElem?_set_ne (Finset.ne_of_mem_erase hj).symm]

/-- A state of the loop. -/
structure Marking (next : Nat → List Nat) (roots : List Nat) (marked : List Bool)
    (stack : List Nat) : Prop where
  rooted : ∀ root ∈ roots, marked[root]? = some true ∨ root ∈ stack
  closed : ∀ i, marked[i]? = some true → ∀ j ∈ next i, marked[j]? = some true ∨ j ∈ stack
  reached : ∀ i, marked[i]? = some true → Reachable next roots i
  pushed : ∀ i ∈ stack, Reachable next roots i

theorem Reachable.step (h : Reachable next roots i) (hj : j ∈ next i) : Reachable next roots j := by
  obtain ⟨root, hroot, hpath⟩ := h
  exact ⟨root, hroot, hpath.tail hj⟩

namespace Marking

theorem init (n : Nat) : Marking next roots (List.replicate n false) roots where
  rooted root h := .inr h
  closed i h := absurd (List.eq_of_mem_replicate (List.mem_of_getElem? h)) (by simp)
  reached i h := absurd (List.eq_of_mem_replicate (List.mem_of_getElem? h)) (by simp)
  pushed i h := ⟨i, h, .refl⟩

theorem skip (h : Marking next roots marked (i :: stack)) (hi : marked[i]? = some true) :
    Marking next roots marked stack where
  rooted root hroot := by
    rcases h.rooted root hroot with hm | hm
    · exact .inl hm
    · rcases List.mem_cons.mp hm with rfl | hm
      · exact .inl hi
      · exact .inr hm
  closed k hk j hj := by
    rcases h.closed k hk j hj with hm | hm
    · exact .inl hm
    · rcases List.mem_cons.mp hm with rfl | hm
      · exact .inl hi
      · exact .inr hm
  reached := h.reached
  pushed j hj := h.pushed j (.tail _ hj)

theorem visit (h : Marking next roots marked (i :: stack)) (hi : i < marked.length) :
    Marking next roots (marked.set i true) ((next i).reverse ++ stack) := by
  have hmono : ∀ j, marked[j]? = some true ∨ j ∈ i :: stack →
      (marked.set i true)[j]? = some true ∨ j ∈ (next i).reverse ++ stack := by
    intro j hj
    by_cases hij : i = j
    · subst hij
      exact .inl (List.getElem?_set_self hi)
    · rw [List.getElem?_set_ne hij]
      rcases hj with hj | hj
      · exact .inl hj
      · exact .inr (List.mem_append_right _ ((List.mem_cons.mp hj).resolve_left (Ne.symm hij)))
  have hreach := h.pushed i (.head _)
  refine ⟨fun root hroot => hmono root (h.rooted root hroot), fun k hk j hj => ?_, fun k hk => ?_,
    fun j hj => ?_⟩
  · by_cases hik : i = k
    · subst hik
      exact .inr (List.mem_append_left _ (List.mem_reverse.mpr hj))
    · rw [List.getElem?_set_ne hik] at hk
      exact hmono j (h.closed k hk j hj)
  · by_cases hik : i = k
    · exact hik ▸ hreach
    · rw [List.getElem?_set_ne hik] at hk
      exact h.reached k hk
  · rcases List.mem_append.mp hj with hj | hj
    · exact hreach.step (List.mem_reverse.mp hj)
    · exact h.pushed j (.tail _ hj)

/-- With nothing left on the stack the marked nodes are the reachable ones. -/
theorem done (h : Marking next roots marked []) (i : Nat) :
    marked[i]? = some true ↔ Reachable next roots i := by
  refine ⟨h.reached i, ?_⟩
  rintro ⟨root, hroot, hpath⟩
  induction hpath with
  | refl => exact (h.rooted root hroot).resolve_right (by simp)
  | tail _ hj ih => exact (h.closed _ ih _ hj).resolve_right (by simp)

end Marking

variable {check : Nat → Outcome ε Unit} {missing : Nat → ε} {visit : Nat → Outcome ε (List Nat)}

/-- The loop returns, from any state with enough rounds left. -/
theorem mark_answers {rounds steps : Nat} (hcheck : ∀ k, check k = ok ())
    (hvisit : ∀ i, i < marked.length → visit i = ok (next i))
    (hnext : ∀ i, i < marked.length → ∀ j ∈ next i, j < marked.length)
    (hstack : ∀ i ∈ stack, i < marked.length) (hinv : Marking next roots marked stack)
    (hrounds : stack.length + pending next marked ≤ rounds) :
    Answers (mark check missing visit rounds steps marked stack) fun result =>
      result.length = marked.length ∧ ∀ i, result[i]? = some true ↔ Reachable next roots i := by
  induction rounds generalizing steps marked stack with
  | zero =>
    obtain rfl : stack = [] := List.length_eq_zero_iff.mp (by omega)
    exact answers_ok ⟨rfl, hinv.done⟩
  | succ rounds ih =>
    match stack, hstack, hinv, hrounds with
    | [], _, hinv, _ => exact answers_ok ⟨rfl, hinv.done⟩
    | i :: stack, hstack, hinv, hrounds =>
      have hi := hstack i (.head _)
      have hrest : ∀ j ∈ stack, j < marked.length := fun j hj => hstack j (.tail _ hj)
      rw [List.length_cons] at hrounds
      rw [mark, hcheck, ok_bind, List.getElem?_eq_getElem hi, ofOption, ok_bind]
      cases hslot : marked[i] with
      | true =>
        rw [if_pos rfl]
        exact ih hvisit hnext hrest
          (hinv.skip (by rw [List.getElem?_eq_getElem hi, hslot])) (by omega)
      | false =>
        have hpending : pending next (marked.set i true) + (next i).length = pending next marked :=
          pending_set (by rw [List.getElem?_eq_getElem hi, hslot])
        rw [if_neg (by simp), hvisit i hi, ok_bind]
        have hlen : (marked.set i true).length = marked.length := List.length_set
        refine (ih (hlen ▸ hvisit) (hlen ▸ hnext) ?_ (hinv.visit hi) ?_).mono
          fun result h => ⟨h.1.trans hlen, h.2⟩
        · intro j hj
          rw [hlen]
          rcases List.mem_append.mp hj with hj | hj
          · exact hnext i hi j (List.mem_reverse.mp hj)
          · exact hrest j hj
        · rw [List.length_append, List.length_reverse]
          omega

end Reach
end Lib
