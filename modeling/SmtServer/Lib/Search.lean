import SmtServer.Lib.Outcome

/-!
# `Search` — a search whose candidates are checked

A search that has no opinion of its own: it makes up candidates, hands each one to a check, and
answers yes only when the check does. `Validated P` says so of a search, whatever the check is, and
says besides that it never hands over a candidate without `P`: two checks that agree on the
candidates with `P` cannot be told apart by it. The rules follow the ways in which such a search is
written — one question, a computation before the questions, one search after another, a loop.
-/

namespace Lib

open Outcome

variable {ε α β : Type} {P : α → Prop}

/-- What the search finds is a candidate with `P` that the check accepted, and it asks about no
others. -/
structure Validated (P : α → Prop) (search : (α → Outcome ε Bool) → Outcome ε Bool) : Prop where
  finds : ∀ check, search check = ok true → ∃ a, P a ∧ check a = ok true
  asks : ∀ check check', (∀ a, P a → check a = check' a) → search check = search check'

namespace Validated

variable {search rest : (α → Outcome ε Bool) → Outcome ε Bool}

theorem none : Validated P fun _ : α → Outcome ε Bool => ok false :=
  ⟨fun _ h => (nomatch h), fun _ _ _ => rfl⟩

theorem ask {a : α} (ha : P a) : Validated P fun check : α → Outcome ε Bool => check a :=
  ⟨fun _ h => ⟨a, ha, h⟩, fun _ _ h => h a ha⟩

/-- A computation that makes the candidates up. -/
theorem bind {x : Outcome ε β} {search : β → (α → Outcome ε Bool) → Outcome ε Bool}
    (h : ∀ b, x = ok b → Validated P (search b)) :
    Validated P fun check => x >>= fun b => search b check := by
  cases x with
  | ok b => exact h b rfl
  | err e => exact ⟨fun _ h => (nomatch h), fun _ _ _ => rfl⟩
  | panic => exact ⟨fun _ h => (nomatch h), fun _ _ _ => rfl⟩

/-- A search that is followed by another one when it finds nothing. -/
theorem orElse (hs : Validated P search) (hr : Validated P rest) :
    Validated P fun check => search check >>= fun found => if found then ok true else rest check := by
  constructor
  · intro check h
    obtain ⟨found, hfound, h⟩ := bind_eq_ok.mp h
    cases found with
    | true => exact hs.finds check hfound
    | false => exact hr.finds check h
  · intro check check' h
    rw [hs.asks check check' h, hr.asks check check' h]

theorem anyM {xs : List β} {search : β → (α → Outcome ε Bool) → Outcome ε Bool}
    (h : ∀ x ∈ xs, Validated P (search x)) :
    Validated P fun check => xs.anyM fun x => search x check := by
  induction xs with
  | nil => exact none
  | cons x xs ih =>
    have hcons : (fun check => (x :: xs).anyM fun x => search x check) = fun check =>
        search x check >>= fun found =>
          if found then ok true else xs.anyM fun x => search x check := by
      funext check
      rw [List.anyM]
      exact bind_congr fun found => by cases found <;> rfl
    rw [hcons]
    exact (h x (by simp)).orElse (ih fun y hy => h y (by simp [hy]))

end Validated
end Lib
