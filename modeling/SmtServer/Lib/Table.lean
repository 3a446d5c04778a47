import Mathlib.Algebra.BigOperators.Group.List.Basic
import Mathlib.Data.List.AList
import SmtServer.Lib.Outcome

/-!
# `Table` — maps that are read by key

A hash map whose order of iteration nobody sees is an association list (`AList`). What is used of
one besides looking up and inserting is a loop that goes through a map and builds another one from
the entries it keeps (`collect`), and sums over the entries of one (`sum`).

A map whose entries are read in the order of their keys is the list of them in that order (`alter`).
-/

namespace Lib
namespace Table

open Outcome

variable {ε κ α β : Type} [DecidableEq κ]

/-- For every entry of the map, the entry that `f` makes of its value, if it makes one. -/
def collect (f : κ → α → Outcome ε (Option β)) (t : AList fun _ : κ => α) :
    Outcome ε (AList fun _ : κ => β) :=
  t.entries.foldlM (fun acc e => do
    match ← f e.1 e.2 with
    | some b => return acc.insert e.1 b
    | none => return acc) ∅

/-- What is found in the new map is what `f` made of the value in the old one. -/
theorem collect_answers {f : κ → α → Outcome ε (Option β)} {t : AList fun _ : κ => α}
    (h : ∀ k a, t.lookup k = some a → ∃ o, f k a = ok o) :
    Answers (collect f t) fun t' => ∀ k b,
      t'.lookup k = some b ↔ ∃ a, t.lookup k = some a ∧ f k a = ok (some b) := by
  have hmem : ∀ e ∈ t.entries, t.lookup e.1 = some e.2 := fun e he =>
    AList.mem_lookup_iff.mpr he
  refine (answers_foldlM (I := fun done (acc : AList fun _ : κ => β) =>
    (∀ e ∈ done, ∀ b, f e.1 e.2 = ok (some b) → acc.lookup e.1 = some b) ∧
    ∀ k b, acc.lookup k = some b → ∃ a, t.lookup k = some a ∧ f k a = ok (some b))
    ⟨by simp, by simp⟩ ?_).mono ?_
  · rintro e he done acc ⟨hdone, hacc⟩
    obtain ⟨o, ho⟩ := h e.1 e.2 (hmem e he)
    rw [ho, ok_bind]
    cases o with
    | none =>
      refine answers_ok ⟨List.forall_mem_append.mpr ⟨hdone, ?_⟩, hacc⟩
      simp [ho]
    | some b =>
      have hlast : ∀ k c, (acc.insert e.1 b).lookup k = some c →
          ∃ a, t.lookup k = some a ∧ f k a = ok (some c) := by
        intro k c hc
        by_cases hk : k = e.1
        · subst hk
          rw [AList.lookup_insert, Option.some.injEq] at hc
          exact ⟨e.2, hmem e he, hc ▸ ho⟩
        · rw [AList.lookup_insert_ne hk] at hc
          exact hacc k c hc
      refine answers_ok ⟨List.forall_mem_append.mpr ⟨fun e' he' c hc => ?_, ?_⟩, hlast⟩
      · -- an earlier entry of the same key left the same value
        by_cases hk : e'.1 = e.1
        · obtain ⟨a, ha, hf⟩ := hacc _ c (hdone e' he' c hc)
          rw [hk, hmem e he, Option.some.injEq] at ha
          subst ha
          rw [hk, AList.lookup_insert]
          rw [hk, ho, Outcome.ok.injEq] at hf
          exact hf
        · rw [AList.lookup_insert_ne hk]
          exact hdone e' he' c hc
      · simp [ho, AList.lookup_insert]
  · rintro t' ⟨hdone, hacc⟩ k b
    constructor
    · exact hacc k b
    · rintro ⟨a, ha, hf⟩
      exact hdone ⟨k, a⟩ (AList.mem_lookup_iff.mp ha) b hf

/-! ## Sums -/

section Sum

variable {A : Type} [AddCommMonoid A] {f : κ → α → A} {t : AList fun _ : κ => α} {k : κ} {a : α}

/-- The sum over the entries of a map. -/
def sum (f : κ → α → A) (t : AList fun _ : κ => α) : A := (t.entries.map fun e => f e.1 e.2).sum

omit [DecidableEq κ] in
@[simp] theorem sum_empty : sum f ∅ = 0 := rfl

theorem sum_insert : sum f (t.insert k a) = f k a + sum f (t.erase k) := by
  rw [sum, AList.entries_insert, List.map_cons, List.sum_cons]
  rfl

theorem sum_erase_of_none (h : t.lookup k = none) : sum f (t.erase k) = sum f t := by
  have hk : k ∉ t.entries.keys := AList.mem_keys.not.mp (AList.lookup_eq_none.mp h)
  change ((List.kerase k t.entries).map fun e => f e.1 e.2).sum = _
  rw [List.kerase_of_notMem_keys hk]
  rfl

theorem sum_of_some (h : t.lookup k = some a) : sum f t = f k a + sum f (t.erase k) := by
  have hperm := t.nodupKeys
  change (t.entries.map fun e => f e.1 e.2).sum =
    f k a + ((List.kerase k t.entries).map fun e => f e.1 e.2).sum
  replace h : t.entries.dlookup k = some a := h
  generalize t.entries = entries at h hperm
  induction entries with
  | nil => cases h
  | cons e rest ih =>
    by_cases hk : k = e.1
    · subst hk
      rw [List.dlookup_cons_eq, Option.some.injEq] at h
      rw [List.kerase_cons_eq rfl, List.map_cons, List.sum_cons, h]
    · rw [List.dlookup_cons_ne _ _ hk] at h
      rw [List.kerase_cons_ne hk, List.map_cons, List.sum_cons, List.map_cons, List.sum_cons,
        ih h (List.nodupKeys_of_nodupKeys_cons hperm), add_left_comm]

omit [DecidableEq κ] in
theorem sum_neg {A : Type} [AddCommGroup A] {f : κ → α → A} {t : AList fun _ : κ => α} :
    sum (fun k a => -f k a) t = -sum f t := by
  rw [sum, sum, List.sum_neg, List.map_map]
  rfl

end Sum

/-! ## Ordered maps

`map.entry(k)`, changed by `f`, which is told what was there. -/

def alter (k : Nat) (f : Option α → α) : List (Nat × α) → List (Nat × α)
  | [] => [(k, f none)]
  | (j, a) :: rest =>
    if k < j then (k, f none) :: (j, a) :: rest
    else if k = j then (k, f (some a)) :: rest
    else (j, a) :: alter k f rest

/-- What holds of every entry, and of the new one if it held of the old, still does. -/
theorem forall_alter {P : Nat → α → Prop} {k : Nat} {f : Option α → α} {entries : List (Nat × α)}
    (h : ∀ e ∈ entries, P e.1 e.2) (hf : ∀ o : Option α, (∀ a ∈ o, P k a) → P k (f o)) :
    ∀ e ∈ alter k f entries, P e.1 e.2 := by
  have hnew : P k (f none) := hf none (by simp)
  induction entries with
  | nil => simpa [alter] using hnew
  | cons head rest ih =>
    obtain ⟨j, a⟩ := head
    rw [List.forall_mem_cons] at h
    rw [alter]
    split_ifs with hlt heq
    · exact List.forall_mem_cons.mpr ⟨hnew, List.forall_mem_cons.mpr h⟩
    · subst heq
      refine List.forall_mem_cons.mpr ⟨hf (some a) ?_, h.2⟩
      rintro b ⟨⟩
      exact h.1
    · exact List.forall_mem_cons.mpr ⟨h.1, ih h.2⟩

end Table
end Lib
