import Mathlib.Logic.Relation
import Mathlib.Tactic.Common

/-!
# `Memo` — a shared table in front of a function

Any number of calls run at once, each with an argument of its own. A call looks its key up in a
shared table; on a hit it adapts what it found to its argument, on a miss it computes the answer
and may put something into the table. Looking up and putting are atomic, everything else
interleaves freely: two calls can both miss a key and both put it, and the table may forget
whatever it likes.

The rule (`Reaches.inv`) is that the table is transparent if every entry is one that `Sound`
allows, where a sound entry under the key of an argument adapts to the answer for that argument.
-/

namespace Lib

/-- The operations of a table of type `T`, and what a call does around them. -/
structure Memo (T K V P R : Type) where
  accepts : T → P → Bool
  key : P → K
  look : T → K → Option V × T
  put : T → K → V → T
  compute : P → R
  store : R → Option V
  adapt : P → V → R

namespace Memo

/-- How far a call is. -/
inductive Call (R : Type) where
  | idle
  | missed
  | done (r : R)

variable {ι T K V P R : Type}

structure State (ι T R : Type) where
  table : T
  call : ι → Call R

/-- The table after a call that missed has its answer. -/
def finish (M : Memo T K V P R) (t : T) (p : P) : T :=
  match M.store (M.compute p) with
  | some v => M.put t (M.key p) v
  | none => t

variable (M : Memo T K V P R) (arg : ι → P)

/-- One step of one call. -/
inductive Step [DecidableEq ι] : State ι T R → State ι T R → Prop
  | bypass {s : State ι T R} {i : ι} :
    s.call i = .idle → M.accepts s.table (arg i) = false →
    Step s { s with call := Function.update s.call i (.done (M.compute (arg i))) }
  | hit {s : State ι T R} {i : ι} {v : V} {t : T} :
    s.call i = .idle → M.accepts s.table (arg i) = true →
    M.look s.table (M.key (arg i)) = (some v, t) →
    Step s ⟨t, Function.update s.call i (.done (M.adapt (arg i) v))⟩
  | miss {s : State ι T R} {i : ι} {t : T} :
    s.call i = .idle → M.accepts s.table (arg i) = true →
    M.look s.table (M.key (arg i)) = (none, t) →
    Step s ⟨t, Function.update s.call i .missed⟩
  | finish {s : State ι T R} {i : ι} :
    s.call i = .missed →
    Step s ⟨M.finish s.table (arg i), Function.update s.call i (.done (M.compute (arg i)))⟩

/-- The states of all runs that start with the given table. -/
def Reaches [DecidableEq ι] (t : T) (s : State ι T R) : Prop :=
  Relation.ReflTransGen (M.Step arg) ⟨t, fun _ => .idle⟩ s

/-- What the rule asks of the table and its entries. `TableInv` is the part that is about the
table alone. -/
structure Rule (TableInv : T → Prop) (Sound : K → V → Prop) : Prop where
  look : ∀ t k, TableInv t → TableInv (M.look t k).2
  found : ∀ t k v, TableInv t → (M.look t k).1 = some v → Sound k v
  put : ∀ t p v, TableInv t → M.store (M.compute p) = some v → Sound (M.key p) v →
    TableInv (M.put t (M.key p) v)
  stored : ∀ t p v, TableInv t → M.accepts t p = true → M.store (M.compute p) = some v →
    Sound (M.key p) v
  adapt : ∀ t p v, TableInv t → M.accepts t p = true → Sound (M.key p) v →
    M.adapt p v = M.compute p

/-- What is known of a call. -/
def CallInv (accepted : P → Prop) (p : P) : Call R → Prop
  | .idle => True
  | .missed => accepted p
  | .done r => r = M.compute p

variable {M arg} {TableInv : T → Prop} {Sound : K → V → Prop}

/-- One call moves, the others stay where they are. -/
theorem callInv_update [DecidableEq ι] {accepted : P → Prop} {call : ι → Call R} {i : ι}
    {c : Call R} (h : ∀ j, M.CallInv accepted (arg j) (call j))
    (hc : M.CallInv accepted (arg i) c) (j : ι) :
    M.CallInv accepted (arg j) (Function.update call i c j) := by
  by_cases hj : j = i
  · subst hj
    rwa [Function.update_self]
  · rw [Function.update_of_ne hj]
    exact h j

/-- A table that accepts an argument at one time would have accepted it at any other. -/
theorem Step.inv [DecidableEq ι] (hM : M.Rule TableInv Sound) {accepted : P → Prop}
    (hacc : ∀ t p, TableInv t → (M.accepts t p = true ↔ accepted p)) {s s' : State ι T R}
    (hs : M.Step arg s s') (ht : TableInv s.table)
    (hcall : ∀ i, M.CallInv accepted (arg i) (s.call i)) :
    TableInv s'.table ∧ ∀ i, M.CallInv accepted (arg i) (s'.call i) := by
  cases hs with
  | bypass hi _ => exact ⟨ht, callInv_update hcall rfl⟩
  | @hit i v t hi ha hl =>
    have hinv := hM.look s.table (M.key (arg i)) ht
    rw [hl] at hinv
    have hsound := hM.found s.table (M.key (arg i)) v ht (by rw [hl])
    exact ⟨hinv, callInv_update hcall (hM.adapt _ _ _ ht ha hsound)⟩
  | @miss i t hi ha hl =>
    have hinv := hM.look s.table (M.key (arg i)) ht
    rw [hl] at hinv
    exact ⟨hinv, callInv_update hcall ((hacc _ _ ht).mp ha)⟩
  | @finish i hi =>
    have hmissed := hcall i
    rw [hi] at hmissed
    refine ⟨?_, callInv_update hcall rfl⟩
    unfold Memo.finish
    split
    · rename_i v hv
      exact hM.put _ _ _ ht hv (hM.stored _ _ _ ht ((hacc _ _ ht).mpr hmissed) hv)
    · exact ht

/-- The rule of transparency: in every run, from a table in order, every answer given is the
computed one, and the table stays in order. -/
theorem Reaches.inv [DecidableEq ι] (hM : M.Rule TableInv Sound) {accepted : P → Prop}
    (hacc : ∀ t p, TableInv t → (M.accepts t p = true ↔ accepted p)) {t : T} {s : State ι T R}
    (h : M.Reaches arg t s) (ht : TableInv t) :
    TableInv s.table ∧ ∀ i, M.CallInv accepted (arg i) (s.call i) := by
  induction h with
  | refl => exact ⟨ht, fun _ => trivial⟩
  | tail _ hs ih => exact hs.inv hM hacc ih.1 ih.2

/-- A call that has not returned can be brought further, whatever the others do. -/
theorem exists_step [DecidableEq ι] (s : State ι T R) (i : ι) (h : ∀ r, s.call i ≠ .done r) :
    ∃ s', M.Step arg s s' := by
  cases hc : s.call i with
  | done r => exact absurd hc (h r)
  | missed => exact ⟨_, .finish hc⟩
  | idle =>
    cases ha : M.accepts s.table (arg i) with
    | false => exact ⟨_, .bypass hc ha⟩
    | true =>
      cases hl : M.look s.table (M.key (arg i)) with
      | mk found t =>
        cases found with
        | some v => exact ⟨_, .hit hc ha hl⟩
        | none => exact ⟨_, .miss hc ha hl⟩

end Memo
end Lib
