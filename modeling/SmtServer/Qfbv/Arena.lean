import SmtServer.Qfbv.Semantics

/-!
# Adding terms to an arena

`Arena::add` looks a node up before it appends it, so it keeps the representation invariant, and
the term it returns is the node that was asked for — new or old. The only error it has for a node
of a legal sort is that the ids are used up (`Arena.full`); `ArenaM` programs are specified with
that error and no other (`Arena.Spec`).
-/

namespace SmtServer
namespace Qfbv

open Lib Outcome
open Lib.Smt (Value)

namespace Arena

variable {s s' : Arena} {k : NodeKind} {σ : TermSort} {t : TermId} {α β : Type}

/-- The sort is one that terms may have. -/
def SortOk : TermSort → Prop
  | .bool => True
  | .bv w => 1 ≤ w ∧ w ≤ maxBvWidth

theorem validateSort_eq_ok {u : Unit} : validateSort σ = ok u ↔ SortOk σ := by
  cases σ with
  | bool => simp [validateSort, SortOk]
  | bv w => simp [validateSort, validateBvWidth, SortOk]

theorem bytesForWidth_ok {w : Nat} (hw : SortOk (.bv w)) : bytesForWidth w = ok (divCeil8 w) := by
  simp [bytesForWidth, validateBvWidth, ensure, hw.1, hw.2]

theorem Inv.sortOk (hs : s.Inv) (h : s.sortAt t = some σ) : SortOk σ := by
  cases σ with
  | bool => trivial
  | bv w => exact hs.width_le t w h

/-- Appending a well-sorted node that is not there yet. -/
theorem Inv.snoc (hs : s.Inv) (hσ : SortOk σ) (hk : k.HasSort s.sortAt σ)
    (hnew : (⟨k, σ⟩ : Node) ∉ s.nodes) (hlt : s.nodes.length < 2 ^ 32) :
    Inv ⟨s.nodes ++ [⟨k, σ⟩]⟩ := by
  have hle : s ≤ ⟨s.nodes ++ [⟨k, σ⟩]⟩ := List.prefix_append _ _
  have hrow : ∀ {i m}, (s.nodes ++ [⟨k, σ⟩])[i]? = some m →
      s.nodes[i]? = some m ∨ (i = s.nodes.length ∧ m = ⟨k, σ⟩) := by
    intro i m hm
    rw [List.getElem?_append] at hm
    split at hm
    · exact .inl hm
    · rw [List.getElem?_singleton] at hm
      split at hm
      · exact .inr ⟨by omega, (Option.some.inj hm).symm⟩
      · cases hm
  refine ⟨?_, ?_, ?_, ?_, ?_⟩
  · apply hs.ordered.snoc
    intro j hj
    obtain ⟨τ, hτ⟩ := hk.children_some hj
    exact lt_of_sortAt hτ
  · intro t n hn
    rcases hrow hn with hold | ⟨-, rfl⟩
    · exact (hs.sorted t n hold).mono fun j _ τ hτ => sortAt_mono hle hτ
    · exact hk.mono fun j _ τ hτ => sortAt_mono hle hτ
  · intro t w ht
    obtain ⟨n, hn, hsort⟩ := sortAt_eq_some.mp ht
    rcases hrow hn with hold | ⟨-, rfl⟩
    · exact hs.width_le t w (sortAt_eq_some.mpr ⟨n, hold, hsort⟩)
    · obtain rfl : σ = .bv w := hsort
      exact hσ
  · rw [List.nodup_append]
    refine ⟨hs.nodup, by simp, ?_⟩
    intro a ha b hb
    rw [List.mem_singleton] at hb
    subst hb
    rintro rfl
    exact hnew ha
  · rw [List.length_append, List.length_singleton]
    omega

/-- What `add` can do: find the node, append it, or refuse because the ids are used up. -/
theorem add_cases (hs : s.Inv) (hσ : SortOk σ) (hk : k.HasSort s.sortAt σ) :
    (∃ t, (add k σ).run s = (ok t, s) ∧ s.nodes[t]? = some ⟨k, σ⟩) ∨
    (s.nodes.length < 2 ^ 32 ∧ (add k σ).run s = (ok s.nodes.length, ⟨s.nodes ++ [⟨k, σ⟩]⟩) ∧
      Inv ⟨s.nodes ++ [⟨k, σ⟩]⟩) ∨
    (s.nodes.length = 2 ^ 32 ∧ (add k σ).run s = (err full, s)) := by
  have hok : validateSort σ = ok () := validateSort_eq_ok.mpr hσ
  cases hfind : s.nodes.findIdx? (· = ⟨k, σ⟩) with
  | some existing =>
    left
    refine ⟨existing, by simp only [add, hok, hfind], ?_⟩
    obtain ⟨hlt, hp, -⟩ := List.findIdx?_eq_some_iff_getElem.mp hfind
    rw [List.getElem?_eq_getElem hlt, Option.some.injEq]
    simpa using hp
  | none =>
    have hnew : (⟨k, σ⟩ : Node) ∉ s.nodes := by
      intro hmem
      have := List.findIdx?_eq_none_iff.mp hfind _ hmem
      simp at this
    right
    by_cases hlt : s.nodes.length < 2 ^ 32
    · left
      exact ⟨hlt, by simp only [add, hok, hfind, if_pos hlt], hs.snoc hσ hk hnew hlt⟩
    · right
      have hb := hs.bounded
      exact ⟨by omega, by simp only [add, hok, hfind, if_neg hlt]⟩

/-! ## Specifications -/

/-- The one error of a computation whose arguments are right: all ids are in use. -/
def UsedUp (e : Error) (s : Arena) : Prop := e = full ∧ s.nodes.length = 2 ^ 32

/-- From an arena with the invariant, the run does not panic, keeps the invariant, fails at most
for want of ids, and returns what `Q` allows. -/
def Spec (m : ArenaM α) (s : Arena) (Q : α → Arena → Prop) : Prop :=
  Grow.Spec (fun _ => True) Inv UsedUp m s Q

theorem Spec.bind {m : ArenaM α} {f : α → ArenaM β} {P : α → Arena → Prop} {Q : β → Arena → Prop}
    (hm : Spec m s P) (hf : ∀ a s', s ≤ s' → s'.Inv → P a s' → Spec (f a) s' Q) :
    Spec (m >>= f) s Q := by
  refine Grow.Spec.bind (fun _ _ => trivial) hm ?_
  intro a s' hle hp hs'
  exact hf a s' hle hs' hp hs'

theorem spec_pure {a : α} {Q : α → Arena → Prop} (h : s.Inv → Q a s) :
    Spec (pure a : ArenaM α) s Q := by
  intro hs
  exact Grow.spec_pure (h hs) hs

/-- A read that succeeds disappears from the goal. -/
theorem spec_read {f : Arena → Result α} {g : α → ArenaM β} {Q : β → Arena → Prop} {a : α}
    (hf : f s = ok a) (hg : Spec (g a) s Q) : Spec (Grow.read f >>= g) s Q := by
  apply Grow.spec_read
  · rw [hf]
    exact safe_ok a
  · intro e he
    rw [hf] at he
    cases he
  · intro b hb
    rw [hf] at hb
    exact Outcome.ok.inj hb ▸ hg

theorem Spec.mono {m : ArenaM α} {P Q : α → Arena → Prop} (h : Spec m s P)
    (hpq : ∀ a s', s ≤ s' → s'.Inv → P a s' → Q a s') : Spec m s Q :=
  Grow.Spec.mono h hpq

/-- `add` returns a term with the node that was asked for. -/
theorem add_spec (hσ : SortOk σ) (hk : k.HasSort s.sortAt σ) :
    Spec (add k σ) s fun t s' => s'.nodes[t]? = some ⟨k, σ⟩ := by
  intro hs
  rcases add_cases hs hσ hk with ⟨t, hrun, ht⟩ | ⟨-, hrun, hinv⟩ | ⟨hlen, hrun⟩
  · exact Grow.wp_of_run hrun fun _ => ⟨hs, ht⟩
  · refine Grow.wp_of_run hrun fun _ => ⟨hinv, ?_⟩
    simp
  · intro _
    rw [hrun]
    exact ⟨⟨rfl, hlen⟩, hs⟩

/-- Read a specification back as what a run can do. -/
theorem Spec.cases {m : ArenaM α} {Q : α → Arena → Prop} (h : Spec m s Q) (hs : s.Inv) :
    (∃ a s', m.run s = (ok a, s') ∧ s ≤ s' ∧ s'.Inv ∧ Q a s') ∨
      ∃ s', m.run s = (err full, s') ∧ s'.nodes.length = 2 ^ 32 := by
  have hw := h hs trivial
  have hle := m.grows s
  revert hw hle
  cases m.run s with
  | mk o s' =>
    cases o with
    | ok a =>
      intro hw hle
      exact .inl ⟨a, s', rfl, hle, hw.1, hw.2⟩
    | err e =>
      rintro ⟨⟨rfl, hlen⟩, -⟩ -
      exact .inr ⟨s', rfl, hlen⟩
    | panic =>
      intro hw
      exact absurd hw id

/-- The run adds at most `n` nodes. -/
def Adds (m : ArenaM α) (n : Nat) : Prop := ∀ s, (m.run s).2.nodes.length ≤ s.nodes.length + n

theorem adds_add : Adds (add k σ) 1 := by
  intro s
  unfold add
  dsimp only
  split
  · simp
  · simp
  · split
    · simp
    · split
      · simp
      · simp

theorem Adds.bind {m : ArenaM α} {f : α → ArenaM β} {n l : Nat} (hm : Adds m n)
    (hf : ∀ a, Adds (f a) l) : Adds (m >>= f) (n + l) := by
  intro s
  have h := hm s
  rw [Grow.run_bind]
  revert h
  cases m.run s with
  | mk o s' =>
    intro h
    cases o with
    | ok a =>
      have h' := hf a s'
      simp only at h h' ⊢
      omega
    | err e =>
      simp only at h ⊢
      omega
    | panic =>
      simp only at h ⊢
      omega

/-! ## Looking terms up -/

theorem node_eq_ok {n : Node} : s.node t = ok n ↔ s.nodes[t]? = some n := ofOption_eq_ok

theorem sort_eq_ok : s.sort t = ok σ ↔ s.sortAt t = some σ := by
  simp only [sort, bind_eq_ok, node_eq_ok, pure_eq, Outcome.ok.injEq, sortAt_eq_some]

theorem expectBool_of_sort {context : String} (h : s.sortAt t = some .bool) :
    s.expectBool t context = ok () := by
  rw [expectBool, sort_eq_ok.mpr h]
  rfl

theorem expectBv_eq_ok {context : String} {w : Nat} :
    s.expectBv t context = ok w ↔ s.sortAt t = some (.bv w) := by
  simp only [expectBv, bind_eq_ok, sort_eq_ok]
  constructor
  · rintro ⟨σ, hσ, h⟩
    cases σ with
    | bool => cases h
    | bv v =>
      obtain rfl := Outcome.ok.inj h
      exact hσ
  · exact fun h => ⟨.bv w, h, rfl⟩

theorem expectBv_of_sort {context : String} {w : Nat} (h : s.sortAt t = some (.bv w)) :
    s.expectBv t context = ok w := by
  rw [expectBv, sort_eq_ok.mpr h]
  rfl

theorem expectSameBv_of_sort {context : String} {a b : TermId} {w : Nat}
    (ha : s.sortAt a = some (.bv w)) (hb : s.sortAt b = some (.bv w)) :
    s.expectSameBv a b context = ok w := by
  rw [expectSameBv, expectBv_of_sort ha, ok_bind, expectBv_of_sort hb, ok_bind]
  simp [Outcome.ensure]

end Arena
end Qfbv
end SmtServer
