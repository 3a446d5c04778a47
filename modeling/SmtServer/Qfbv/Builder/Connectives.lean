import SmtServer.Qfbv.Builder.Sound
import SmtServer.Qfbv.Builder.Structure

/-!
# Choices and connectives mean what they say
-/

namespace SmtServer
namespace Qfbv

open Lib Outcome Bytes
open Lib.Smt (Value)

namespace Builder

variable {V : NodeKind → Prop} {s s' : Arena} {ρ : Env}
variable {t a b c : TermId} {w : Nat} {x y : BitVec w} {p q r : Bool}

/-! ## Looking at Bools -/

/-- A constant Bool is folded. -/
theorem spec_boolConst {β : Type} {g : Option Bool → ArenaM β} {Q : β → Arena → Prop}
    (hs : s.Inv) (h : s.DenotesBool ρ t p) (hsome : Spec V (g (some p)) s Q)
    (hnone : Spec V (g none) s Q) : Spec V (Grow.read (boolConstValue t) >>= g) s Q := by
  refine spec_look h.sort (fun k v hk hf => ?_) fun _ _ _ => hnone
  rw [NodeKind.boolConst?_eq.mp hf] at hk
  obtain rfl := hs.boolConst h hk
  exact hsome

/-- One of the two terms is the negation of the other. -/
theorem eq_not_of_boolPair (hs : s.Inv) (ha : s.DenotesBool ρ a p) (hb : s.DenotesBool ρ b q)
    (h : s.kindAt a = some (.boolNot b) ∨ s.kindAt b = some (.boolNot a)) : q = !p := by
  rcases h with h | h
  · obtain ⟨v, hv, rfl⟩ := hs.boolNot ha h
    rw [hv.inj hb, Bool.not_not]
  · obtain ⟨v, hv, rfl⟩ := hs.boolNot hb h
    rw [hv.inj ha]

theorem orderPair_denotesBool {f : Bool → Bool → Bool} (hf : ∀ p q, f p q = f q p)
    (ha : s.DenotesBool ρ a p) (hb : s.DenotesBool ρ b q) :
    ∃ p' q', s.DenotesBool ρ (orderPair a b).1 p' ∧ s.DenotesBool ρ (orderPair a b).2 q' ∧
      f p q = f p' q' := by
  rw [orderPair]
  split
  · exact ⟨p, q, ha, hb, rfl⟩
  · exact ⟨q, p, hb, ha, hf p q⟩

/-! ## Putting Bools together -/

theorem Spec.constBool {v : Bool} (h : v = p) :
    Spec V (boolConst v) s fun t s' => s'.DenotesBool ρ t p :=
  h ▸ (boolConst_spec v).mono fun _ _ _ _ ht => ht ρ

theorem Spec.boolNode {k : NodeKind} (hk : k.HasSort s.sortAt .bool)
    (hsem : ∀ {s' id}, s ≤ s' → k.sem ρ id (s'.value ρ) = .bool p) (hc : k.Canonical V s.kindAt) :
    Spec V (Arena.add k .bool) s fun t s' => s'.DenotesBool ρ t p :=
  (spec_add (σ := .bool) trivial hk hc).mono fun _ _ hle hs' hn => hs'.inv.denotesBool hn (hsem hle)

/-- A predicate of two vectors. -/
theorem Spec.relNode {k : NodeKind} {f : ∀ {w : Nat}, BitVec w → BitVec w → Bool}
    (ha : s.Denotes ρ a x) (hb : s.Denotes ρ b y)
    (hsort : ∀ {srt w}, srt a = some (.bv w) → srt b = some (.bv w) → k.HasSort srt .bool)
    (hsem : ∀ {id look}, k.sem ρ id look = Value.rel₂ f (look a) (look b))
    (hc : k.Canonical V s.kindAt) :
    Spec V (Arena.add k .bool) s fun t s' => s'.DenotesBool ρ t (f x y) := by
  refine Spec.boolNode (hsort ha.sort hb.sort) (fun hle => ?_) hc
  rw [hsem, (ha.mono hle).value, (hb.mono hle).value, Value.rel₂_bv]

/-- A connective of two Bools. -/
theorem Spec.connective {k : NodeKind} {f : Bool → Bool → Bool} (ha : s.DenotesBool ρ a p)
    (hb : s.DenotesBool ρ b q)
    (hsort : ∀ {srt}, srt a = some .bool → srt b = some .bool → k.HasSort srt .bool)
    (hsem : ∀ {id look}, k.sem ρ id look = .bool (f (look a).toBool (look b).toBool))
    (hc : k.Canonical V s.kindAt) :
    Spec V (Arena.add k .bool) s fun t s' => s'.DenotesBool ρ t (f p q) := by
  refine Spec.boolNode (hsort ha.sort hb.sort) (fun hle => ?_) hc
  rw [hsem, (ha.mono hle).value, (hb.mono hle).value, Value.toBool_bool, Value.toBool_bool]

/-! ## Connectives -/

theorem boolNot_spec (h : s.DenotesBool ρ t p) :
    Spec V (boolNot t) s fun t' s' => s'.DenotesBool ρ t' (!p) := by
  refine Spec.intro fun hs => ?_
  refine spec_read (Arena.expectBool_of_sort h.sort) ?_
  refine spec_boolConst hs.inv h (Spec.constBool rfl) ?_
  refine spec_look h.sort (fun k inner hk hf => ?_) fun k hk hf => ?_
  · rw [NodeKind.boolNot?_eq.mp hf] at hk
    obtain ⟨v, hv, rfl⟩ := hs.inv.boolNot h hk
    exact spec_pure (by rwa [Bool.not_not])
  · refine Spec.boolNode (k := .boolNot t) ⟨rfl, h.sort⟩ (fun hle => ?_) trivial
    rw [NodeKind.sem, (h.mono hle).value]
    rfl

theorem boolAnd_spec (ha : s.DenotesBool ρ a p) (hb : s.DenotesBool ρ b q) :
    Spec V (boolAnd a b) s fun t s' => s'.DenotesBool ρ t (p && q) := by
  refine Spec.intro fun hs => ?_
  obtain ⟨p', q', ha', hb', hpq⟩ := orderPair_denotesBool (f := (· && ·)) Bool.and_comm ha hb
  rw [show (p && q) = (p' && q') from hpq, boolAnd]
  generalize orderPair a b = ab at ha' hb' ⊢
  obtain ⟨a', b'⟩ := ab
  dsimp only at ha' hb' ⊢
  refine spec_read (Arena.expectBool_of_sort ha'.sort) ?_
  refine spec_read (Arena.expectBool_of_sort hb'.sort) ?_
  split
  · subst b'
    rw [ha'.inj hb', Bool.and_self]
    exact spec_pure hb'
  refine spec_tells (tells_isBoolNegationPair ha' hb') (fun h => ?_) fun _ => ?_
  · obtain rfl := eq_not_of_boolPair hs.inv ha' hb' h
    exact Spec.constBool (Bool.and_not_self p').symm
  refine spec_boolConst hs.inv ha' ?_ (spec_boolConst hs.inv hb' ?_ ?_)
  · cases p' with
    | true => exact spec_pure hb'
    | false => exact spec_pure ha'
  · cases q' with
    | true => exact spec_pure (by rwa [Bool.and_true])
    | false => exact spec_pure (by rwa [Bool.and_false])
  · exact Spec.connective (k := .boolAnd a' b') (f := (· && ·)) ha' hb'
      (fun h h' => ⟨rfl, h, h'⟩) rfl trivial

theorem boolOr_spec (ha : s.DenotesBool ρ a p) (hb : s.DenotesBool ρ b q) :
    Spec V (boolOr a b) s fun t s' => s'.DenotesBool ρ t (p || q) := by
  refine Spec.intro fun hs => ?_
  obtain ⟨p', q', ha', hb', hpq⟩ := orderPair_denotesBool (f := (· || ·)) Bool.or_comm ha hb
  rw [show (p || q) = (p' || q') from hpq, boolOr]
  generalize orderPair a b = ab at ha' hb' ⊢
  obtain ⟨a', b'⟩ := ab
  dsimp only at ha' hb' ⊢
  refine spec_read (Arena.expectBool_of_sort ha'.sort) ?_
  refine spec_read (Arena.expectBool_of_sort hb'.sort) ?_
  split
  · subst b'
    rw [ha'.inj hb', Bool.or_self]
    exact spec_pure hb'
  refine spec_tells (tells_isBoolNegationPair ha' hb') (fun h => ?_) fun _ => ?_
  · obtain rfl := eq_not_of_boolPair hs.inv ha' hb' h
    exact Spec.constBool (Bool.or_not_self p').symm
  refine spec_boolConst hs.inv ha' ?_ (spec_boolConst hs.inv hb' ?_ ?_)
  · cases p' with
    | true => exact spec_pure ha'
    | false => exact spec_pure hb'
  · cases q' with
    | true => exact spec_pure (by rwa [Bool.or_true])
    | false => exact spec_pure (by rwa [Bool.or_false])
  · exact Spec.connective (k := .boolOr a' b') (f := (· || ·)) ha' hb'
      (fun h h' => ⟨rfl, h, h'⟩) rfl trivial

theorem boolImplies_spec (ha : s.DenotesBool ρ a p) (hb : s.DenotesBool ρ b q) :
    Spec V (boolImplies a b) s fun t s' => s'.DenotesBool ρ t (!p || q) := by
  refine Spec.intro fun hs => ?_
  refine spec_read (Arena.expectBool_of_sort ha.sort) ?_
  refine spec_read (Arena.expectBool_of_sort hb.sort) ?_
  split
  · subst b
    rw [ha.inj hb]
    exact Spec.constBool (Bool.not_or_self q).symm
  refine spec_boolConst hs.inv ha ?_ (spec_boolConst hs.inv hb ?_ ?_)
  · cases p with
    | true => exact spec_pure hb
    | false => exact Spec.constBool rfl
  · cases q with
    | true => exact Spec.constBool (Bool.or_true _).symm
    | false =>
      rw [Bool.or_false]
      exact boolNot_spec ha
  · exact Spec.connective (k := .boolImplies a b) (f := fun p q => !p || q) ha hb
      (fun h h' => ⟨rfl, h, h'⟩) rfl trivial

theorem boolEq_spec (ha : s.DenotesBool ρ a p) (hb : s.DenotesBool ρ b q) :
    Spec V (boolEq a b) s fun t s' => s'.DenotesBool ρ t (p == q) := by
  refine Spec.intro fun hs => ?_
  refine spec_read (Arena.expectBool_of_sort ha.sort) ?_
  refine spec_read (Arena.expectBool_of_sort hb.sort) ?_
  split
  · subst b
    exact Spec.constBool (by rw [ha.inj hb, beq_self_eq_true])
  refine spec_tells (tells_isBoolNegationPair ha hb) (fun h => ?_) fun _ => ?_
  · obtain rfl := eq_not_of_boolPair hs.inv ha hb h
    exact Spec.constBool (by cases p <;> rfl)
  have hnode : Spec V (Arena.add (.boolEq (orderPair a b).1 (orderPair a b).2) .bool) s fun t s' =>
      s'.DenotesBool ρ t (p == q) := by
    obtain ⟨p', q', ha', hb', hpq⟩ :=
      orderPair_denotesBool (f := fun p q => p == q) (fun p q => by cases p <;> cases q <;> rfl) ha hb
    rw [show (p == q) = (p' == q') from hpq]
    exact Spec.connective (f := fun p q => p == q) ha' hb' (fun h h' => ⟨rfl, h, h'⟩) rfl trivial
  exact spec_boolConst hs.inv ha (spec_boolConst hs.inv hb (Spec.constBool rfl) hnode) hnode

theorem boolXor_spec (ha : s.DenotesBool ρ a p) (hb : s.DenotesBool ρ b q) :
    Spec V (boolXor a b) s fun t s' => s'.DenotesBool ρ t (!(p == q)) :=
  (boolEq_spec ha hb).bind fun _ _ _ _ h => boolNot_spec h

/-! ## Choices -/

theorem boolIte_spec (hc : s.DenotesBool ρ c p) (ha : s.DenotesBool ρ a q)
    (hb : s.DenotesBool ρ b r) :
    Spec V (boolIte c a b) s fun t s' => s'.DenotesBool ρ t (if p then q else r) := by
  refine Spec.intro fun hs => ?_
  refine spec_read (Arena.expectBool_of_sort hc.sort) ?_
  refine spec_read (Arena.expectBool_of_sort ha.sort) ?_
  refine spec_read (Arena.expectBool_of_sort hb.sort) ?_
  split
  · subst b
    rw [ha.inj hb, ite_self]
    exact spec_pure hb
  refine spec_boolConst hs.inv hc ?_ ?_
  · cases p with
    | true => exact spec_pure ha
    | false => exact spec_pure hb
  · refine Spec.boolNode (k := .boolIte c a b) ⟨rfl, hc.sort, ha.sort, hb.sort⟩ (fun hle => ?_)
      trivial
    rw [NodeKind.sem, Smt.ite, (hc.mono hle).value, (ha.mono hle).value, (hb.mono hle).value]
    cases p <;> rfl

theorem bvIte_spec (hc : s.DenotesBool ρ c p) (ha : s.Denotes ρ a x) (hb : s.Denotes ρ b y) :
    Spec V (bvIte c a b) s fun t s' => s'.Denotes ρ t (if p then x else y) := by
  refine Spec.intro fun hs => ?_
  refine spec_read (Arena.expectBool_of_sort hc.sort) ?_
  refine spec_read (Arena.expectSameBv_of_sort ha.sort hb.sort) ?_
  split
  · subst b
    rw [ha.inj hb, ite_self]
    exact spec_pure hb
  refine spec_boolConst hs.inv hc ?_ ?_
  · cases p with
    | true => exact spec_pure ha
    | false => exact spec_pure hb
  · refine (spec_add (k := .bvIte c a b) (hs.inv.denotes_sortOk ha)
      ⟨w, rfl, hc.sort, ha.sort, hb.sort⟩ trivial).mono fun t s' hle hs' hn => ?_
    refine hs'.inv.denotes hn ?_
    rw [NodeKind.sem, Smt.ite, (hc.mono hle).value, (ha.mono hle).value, (hb.mono hle).value]
    cases p <;> rfl

/-- What the cases of a select denote. -/
def CasesDenote (s : Arena) (ρ : Env) (cases : List (TermId × TermId))
    (values : List (Bool × BitVec w)) : Prop :=
  List.Forall₂ (fun p v => s.DenotesBool ρ p.1 v.1 ∧ s.Denotes ρ p.2 v.2) cases values

/-- The value of the first case whose selector holds. -/
def selectBits (values : List (Bool × BitVec w)) (default : BitVec w) : BitVec w :=
  match values with
  | [] => default
  | (c, v) :: rest => if c then v else selectBits rest default

variable {cases : List (TermId × TermId)} {values : List (Bool × BitVec w)}

theorem checkSelectCases_ok (h : CasesDenote s ρ cases values) :
    cases.forM (checkSelectCase w) s = ok () := by
  induction h with
  | nil => rfl
  | @cons p v cases values hp _ ih =>
    have hone : checkSelectCase w p s = ok () := by
      simp only [checkSelectCase, bind_apply, expectBool, expectBv,
        Arena.expectBool_of_sort hp.1.sort, Arena.expectBv_of_sort hp.2.sort, ok_bind]
      exact ensure_eq_ok.mpr trivial
    change (checkSelectCase w p >>= fun _ => cases.forM (checkSelectCase w)) s = ok ()
    rw [bind_apply, hone, ok_bind, ih]

theorem value_select (h : CasesDenote s ρ cases values) (hd : s.Denotes ρ t x) (hle : s ≤ s') :
    Smt.select (cases.map fun (c, v) => (s'.value ρ c, s'.value ρ v)) (s'.value ρ t) =
      .bv w (selectBits values x) := by
  induction h with
  | nil => exact (hd.mono hle).value
  | @cons p v cases values hp _ ih =>
    rw [List.map_cons, Smt.select, (hp.1.mono hle).value, (hp.2.mono hle).value, ih, selectBits]
    cases v.1 <;> rfl

theorem bvSelect_spec (h : CasesDenote s ρ cases values) (hd : s.Denotes ρ t x) :
    Spec V (bvSelect cases t) s fun t' s' => s'.Denotes ρ t' (selectBits values x) := by
  refine Spec.intro fun hs => ?_
  refine spec_read (Arena.expectBv_of_sort hd.sort) (spec_read (checkSelectCases_ok h) ?_)
  have hsort : ∀ p ∈ cases, s.sortAt p.1 = some .bool ∧ s.sortAt p.2 = some (.bv w) := by
    intro p hp
    obtain ⟨i, hi, rfl⟩ := List.mem_iff_getElem.mp hp
    have hcase := h.get hi (h.length_eq ▸ hi)
    exact ⟨hcase.1.sort, hcase.2.sort⟩
  refine (spec_add (k := .bvSelect cases t) (hs.inv.denotes_sortOk hd) ⟨w, rfl, hd.sort, hsort⟩
    trivial).mono fun t' s' hle hs' hn => ?_
  exact hs'.inv.denotes hn (value_select h hd hle)

end Builder
end Qfbv
end SmtServer
