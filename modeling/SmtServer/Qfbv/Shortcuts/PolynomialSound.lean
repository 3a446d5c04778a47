import Mathlib.Algebra.BigOperators.Group.List.Lemmas
import Mathlib.Data.ZMod.Basic
import Mathlib.Tactic.LinearCombination
import SmtServer.Qfbv.Check
import SmtServer.Qfbv.Shortcuts.Polynomial

/-!
# `polynomial.rs` — what an evaluated equation says

A normal form stands for a sum of products of terms, modulo `2 ^ width`; coefficients of any kind
will do that can be read as residues (`Interprets`). Integers can at every width, the `u64`s of the
code at widths up to 64. Above, two terms may have one normal form without being equal, when their
coefficients differ by a multiple of `2 ^ 64` (`Unwrapped`).
-/

namespace SmtServer
namespace Qfbv

open Lib Outcome

namespace Shortcuts

/-! ## Masks -/

theorem toNat_and_maskForWidth {w : Nat} (hw : w ≤ 64) (x : UInt64) :
    (x &&& maskForWidth w).toNat = x.toNat % 2 ^ w := by
  have hmask : (maskForWidth w).toNat = 2 ^ w - 1 := by
    unfold maskForWidth
    split
    · obtain rfl : w = 64 := by omega
      rfl
    · have hpow : 2 ^ w < 2 ^ 64 := Nat.pow_lt_pow_right (by decide) (by omega)
      have hpos := Nat.two_pow_pos w
      have hshift : ((1 : UInt64) <<< UInt64.ofNat w).toNat = 2 ^ w := by
        rw [UInt64.toNat_shiftLeft, UInt64.toNat_ofNat', Nat.mod_eq_of_lt (a := w) (by omega),
          Nat.mod_eq_of_lt (a := w) (by omega), UInt64.toNat_one, Nat.one_shiftLeft,
          Nat.mod_eq_of_lt hpow]
      rw [UInt64.toNat_sub_of_le, hshift, UInt64.toNat_one]
      rw [UInt64.le_iff_toNat_le, hshift, UInt64.toNat_one]
      exact hpos
  rw [UInt64.toNat_and, hmask, Nat.and_two_pow_sub_one_eq_mod]

/-! ## Coefficients as residues -/

section Residues

variable {κ : Type} [Coefficient κ] {w : Nat}

/-- Reading coefficients as residues, which masking to the width does not change. -/
structure Interprets (w : Nat) (φ : κ → ZMod (2 ^ w)) : Prop where
  zero_add : ∀ c : κ, 0 + c = c
  zero : φ 0 = 0
  one : φ 1 = 1
  add : ∀ c d, φ (c + d) = φ c + φ d
  neg : ∀ c, φ (-c) = -φ c
  mul : ∀ c d, φ (c * d) = φ c * φ d
  mask : ∀ c, φ (Coefficient.mask w c) = φ c
  ofBytes : ∀ v bytes, leNat bytes < 2 ^ v → (∀ b ∈ bytes.drop 8, b = 0) →
    φ (Coefficient.mask v (Coefficient.ofBytes bytes)) = leNat bytes

end Residues

/-- Eight bytes that are all that count are all. -/
theorem leNat_take_eight {bytes : List UInt8} (h : ∀ b ∈ bytes.drop 8, b = 0) :
    leNat (bytes.take 8) = leNat bytes := by
  conv_rhs => rw [← List.take_append_drop 8 bytes]
  rw [leNat_append, leNat_eq_zero.mpr h, Nat.mul_zero, Nat.add_zero]

theorem interprets_int (w : Nat) : Interprets w fun c : Int => (c : ZMod (2 ^ w)) where
  zero_add := Int.zero_add
  zero := Int.cast_zero
  one := Int.cast_one
  add := Int.cast_add
  neg := Int.cast_neg
  mul := Int.cast_mul
  mask c := by
    have h := ZMod.intCast_mod c (2 ^ w)
    push_cast at h
    exact h
  ofBytes v bytes hlt h := by
    have hmask : Coefficient.mask v (Coefficient.ofBytes bytes) = (leNat bytes : Int) := by
      change ((leNat (bytes.take 8) : Nat) : Int) % 2 ^ v = _
      rw [leNat_take_eight h]
      exact_mod_cast Nat.mod_eq_of_lt hlt
    rw [hmask, Int.cast_natCast]

/-- Words wrap at `2 ^ 64`, so they are residues at widths up to 64. -/
theorem interprets_u64 {w : Nat} (hw : w ≤ 64) :
    Interprets w fun c : UInt64 => (c.toNat : ZMod (2 ^ w)) := by
  have hwrap : ∀ n : Nat, ((n % 2 ^ 64 : Nat) : ZMod (2 ^ w)) = n := by
    intro n
    rw [ZMod.natCast_eq_natCast_iff]
    exact (Nat.mod_modEq n (2 ^ 64)).of_dvd (pow_dvd_pow 2 hw)
  refine ⟨fun c => UInt64.zero_add c, by simp, by simp, ?_, ?_, ?_, ?_, ?_⟩
  · intro c d
    rw [UInt64.toNat_add, hwrap, Nat.cast_add]
  · intro c
    have hzero : ((2 ^ 64 : Nat) : ZMod (2 ^ w)) = 0 :=
      (ZMod.natCast_eq_zero_iff _ _).mpr (pow_dvd_pow 2 hw)
    rw [UInt64.toNat_neg, show UInt64.size = 2 ^ 64 from rfl, hwrap, Nat.cast_sub c.toNat_lt.le,
      hzero, zero_sub]
  · intro c d
    rw [UInt64.toNat_mul, hwrap, Nat.cast_mul]
  · intro c
    change ((c &&& maskForWidth w).toNat : ZMod (2 ^ w)) = _
    rw [toNat_and_maskForWidth hw, ZMod.natCast_mod]
  · intro v bytes hlt h
    change ((bytesToU64 bytes &&& maskForWidth v).toNat : ZMod (2 ^ w)) = _
    have hbytes : (bytesToU64 bytes).toNat = leNat bytes := by
      have hlt : leNat (bytes.take 8) < 2 ^ 64 := by
        refine (leNat_lt_two_pow _).trans_le (Nat.pow_le_pow_right (by decide) ?_)
        have := List.length_take_le 8 bytes
        omega
      rw [bytesToU64, UInt64.toNat_ofNat', leNat_take_eight h, Nat.mod_eq_of_lt]
      rwa [← leNat_take_eight h]
    rcases Nat.lt_or_ge 64 v with hv | hv
    · have hall : maskForWidth v = maskForWidth 64 := by
        unfold maskForWidth
        rw [if_pos hv.le, if_pos (le_refl 64)]
      rw [hall, toNat_and_maskForWidth (le_refl 64), hbytes, hwrap]
    · rw [toNat_and_maskForWidth hv, hbytes, Nat.mod_eq_of_lt hlt]

/-! ## The value of a polynomial -/

section Value

variable {κ : Type} [Coefficient κ] [DecidableEq κ] {w : Nat} {φ : κ → ZMod (2 ^ w)}
variable {x : TermId → ZMod (2 ^ w)} {p q r : BvPolynomial κ} {m : List TermId} {c : κ}

/-- The value of a polynomial where the terms have the residues `x`. -/
def BvPolynomial.value (φ : κ → ZMod (2 ^ w)) (x : TermId → ZMod (2 ^ w)) (p : BvPolynomial κ) :
    ZMod (2 ^ w) :=
  Table.sum (fun m c => φ c * (m.map x).prod) p.terms

theorem width_addMonomial : (polynomialAddMonomial p m c).width = p.width := by
  unfold polynomialAddMonomial
  dsimp only
  split <;> rfl

theorem value_addMonomial (hφ : Interprets w φ) (hp : p.width = w) :
    (polynomialAddMonomial p m c).value φ x = p.value φ x + φ c * (m.map x).prod := by
  -- the old coefficient of the monomial, and what is left without it
  have hold : p.value φ x =
      φ ((p.terms.lookup m).getD 0) * (m.map x).prod +
        Table.sum (fun m c => φ c * (m.map x).prod) (p.terms.erase m) := by
    unfold BvPolynomial.value
    cases h : p.terms.lookup m with
    | none => rw [Option.getD_none, hφ.zero, zero_mul, zero_add, Table.sum_erase_of_none h]
    | some d => rw [Option.getD_some, Table.sum_of_some h]
  have hnew : φ (Coefficient.mask p.width ((p.terms.lookup m).getD 0 + c)) =
      φ ((p.terms.lookup m).getD 0) + φ c := by
    rw [hp, hφ.mask, hφ.add]
  unfold polynomialAddMonomial
  dsimp only
  split
  · rename_i hzero
    rw [hzero, hφ.zero] at hnew
    rw [hold, BvPolynomial.value]
    linear_combination (m.map x).prod * hnew
  · rw [hold, BvPolynomial.value, Table.sum_insert, hnew]
    ring

/-- Adding up monomials. -/
theorem foldl_addMonomial {α : Type} (hφ : Interprets w φ) (mono : α → List TermId)
    (coeff : α → κ) (es : List α) : ∀ p : BvPolynomial κ, p.width = w →
      (es.foldl (fun p e => polynomialAddMonomial p (mono e) (coeff e)) p).width = w ∧
      (es.foldl (fun p e => polynomialAddMonomial p (mono e) (coeff e)) p).value φ x =
        p.value φ x + (es.map fun e => φ (coeff e) * ((mono e).map x).prod).sum := by
  induction es with
  | nil => exact fun p hp => ⟨hp, by simp⟩
  | cons e es ih =>
    intro p hp
    obtain ⟨hw, hv⟩ := ih (polynomialAddMonomial p (mono e) (coeff e)) (width_addMonomial.trans hp)
    refine ⟨hw, ?_⟩
    rw [List.foldl_cons, hv, value_addMonomial hφ hp, List.map_cons, List.sum_cons, add_assoc]

/-- A polynomial of the width and with the value. -/
def BvPolynomial.Is (φ : κ → ZMod (2 ^ w)) (x : TermId → ZMod (2 ^ w)) (p : BvPolynomial κ)
    (v : ZMod (2 ^ w)) : Prop :=
  p.width = w ∧ p.value φ x = v

variable {u v : ZMod (2 ^ w)}

omit [DecidableEq κ] in
theorem is_base (hφ : Interprets w φ) (t : TermId) :
    (polynomialBase t w : BvPolynomial κ).Is φ x (x t) := by
  refine ⟨rfl, ?_⟩
  rw [polynomialBase, BvPolynomial.value, Table.sum_insert, Table.sum_erase_of_none rfl,
    Table.sum_empty, hφ.one]
  simp

theorem is_add (hφ : Interprets w φ) (hp : p.Is φ x u) (hq : q.Is φ x v) :
    (polynomialAddAssign p q).Is φ x (u + v) := by
  obtain ⟨hw, hv⟩ := foldl_addMonomial (x := x) hφ (fun e : Sigma fun _ : List TermId => κ => e.1)
    (fun e => e.2) q.terms.entries p hp.1
  refine ⟨hw, hv.trans ?_⟩
  rw [hp.2, ← hq.2]
  rfl

theorem is_sub (hφ : Interprets w φ) (hp : p.Is φ x u) (hq : q.Is φ x v) :
    (polynomialSubAssign p q).Is φ x (u - v) := by
  obtain ⟨hw, hv⟩ := foldl_addMonomial (x := x) hφ (fun e : Sigma fun _ : List TermId => κ => e.1)
    (fun e => -e.2) q.terms.entries p hp.1
  refine ⟨hw, hv.trans ?_⟩
  simp only [hφ.neg, neg_mul]
  rw [hp.2, ← hq.2, sub_eq_add_neg, BvPolynomial.value, ← Table.sum_neg]
  rfl

theorem is_neg (hφ : Interprets w φ) (hp : p.Is φ x u) : (polynomialNegAssign p).Is φ x (-u) := by
  obtain ⟨hw, hv⟩ := foldl_addMonomial (x := x) hφ (fun e : Sigma fun _ : List TermId => κ => e.1)
    (fun e => -e.2) p.terms.entries { p with terms := ∅ } hp.1
  refine ⟨hw, hv.trans ?_⟩
  simp only [hφ.neg, neg_mul]
  rw [← hp.2, BvPolynomial.value, BvPolynomial.value, Table.sum_empty, zero_add, ← Table.sum_neg]
  rfl

/-- Adding the products of one monomial with all of a polynomial. -/
theorem is_mulRow (hφ : Interprets w φ) (l : Sigma fun _ : List TermId => κ) (hp : p.width = w) :
    (q.terms.entries.foldl (fun acc r =>
      polynomialAddMonomial acc ((l.1 ++ r.1).insertionSort (· ≤ ·))
        (Coefficient.mask w (l.2 * r.2))) p).Is φ x
      (p.value φ x + φ l.2 * (l.1.map x).prod * q.value φ x) := by
  obtain ⟨hw, hv⟩ := foldl_addMonomial (x := x) hφ
    (fun r : Sigma fun _ : List TermId => κ => (l.1 ++ r.1).insertionSort (· ≤ ·))
    (fun r => Coefficient.mask w (l.2 * r.2)) q.terms.entries p hp
  refine ⟨hw, hv.trans ?_⟩
  rw [show q.value φ x = (q.terms.entries.map fun r => φ r.2 * (r.1.map x).prod).sum from rfl,
    ← List.sum_map_mul_left]
  congr 2
  refine List.map_congr_left fun r _ => ?_
  rw [hφ.mask, hφ.mul, ((List.perm_insertionSort _ (l.1 ++ r.1)).map x).prod_eq,
    List.map_append, List.prod_append]
  ring

theorem is_mulRows (hφ : Interprets w φ) (ls : List (Sigma fun _ : List TermId => κ)) :
    ∀ p : BvPolynomial κ, p.width = w →
      (ls.foldl (fun acc l => q.terms.entries.foldl (fun acc r =>
        polynomialAddMonomial acc ((l.1 ++ r.1).insertionSort (· ≤ ·))
          (Coefficient.mask w (l.2 * r.2))) acc) p).Is φ x
        (p.value φ x + (ls.map fun l => φ l.2 * (l.1.map x).prod).sum * q.value φ x) := by
  induction ls with
  | nil => exact fun p hp => ⟨hp, by simp⟩
  | cons l ls ih =>
    intro p hp
    obtain ⟨hw, hv⟩ := is_mulRow (q := q) (x := x) hφ l hp
    obtain ⟨hw', hv'⟩ := ih _ hw
    refine ⟨hw', hv'.trans ?_⟩
    rw [hv, List.map_cons, List.sum_cons]
    ring

theorem is_mul (hφ : Interprets w φ) (hp : p.Is φ x u) (hq : q.Is φ x v)
    (h : polynomialMulAssign p q = some r) : r.Is φ x (u * v) := by
  unfold polynomialMulAssign at h
  rw [Option.ite_none_left_eq_some, hp.1] at h
  obtain ⟨hw, hv⟩ := is_mulRows (q := q) (x := x) hφ p.terms.entries ⟨w, ∅⟩ rfl
  rw [← Option.some.inj h.2, ← hp.2, ← hq.2]
  refine ⟨hw, hv.trans ?_⟩
  rw [BvPolynomial.value, Table.sum_empty, zero_add]
  rfl

omit [Coefficient κ] in
/-- Equal normal forms have equal values. -/
theorem BvPolynomial.same_value (h : p.same q = true) : p.value φ x = q.value φ x := by
  rw [BvPolynomial.same, decide_eq_true_eq] at h
  exact (h.2.map _).sum_eq

/-- A constant stands for its number at any width. -/
theorem value_constPolynomial (hφ : Interprets w φ) {v : Nat} {bytes : List UInt8}
    (hlt : leNat bytes < 2 ^ v) (h : constPolynomial v bytes = some p) :
    p.width = v ∧ p.value φ x = leNat bytes := by
  unfold constPolynomial at h
  rw [Option.ite_none_left_eq_some, List.any_eq_true] at h
  obtain ⟨hbytes, h⟩ := h
  obtain rfl := Option.some.inj h
  refine ⟨width_addMonomial, ?_⟩
  have hmask := hφ.ofBytes v bytes hlt (by simpa using hbytes)
  unfold polynomialAddMonomial
  dsimp only
  rw [AList.lookup_empty, Option.getD_none, hφ.zero_add]
  split
  · rename_i hzero
    rw [← hmask, hzero, hφ.zero, BvPolynomial.value, Table.sum_erase_of_none rfl, Table.sum_empty]
  · rw [BvPolynomial.value, Table.sum_insert, Table.sum_erase_of_none rfl, Table.sum_empty, hmask]
    simp

end Value

/-! ## What is asked for -/

end Shortcuts

/-- The operands that the evaluators look at. -/
def NodeKind.polynomialOperands : NodeKind → List TermId
  | .bvNot x | .bvNeg x | .bvExtract x _ _ | .bvZeroExtend x _ | .boolNot x => [x]
  | .bvAnd a b | .bvOr a b | .bvXor a b | .bvAdd a b | .bvSub a b | .bvMul a b | .bvConcat a b
  | .boolAnd a b | .boolOr a b | .boolImplies a b | .boolEq a b | .bvEq a b => [a, b]
  | .bvIte c t e => [c, t, e]
  | _ => []

namespace Shortcuts

variable {s : Arena} {facts : PolynomialFacts} {ρ : Env} {t a b c d : TermId}
variable {R : TermId → Prop}

/-- To evaluate `t` the code evaluates `c`: an operand, or the definition of a variable. -/
def Asks (s : Arena) (facts : PolynomialFacts) (t c : TermId) : Prop :=
  ∃ k, s.kindAt t = some k ∧
    (c ∈ k.polynomialOperands ∨ (k.isBvVar = true ∧ facts.definition t = some c))

/-- The terms of `R` are all that is evaluated. -/
def ClosedUnder (s : Arena) (facts : PolynomialFacts) (R : TermId → Prop) : Prop :=
  ∀ t c, R t → Asks s facts t c → R c

/-- The facts are true: every definition that is used for a term of `R`, every merge and every
constant. -/
structure FactsHold (s : Arena) (facts : PolynomialFacts) (ρ : Env) (R : TermId → Prop) : Prop where
  definitions : ∀ t x d, R t → x = t ∨ facts.canonical.lookup t = some x →
    facts.definitions.lookup x = some d → s.value ρ x = s.value ρ d
  canonical : ∀ t r, facts.canonical.lookup t = some r → s.value ρ t = s.value ρ r
  constants : ∀ t v, facts.constants.lookup t = some v → s.num ρ t = v.toNat

theorem ClosedUnder.operand (hR : ClosedUnder s facts R) (ht : R t) {k : NodeKind}
    (hk : s.kindAt t = some k) (hc : c ∈ k.polynomialOperands) : R c :=
  hR t c ht ⟨k, hk, .inl hc⟩

theorem ClosedUnder.definition (hR : ClosedUnder s facts R) (ht : R t) {k : NodeKind}
    (hk : s.kindAt t = some k) (hvar : k.isBvVar = true) (hd : facts.definition t = some d) : R d :=
  hR t d ht ⟨k, hk, .inr ⟨hvar, hd⟩⟩

theorem FactsHold.value_canonical (h : FactsHold s facts ρ R) (t : TermId) :
    s.value ρ (canonicalPolynomialTerm facts.canonical t) = s.value ρ t := by
  unfold canonicalPolynomialTerm
  cases hl : facts.canonical.lookup t with
  | none => rfl
  | some r => exact (h.canonical t r hl).symm

theorem FactsHold.value_definition (h : FactsHold s facts ρ R) (ht : R t)
    (hd : facts.definition t = some d) : s.value ρ t = s.value ρ d := by
  unfold PolynomialFacts.definition at hd
  rw [Option.or_eq_some_iff] at hd
  obtain hd | ⟨-, hd⟩ := hd
  · exact h.definitions t t d ht (.inl rfl) hd
  · rw [← h.value_canonical t]
    refine h.definitions t _ d ht ?_ hd
    unfold canonicalPolynomialTerm
    cases hl : facts.canonical.lookup t with
    | none => exact .inl rfl
    | some r => exact .inr rfl

/-! ## Normal forms of terms -/

section Traversal

variable {κ : Type} [Coefficient κ] [DecidableEq κ] {w : Nat} {φ : κ → ZMod (2 ^ w)}
variable {stack : List TermId} {rounds : Nat}

/-- The polynomial stands for the term, where that has the width `w` or is a constant. -/
def StandsFor (s : Arena) (ρ : Env) (φ : κ → ZMod (2 ^ w)) (t : TermId) (p : BvPolynomial κ) :
    Prop :=
  (s.IsBv t w → p.width = w) ∧
    (s.IsBv t w ∨ (∃ v bytes, s.kindAt t = some (.bvConst v bytes)) →
      p.value φ (fun t => (s.num ρ t : ZMod (2 ^ w))) = (s.num ρ t : ZMod (2 ^ w)))

omit [Coefficient κ] [DecidableEq κ] in
theorem StandsFor.is {p : BvPolynomial κ} (h : StandsFor s ρ φ t p) (ht : s.IsBv t w) :
    p.Is φ (fun t => (s.num ρ t : ZMod (2 ^ w))) (s.num ρ t) :=
  ⟨h.1 ht, h.2 (.inl ht)⟩

omit [Coefficient κ] [DecidableEq κ] in
theorem standsFor_of_is {p : BvPolynomial κ} (hk : ∀ v bytes, s.kindAt t ≠ some (.bvConst v bytes))
    (h : s.IsBv t w → p.Is φ (fun t => (s.num ρ t : ZMod (2 ^ w))) (s.num ρ t)) :
    StandsFor s ρ φ t p := by
  refine ⟨fun ht => (h ht).1, ?_⟩
  rintro (ht | ⟨v, bytes, hc⟩)
  · exact (h ht).2
  · exact absurd hc (hk v bytes)

omit [DecidableEq κ] in
/-- A term that is not looked into stands for itself. -/
theorem standsFor_base (hφ : Interprets w φ) (hfacts : FactsHold s facts ρ R) {v : Nat}
    (hv : s.IsBv t v) (hnum : s.num ρ c = s.num ρ t) :
    StandsFor s ρ φ t (polynomialBase (canonicalPolynomialTerm facts.canonical c) v) := by
  refine ⟨fun hw => hv.inj hw, fun _ => ?_⟩
  have hvalue := (is_base (x := fun t => (s.num ρ t : ZMod (2 ^ w))) hφ
    (canonicalPolynomialTerm facts.canonical c)).2
  refine hvalue.trans ?_
  rw [Arena.num, hfacts.value_canonical c, ← hnum]
  rfl

theorem isBv_of_bvPolynomial {r : Option (BvPolynomial κ) × List TermId}
    (h : bvPolynomial s facts rounds t stack = ok r) : ∃ v, s.IsBv t v := by
  cases rounds with
  | zero => cases h
  | succ rounds =>
    rw [bvPolynomial, bind_eq_ok] at h
    obtain ⟨v, hv, -⟩ := h
    exact ⟨v, Arena.expectBv_eq_ok.mp hv⟩

omit [Coefficient κ] [DecidableEq κ] in
theorem combinePolynomial_only {call : PolynomialCall κ}
    {f : BvPolynomial κ → BvPolynomial κ → Option (BvPolynomial κ)}
    (ha : ∀ st, Only (call a st) fun r => ∀ p, r.1 = some p → StandsFor s ρ φ a p)
    (hb : ∀ st, Only (call b st) fun r => ∀ p, r.1 = some p → StandsFor s ρ φ b p) :
    Only (combinePolynomial call a b f stack) fun r => ∀ p, r.1 = some p →
      ∃ pa pb, StandsFor s ρ φ a pa ∧ StandsFor s ρ φ b pb ∧ f pa pb = some p := by
  refine (ha stack).bind fun ra _ hra => (hb ra.2).bind fun rb _ hrb => ?_
  dsimp only
  split
  · rename_i pa pb hpa hpb
    split
    · exact only_ok fun p hp => nomatch hp
    · exact only_ok fun p hp => ⟨pa, pb, hra pa hpa, hrb pb hpb, hp⟩
  · exact only_ok fun p hp => nomatch hp

/-- The residue of a sum, a difference, a product. -/
theorem residue_bvAdd (hs : s.Inv) (hk : s.kindAt t = some (.bvAdd a b)) (ht : s.IsBv t w) :
    (s.num ρ t : ZMod (2 ^ w)) = s.num ρ a + s.num ρ b := by
  rw [Arena.num_bvAdd hs hk ht, ZMod.natCast_mod, Nat.cast_add]

theorem residue_bvMul (hs : s.Inv) (hk : s.kindAt t = some (.bvMul a b)) (ht : s.IsBv t w) :
    (s.num ρ t : ZMod (2 ^ w)) = s.num ρ a * s.num ρ b := by
  rw [Arena.num_bvMul hs hk ht, ZMod.natCast_mod, Nat.cast_mul]

theorem residue_bvNeg (hs : s.Inv) (hk : s.kindAt t = some (.bvNeg a)) (ht : s.IsBv t w)
    (ha : s.IsBv a w) : (s.num ρ t : ZMod (2 ^ w)) = -s.num ρ a := by
  rw [Arena.num_bvNeg hs hk ht, ZMod.natCast_mod, Nat.cast_sub (ha.num_lt hs).le,
    ZMod.natCast_self, zero_sub]

theorem residue_bvSub (hs : s.Inv) (hk : s.kindAt t = some (.bvSub a b)) (ht : s.IsBv t w)
    (hb : s.IsBv b w) : (s.num ρ t : ZMod (2 ^ w)) = s.num ρ a - s.num ρ b := by
  rw [Arena.num_bvSub hs hk ht, ZMod.natCast_mod, Nat.cast_add,
    Nat.cast_sub (hb.num_lt hs).le, ZMod.natCast_self]
  ring

/-- The normal form of a term stands for it. -/
theorem bvPolynomial_only (hs : s.Inv) (hφ : Interprets w φ) (hR : ClosedUnder s facts R)
    (hfacts : FactsHold s facts ρ R) : ∀ (rounds : Nat) (t : TermId) (stack : List TermId), R t →
      Only (bvPolynomial s facts rounds t stack) fun r =>
        ∀ p, r.1 = some p → StandsFor s ρ φ t p := by
  intro rounds
  induction rounds with
  | zero => exact fun t stack _ => only_panic
  | succ rounds ih =>
    intro t stack ht
    rw [bvPolynomial]
    refine (only_self _).bind fun v hv _ => ?_
    replace hv : s.IsBv t v := Arena.expectBv_eq_ok.mp hv
    have hbase : ∀ st : List TermId,
        Only (ok (some (polynomialBase (canonicalPolynomialTerm facts.canonical t) v), st) :
          Result (Option (BvPolynomial κ) × List TermId))
          fun r => ∀ p, r.1 = some p → StandsFor s ρ φ t p := fun st =>
      only_ok fun p hp => Option.some.inj hp ▸ standsFor_base hφ hfacts hv rfl
    split
    · exact only_ok fun p hp => nomatch hp
    split
    · exact hbase stack
    refine (only_self _).bind fun k hk _ => ?_
    replace hk := kind_eq_ok.mp hk
    have hnot : ∀ {j : NodeKind}, s.kindAt t = some j → (∀ v bytes, j ≠ .bvConst v bytes) →
        ∀ v bytes, s.kindAt t ≠ some (.bvConst v bytes) := by
      intro j hj hne v bytes hc
      exact hne v bytes (Option.some.inj (hj.symm.trans hc))
    cases k with
    | bvConst u bytes =>
      refine only_ok fun p hp => ?_
      obtain ⟨hwidth, -, hlt⟩ := hs.sort_kind hk hv
      obtain rfl : v = u := by simpa using hwidth
      obtain ⟨hpw, hval⟩ := value_constPolynomial
        (x := fun t => (s.num ρ t : ZMod (2 ^ w))) hφ hlt hp
      refine ⟨fun hw => hpw.trans (hv.inj hw), fun _ => hval.trans ?_⟩
      rw [Arena.num_bvConst hs hk]
    | bvVar u name external =>
      cases hd : facts.definition t with
      | none => exact hbase stack
      | some d =>
        have hRd := hR.definition ht hk rfl hd
        refine (only_self _).bind fun r hr _ => ?_
        refine only_ok fun p hp => standsFor_of_is (hnot hk (by simp)) fun hw => ?_
        -- the definition has the width of the variable
        obtain ⟨v', hv'⟩ := isBv_of_bvPolynomial hr
        have hvalue := hfacts.value_definition ht hd
        obtain rfl := Arena.IsBv.of_value_eq hs hw hv' hvalue
        have hp' := (ih d _ hRd r hr p hp).is hv'
        rwa [show s.num ρ d = s.num ρ t by rw [Arena.num, ← hvalue]; rfl] at hp'
    | bvAdd a b =>
      have hop := fun {c} => hR.operand (c := c) ht hk
      refine (combinePolynomial_only (fun st => ih a st (hop (by simp [NodeKind.polynomialOperands])))
        fun st => ih b st (hop (by simp [NodeKind.polynomialOperands]))).bind fun r _ hr => ?_
      refine only_ok fun p hp => standsFor_of_is (hnot hk (by simp)) fun hw => ?_
      obtain ⟨pa, pb, hpa, hpb, hsum⟩ := hr p hp
      obtain ⟨ha, hb⟩ := hs.binary_sort hk hw id
      obtain rfl := Option.some.inj hsum
      rw [residue_bvAdd hs hk hw]
      exact is_add hφ (hpa.is ha) (hpb.is hb)
    | bvSub a b =>
      have hop := fun {c} => hR.operand (c := c) ht hk
      refine (combinePolynomial_only (fun st => ih a st (hop (by simp [NodeKind.polynomialOperands])))
        fun st => ih b st (hop (by simp [NodeKind.polynomialOperands]))).bind fun r _ hr => ?_
      refine only_ok fun p hp => standsFor_of_is (hnot hk (by simp)) fun hw => ?_
      obtain ⟨pa, pb, hpa, hpb, hsum⟩ := hr p hp
      obtain ⟨ha, hb⟩ := hs.binary_sort hk hw id
      obtain rfl := Option.some.inj hsum
      rw [residue_bvSub hs hk hw hb]
      exact is_sub hφ (hpa.is ha) (hpb.is hb)
    | bvMul a b =>
      have hop := fun {c} => hR.operand (c := c) ht hk
      refine (combinePolynomial_only (fun st => ih a st (hop (by simp [NodeKind.polynomialOperands])))
        fun st => ih b st (hop (by simp [NodeKind.polynomialOperands]))).bind fun r _ hr => ?_
      refine only_ok fun p hp => standsFor_of_is (hnot hk (by simp)) fun hw => ?_
      obtain ⟨pa, pb, hpa, hpb, hprod⟩ := hr p hp
      obtain ⟨ha, hb⟩ := hs.binary_sort hk hw id
      rw [residue_bvMul hs hk hw]
      exact is_mul hφ (hpa.is ha) (hpb.is hb) hprod
    | bvNeg child =>
      have hop := hR.operand (c := child) ht hk (by simp [NodeKind.polynomialOperands])
      refine (ih child (t :: stack) hop).bind fun r _ hr => ?_
      refine only_ok fun p hp => standsFor_of_is (hnot hk (by simp)) fun hw => ?_
      obtain ⟨pc, hpc, rfl⟩ := Option.map_eq_some_iff.mp hp
      obtain ⟨v', hsort, hc⟩ := hs.sort_kind hk hw
      obtain rfl : w = v' := by simpa using hsort
      rw [residue_bvNeg hs hk hw hc]
      exact is_neg hφ ((hr pc hpc).is hc)
    | bvZeroExtend child extra =>
      have hop := hR.operand (c := child) ht hk (by simp [NodeKind.polynomialOperands])
      refine (only_self _).bind fun k' hk' _ => ?_
      replace hk' := kind_eq_ok.mp hk'
      have hnum := Arena.num_bvZeroExtend (ρ := ρ) hs hk
      cases k' with
      | bvConst u bytes =>
        refine (ih child (t :: stack) hop).bind fun r _ hr => ?_
        obtain ⟨o, st⟩ := r
        cases o with
        | none => exact only_ok fun p hp => nomatch hp
        | some pc =>
          refine only_ok fun p hp => standsFor_of_is (hnot hk (by simp)) fun hw => ?_
          obtain rfl := Option.some.inj hp
          refine ⟨hv.inj hw, ((hr pc rfl).2 (.inr ⟨u, bytes, hk'⟩)).trans ?_⟩
          rw [hnum]
      | bvVar => exact only_ok fun p hp => Option.some.inj hp ▸ standsFor_base hφ hfacts hv hnum.symm
      | _ => exact hbase stack
    | _ => exact hbase stack

end Traversal

/-- The two terms have one normal form. -/
def SameNormalForm (κ : Type) [Coefficient κ] [DecidableEq κ] (s : Arena)
    (facts : PolynomialFacts) (a b : TermId) : Prop :=
  ∃ p q, polynomialOf κ s facts a = ok (some p) ∧ polynomialOf κ s facts b = ok (some q) ∧
    p.same q = true

/-- The two terms are at most `limit` bits wide, or their normal forms are the same modulo `2 ^ 64`
only if they are the same modulo `2 ^ width`. -/
def Unwrapped (limit : Nat) (s : Arena) (facts : PolynomialFacts) (a b : TermId) : Prop :=
  ∀ w, s.IsBv a w → limit < w →
    SameNormalForm UInt64 s facts a b → SameNormalForm Int s facts a b

/-- Terms with one normal form are equal, if the coefficients are residues at their width. -/
theorem SameNormalForm.equal {κ : Type} [Coefficient κ] [DecidableEq κ] {w : Nat}
    {φ : κ → ZMod (2 ^ w)} (h : SameNormalForm κ s facts a b) (hs : s.Inv) (hφ : Interprets w φ)
    (hR : ClosedUnder s facts R) (hfacts : FactsHold s facts ρ R) (hRa : R a) (hRb : R b)
    (ha : s.IsBv a w) (hb : s.IsBv b w) : s.value ρ a = s.value ρ b := by
  obtain ⟨p, q, hp, hq, hsame⟩ := h
  have hform : ∀ {t p}, polynomialOf κ s facts t = ok (some p) → R t → s.IsBv t w →
      p.value φ (fun t => (s.num ρ t : ZMod (2 ^ w))) = (s.num ρ t : ZMod (2 ^ w)) := by
    intro t p hp ht hw
    rw [polynomialOf, bind_eq_ok] at hp
    obtain ⟨r, hr, hp⟩ := hp
    exact ((bvPolynomial_only hs hφ hR hfacts 66 t [] ht r hr p (Outcome.ok.inj hp)).is hw).2
  rw [Arena.value_eq_iff_num hs ha hb]
  have heq : (s.num ρ a : ZMod (2 ^ w)) = s.num ρ b := by
    rw [← hform hp hRa ha, ← hform hq hRb hb, BvPolynomial.same_value hsame]
  rw [ZMod.natCast_eq_natCast_iff] at heq
  exact Nat.ModEq.eq_of_lt_of_lt heq (ha.num_lt hs) (hb.num_lt hs)

/-! ## Evaluation -/

section Evaluation

variable {eval : PolynomialEvaluator} {w : Nat}

def PolynomialEval.term : PolynomialEval → TermId
  | .const term | .bool term => term

/-- What an answer of an evaluator says. -/
def Says (s : Arena) (ρ : Env) : ∀ c : PolynomialEval, c.Value → Prop
  | .const t, o => ∀ v, o = some v → (∃ w, s.IsBv t w ∧ w ≤ 64) ∧ s.num ρ t = v.toNat
  | .bool t, o => ∀ b, o = some b → (s.IsTrue ρ t ↔ b = true)

theorem evalConstPair_only (ha : Only (eval (.const a)) (Says s ρ (.const a)))
    (hb : Only (eval (.const b)) (Says s ρ (.const b))) {f : UInt64 → UInt64 → UInt64}
    {Q : UInt64 → Prop}
    (h : ∀ x y, s.num ρ a = x.toNat → s.num ρ b = y.toNat → Q (f x y)) :
    Only (evalConstPair eval a b f) fun o => ∀ v, o = some v → Q v := by
  refine ha.bind fun oa _ hoa => hb.bind fun ob _ hob => ?_
  cases oa with
  | none => exact only_none
  | some x =>
    cases ob with
    | none => exact only_none
    | some y => exact only_some (h x y (hoa x rfl).2 (hob y rfl).2)

theorem evalUnary_only (ha : Only (eval (.const a)) (Says s ρ (.const a))) {f : UInt64 → UInt64}
    {Q : UInt64 → Prop}
    (h : ∀ x, (∃ w, s.IsBv a w ∧ w ≤ 64) → s.num ρ a = x.toNat → Q (f x)) :
    Only (eval (.const a) >>= fun o => pure (o.map f)) fun o => ∀ v, o = some v → Q v := by
  refine ha.bind fun o _ ho => only_ok fun v hv => ?_
  obtain ⟨x, hx, rfl⟩ := Option.map_eq_some_iff.mp hv
  exact h x (ho x hx).1 (ho x hx).2

/-- Subtracting from `2 ^ 64` or from `2 ^ w` leaves one residue. -/
theorem two_pow_sub_mod {n : Nat} (hw : w ≤ 64) (hn : n ≤ 2 ^ w) :
    (2 ^ 64 - n) % 2 ^ w = (2 ^ w - n) % 2 ^ w := by
  have hle : 2 ^ w ≤ 2 ^ 64 := Nat.pow_le_pow_right (by decide) hw
  obtain ⟨k, hk⟩ : 2 ^ w ∣ 2 ^ 64 - 2 ^ w := Nat.dvd_sub (pow_dvd_pow 2 hw) dvd_rfl
  rw [show 2 ^ 64 - n = (2 ^ w - n) + (2 ^ 64 - 2 ^ w) by omega, hk, Nat.add_mul_mod_self_left]

theorem evalPolynomialBvConst_only (hs : s.Inv) (hR : ClosedUnder s facts R)
    (hfacts : FactsHold s facts ρ R) (heval : ∀ c, R c.term → Only (eval c) (Says s ρ c))
    (ht : R t) :
    Only (evalPolynomialBvConst s facts eval t) (Says s ρ (.const t)) := by
  unfold evalPolynomialBvConst
  refine (only_self _).bind fun w hw _ => ?_
  replace hw : s.IsBv t w := Arena.expectBv_eq_ok.mp hw
  split
  · exact only_none
  rename_i hle
  rw [Nat.not_lt] at hle
  refine (only_self _).bind fun k hk _ => ?_
  replace hk := kind_eq_ok.mp hk
  -- it is enough to find the residue
  have hres : ∀ {x : UInt64}, x.toNat % 2 ^ w = s.num ρ t →
      (∃ w, s.IsBv t w ∧ w ≤ 64) ∧ s.num ρ t = (x &&& maskForWidth w).toNat := by
    intro x hx
    exact ⟨⟨w, hw, hle⟩, by rw [toNat_and_maskForWidth hle, hx]⟩
  have hwrap : ∀ n, n % 2 ^ 64 % 2 ^ w = n % 2 ^ w := fun n =>
    Nat.mod_mod_of_dvd n (pow_dvd_pow 2 hle)
  have hlt := hw.num_lt (ρ := ρ) hs
  have hop : ∀ c ∈ k.polynomialOperands, Only (eval (.const c)) (Says s ρ (.const c)) :=
    fun c hc => heval (.const c) (hR.operand ht hk hc)
  cases k with
  | bvConst u bytes =>
    refine only_some (hres ?_)
    rw [toNat_bytesToU64, hwrap, Arena.num_bvConst hs hk]
    obtain ⟨hwidth, -, hbytes⟩ := hs.sort_kind hk hw
    obtain rfl : w = u := by simpa using hwidth
    exact Nat.mod_eq_of_lt hbytes
  | bvVar u name external =>
    dsimp only
    cases hc : facts.constants.lookup (canonicalPolynomialTerm facts.canonical t) with
    | some value =>
      refine only_some (hres ?_)
      have hnum := hfacts.constants _ value hc
      rw [Arena.num, hfacts.value_canonical t] at hnum
      rw [← hnum]
      exact Nat.mod_eq_of_lt hlt
    | none =>
      cases hd : facts.definition t with
      | none => exact only_none
      | some d =>
        have hvalue := hfacts.value_definition ht hd
        refine (heval (.const d) (hR.definition ht hk rfl hd)).mono fun o ho v hv => ?_
        obtain ⟨-, hnum⟩ := ho v hv
        refine ⟨⟨w, hw, hle⟩, ?_⟩
        rw [← hnum, Arena.num, Arena.num, hvalue]
  | bvNot child =>
    refine evalUnary_only (hop child (by simp [NodeKind.polynomialOperands])) fun x _ hx => hres ?_
    obtain ⟨v, hv, hchild⟩ := hs.sort_kind hk hw
    obtain rfl : w = v := by simpa using hv
    have hxlt := Arena.IsBv.num_lt (ρ := ρ) hs hchild
    rw [hx] at hxlt
    rw [Arena.num_bvNot hs hk hw, hx, UInt64.toNat_not, Nat.sub_sub, Nat.add_comm, Nat.sub_sub,
      Nat.add_comm 1, show UInt64.size = 2 ^ 64 from rfl, two_pow_sub_mod hle (by omega)]
    exact Nat.mod_eq_of_lt (by omega)
  | bvNeg child =>
    refine evalUnary_only (hop child (by simp [NodeKind.polynomialOperands])) fun x _ hx => hres ?_
    obtain ⟨v, hv, hchild⟩ := hs.sort_kind hk hw
    obtain rfl : w = v := by simpa using hv
    have hxlt := Arena.IsBv.num_lt (ρ := ρ) hs hchild
    rw [hx] at hxlt
    rw [Arena.num_bvNeg hs hk hw, hx, UInt64.toNat_neg, show UInt64.size = 2 ^ 64 from rfl, hwrap,
      two_pow_sub_mod hle hxlt.le]
  | bvAnd a b =>
    refine evalConstPair_only (hop a (by simp [NodeKind.polynomialOperands]))
      (hop b (by simp [NodeKind.polynomialOperands])) fun x y hx hy => hres ?_
    rw [UInt64.toNat_and, ← hx, ← hy, ← Arena.num_bvAnd hs hk, Nat.mod_eq_of_lt hlt]
  | bvOr a b =>
    refine evalConstPair_only (hop a (by simp [NodeKind.polynomialOperands]))
      (hop b (by simp [NodeKind.polynomialOperands])) fun x y hx hy => hres ?_
    rw [UInt64.toNat_or, ← hx, ← hy, ← Arena.num_bvOr hs hk, Nat.mod_eq_of_lt hlt]
  | bvXor a b =>
    refine evalConstPair_only (hop a (by simp [NodeKind.polynomialOperands]))
      (hop b (by simp [NodeKind.polynomialOperands])) fun x y hx hy => hres ?_
    rw [UInt64.toNat_xor, ← hx, ← hy, ← Arena.num_bvXor hs hk, Nat.mod_eq_of_lt hlt]
  | bvAdd a b =>
    refine evalConstPair_only (hop a (by simp [NodeKind.polynomialOperands]))
      (hop b (by simp [NodeKind.polynomialOperands])) fun x y hx hy => hres ?_
    rw [UInt64.toNat_add, hwrap, ← hx, ← hy, ← Arena.num_bvAdd hs hk hw]
  | bvSub a b =>
    refine evalConstPair_only (hop a (by simp [NodeKind.polynomialOperands]))
      (hop b (by simp [NodeKind.polynomialOperands])) fun x y hx hy => hres ?_
    obtain ⟨-, hb⟩ := hs.binary_sort hk hw id
    rw [UInt64.toNat_sub, hwrap, ← hx, ← hy, Arena.num_bvSub hs hk hw, Nat.add_mod,
      two_pow_sub_mod hle (hb.num_lt hs).le, ← Nat.add_mod]
  | bvMul a b =>
    refine evalConstPair_only (hop a (by simp [NodeKind.polynomialOperands]))
      (hop b (by simp [NodeKind.polynomialOperands])) fun x y hx hy => hres ?_
    rw [UInt64.toNat_mul, hwrap, ← hx, ← hy, ← Arena.num_bvMul hs hk hw]
  | bvExtract child high low =>
    obtain ⟨u, htw, hu, hlow, hhigh⟩ := hs.bvExtract_sort hk
    obtain rfl := hw.inj htw
    refine evalUnary_only (hop child (by simp [NodeKind.polynomialOperands])) fun x hux hx => hres ?_
    obtain ⟨u', hu', hule⟩ := hux
    obtain rfl := hu.inj hu'
    have hlow64 : low < 64 := by omega
    rw [Arena.num_bvExtract hs hk, hx, UInt64.toNat_shiftRight, UInt64.toNat_ofNat',
      Nat.mod_eq_of_lt (a := low) (by omega), Nat.mod_eq_of_lt (a := low) hlow64]
  | bvConcat a b =>
    obtain ⟨aw, bw, htw, haw, hbw⟩ := hs.bvConcat_sort hk
    obtain rfl := hw.inj htw
    dsimp only
    rw [Arena.expectBv_of_sort hbw, ok_bind]
    refine (hop a (by simp [NodeKind.polynomialOperands])).bind fun oa _ hoa => ?_
    refine (hop b (by simp [NodeKind.polynomialOperands])).bind fun ob _ hob => ?_
    cases oa with
    | none => exact only_none
    | some x =>
      cases ob with
      | none => exact only_none
      | some y =>
        refine only_ok fun v hv => ?_
        obtain ⟨hbw64, hv⟩ := Option.ite_none_right_eq_some.mp hv
        obtain rfl := Option.some.inj hv
        refine hres ?_
        have hxlt := haw.num_lt (ρ := ρ) hs
        have hfits : s.num ρ a <<< bw < 2 ^ 64 := by
          rw [Nat.shiftLeft_eq]
          calc s.num ρ a * 2 ^ bw
            _ < 2 ^ aw * 2 ^ bw := Nat.mul_lt_mul_of_pos_right hxlt (Nat.two_pow_pos bw)
            _ = 2 ^ (aw + bw) := (Nat.pow_add 2 aw bw).symm
            _ ≤ 2 ^ 64 := Nat.pow_le_pow_right (by decide) hle
        rw [UInt64.toNat_or, UInt64.toNat_shiftLeft, UInt64.toNat_ofNat',
          Nat.mod_eq_of_lt (a := bw) (by omega), Nat.mod_eq_of_lt (a := bw) hbw64,
          ← (hoa x rfl).2, ← (hob y rfl).2, Nat.mod_eq_of_lt hfits, ← Arena.num_bvConcat hs hk hbw,
          Nat.mod_eq_of_lt hlt]
  | bvZeroExtend child extra =>
    refine evalUnary_only (hop child (by simp [NodeKind.polynomialOperands])) fun x _ hx => hres ?_
    rw [← hx, ← Arena.num_bvZeroExtend hs hk, Nat.mod_eq_of_lt hlt]
  | bvIte c a b =>
    have hchoice := Arena.value_bvIte (ρ := ρ) hs hk
    have hnum : ∀ {d o}, s.value ρ t = s.value ρ d → Says s ρ (.const d) o →
        Says s ρ (.const t) o := by
      intro d o heq ho v hv
      obtain ⟨-, hnum⟩ := ho v hv
      refine ⟨⟨w, hw, hle⟩, ?_⟩
      rw [← hnum, Arena.num, Arena.num, heq]
    have hRc : R c := hR.operand ht hk (by simp [NodeKind.polynomialOperands])
    refine (heval (.bool c) hRc).bind fun o _ ho => ?_
    cases o with
    | none => exact only_none
    | some v =>
      have hc := ho v rfl
      cases v with
      | true =>
        rw [if_pos (hc.mpr rfl)] at hchoice
        exact (hop a (by simp [NodeKind.polynomialOperands])).mono fun o => hnum hchoice
      | false =>
        rw [if_neg fun h => Bool.false_ne_true (hc.mp h)] at hchoice
        exact (hop b (by simp [NodeKind.polynomialOperands])).mono fun o => hnum hchoice
  | _ => exact only_none

/-- A comparison is right, if the terms it compares are at most 64 bits wide or no coefficient of
theirs has wrapped. -/
theorem evalPolynomialBvEquality_only (hs : s.Inv) (hR : ClosedUnder s facts R)
    (hfacts : FactsHold s facts ρ R) (heval : ∀ c, R c.term → Only (eval c) (Says s ρ c))
    (hRa : R a) (hRb : R b) (ha : s.IsBv a w) (hb : s.IsBv b w) (hun : Unwrapped 64 s facts a b) :
    Only (evalPolynomialBvEquality s facts eval a b) fun o =>
      ∀ v, o = some v → (s.value ρ a = s.value ρ b ↔ v = true) := by
  unfold evalPolynomialBvEquality
  refine (heval (.const a) hRa).bind fun oa _ hoa => ?_
  refine (heval (.const b) hRb).bind fun ob _ hob => ?_
  dsimp only
  split
  · rename_i l r _ _
    refine (only_self _).bind fun w' hw' _ => ?_
    obtain rfl := ha.inj (Arena.expectBv_eq_ok.mp hw')
    obtain ⟨⟨u, hu, hule⟩, hl⟩ := hoa l rfl
    obtain ⟨-, hr⟩ := hob r rfl
    obtain rfl := ha.inj hu
    refine only_some ?_
    have hmod : ∀ {t : TermId} {x : UInt64}, s.IsBv t w → s.num ρ t = x.toNat →
        (x &&& maskForWidth w).toNat = s.num ρ t := by
      intro t x ht hx
      rw [toNat_and_maskForWidth hule, ← hx, Nat.mod_eq_of_lt (ht.num_lt hs)]
    rw [Arena.value_eq_iff_num hs ha hb, beq_iff_eq, ← UInt64.toNat_inj, hmod ha hl, hmod hb hr]
  · refine (only_self _).bind fun op hp _ => ?_
    cases op with
    | none => exact only_none
    | some p =>
      refine (only_self _).bind fun oq hq _ => ?_
      cases oq with
      | none => exact only_none
      | some q =>
        refine only_ok fun v hv => ?_
        obtain ⟨hsame, hv⟩ := Option.ite_none_right_eq_some.mp hv
        obtain rfl := Option.some.inj hv
        rw [iff_true_right rfl]
        have hform : SameNormalForm UInt64 s facts a b := ⟨p, q, hp, hq, hsame⟩
        rcases Nat.lt_or_ge 64 w with hw | hw
        · exact (hun w ha hw hform).equal hs (interprets_int w) hR hfacts hRa hRb ha hb
        · exact hform.equal hs (interprets_u64 hw) hR hfacts hRa hRb ha hb

/-- The same for all comparisons that are asked for. -/
def AllUnwrapped (limit : Nat) (s : Arena) (facts : PolynomialFacts) (R : TermId → Prop) : Prop :=
  ∀ t a b, R t → s.kindAt t = some (.bvEq a b) → Unwrapped limit s facts a b

theorem evalBoolPair_only (ha : Only (eval (.bool a)) (Says s ρ (.bool a)))
    (hb : Only (eval (.bool b)) (Says s ρ (.bool b)))
    {f : Option Bool → Option Bool → Option Bool}
    (h : ∀ x y, (∀ u, x = some u → (s.IsTrue ρ a ↔ u = true)) →
      (∀ u, y = some u → (s.IsTrue ρ b ↔ u = true)) →
        ∀ v, f x y = some v → (s.IsTrue ρ t ↔ v = true)) :
    Only (evalBoolPair eval a b f) (Says s ρ (.bool t)) :=
  ha.bind fun x _ hx => hb.bind fun y _ hy => only_ok (h x y hx hy)

theorem evalPolynomialBool_only (hs : s.Inv) (hR : ClosedUnder s facts R)
    (hfacts : FactsHold s facts ρ R) (hun : AllUnwrapped 64 s facts R)
    (heval : ∀ c, R c.term → Only (eval c) (Says s ρ c)) (ht : R t) :
    Only (evalPolynomialBool s facts eval t) (Says s ρ (.bool t)) := by
  unfold evalPolynomialBool
  refine (only_self _).bind fun k hk _ => ?_
  replace hk := kind_eq_ok.mp hk
  have hop : ∀ c ∈ k.polynomialOperands, Only (eval (.bool c)) (Says s ρ (.bool c)) :=
    fun c hc => heval (.bool c) (hR.operand ht hk hc)
  cases k with
  | boolConst value => exact only_some (Arena.isTrue_boolConst hs hk)
  | boolNot child =>
    refine (hop child (by simp [NodeKind.polynomialOperands])).bind fun o _ ho => ?_
    refine only_ok fun v hv => ?_
    obtain ⟨u, hu, rfl⟩ := Option.map_eq_some_iff.mp hv
    rw [Arena.isTrue_boolNot hs hk, ho u hu, Bool.not_eq_true', Bool.not_eq_true]
  | boolAnd a b =>
    refine evalBoolPair_only (hop a (by simp [NodeKind.polynomialOperands]))
      (hop b (by simp [NodeKind.polynomialOperands])) fun x y hx hy v hv => ?_
    rw [Arena.isTrue_boolAnd hs hk]
    split at hv <;> grind
  | boolOr a b =>
    refine evalBoolPair_only (hop a (by simp [NodeKind.polynomialOperands]))
      (hop b (by simp [NodeKind.polynomialOperands])) fun x y hx hy v hv => ?_
    rw [Arena.isTrue_boolOr hs hk]
    split at hv <;> grind
  | boolImplies a b =>
    refine evalBoolPair_only (hop a (by simp [NodeKind.polynomialOperands]))
      (hop b (by simp [NodeKind.polynomialOperands])) fun x y hx hy v hv => ?_
    rw [Arena.isTrue_boolImplies hs hk]
    split at hv <;> grind
  | boolEq a b =>
    refine evalBoolPair_only (hop a (by simp [NodeKind.polynomialOperands]))
      (hop b (by simp [NodeKind.polynomialOperands])) fun x y hx hy v hv => ?_
    rw [Arena.isTrue_boolEq hs hk]
    split at hv <;> grind
  | bvEq a b =>
    obtain ⟨w, ha, hb⟩ := hs.bvEq_sort hk
    refine (evalPolynomialBvEquality_only hs hR hfacts heval
      (hR.operand ht hk (by simp [NodeKind.polynomialOperands]))
      (hR.operand ht hk (by simp [NodeKind.polynomialOperands])) ha hb (hun t a b ht hk)).mono ?_
    intro o ho v hv
    rw [Arena.isTrue_bvEq hs hk]
    exact ho v hv
  | _ => exact only_none

/-- What the evaluators return in any number of rounds is right. -/
theorem evalPolynomial_only (hs : s.Inv) (hR : ClosedUnder s facts R)
    (hfacts : FactsHold s facts ρ R) (hun : AllUnwrapped 64 s facts R) :
    ∀ n c, R c.term → Only (rounds (evalPolynomial s facts) n c) (Says s ρ c) := by
  intro n
  induction n with
  | zero => exact fun c _ => only_panic
  | succ n ih =>
    intro c hc
    cases c with
    | const t => exact evalPolynomialBvConst_only hs hR hfacts ih hc
    | bool t => exact evalPolynomialBool_only hs hR hfacts hun ih hc

end Evaluation

/-! ## Comparisons -/

/-- The terms that are evaluated to compare `a` and `b`. -/
def Reached (s : Arena) (facts : PolynomialFacts) (a b t : TermId) : Prop :=
  Relation.ReflTransGen (Asks s facts) a t ∨ Relation.ReflTransGen (Asks s facts) b t

theorem closedUnder_reached : ClosedUnder s facts (Reached s facts a b) := by
  rintro t c (ht | ht) hc
  · exact .inl (ht.tail hc)
  · exact .inr (ht.tail hc)

/-- What the code says of `a = b`, in any number of rounds, is true wherever the facts that it
uses are. -/
def EqualityLaw (s : Arena) (facts : PolynomialFacts) (a b : TermId) : Prop :=
  ∀ n v ρ, evalPolynomialBvEquality s facts (rounds (evalPolynomial s facts) n) a b = ok (some v) →
    FactsHold s facts ρ (Reached s facts a b) → (s.value ρ a = s.value ρ b ↔ v = true)

/-- No comparison of terms wider than `limit`, of `a` and `b` or on the way, is settled by
coefficients that have wrapped. -/
def NoneWrapped (limit : Nat) (s : Arena) (facts : PolynomialFacts) (a b : TermId) : Prop :=
  Unwrapped limit s facts a b ∧ AllUnwrapped limit s facts (Reached s facts a b)

theorem NoneWrapped.mono {m n : Nat} (h : NoneWrapped m s facts a b) (hmn : m ≤ n) :
    NoneWrapped n s facts a b :=
  ⟨fun w hw hlt => h.1 w hw (hmn.trans_lt hlt),
    fun t c d ht hk w hw hlt => h.2 t c d ht hk w hw (hmn.trans_lt hlt)⟩

theorem equalityLaw_of_noneWrapped (hs : s.Inv) {w : Nat} (ha : s.IsBv a w) (hb : s.IsBv b w)
    (h : NoneWrapped 64 s facts a b) : EqualityLaw s facts a b := by
  intro n v ρ hrun hfacts
  have heval := evalPolynomial_only hs closedUnder_reached hfacts h.2 n
  exact evalPolynomialBvEquality_only hs closedUnder_reached hfacts heval (.inl .refl) (.inr .refl)
    ha hb h.1 _ hrun v rfl

/-- `-x` and `(2 ^ 64 - 1) * x`, one bit wider than a coefficient. -/
def wideQuery : Query where
  arena := ⟨[
    ⟨.bvVar 65 "x" (some 0), .bv 65⟩,
    ⟨.bvConst 65 [255, 255, 255, 255, 255, 255, 255, 255, 0], .bv 65⟩,
    ⟨.bvNeg 0, .bv 65⟩,
    ⟨.bvMul 0 1, .bv 65⟩]⟩
  assertions := []
  assumptions := []
  command := .solve
  target := none
  signed := false
  wantModel := false
  wantCore := false
  getValues := []

def noFacts : PolynomialFacts := ⟨∅, ∅, ∅⟩

theorem wideQuery_wellFormed : wideQuery.WellFormed :=
  Query.wellFormed_of_check (by decide) (by decide)

/-- The code calls them equal; they are not where `x` is `1`. -/
theorem wideQuery_refutes : ¬EqualityLaw wideQuery.arena noFacts 2 3 := by
  intro hlaw
  have hrun : evalPolynomialBvEquality wideQuery.arena noFacts
      (rounds (evalPolynomial wideQuery.arena noFacts) 1) 2 3 = ok (some true) := by decide
  have heq := (hlaw 1 true ⟨fun _ => 1, fun _ => false⟩ hrun ⟨?_, ?_, ?_⟩).mpr rfl
  · revert heq
    decide
  · intro t x d _ _ hd
    cases hd
  · intro t r hr
    cases hr
  · intro t v hv
    cases hv

end Shortcuts
end Qfbv
end SmtServer
