import Mathlib.Data.List.Lex
import SmtServer.Qfbv.Builder.Bitwise
import SmtServer.Qfbv.Builder.Compare

/-!
# Polynomial normal forms mean what they say

A polynomial stands for a sum of products of terms. Its monomials are distinct and none of its
coefficients is zero (`Normal`): this is what makes a difference without variables a number other
than zero, so that the two sides differ under every assignment.
-/

namespace SmtServer
namespace Qfbv

open Lib Outcome Bytes
open Lib.Smt (Value)

namespace Builder

variable {s : Arena} {ρ : Env} {t a b : TermId} {w : Nat} {x y c d : BitVec w}
  {p q r : Polynomial} {m : Monomial} {bytes coefficient : List UInt8} {rounds budget : Nat}

/-! ## The value of a polynomial -/

/-- The value of a product of terms. -/
def monomialValue (s : Arena) (ρ : Env) (w : Nat) (m : Monomial) : BitVec w :=
  (m.map (s.bvAt ρ w)).prod

/-- The value of an entry. -/
def entryValue (s : Arena) (ρ : Env) (w : Nat) (e : Monomial × List UInt8) : BitVec w :=
  .ofNat w (leNat e.2) * monomialValue s ρ w e.1

def polynomialValue (s : Arena) (ρ : Env) (p : Polynomial) (w : Nat) : BitVec w :=
  (p.map (entryValue s ρ w)).sum

/-- Distinct monomials with coefficients that are not zero. -/
structure Normal (w : Nat) (p : Polynomial) : Prop where
  sorted : p.Pairwise fun e f => e.1 < f.1
  nonzero : ∀ e ∈ p, ∃ c : BitVec w, Spells e.2 c ∧ c ≠ 0

/-- A normal polynomial with the value. -/
structure Polynomial.Is (s : Arena) (ρ : Env) (p : Polynomial) (x : BitVec w) : Prop where
  normal : Normal w p
  value : polynomialValue s ρ p w = x

theorem normal_nil : Normal w [] := ⟨.nil, fun _ he => nomatch he⟩

theorem is_nil : Polynomial.Is s ρ [] (0 : BitVec w) := ⟨normal_nil, rfl⟩

theorem entryValue_eq (h : Spells bytes c) :
    entryValue s ρ w (m, bytes) = c * monomialValue s ρ w m := by
  rw [entryValue, h.ofNat_leNat]

theorem is_entry (h : Spells bytes c) (hc : c ≠ 0) :
    Polynomial.Is s ρ [(m, bytes)] (c * monomialValue s ρ w m) := by
  refine ⟨⟨List.pairwise_singleton .., ?_⟩, ?_⟩
  · intro e he
    rw [List.mem_singleton.mp he]
    exact ⟨c, h, hc⟩
  · rw [polynomialValue, List.map_singleton, List.sum_singleton, entryValue_eq h]

/-! ## Adding a monomial -/

/-- What is left of a coefficient: nothing if it is zero. -/
def Remains (r : Option (List UInt8)) (c : BitVec w) : Prop :=
  match r with
  | some bytes => Spells bytes c ∧ c ≠ 0
  | none => c = 0

theorem value_remains {r : Option (List UInt8)} (h : Remains r c) :
    polynomialValue s ρ (r.toList.map (m, ·)) w = c * monomialValue s ρ w m := by
  cases r with
  | some bytes => exact (is_entry h.1 h.2).value
  | none =>
    obtain rfl : c = 0 := h
    rw [zero_mul]
    rfl

theorem polynomialValue_append : polynomialValue s ρ (p ++ q) w =
    polynomialValue s ρ p w + polynomialValue s ρ q w := by
  rw [polynomialValue, List.map_append, List.sum_append]
  rfl

theorem polynomialValue_cons (e : Monomial × List UInt8) : polynomialValue s ρ (e :: p) w =
    entryValue s ρ w e + polynomialValue s ρ p w := by
  rw [polynomialValue, List.map_cons, List.sum_cons]
  rfl

theorem Normal.tail {e : Monomial × List UInt8} (h : Normal w (e :: p)) : Normal w p :=
  ⟨(List.pairwise_cons.mp h.sorted).2, fun f hf => h.nonzero f (List.mem_cons_of_mem e hf)⟩

theorem Normal.cons {e : Monomial × List UInt8} (hp : Normal w p)
    (he : ∃ c : BitVec w, Spells e.2 c ∧ c ≠ 0) (hlt : ∀ f ∈ p, e.1 < f.1) :
    Normal w (e :: p) := by
  refine ⟨List.pairwise_cons.mpr ⟨hlt, hp.sorted⟩, fun f hf => ?_⟩
  rcases List.mem_cons.mp hf with rfl | hf
  · exact he
  · exact hp.nonzero f hf

/-- An entry before all others, if there is one. -/
theorem Normal.remains {r : Option (List UInt8)} (hp : Normal w p) (h : Remains r c)
    (hlt : ∀ f ∈ p, m < f.1) : Normal w (r.toList.map (m, ·) ++ p) := by
  cases r with
  | some bytes => exact hp.cons ⟨c, h⟩ hlt
  | none => exact hp

theorem mem_alterEntry {f : Option (List UInt8) → Option (List UInt8)}
    {e : Monomial × List UInt8} (h : e ∈ alterEntry m f p) : e.1 = m ∨ e ∈ p := by
  have hnew : ∀ r : Option (List UInt8), e ∈ r.toList.map (m, ·) → e.1 = m := by
    intro r hr
    obtain ⟨bytes, -, rfl⟩ := List.mem_map.mp hr
    rfl
  induction p with
  | nil => exact .inl (hnew _ h)
  | cons e' p ih =>
    obtain ⟨key, value⟩ := e'
    unfold alterEntry at h
    split at h
    · rcases List.mem_cons.mp h with rfl | h
      · exact .inr List.mem_cons_self
      · exact (ih h).imp_right (List.mem_cons_of_mem _)
    split at h
    · rcases List.mem_append.mp h with h | h
      · exact .inl (hnew _ h)
      · exact .inr (List.mem_cons_of_mem _ h)
    · rcases List.mem_append.mp h with h | h
      · exact .inl (hnew _ h)
      · exact .inr h

theorem alterEntry_spec {f : Option (List UInt8) → Option (List UInt8)} (hp : Normal w p)
    (hnone : Remains (f none) c)
    (hsome : ∀ bytes (d : BitVec w), Spells bytes d → Remains (f (some bytes)) (d + c)) :
    Normal w (alterEntry m f p) ∧ polynomialValue s ρ (alterEntry m f p) w =
      polynomialValue s ρ p w + c * monomialValue s ρ w m := by
  induction p with
  | nil =>
    refine ⟨?_, ?_⟩
    · have h := normal_nil.remains (m := m) hnone fun _ hf => nomatch hf
      rwa [List.append_nil] at h
    · rw [alterEntry, value_remains hnone]
      exact (zero_add _).symm
  | cons e p ih =>
    obtain ⟨key, value⟩ := e
    obtain ⟨ihn, ihv⟩ := ih hp.tail
    have hrest := (List.pairwise_cons.mp hp.sorted).1
    have hfirst := hp.nonzero _ List.mem_cons_self
    unfold alterEntry
    split
    · rename_i hlt
      refine ⟨ihn.cons hfirst fun g hg => ?_, ?_⟩
      · rcases mem_alterEntry hg with hg | hg
        · exact lt_of_lt_of_eq hlt hg.symm
        · exact hrest g hg
      · rw [polynomialValue_cons, ihv, polynomialValue_cons, add_assoc]
    rename_i hnlt
    split
    · rename_i heq
      subst heq
      obtain ⟨d, hd, -⟩ := hfirst
      have hr := hsome value d hd
      refine ⟨hp.tail.remains hr hrest, ?_⟩
      rw [polynomialValue_append, value_remains hr, polynomialValue_cons, entryValue_eq hd]
      ring
    · rename_i hne
      have hgt : m < key := lt_of_le_of_ne (not_lt.mp hnlt) (Ne.symm hne)
      refine ⟨hp.remains hnone fun g hg => ?_, ?_⟩
      · rcases List.mem_cons.mp hg with rfl | hg
        · exact hgt
        · exact lt_trans hgt (hrest g hg)
      · rw [polynomialValue_append, value_remains hnone, add_comm]

theorem remains_ite (h : Spells bytes c) :
    Remains (if isZeroBytes bytes then none else some bytes) c := by
  split
  · rename_i hzero
    exact h.isZeroBytes.mp hzero
  · rename_i hzero
    exact ⟨h, fun hc => hzero (h.isZeroBytes.mpr hc)⟩

theorem is_addAssign (hp : p.Is s ρ x) (hc : Spells coefficient c) :
    (polynomialAddAssign p m coefficient w).Is s ρ (x + c * monomialValue s ρ w m) := by
  obtain ⟨hn, rfl⟩ := hp
  unfold polynomialAddAssign
  split
  · rename_i hzero
    rw [hc.isZeroBytes.mp hzero, zero_mul, add_zero]
    exact ⟨hn, rfl⟩
  · refine (alterEntry_spec hn ?_ ?_).elim fun hn' hv => ⟨hn', hv⟩
    · exact remains_ite hc
    · exact fun bytes d hd => remains_ite (hd.addBytes hc)

/-- Adding up monomials. -/
theorem is_foldl {α : Type} {es : List α} (mono : α → Monomial) (coeff : α → List UInt8)
    (g : α → BitVec w) (hp : p.Is s ρ x) (hes : ∀ e ∈ es, Spells (coeff e) (g e)) :
    (es.foldl (fun out e => polynomialAddAssign out (mono e) (coeff e) w) p).Is s ρ
      (x + (es.map fun e => g e * monomialValue s ρ w (mono e)).sum) := by
  induction es generalizing p x with
  | nil =>
    rw [List.map_nil, List.sum_nil, add_zero]
    exact hp
  | cons e es ih =>
    rw [List.foldl_cons, List.map_cons, List.sum_cons, ← add_assoc]
    exact ih (is_addAssign hp (hes e List.mem_cons_self)) fun f hf =>
      hes f (List.mem_cons_of_mem e hf)

/-! ## Operations -/

/-- The coefficient of an entry, as a vector. -/
def coefficientOf (w : Nat) (e : Monomial × List UInt8) : BitVec w := .ofNat w (leNat e.2)

theorem Normal.spells (hp : Normal w p) {e : Monomial × List UInt8} (he : e ∈ p) :
    Spells e.2 (coefficientOf w e) := by
  obtain ⟨c, hc, -⟩ := hp.nonzero e he
  rw [coefficientOf, hc.ofNat_leNat]
  exact hc

theorem is_constant (h : Spells bytes x) : (polynomialConstant bytes).Is s ρ x := by
  unfold polynomialConstant
  split
  · rename_i hzero
    rw [h.isZeroBytes.mp hzero]
    exact is_nil
  · rename_i hzero
    have hone : monomialValue s ρ w [] = 1 := rfl
    have hentry := is_entry (s := s) (ρ := ρ) (m := []) h fun hx => hzero (h.isZeroBytes.mpr hx)
    rwa [hone, mul_one] at hentry

theorem is_atom (hw : Arena.SortOk (.bv w)) (h : s.Denotes ρ t x) :
    ∃ p, polynomialAtom t w = ok p ∧ p.Is s ρ x := by
  obtain ⟨one, hone, hspells⟩ := oneBytes_ok hw
  refine ⟨[([t], one)], by rw [polynomialAtom, hone]; rfl, ?_⟩
  have hentry := is_entry (s := s) (ρ := ρ) (m := [t]) hspells (one_ne_zero hw)
  rwa [monomialValue, List.map_singleton, List.prod_singleton, bvAt_eq h, one_mul] at hentry

theorem is_add (hp : p.Is s ρ x) (hq : q.Is s ρ y) : (polynomialAdd p q w).Is s ρ (x + y) := by
  have h := is_foldl (fun e : Monomial × List UInt8 => e.1) (fun e => e.2)
    (coefficientOf w) hp fun e he => hq.normal.spells he
  rwa [← hq.value]

theorem sum_neg_entries :
    (p.map fun e => -coefficientOf w e * monomialValue s ρ w e.1).sum =
      -polynomialValue s ρ p w := by
  induction p with
  | nil => exact neg_zero.symm
  | cons e p ih =>
    rw [List.map_cons, List.sum_cons, ih, polynomialValue_cons, neg_add, neg_mul]
    rfl

theorem is_subFrom (hp : p.Is s ρ x) (hq : q.Is s ρ y) :
    (q.foldl (fun out e => polynomialAddAssign out e.1 (negBytes e.2 w) w) p).Is s ρ
      (x - y) := by
  have h := is_foldl (fun e : Monomial × List UInt8 => e.1)
    (fun e => negBytes e.2 w) (fun e => -coefficientOf w e) hp
    fun e he => (hq.normal.spells he).negBytes
  rwa [sum_neg_entries, hq.value, ← sub_eq_add_neg] at h

theorem is_sub (hp : p.Is s ρ x) (hq : q.Is s ρ y) : (polynomialSub p q w).Is s ρ (x - y) :=
  is_subFrom hp hq

theorem is_neg (hp : p.Is s ρ x) : (polynomialNeg p w).Is s ρ (-x) := by
  rw [← zero_sub]
  exact is_subFrom is_nil hp

/-- All of a polynomial, times one entry. -/
theorem sum_mul_entries (k : BitVec w) (g : Monomial → BitVec w)
    (hg : ∀ m, g m = k * monomialValue s ρ w m) :
    (p.map fun e => coefficientOf w e * g e.1).sum = k * polynomialValue s ρ p w := by
  induction p with
  | nil => exact (mul_zero k).symm
  | cons e p ih =>
    rw [List.map_cons, List.sum_cons, ih, polynomialValue_cons, hg, entryValue, coefficientOf]
    ring

theorem is_scale {factor : List UInt8} (hp : p.Is s ρ x) (hc : Spells factor c) :
    (polynomialScale p factor w).Is s ρ (x * c) := by
  unfold polynomialScale
  split
  · rename_i hzero
    rw [hc.isZeroBytes.mp hzero, mul_zero]
    exact is_nil
  · have h := is_foldl (fun e : Monomial × List UInt8 => e.1)
      (fun e => mulBytes e.2 factor w) (fun e => coefficientOf w e * c)
      (is_nil (s := s) (ρ := ρ)) fun e he => (hp.normal.spells he).mulBytes hc
    have hsum := sum_mul_entries (s := s) (ρ := ρ) (p := p) c
      (fun m => c * monomialValue s ρ w m) fun _ => rfl
    rw [zero_add] at h
    simp only [mul_assoc] at h
    rwa [hsum, hp.value, mul_comm] at h

theorem monomialValue_append (m n : Monomial) : monomialValue s ρ w ((m ++ n).mergeSort (· ≤ ·)) =
    monomialValue s ρ w m * monomialValue s ρ w n := by
  rw [monomialValue, ((List.mergeSort_perm (m ++ n) (· ≤ ·)).map _).prod_eq, List.map_append,
    List.prod_append]
  rfl

theorem is_mulRow {l : Monomial × List UInt8} (hc : Spells l.2 c) (hq : Normal w q)
    (hp : p.Is s ρ x) (h : polynomialMulRow l q w p = some r) :
    r.Is s ρ (x + c * monomialValue s ρ w l.1 * polynomialValue s ρ q w) := by
  unfold polynomialMulRow at h
  induction q generalizing p x with
  | nil =>
    obtain rfl := Option.some.inj h
    rw [show polynomialValue s ρ [] w = 0 from rfl, mul_zero, add_zero]
    exact hp
  | cons e q ih =>
    rw [List.foldlM_cons] at h
    obtain ⟨out, hout, h⟩ := Option.bind_eq_some_iff.mp h
    rw [Option.ite_none_left_eq_some] at hout
    obtain ⟨-, hout⟩ := hout
    rw [Option.ite_none_left_eq_some] at hout
    obtain rfl := Option.some.inj hout.2
    have hstep := is_addAssign (m := (l.1 ++ e.1).mergeSort (· ≤ ·)) hp
      (hc.mulBytes (hq.spells List.mem_cons_self))
    have hall := ih hq.tail hstep h
    rw [monomialValue_append] at hall
    rw [polynomialValue_cons, entryValue]
    refine ⟨hall.normal, hall.value.trans ?_⟩
    rw [coefficientOf]
    ring

theorem is_mulRows (hq : Normal w q) (hp : Normal w p) {out : Polynomial} (hout : out.Is s ρ x)
    (h : p.foldlM (fun out e => polynomialMulRow e q w out) out = some r) :
    r.Is s ρ (x + polynomialValue s ρ p w * polynomialValue s ρ q w) := by
  induction p generalizing out x with
  | nil =>
    obtain rfl := Option.some.inj h
    rw [show polynomialValue s ρ [] w = 0 from rfl, zero_mul, add_zero]
    exact hout
  | cons e p ih =>
    rw [List.foldlM_cons] at h
    obtain ⟨mid, hmid, h⟩ := Option.bind_eq_some_iff.mp h
    have hrow := is_mulRow (hp.spells List.mem_cons_self) hq hout hmid
    have hall := ih hp.tail hrow h
    refine ⟨hall.normal, hall.value.trans ?_⟩
    rw [polynomialValue_cons, entryValue, coefficientOf]
    ring

theorem is_mul (hp : p.Is s ρ x) (hq : q.Is s ρ y) (h : polynomialMul p q w = some r) :
    r.Is s ρ (x * y) := by
  have hall := is_mulRows hq.normal hp.normal (is_nil (s := s) (ρ := ρ)) h
  rwa [hp.value, hq.value, zero_add] at hall

/-! ## The normal form of a term -/

theorem not_eq_neg_sub_one (x : BitVec w) : ~~~x = -x + -1 := by
  have h := BitVec.neg_eq_not_add x
  rw [h, add_assoc, show (1#w : BitVec w) = 1 from rfl, add_neg_cancel, add_zero]

/-- What a polynomial that is found says. -/
def Found (s : Arena) (ρ : Env) (x : BitVec w) (r : Option (Polynomial × Nat)) : Prop :=
  ∀ p n, r = some (p, n) → p.Is s ρ x

theorem found_none : Found s ρ x none := nofun

theorem found_some (h : p.Is s ρ x) : Found s ρ x (some (p, budget)) := by
  rintro _ _ ⟨⟩
  exact h

/-- A polynomial is looked for, and then another. -/
theorem Found.bind {f : ArenaR (Option (Polynomial × Nat))}
    {g : Polynomial → Nat → ArenaR (Option (Polynomial × Nat))}
    (hf : Reads f s (Found s ρ y))
    (hg : ∀ p n, p.Is s ρ y → Reads (g p n) s (Found s ρ x)) :
    Reads (do
      let some (p, n) ← f | return none
      g p n) s (Found s ρ x) := by
  refine Reads.bind hf fun r hr => ?_
  cases r with
  | none => exact reads_pure found_none
  | some pn => exact hg pn.1 pn.2 (hr pn.1 pn.2 rfl)

theorem spells_twoPow {amount : Nat} (h : amount < w) :
    Spells (setBit (List.replicate (divCeil8 w) 0) amount) (BitVec.twoPow w amount) := by
  refine spells_of_bits (by rw [length_setBit, List.length_replicate]) fun i => ?_
  have hcover := le_eight_mul_divCeil8 w
  rw [Bool.eq_iff_iff, testBit_setBit (by rw [List.length_replicate]; omega), leNat_replicate_zero,
    Nat.zero_testBit, BitVec.getLsbD_twoPow]
  simp only [Bool.false_or, Bool.and_eq_true, decide_eq_true_eq]
  constructor
  · exact fun h' => ⟨by omega, h'⟩
  · exact fun h' => h'.2

theorem polynomial_spec (hs : s.Inv) (h : s.Denotes ρ t x) (ht : t < rounds) :
    Reads (polynomial rounds t w budget) s (Found s ρ x) := by
  induction rounds generalizing t x budget with
  | zero => exact absurd ht (Nat.not_lt_zero t)
  | succ rounds ih =>
    have hw := hs.denotes_sortOk h
    obtain ⟨k, hk⟩ := kind_of_sort h.sort
    obtain ⟨node, hnode, rfl⟩ := node_of_kind hk
    have hless {c : TermId} (hc : c ∈ node.kind.children) : c < rounds :=
      lt_of_lt_of_le (hs.child_lt hk hc) (Nat.le_of_lt_succ ht)
    have hatom : Reads (do return some (← (polynomialAtom t w : Result _), budget - 1)) s
        (Found s ρ x) := by
      obtain ⟨p, hp, his⟩ := is_atom hw h
      exact reads_bind hp (reads_pure (found_some his))
    rw [polynomial]
    split
    · exact reads_pure found_none
    refine reads_bind (Arena.expectBv_of_sort h.sort) ?_
    rw [if_neg (not_not_intro rfl)]
    refine reads_bind hnode ?_
    split
    · rename_i bytes heq
      rw [heq] at hk
      obtain ⟨rfl, hb⟩ := hs.bvConst h hk
      exact reads_pure (found_some (is_constant hb))
    · rename_i a b heq
      rw [heq] at hk hless
      obtain ⟨y, z, hy, hz, rfl⟩ := hs.bvAdd h hk
      refine Found.bind (ih hy (hless (by simp [NodeKind.children]))) fun p n hp => ?_
      refine Found.bind (ih hz (hless (by simp [NodeKind.children]))) fun q n hq => ?_
      exact reads_pure (found_some (is_add hp hq))
    · rename_i a b heq
      rw [heq] at hk hless
      obtain ⟨y, z, hy, hz, rfl⟩ := hs.bvSub h hk
      refine Found.bind (ih hy (hless (by simp [NodeKind.children]))) fun p n hp => ?_
      refine Found.bind (ih hz (hless (by simp [NodeKind.children]))) fun q n hq => ?_
      exact reads_pure (found_some (is_sub hp hq))
    · rename_i child heq
      rw [heq] at hk hless
      obtain ⟨y, hy, rfl⟩ := hs.bvNeg h hk
      refine Found.bind (ih hy (hless (by simp [NodeKind.children]))) fun p n hp => ?_
      exact reads_pure (found_some (is_neg hp))
    · rename_i child heq
      rw [heq] at hk hless
      obtain ⟨y, hy, rfl⟩ := hs.bvNot h hk
      refine Found.bind (ih hy (hless (by simp [NodeKind.children]))) fun p n hp => ?_
      obtain ⟨one, hone, hspells⟩ := oneBytes_ok hw
      refine reads_bind hone (reads_pure (found_some ?_))
      have hadd := is_addAssign (m := []) (is_neg hp) hspells.negBytes
      rwa [show monomialValue s ρ w [] = 1 from rfl, mul_one, ← not_eq_neg_sub_one] at hadd
    · rename_i a b heq
      rw [heq] at hk hless
      obtain ⟨y, z, hy, hz, rfl⟩ := hs.bvMul h hk
      refine Found.bind (ih hy (hless (by simp [NodeKind.children]))) fun p n hp => ?_
      refine Found.bind (ih hz (hless (by simp [NodeKind.children]))) fun q n hq => ?_
      refine reads_pure ?_
      cases hmul : polynomialMul p q w with
      | none => exact found_none
      | some r => exact found_some (is_mul hp hq hmul)
    · rename_i value amount heq
      rw [heq] at hk hless
      obtain ⟨y, z, hy, hz, rfl⟩ := hs.bvShl h hk
      rcases constShiftAmount_cases hs hz with ⟨-, hrun⟩ | ⟨-, hrun⟩
      · refine reads_bind hrun ?_
        dsimp only
        split
        · rename_i hbig
          refine reads_pure (found_some ?_)
          rw [BitVec.shiftLeft_eq', BitVec.shiftLeft_eq_zero (by omega)]
          exact is_nil
        · rename_i hbig
          refine Found.bind (ih hy (hless (by simp [NodeKind.children]))) fun p n hp => ?_
          refine reads_bind (Arena.bytesForWidth_ok hw) (reads_pure (found_some ?_))
          rw [Nat.min_eq_left (by omega), shl_eq_mul]
          exact is_scale hp (spells_twoPow (by omega))
      · exact reads_bind hrun hatom
    · exact hatom

/-- **A decided equality.** True: the two sides are equal; false: they differ. -/
theorem polynomialEquality_spec (hs : s.Inv) (ha : s.Denotes ρ a x) (hb : s.Denotes ρ b y) :
    Reads (polynomialEquality a b) s fun r => ∀ v, r = some v → (x == y) = v := by
  refine reads_bind (Arena.expectSameBv_of_sort ha.sort hb.sort) ?_
  split
  · exact reads_pure nofun
  refine (polynomial_spec hs ha (Nat.lt_succ_self a)).bind fun l hl => ?_
  cases l with
  | none => exact reads_pure nofun
  | some pn =>
    obtain ⟨p, n⟩ := pn
    have hp := hl p n rfl
    refine (polynomial_spec hs hb (Nat.lt_succ_self b)).bind fun r hr => ?_
    cases r with
    | none => exact reads_pure nofun
    | some qn =>
      obtain ⟨q, n'⟩ := qn
      have hq := hr q n' rfl
      have hdiff := is_sub hp hq
      dsimp only
      split
      · rename_i heq
        refine reads_pure ?_
        rintro _ ⟨⟩
        rw [beq_iff_eq, ← hp.value, ← hq.value, heq]
      split
      · rename_i hempty
        refine reads_pure ?_
        rintro _ ⟨⟩
        rw [List.isEmpty_iff.mp hempty] at hdiff
        rw [beq_iff_eq]
        exact sub_eq_zero.mp hdiff.value.symm
      split
      · -- a number other than zero is left
        rename_i hempty hall
        refine reads_pure ?_
        rintro _ ⟨⟩
        rw [beq_eq_false_iff_ne]
        rintro rfl
        obtain ⟨hnormal, hvalue⟩ := hdiff
        revert hempty hall hnormal hvalue
        cases polynomialSub p q w with
        | nil => exact fun h => absurd rfl h
        | cons e rest =>
          intro _ hall hnormal hvalue
          have hkeys : ∀ f ∈ e :: rest, f.1 = [] := fun f hf =>
            List.isEmpty_iff.mp (List.all_eq_true.mp hall f hf)
          obtain rfl : rest = [] := by
            refine List.eq_nil_iff_forall_not_mem.mpr fun f hf => ?_
            have hlt := (List.pairwise_cons.mp hnormal.sorted).1 f hf
            rw [hkeys f (List.mem_cons_of_mem e hf)] at hlt
            exact List.not_lt_nil _ hlt
          obtain ⟨key, bytes⟩ := e
          obtain ⟨c, hc, hne⟩ := hnormal.nonzero _ List.mem_cons_self
          obtain rfl : key = [] := hkeys _ List.mem_cons_self
          refine hne ?_
          rw [(is_entry (s := s) (ρ := ρ) (m := []) hc hne).value] at hvalue
          rwa [show monomialValue s ρ w [] = 1 from rfl, mul_one, sub_self] at hvalue
      · exact reads_pure nofun

end Builder
end Qfbv
end SmtServer
