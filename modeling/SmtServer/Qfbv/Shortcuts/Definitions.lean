import SmtServer.Lib.Table
import SmtServer.Qfbv.Check
import SmtServer.Qfbv.Shortcuts.Common
import SmtServer.Qfbv.Shortcuts.TermUnion

/-!
# `polynomial.rs` — what the equations of a query define

The first half of the polynomial pass. An asserted equation between a variable and a term that is
no variable *defines* the variable, unless another one does; a definition `(zext(high) << k) |
zext(low)` is a *pack* of two variables. Terms that are asserted to be equal are put into classes,
and when two packed variables are equal, so are the halves.

A pack says what its name says when the shift amount is read in full (`AmountFits`); the code reads
its low eight bytes.
-/

namespace SmtServer
namespace Qfbv

open Lib Outcome

namespace Shortcuts

/-- A `HashMap` keyed by terms. -/
abbrev TermMap (α : Type) := AList fun _ : TermId => α

/-- The first eight bytes, little-endian. -/
def bytesToU64 (bytes : List UInt8) : UInt64 := .ofNat (leNat (bytes.take 8))

def constU64 (s : Arena) (term : TermId) : Result (Option UInt64) := do
  match ← kind s term with
  | .bvConst _ bytes => return some (bytesToU64 bytes)
  | _ => return none

/-! ## Definitions -/

def recordBvVarDefinition (s : Arena) (var definition : TermId)
    (out : TermMap (Option TermId)) : Result (TermMap (Option TermId)) := do
  if var = definition then return out
  if !(← kind s var).isBvVar then return out
  if (← kind s definition).isBvVar then return out
  match out.lookup var with
  | none => return out.insert var (some definition)
  | some entry => return if entry ≠ some definition then out.insert var none else out

/-- `collect_bv_var_definitions` on a conjunct. -/
def collectBvVarDefinitions (s : Arena) (leaf : TermId) (out : TermMap (Option TermId)) :
    Result (TermMap (Option TermId)) := do
  match ← kind s leaf with
  | .bvEq a b => recordBvVarDefinition s b a (← recordBvVarDefinition s a b out)
  | _ => return out

def polynomialDefinitions (q : Query) : Result (TermMap TermId) := do
  let rawDefinitions ← forAllConjuncts q (collectBvVarDefinitions q.arena) ∅
  Table.collect (fun _ definition => return definition) rawDefinitions

/-! ## Packs -/

structure PolynomialPackDefinition where
  high : TermId
  low : TermId
  deriving DecidableEq

def zeroExtendedBvVar (s : Arena) (term : TermId) : Result (Option (TermId × Nat × Nat)) := do
  let .bvZeroExtend child extra ← kind s term | return none
  let .bv childWidth ← s.sort child | return none
  if !(← kind s child).isBvVar then return none
  return some (child, childWidth, childWidth + extra)

def polynomialBytePackParts (s : Arena) (shiftedHigh lowPart : TermId) :
    Result (Option PolynomialPackDefinition) := do
  let .bvShl highExtended amount ← kind s shiftedHigh | return none
  let some shift ← constU64 s amount | return none
  let some (high, highWidth, totalWidth) ← zeroExtendedBvVar s highExtended | return none
  let some (low, lowWidth, lowTotalWidth) ← zeroExtendedBvVar s lowPart | return none
  if totalWidth ≠ lowTotalWidth ∨ shift ≠ .ofNat lowWidth ∨ highWidth + lowWidth ≠ totalWidth then
    return none
  return some ⟨high, low⟩

def polynomialBytePack (s : Arena) (term : TermId) : Result (Option PolynomialPackDefinition) := do
  let .bvOr a b ← kind s term | return none
  match ← polynomialBytePackParts s a b with
  | some pack => return some pack
  | none => polynomialBytePackParts s b a

def collectPolynomialPackDefinitions (s : Arena) (definitions : TermMap TermId) :
    Result (TermMap PolynomialPackDefinition) :=
  Table.collect (fun _ definition => polynomialBytePack s definition) definitions

/-! ## Classes -/

def zeroExtendChildWithExtra (s : Arena) (term : TermId) : Result (Option (TermId × Nat)) := do
  match ← kind s term with
  | .bvZeroExtend child extra => return some (child, extra)
  | _ => return none

def unionPolynomialPacks (a b : TermId) (packs : TermMap PolynomialPackDefinition)
    (union : TermUnion) : Result TermUnion :=
  match packs.lookup a, packs.lookup b with
  | some left, some right => do
    let union ← union.union left.high right.high
    union.union left.low right.low
  | _, _ => return union

/-- `union.union(a, b); union_polynomial_packs(a, b, packs, union)`. -/
def unionPolynomialPair (a b : TermId) (packs : TermMap PolynomialPackDefinition)
    (union : TermUnion) : Result TermUnion := do
  unionPolynomialPacks a b packs (← union.union a b)

/-- The test of the first part of `union_polynomial_equal_terms`: two variables of one sort. -/
def sameSortVars (s : Arena) (a b : TermId) : Result Bool := do
  if (← s.sort a) ≠ (← s.sort b) then return false
  if !(← kind s a).isBvVar then return false
  return (← kind s b).isBvVar

def unionSameSortVars (s : Arena) (packs : TermMap PolynomialPackDefinition) (a b : TermId)
    (union : TermUnion) : Result TermUnion := do
  if ← sameSortVars s a b then unionPolynomialPair a b packs union else return union

/-- The test of the second part: zero extensions by one amount of two terms of one sort. -/
def sameExtensionChildren (s : Arena) (a b : TermId) : Result (Option BvPair) := do
  match ← zeroExtendChildWithExtra s a, ← zeroExtendChildWithExtra s b with
  | some (left, leftExtra), some (right, rightExtra) =>
    if leftExtra ≠ rightExtra then return none
    if (← s.sort left) ≠ (← s.sort right) then return none
    return some (left, right)
  | _, _ => return none

def unionSameExtensionChildren (s : Arena) (packs : TermMap PolynomialPackDefinition) (a b : TermId)
    (union : TermUnion) : Result TermUnion := do
  match ← sameExtensionChildren s a b with
  | some (left, right) => unionPolynomialPair left right packs union
  | none => return union

/-- The recursion goes on to the definitions of both sides. A definition is no variable, so it has
none itself, and two rounds are enough. -/
def unionPolynomialEqualTerms (s : Arena) (definitions : TermMap TermId)
    (packs : TermMap PolynomialPackDefinition) :
    (rounds : Nat) → (a b : TermId) → TermUnion → Result TermUnion
  | 0, _, _, _ => .panic
  | rounds + 1, a, b, union => do
    let union ← unionSameSortVars s packs a b union
    let union ← unionSameExtensionChildren s packs a b union
    match definitions.lookup a, definitions.lookup b with
    | some leftDef, some rightDef =>
      unionPolynomialEqualTerms s definitions packs rounds leftDef rightDef union
    | _, _ => return union

/-- `collect_polynomial_equivalences` on a conjunct. -/
def collectPolynomialEquivalences (s : Arena) (definitions : TermMap TermId)
    (packs : TermMap PolynomialPackDefinition) (leaf : TermId) (union : TermUnion) :
    Result TermUnion := do
  match ← kind s leaf with
  | .bvEq a b => unionPolynomialEqualTerms s definitions packs 2 a b union
  | _ => return union

/-- The classes after all assertions. -/
def polynomialUnion (q : Query) (definitions : TermMap TermId) : Result TermUnion := do
  let packs ← collectPolynomialPackDefinitions q.arena definitions
  forAllConjuncts q (collectPolynomialEquivalences q.arena definitions packs) .default

/-! ## What a definition says -/

variable {s : Arena} {ρ : Env} {t a b c d x y : TermId} {σ : TermSort} {leaves : List TermId}

/-- The term is a bit-vector variable. -/
def IsVar (s : Arena) (t : TermId) : Prop := ∃ k, s.kindAt t = some k ∧ k.isBvVar = true

/-- One of the conjuncts equates the two terms. -/
def Equated (s : Arena) (leaves : List TermId) (x d : TermId) : Prop :=
  ∃ leaf ∈ leaves, s.kindAt leaf = some (.bvEq x d) ∨ s.kindAt leaf = some (.bvEq d x)

/-- The variable is defined by the term. -/
structure Defines (s : Arena) (leaves : List TermId) (x d : TermId) : Prop where
  var : IsVar s x
  notVar : ¬IsVar s d
  equated : Equated s leaves x d

theorem isVar_iff {k : NodeKind} (hk : s.kindAt t = some k) : IsVar s t ↔ k.isBvVar = true := by
  constructor
  · rintro ⟨j, hj, hv⟩
    obtain rfl := Option.some.inj (hj.symm.trans hk)
    exact hv
  · intro hv
    exact ⟨k, hk, hv⟩

/-- Equated terms have one sort, and one value when the conjuncts are true. -/
theorem Equated.equal (hs : s.Inv) (h : Equated s leaves x d) :
    ∃ w, s.IsBv x w ∧ s.IsBv d w ∧
      ∀ ρ, (∀ leaf ∈ leaves, s.IsTrue ρ leaf) → s.value ρ x = s.value ρ d := by
  obtain ⟨leaf, hleaf, hk | hk⟩ := h
  · obtain ⟨w, hx, hd⟩ := hs.bvEq_sort hk
    exact ⟨w, hx, hd, fun ρ htrue => (Arena.isTrue_bvEq hs hk).mp (htrue leaf hleaf)⟩
  · obtain ⟨w, hd, hx⟩ := hs.bvEq_sort hk
    exact ⟨w, hx, hd, fun ρ htrue => ((Arena.isTrue_bvEq hs hk).mp (htrue leaf hleaf)).symm⟩

theorem recordBvVarDefinition_answers {out : TermMap (Option TermId)} {τ : TermSort}
    (hx : s.sortAt x = some σ) (hd : s.sortAt d = some τ) (heq : Equated s leaves x d)
    (hout : ∀ x d, out.lookup x = some (some d) → Defines s leaves x d) :
    Answers (recordBvVarDefinition s x d out) fun out' =>
      ∀ x d, out'.lookup x = some (some d) → Defines s leaves x d := by
  unfold recordBvVarDefinition
  split
  · exact answers_ok hout
  refine (kind_answers hx).bind fun j hj => ?_
  cases hjv : j.isBvVar with
  | false => exact answers_ok hout
  | true =>
    refine (kind_answers hd).bind fun k hk => ?_
    cases hkv : k.isBvVar with
    | true => exact answers_ok hout
    | false =>
      have hdef : Defines s leaves x d := by
        refine ⟨(isVar_iff hj).mpr hjv, ?_, heq⟩
        rw [isVar_iff hk, hkv]
        exact Bool.false_ne_true
      have hinsert : ∀ e : Option TermId, (∀ d', e = some d' → Defines s leaves x d') →
          ∀ x' d', (out.insert x e).lookup x' = some (some d') → Defines s leaves x' d' := by
        intro e he x' d' hl
        by_cases hx' : x' = x
        · subst hx'
          rw [AList.lookup_insert, Option.some.injEq] at hl
          exact he d' hl
        · rw [AList.lookup_insert_ne hx'] at hl
          exact hout x' d' hl
      cases hl : out.lookup x with
      | none => exact answers_ok (hinsert _ fun d' hd' => Option.some.inj hd' ▸ hdef)
      | some entry =>
        refine answers_ok ?_
        split
        · exact hinsert _ fun d' hd' => nomatch hd'
        · exact hout

/-- What the query defines is equated by a conjunct. -/
theorem polynomialDefinitions_answers {q : Query} (hq : q.WellFormed)
    (hrun : conjuncts q = ok leaves) :
    Answers (polynomialDefinitions q) fun definitions =>
      ∀ x d, definitions.lookup x = some d → Defines q.arena leaves x d := by
  have hs := hq.arena
  obtain ⟨hsorts, -⟩ := (conjuncts_answers hq).of_eq hrun
  unfold polynomialDefinitions
  rw [forAllConjuncts_eq hrun]
  refine (answers_foldlM (fun _ (out : TermMap (Option TermId)) =>
    ∀ x d, out.lookup x = some (some d) → Defines q.arena leaves x d) (by simp)
    fun leaf hleaf _ out hout => ?_).bind fun raw hraw => ?_
  · refine (kind_answers (hsorts leaf hleaf)).bind fun k hk => ?_
    cases k with
    | bvEq a b =>
      obtain ⟨w, ha, hb⟩ := hs.bvEq_sort hk
      refine (recordBvVarDefinition_answers ha hb ⟨leaf, hleaf, .inl hk⟩ hout).bind ?_
      intro out' hout'
      exact recordBvVarDefinition_answers hb ha ⟨leaf, hleaf, .inr hk⟩ hout'
    | _ => exact answers_ok hout
  · refine (Table.collect_answers fun x o _ => ⟨o, rfl⟩).mono fun definitions h x d hl => ?_
    obtain ⟨o, ho, hd⟩ := (h x d).mp hl
    obtain rfl := Outcome.ok.inj hd
    exact hraw x d ho

/-! ## What a pack says -/

theorem constU64_answers (ht : s.sortAt t = some σ) :
    Answers (constU64 s t) fun o => ∀ v, o = some v →
      ∃ w bytes, s.kindAt t = some (.bvConst w bytes) ∧ v = bytesToU64 bytes := by
  refine (kind_answers ht).bind fun k hk => ?_
  cases k with
  | bvConst w bytes => exact answers_some ⟨w, bytes, hk, rfl⟩
  | _ => exact answers_none

/-- The low eight bytes are the number modulo `2 ^ 64`. -/
theorem toNat_bytesToU64 (bytes : List UInt8) : (bytesToU64 bytes).toNat = leNat bytes % 2 ^ 64 := by
  rw [bytesToU64, UInt64.toNat_ofNat', leNat_take]
  exact Nat.mod_mod _ (2 ^ 64)

theorem zeroExtendedBvVar_answers (hs : s.Inv) (ht : s.sortAt t = some σ) :
    Answers (zeroExtendedBvVar s t) fun o => ∀ p, o = some p →
      ∃ extra, s.kindAt t = some (.bvZeroExtend p.1 extra) ∧ s.IsBv p.1 p.2.1 ∧
        s.IsBv t p.2.2 ∧ p.2.2 = p.2.1 + extra := by
  refine (kind_answers ht).bind fun k hk => ?_
  cases k with
  | bvZeroExtend child extra =>
    obtain ⟨τ, hτ, w, rfl, hc⟩ := hs.hasSort hk
    refine (sort_answers hc).bind fun τ hτ' => ?_
    subst hτ'
    refine (kind_answers hc).bind fun j hj => ?_
    cases hv : j.isBvVar with
    | false => exact answers_none
    | true => exact answers_some ⟨extra, hk, hc, hτ, rfl⟩
  | _ => exact answers_none

/-- `d` is the disjunction of `low`, `lw` bits wide, and of `high` shifted up by `n`. -/
structure IsPack (s : Arena) (d : TermId) (p : PolynomialPackDefinition) (hw lw n : Nat) : Prop where
  high : s.IsBv p.high hw
  low : s.IsBv p.low lw
  term : s.IsBv d (hw + lw)
  bits : ∀ ρ i, i < hw + lw →
    s.bit ρ d i = ((decide (n ≤ i) && s.bit ρ p.high (i - n)) || s.bit ρ p.low i)

/-- The shift amounts in the term are read in full. -/
def AmountFits (s : Arena) (d : TermId) : Prop :=
  ∀ a b x e amount w bytes, s.kindAt d = some (.bvOr a b) → x = a ∨ x = b →
    s.kindAt x = some (.bvShl e amount) → s.kindAt amount = some (.bvConst w bytes) →
    leNat bytes < 2 ^ 64

/-- A pack that is recognised, and the amount by which its high half is shifted: the width of the
low half, modulo `2 ^ 64`. -/
def PackShape (s : Arena) (d : TermId) (p : PolynomialPackDefinition) : Prop :=
  ∃ hw lw n, IsPack s d p hw lw n ∧ n % 2 ^ 64 = lw ∧ (AmountFits s d → n < 2 ^ 64)

theorem polynomialBytePackParts_answers (hs : s.Inv) {w : Nat} (ha : s.IsBv a w) (hb : s.IsBv b w)
    (hd : s.IsBv d w)
    (hor : ∀ ρ i, s.bit ρ d i = (s.bit ρ a i || s.bit ρ b i))
    (hfit : AmountFits s d → ∀ e amount v bytes, s.kindAt a = some (.bvShl e amount) →
      s.kindAt amount = some (.bvConst v bytes) → leNat bytes < 2 ^ 64) :
    Answers (polynomialBytePackParts s a b) fun o => ∀ p, o = some p → PackShape s d p := by
  refine (kind_answers ha).bind fun k hk => ?_
  cases k with
  | bvShl highExtended amount =>
    obtain ⟨he, hamount⟩ := hs.binary_sort hk ha id
    refine (constU64_answers hamount).bind fun o ho => ?_
    cases o with
    | none => exact answers_none
    | some shift =>
      obtain ⟨v, bytes, hkc, rfl⟩ := ho shift rfl
      refine (zeroExtendedBvVar_answers hs he).bind fun o ho => ?_
      cases o with
      | none => exact answers_none
      | some h =>
        obtain ⟨high, hw, total⟩ := h
        obtain ⟨he', hkh, hh, hew, hhw⟩ := ho _ rfl
        refine (zeroExtendedBvVar_answers hs hb).bind fun o ho => ?_
        cases o with
        | none => exact answers_none
        | some l =>
          obtain ⟨low, lw, lowTotal⟩ := l
          obtain ⟨le', hkl, hl, hlw, hlw'⟩ := ho _ rfl
          dsimp only
          split
          · exact answers_none
          rename_i hok
          rw [not_or, not_or, not_not, not_not, not_not] at hok
          obtain ⟨htotal, hshift, hsum⟩ := hok
          obtain rfl := he.inj hew
          refine answers_some ⟨hw, lw, leNat bytes, ⟨hh, hl, hsum.symm ▸ hd, ?_⟩, ?_, ?_⟩
          · intro ρ i hi
            rw [hor, Arena.bit_bvShl hs hk ha, Arena.bit_bvZeroExtend hs hkl,
              Arena.bit_bvZeroExtend hs hkh, Arena.num_bvConst hs hkc]
            simp [show i < w from hsum ▸ hi]
          · have hlt := (hs.width_le _ _ hl).2
            have hn := congrArg UInt64.toNat hshift
            rw [toNat_bytesToU64, UInt64.toNat_ofNat', Nat.mod_eq_of_lt (a := lw)] at hn
            · exact hn
            · exact Nat.lt_of_le_of_lt hlt (by decide)
          · intro hfits
            exact hfit hfits _ _ _ _ hk hkc
  | _ => exact answers_none

theorem polynomialBytePack_answers (hs : s.Inv) (hd : s.sortAt d = some σ) :
    Answers (polynomialBytePack s d) fun o => ∀ p, o = some p → PackShape s d p := by
  refine (kind_answers hd).bind fun k hk => ?_
  cases k with
  | bvOr a b =>
    obtain ⟨τ, hτ, w, rfl, ha, hb⟩ := hs.hasSort hk
    refine (polynomialBytePackParts_answers hs ha hb hτ (fun ρ i => Arena.bit_bvOr hs hk)
      fun hfits e amount v bytes => hfits a b a e amount v bytes hk (.inl rfl)).bind fun o ho => ?_
    cases o with
    | some p => exact answers_some (ho p rfl)
    | none =>
      refine polynomialBytePackParts_answers hs hb ha hτ (fun ρ i => ?_)
        fun hfits e amount v bytes => hfits a b b e amount v bytes hk (.inr rfl)
      rw [Arena.bit_bvOr hs hk, Bool.or_comm]
  | _ => exact answers_none

/-- Equal packs that are cut at one place have equal low halves. -/
theorem IsPack.low_equal (hs : s.Inv) {p q : PolynomialPackDefinition} {hw hw' lw n n' : Nat}
    (hp : IsPack s c p hw lw n) (hq : IsPack s d q hw' lw n') (hn : lw ≤ n) (hn' : lw ≤ n')
    (heq : s.value ρ c = s.value ρ d) : s.value ρ p.low = s.value ρ q.low := by
  have hwidth := Arena.IsBv.of_value_eq hs hp.term hq.term heq
  obtain rfl : hw = hw' := by omega
  have hbits := (Arena.value_eq_iff_bit hs hp.term hq.term).mp heq
  refine (Arena.value_eq_iff_bit hs hp.low hq.low).mpr fun i hi => ?_
  have h := hbits i (by omega)
  rw [hp.bits ρ _ (by omega), hq.bits ρ _ (by omega)] at h
  simpa [show ¬n ≤ i by omega, show ¬n' ≤ i by omega] using h

/-- When they are shifted by the width of their low halves, their high halves are equal too. -/
theorem IsPack.high_equal (hs : s.Inv) {p q : PolynomialPackDefinition} {hw lw : Nat}
    (hp : IsPack s c p hw lw lw) (hq : IsPack s d q hw lw lw)
    (heq : s.value ρ c = s.value ρ d) : s.value ρ p.high = s.value ρ q.high := by
  have hbits := (Arena.value_eq_iff_bit hs hp.term hq.term).mp heq
  refine (Arena.value_eq_iff_bit hs hp.high hq.high).mpr fun i hi => ?_
  have h := hbits (lw + i) (by omega)
  rw [hp.bits ρ _ (by omega), hq.bits ρ _ (by omega), hp.low.bit_of_ge hs (by omega),
    hq.low.bit_of_ge hs (by omega)] at h
  simpa using h

end Shortcuts
end Qfbv
end SmtServer
