import SmtServer.Lib.MixedWords
import SmtServer.Qfbv.Shortcuts.Matching

/-!
# `favaro_mba.rs` — a product under mixed arithmetic

An obfuscated `y * y`. With `z` for `y` in disguise, `(z | y) * (z & y) + (z & ~y) * (y & ~z)` is
`z * y`; and `(x - 2 - y - ((x | ~y) << 1)) ^ x` is that disguise. A query that says of such a term
that it differs from `y * y` cannot be satisfied.

The two identities are `MixedWords.mul_eq` and `MixedWords.xor_eq`; what the matcher has to see to
is that all the operands are the same `x`, `y` and `z`, in whatever order they come.
-/

namespace SmtServer
namespace Qfbv

open Lib Outcome

namespace Shortcuts

def bvBinaryOtherIfContains (s : Arena) (term needle : TermId)
    (parts : NodeKind → Option (TermId × TermId)) : Result (List TermId) := do
  let some (a, b) := parts (← kind s term) | return []
  return (if a = needle then [b] else []) ++ (if b = needle then [a] else [])

def bvBinaryContainsPair (s : Arena) (term x y : TermId)
    (parts : NodeKind → Option (TermId × TermId)) : Result Bool := do
  return (parts (← kind s term)).any fun (a, b) => sameUnorderedPair a b x y

def favaroAndNotPair (s : Arena) (term positive negated : TermId) : Result Bool := do
  let some (left, right) ← bvAndParts s term | return false
  (pure (left == positive) <&&> isBvNotOf s right negated) <||>
    (pure (right == positive) <&&> isBvNotOf s left negated)

def favaroProduct1Z (s : Arena) (term y : TermId) : Result (Option TermId) := do
  let some (left, right) ← bvMulParts s term | return none
  [(left, right), (right, left)].findSomeM? fun (orTerm, andTerm) => do
    (← bvBinaryOtherIfContains s orTerm y (·.bvOr?)).findM? fun z =>
      bvBinaryContainsPair s andTerm z y (·.bvAnd?)

def favaroProduct2Matches (s : Arena) (term y z : TermId) : Result Bool := do
  let some (left, right) ← bvMulParts s term | return false
  (favaroAndNotPair s left z y <&&> favaroAndNotPair s right y z) <||>
    (favaroAndNotPair s right z y <&&> favaroAndNotPair s left y z)

def favaroA1Matches (s : Arena) (a1 x y : TermId) : Result Bool := do
  let .bv width ← s.sort y | return false
  let .bvSub pre shl ← kind s a1 | return false
  let .bvSub pre yTerm ← kind s pre | return false
  if yTerm ≠ y then return false
  let .bvSub xTerm two ← kind s pre | return false
  if xTerm ≠ x then return false
  if !(← isBvConstU64 s two width 2) then return false
  let .bvShl orTerm one ← kind s shl | return false
  if !(← isBvConstU64 s one width 1) then return false
  let .bvOr left right ← kind s orTerm | return false
  (pure (left == x) <&&> isBvNotOf s right y) <||> (pure (right == x) <&&> isBvNotOf s left y)

def favaroZMatches (s : Arena) (z y : TermId) : Result Bool := do
  let .bvXor a b ← kind s z | return false
  favaroA1Matches s a b y <||> favaroA1Matches s b a y

def favaroMbaMatches (s : Arena) (expr square : TermId) : Result Bool := do
  let some (y, yRight) ← bvMulParts s square | return false
  if y ≠ yRight then return false
  let some (left, right) ← bvAddParts s expr | return false
  [(left, right), (right, left)].anyM fun (product1, product2) => do
    let some z ← favaroProduct1Z s product1 y | return false
    favaroProduct2Matches s product2 y z <&&> favaroZMatches s z y

def hasFavaroMbaMulContradiction (q : Query) : Result Bool := do
  if q.assumptions ≠ [] ∨ 10000 < q.arena.nodes.length then return false
  let leaves ← conjuncts q
  leaves.anyM fun leaf => do
    let .boolNot eq ← kind q.arena leaf | return false
    let some (a, b) ← bvEqPair q.arena eq | return false
    favaroMbaMatches q.arena a b <||> favaroMbaMatches q.arena b a

/-! ## What is matched -/

variable {s : Arena} {ρ : Env} {t x y z a b : TermId} {w : Nat}

theorem bvBinaryContainsPair_true {split : NodeKind → Option (TermId × TermId)}
    (h : bvBinaryContainsPair s t x y split = ok true) :
    ∃ k, s.kindAt t = some k ∧ (split k = some (x, y) ∨ split k = some (y, x)) := by
  obtain ⟨k, hk, h⟩ := bind_eq_ok.mp h
  refine ⟨k, kind_eq_ok.mp hk, ?_⟩
  rw [pure_eq, Outcome.ok.injEq, Option.any_eq_true] at h
  obtain ⟨⟨a, b⟩, hab, h⟩ := h
  rcases sameUnorderedPair_eq.mp h with ⟨rfl, rfl⟩ | ⟨rfl, rfl⟩
  · exact .inl hab
  · exact .inr hab

theorem mem_bvBinaryOtherIfContains {split : NodeKind → Option (TermId × TermId)}
    {zs : List TermId} (h : bvBinaryOtherIfContains s t y split = ok zs) (hz : z ∈ zs) :
    ∃ k, s.kindAt t = some k ∧ (split k = some (z, y) ∨ split k = some (y, z)) := by
  obtain ⟨k, hk, h⟩ := bind_eq_ok.mp h
  refine ⟨k, kind_eq_ok.mp hk, ?_⟩
  cases hp : split k with
  | none =>
    rw [hp] at h
    obtain rfl := Outcome.ok.inj h
    cases hz
  | some p =>
    rw [hp] at h
    obtain rfl := Outcome.ok.inj h
    rcases List.mem_append.mp hz with hz | hz
    · split at hz
      · rename_i hy
        rw [List.mem_singleton.mp hz, ← hy]
        exact .inr rfl
      · cases hz
    · split at hz
      · rename_i hy
        rw [List.mem_singleton.mp hz, ← hy]
        exact .inl rfl
      · cases hz

theorem bv_or_of_contains {zs : List TermId} (hs : s.Inv) (hw : s.IsBv t w)
    (h : bvBinaryOtherIfContains s t y (·.bvOr?) = ok zs) (hz : z ∈ zs) :
    s.IsBv z w ∧ s.IsBv y w ∧ s.bv ρ t w = s.bv ρ z w ||| s.bv ρ y w := by
  obtain ⟨k, hk, hp | hp⟩ := mem_bvBinaryOtherIfContains h hz
  · rw [NodeKind.bvOr?_eq.mp hp] at hk
    exact Arena.bv_bvOr hs hk hw
  · rw [NodeKind.bvOr?_eq.mp hp] at hk
    obtain ⟨hy, hz, heq⟩ := Arena.bv_bvOr (ρ := ρ) hs hk hw
    exact ⟨hz, hy, heq.trans (BitVec.or_comm _ _)⟩

theorem bv_and_of_contains (hs : s.Inv) (hw : s.IsBv t w)
    (h : bvBinaryContainsPair s t z y (·.bvAnd?) = ok true) :
    s.bv ρ t w = s.bv ρ z w &&& s.bv ρ y w := by
  obtain ⟨k, hk, hp | hp⟩ := bvBinaryContainsPair_true h
  · rw [NodeKind.bvAnd?_eq.mp hp] at hk
    exact (Arena.bv_bvAnd hs hk hw).2.2
  · rw [NodeKind.bvAnd?_eq.mp hp] at hk
    exact (Arena.bv_bvAnd hs hk hw).2.2.trans (BitVec.and_comm _ _)

/-! ## The two products -/

theorem favaroProduct1Z_some (hs : s.Inv) (hw : s.IsBv t w)
    (h : favaroProduct1Z s t y = ok (some z)) :
    s.IsBv z w ∧ s.IsBv y w ∧
      s.bv ρ t w = (s.bv ρ z w ||| s.bv ρ y w) * (s.bv ρ z w &&& s.bv ρ y w) := by
  obtain ⟨left, right, hmul, h⟩ := let_pair h
  obtain ⟨⟨orTerm, andTerm⟩, hp, h⟩ := of_findSomeM? h
  obtain ⟨zs, hzs, h⟩ := bind_eq_ok.mp h
  obtain ⟨hz, hand⟩ := of_findM? h
  obtain ⟨horw, handw, hprod⟩ := bv_bvMul_either (ρ := ρ) hs (bvMulParts_eq.mp hmul) hw hp
  obtain ⟨hzw, hyw, hor⟩ := bv_or_of_contains (ρ := ρ) hs horw hzs hz
  refine ⟨hzw, hyw, ?_⟩
  rw [hprod, hor, bv_and_of_contains hs handw hand]

theorem favaroAndNotPair_true {positive negated : TermId} (hs : s.Inv) (hw : s.IsBv t w)
    (h : favaroAndNotPair s t positive negated = ok true) :
    s.bv ρ t w = s.bv ρ positive w &&& ~~~s.bv ρ negated w := by
  obtain ⟨left, right, hand, h⟩ := let_pair h
  obtain ⟨hl, hr, heq⟩ := Arena.bv_bvAnd (ρ := ρ) hs (bvAndParts_eq.mp hand) hw
  rw [heq]
  rcases true_of_or h with h | h
  · obtain ⟨hpos, hnot⟩ := and_eq_true.mp h
    obtain rfl : left = positive := by simpa using hpos
    rw [(Arena.bv_bvNot hs (isBvNotOf_true hnot) hr).2]
  · obtain ⟨hpos, hnot⟩ := and_eq_true.mp h
    obtain rfl : right = positive := by simpa using hpos
    rw [(Arena.bv_bvNot hs (isBvNotOf_true hnot) hl).2, BitVec.and_comm]

theorem favaroProduct2Matches_true (hs : s.Inv) (hw : s.IsBv t w)
    (h : favaroProduct2Matches s t y z = ok true) :
    s.bv ρ t w = (s.bv ρ z w &&& ~~~s.bv ρ y w) * (s.bv ρ y w &&& ~~~s.bv ρ z w) := by
  obtain ⟨left, right, hmul, h⟩ := let_pair h
  obtain ⟨hl, hr, heq⟩ := Arena.bv_bvMul (ρ := ρ) hs (bvMulParts_eq.mp hmul) hw
  rw [heq]
  rcases true_of_or h with h | h
  · obtain ⟨hz, hy⟩ := and_eq_true.mp h
    rw [favaroAndNotPair_true hs hl hz, favaroAndNotPair_true hs hr hy]
  · obtain ⟨hz, hy⟩ := and_eq_true.mp h
    rw [favaroAndNotPair_true hs hr hz, favaroAndNotPair_true hs hl hy, BitVec.mul_comm]

/-! ## The disguise -/

theorem favaroA1Matches_true {a1 : TermId} (hs : s.Inv) (hw : s.IsBv a1 w)
    (h : favaroA1Matches s a1 x y = ok true) : s.bv ρ a1 w = s.bv ρ x w ^^^ s.bv ρ y w := by
  obtain ⟨v, hv, h⟩ := let_bv h
  obtain ⟨pre, shl, hka1, h⟩ := let_bvSub h
  obtain ⟨pre', yTerm, hkpre, h⟩ := let_bvSub h
  obtain ⟨hyt, h⟩ := of_if h
  obtain ⟨xTerm, two, hkpre', h⟩ := let_bvSub h
  obtain ⟨hxt, h⟩ := of_if h
  obtain ⟨htwo, h⟩ := of_unless h
  obtain ⟨orTerm, one, hkshl, h⟩ := let_bvShl h
  obtain ⟨hone, h⟩ := of_unless h
  obtain ⟨left, right, hkor, h⟩ := let_bvOr h
  rw [not_not] at hyt hxt
  obtain ⟨hpre, hshl, ha1⟩ := Arena.bv_bvSub (ρ := ρ) hs hka1 hw
  obtain ⟨hpre', hy, hsubY⟩ := Arena.bv_bvSub (ρ := ρ) hs hkpre hpre
  obtain ⟨hx, -, hsubTwo⟩ := Arena.bv_bvSub (ρ := ρ) hs hkpre' hpre'
  obtain ⟨hor, -, hshift⟩ := Arena.bv_bvShl (ρ := ρ) hs hkshl hshl
  obtain ⟨hl, hr, heq⟩ := Arena.bv_bvOr (ρ := ρ) hs hkor hor
  have hmask : s.bv ρ orTerm w = s.bv ρ x w ||| ~~~s.bv ρ y w := by
    rw [heq]
    rcases true_of_or h with h | h
    · obtain ⟨hxl, hnot⟩ := and_eq_true.mp h
      obtain rfl : left = x := by simpa using hxl
      rw [(Arena.bv_bvNot hs (isBvNotOf_true hnot) hr).2]
    · obtain ⟨hxr, hnot⟩ := and_eq_true.mp h
      obtain rfl : right = x := by simpa using hxr
      rw [(Arena.bv_bvNot hs (isBvNotOf_true hnot) hl).2, BitVec.or_comm]
  rw [hyt] at hy hsubY
  rw [hxt] at hx hsubTwo
  obtain rfl := hy.inj hv
  have hshl : s.bv ρ orTerm w <<< s.bv ρ one w = s.bv ρ orTerm w <<< 1 := by
    rw [(bv_of_isBvConstU64 hs hone).2, BitVec.shiftLeft_eq', BitVec.toNat_ofNat,
      show (1 : UInt64).toNat = 1 from rfl,
      Nat.mod_eq_of_lt (Nat.one_lt_two_pow (Nat.ne_of_gt (hx.pos hs)))]
  rw [ha1, hsubY, hsubTwo, hshift, hshl, hmask, (bv_of_isBvConstU64 hs htwo).2, MixedWords.xor_eq]
  rfl

theorem favaroZMatches_true (hs : s.Inv) (hw : s.IsBv z w) (h : favaroZMatches s z y = ok true) :
    s.bv ρ z w = s.bv ρ y w := by
  obtain ⟨a, b, hk, h⟩ := let_bvXor h
  obtain ⟨ha, hb, heq⟩ := Arena.bv_bvXor (ρ := ρ) hs hk hw
  rw [heq]
  rcases true_of_or h with h | h
  · rw [favaroA1Matches_true hs ha h, BitVec.xor_comm (s.bv ρ b w), BitVec.xor_assoc,
      BitVec.xor_self, BitVec.xor_zero]
  · rw [favaroA1Matches_true hs hb h, ← BitVec.xor_assoc, BitVec.xor_self, BitVec.zero_xor]

/-! ## The pass -/

/-- A pair that is accepted is equal whatever the assignment. -/
theorem favaroMbaMatches_true (hs : s.Inv) (ha : s.IsBv a w) (hb : s.IsBv b w)
    (h : favaroMbaMatches s a b = ok true) (ρ : Env) : s.value ρ a = s.value ρ b := by
  obtain ⟨y, yRight, hsquare, h⟩ := let_pair h
  obtain ⟨hy, h⟩ := of_if h
  obtain ⟨left, right, hadd, h⟩ := let_pair h
  obtain ⟨⟨product1, product2⟩, hp, h⟩ := exists_of_anyM h
  obtain ⟨z, hz, h⟩ := let_term h
  obtain ⟨hproduct2, hzy⟩ := and_eq_true.mp h
  obtain ⟨h1, h2, hsum⟩ := bv_bvAdd_either (ρ := ρ) hs (bvAddParts_eq.mp hadd) ha hp
  obtain ⟨hzw, hyw, hproduct1⟩ := favaroProduct1Z_some (ρ := ρ) hs h1 hz
  obtain rfl := not_not.mp hy
  rw [Arena.value_eq_iff_bv hs ha hb, hsum, hproduct1, favaroProduct2Matches_true hs h2 hproduct2,
    MixedWords.mul_eq, favaroZMatches_true hs hzw hzy,
    (Arena.bv_bvMul hs (bvMulParts_eq.mp hsquare) hb).2.2]

/-- Every pair that the pass accepts is equal under all assignments, so a query that denies it of
one such pair cannot be satisfied. -/
theorem favaro_mba_is_sound {q : Query} (hq : q.WellFormed) :
    (∀ expr square w, q.arena.IsBv expr w → q.arena.IsBv square w →
      favaroMbaMatches q.arena expr square = ok true →
        ∀ ρ, q.arena.value ρ expr = q.arena.value ρ square) ∧
    (hasFavaroMbaMulContradiction q = ok true → ¬∃ ρ, Asserted q ρ) := by
  have hs := hq.arena
  refine ⟨fun expr square w ha hb h => favaroMbaMatches_true hs ha hb h, ?_⟩
  rintro h ⟨ρ, hρ⟩
  obtain ⟨-, h⟩ := of_if h
  obtain ⟨leaves, hleaves, h⟩ := bind_eq_ok.mp h
  obtain ⟨-, htrue⟩ := (conjuncts_answers hq).of_eq hleaves
  obtain ⟨leaf, hleaf, h⟩ := exists_of_anyM h
  obtain ⟨eq, hk, h⟩ := let_boolNot h
  obtain ⟨a, b, hpair, h⟩ := let_pair h
  have hkeq := bvEqPair_eq.mp hpair
  obtain ⟨w, ha, hb⟩ := hs.bvEq_sort hkeq
  have hne : q.arena.value ρ a ≠ q.arena.value ρ b := by
    rw [ne_eq, ← Arena.isTrue_bvEq hs hkeq]
    exact (Arena.isTrue_boolNot hs hk).mp ((htrue ρ).mp hρ leaf hleaf)
  rcases true_of_or h with h | h
  · exact hne (favaroMbaMatches_true hs ha hb h ρ)
  · exact hne (favaroMbaMatches_true hs hb ha h ρ).symm

/-- `y * y` at eight bits, disguised as the pass expects it. -/
def disguisedSquare : Query := .asserting [
    ⟨.bvVar 8 "y" (some 0), .bv 8⟩,
    ⟨.bvVar 8 "x" (some 1), .bv 8⟩,
    ⟨.bvConst 8 [2], .bv 8⟩,
    ⟨.bvConst 8 [1], .bv 8⟩,
    ⟨.bvSub 1 2, .bv 8⟩,
    ⟨.bvSub 4 0, .bv 8⟩,
    ⟨.bvNot 0, .bv 8⟩,
    ⟨.bvOr 1 6, .bv 8⟩,
    ⟨.bvShl 7 3, .bv 8⟩,
    ⟨.bvSub 5 8, .bv 8⟩,
    ⟨.bvXor 1 9, .bv 8⟩,
    ⟨.bvOr 0 10, .bv 8⟩,
    ⟨.bvAnd 0 10, .bv 8⟩,
    ⟨.bvMul 11 12, .bv 8⟩,
    ⟨.bvAnd 6 10, .bv 8⟩,
    ⟨.bvNot 10, .bv 8⟩,
    ⟨.bvAnd 0 15, .bv 8⟩,
    ⟨.bvMul 14 16, .bv 8⟩,
    ⟨.bvAdd 13 17, .bv 8⟩,
    ⟨.bvMul 0 0, .bv 8⟩,
    ⟨.bvEq 18 19, .bool⟩,
    ⟨.boolNot 20, .bool⟩] [21]

theorem favaro_mba_of_disguised : hasFavaroMbaMulContradiction disguisedSquare = ok true ∧
    ¬∃ ρ, Asserted disguisedSquare ρ := by
  have hfound : hasFavaroMbaMulContradiction disguisedSquare = ok true := by decide
  exact ⟨hfound, (favaro_mba_is_sound
    (Query.wellFormed_of_check (by decide) (by decide))).2 hfound⟩

end Shortcuts
end Qfbv
end SmtServer
