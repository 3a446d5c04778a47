import SmtServer.Qfbv.Builder.Reads
import SmtServer.Qfbv.Shortcuts.Definitions
import SmtServer.Qfbv.Words

/-!
# Shortcuts: how terms are matched

What the matchers of the passes are made of: the kind of a node (`let_bvSub` and its like), the
operands of an operator, constants, and the equations and disequations that a query asserts.

A constant is compared byte by byte with the bytes it should have; what that says of its number is
`num_of_bytesAre`, once for all constants.
-/

namespace SmtServer
namespace Qfbv

open Lib Outcome

namespace NodeKind

def bvAdd? : NodeKind → Option (TermId × TermId)
  | .bvAdd a b => some (a, b)
  | _ => none

def boolEq? : NodeKind → Option (TermId × TermId)
  | .boolEq a b => some (a, b)
  | _ => none

def bvUlt? : NodeKind → Option (TermId × TermId)
  | .bvUlt a b => some (a, b)
  | _ => none

variable {k : NodeKind} {p : TermId × TermId}

theorem bvAdd?_eq : k.bvAdd? = some p ↔ k = .bvAdd p.1 p.2 := by
  cases k <;> simp [bvAdd?, Prod.ext_iff]

theorem boolEq?_eq : k.boolEq? = some p ↔ k = .boolEq p.1 p.2 := by
  cases k <;> simp [boolEq?, Prod.ext_iff]

theorem bvUlt?_eq : k.bvUlt? = some p ↔ k = .bvUlt p.1 p.2 := by
  cases k <;> simp [bvUlt?, Prod.ext_iff]

end NodeKind

/-- The query that asserts these terms and asks for nothing else. -/
def Query.asserting (nodes : List Node) (roots : List TermId) : Query where
  arena := ⟨nodes⟩
  assertions := roots.map (⟨·, none⟩)
  assumptions := []
  command := .solve
  target := none
  signed := false
  wantModel := false
  wantCore := false
  getValues := []

namespace Shortcuts

variable {s : Arena} {ρ : Env} {t a b c : TermId} {p : BvPair} {w v : Nat} {β : Type} {d r : β}

/-! ## Kinds

`let NodeKind::BvSub(a, b) = &query.arena.node(t)?.kind else { return Ok(d) }`. -/

theorem let_bvNot {f : TermId → Result β}
    (h : (do let .bvNot a ← kind s t | return d
             f a) = ok r) [hne : Apart d r] :
    ∃ a, s.kindAt t = some (.bvNot a) ∧ f a = ok r := by
  obtain ⟨k, hk, h⟩ := bind_eq_ok.mp h
  split at h
  · exact ⟨_, kind_eq_ok.mp hk, h⟩
  · exact absurd (Outcome.ok.inj h) hne.ne

theorem let_bvNeg {f : TermId → Result β}
    (h : (do let .bvNeg a ← kind s t | return d
             f a) = ok r) [hne : Apart d r] :
    ∃ a, s.kindAt t = some (.bvNeg a) ∧ f a = ok r := by
  obtain ⟨k, hk, h⟩ := bind_eq_ok.mp h
  split at h
  · exact ⟨_, kind_eq_ok.mp hk, h⟩
  · exact absurd (Outcome.ok.inj h) hne.ne

theorem let_boolNot {f : TermId → Result β}
    (h : (do let .boolNot a ← kind s t | return d
             f a) = ok r) [hne : Apart d r] :
    ∃ a, s.kindAt t = some (.boolNot a) ∧ f a = ok r := by
  obtain ⟨k, hk, h⟩ := bind_eq_ok.mp h
  split at h
  · exact ⟨_, kind_eq_ok.mp hk, h⟩
  · exact absurd (Outcome.ok.inj h) hne.ne

theorem let_bvAdd {f : TermId → TermId → Result β}
    (h : (do let .bvAdd a b ← kind s t | return d
             f a b) = ok r) [hne : Apart d r] :
    ∃ a b, s.kindAt t = some (.bvAdd a b) ∧ f a b = ok r := by
  obtain ⟨k, hk, h⟩ := bind_eq_ok.mp h
  split at h
  · exact ⟨_, _, kind_eq_ok.mp hk, h⟩
  · exact absurd (Outcome.ok.inj h) hne.ne

theorem let_bvSub {f : TermId → TermId → Result β}
    (h : (do let .bvSub a b ← kind s t | return d
             f a b) = ok r) [hne : Apart d r] :
    ∃ a b, s.kindAt t = some (.bvSub a b) ∧ f a b = ok r := by
  obtain ⟨k, hk, h⟩ := bind_eq_ok.mp h
  split at h
  · exact ⟨_, _, kind_eq_ok.mp hk, h⟩
  · exact absurd (Outcome.ok.inj h) hne.ne

theorem let_bvMul {f : TermId → TermId → Result β}
    (h : (do let .bvMul a b ← kind s t | return d
             f a b) = ok r) [hne : Apart d r] :
    ∃ a b, s.kindAt t = some (.bvMul a b) ∧ f a b = ok r := by
  obtain ⟨k, hk, h⟩ := bind_eq_ok.mp h
  split at h
  · exact ⟨_, _, kind_eq_ok.mp hk, h⟩
  · exact absurd (Outcome.ok.inj h) hne.ne

theorem let_bvXor {f : TermId → TermId → Result β}
    (h : (do let .bvXor a b ← kind s t | return d
             f a b) = ok r) [hne : Apart d r] :
    ∃ a b, s.kindAt t = some (.bvXor a b) ∧ f a b = ok r := by
  obtain ⟨k, hk, h⟩ := bind_eq_ok.mp h
  split at h
  · exact ⟨_, _, kind_eq_ok.mp hk, h⟩
  · exact absurd (Outcome.ok.inj h) hne.ne

theorem let_bvOr {f : TermId → TermId → Result β}
    (h : (do let .bvOr a b ← kind s t | return d
             f a b) = ok r) [hne : Apart d r] :
    ∃ a b, s.kindAt t = some (.bvOr a b) ∧ f a b = ok r := by
  obtain ⟨k, hk, h⟩ := bind_eq_ok.mp h
  split at h
  · exact ⟨_, _, kind_eq_ok.mp hk, h⟩
  · exact absurd (Outcome.ok.inj h) hne.ne

theorem let_bvAnd {f : TermId → TermId → Result β}
    (h : (do let .bvAnd a b ← kind s t | return d
             f a b) = ok r) [hne : Apart d r] :
    ∃ a b, s.kindAt t = some (.bvAnd a b) ∧ f a b = ok r := by
  obtain ⟨k, hk, h⟩ := bind_eq_ok.mp h
  split at h
  · exact ⟨_, _, kind_eq_ok.mp hk, h⟩
  · exact absurd (Outcome.ok.inj h) hne.ne

theorem let_bvShl {f : TermId → TermId → Result β}
    (h : (do let .bvShl a b ← kind s t | return d
             f a b) = ok r) [hne : Apart d r] :
    ∃ a b, s.kindAt t = some (.bvShl a b) ∧ f a b = ok r := by
  obtain ⟨k, hk, h⟩ := bind_eq_ok.mp h
  split at h
  · exact ⟨_, _, kind_eq_ok.mp hk, h⟩
  · exact absurd (Outcome.ok.inj h) hne.ne

theorem let_bvLShr {f : TermId → TermId → Result β}
    (h : (do let .bvLShr a b ← kind s t | return d
             f a b) = ok r) [hne : Apart d r] :
    ∃ a b, s.kindAt t = some (.bvLShr a b) ∧ f a b = ok r := by
  obtain ⟨k, hk, h⟩ := bind_eq_ok.mp h
  split at h
  · exact ⟨_, _, kind_eq_ok.mp hk, h⟩
  · exact absurd (Outcome.ok.inj h) hne.ne

theorem let_bvEq {f : TermId → TermId → Result β}
    (h : (do let .bvEq a b ← kind s t | return d
             f a b) = ok r) [hne : Apart d r] :
    ∃ a b, s.kindAt t = some (.bvEq a b) ∧ f a b = ok r := by
  obtain ⟨k, hk, h⟩ := bind_eq_ok.mp h
  split at h
  · exact ⟨_, _, kind_eq_ok.mp hk, h⟩
  · exact absurd (Outcome.ok.inj h) hne.ne

theorem let_boolAnd {f : TermId → TermId → Result β}
    (h : (do let .boolAnd a b ← kind s t | return d
             f a b) = ok r) [hne : Apart d r] :
    ∃ a b, s.kindAt t = some (.boolAnd a b) ∧ f a b = ok r := by
  obtain ⟨k, hk, h⟩ := bind_eq_ok.mp h
  split at h
  · exact ⟨_, _, kind_eq_ok.mp hk, h⟩
  · exact absurd (Outcome.ok.inj h) hne.ne

theorem let_bvUDiv {f : TermId → TermId → Result β}
    (h : (do let .bvUDiv a b ← kind s t | return d
             f a b) = ok r) [hne : Apart d r] :
    ∃ a b, s.kindAt t = some (.bvUDiv a b) ∧ f a b = ok r := by
  obtain ⟨k, hk, h⟩ := bind_eq_ok.mp h
  split at h
  · exact ⟨_, _, kind_eq_ok.mp hk, h⟩
  · exact absurd (Outcome.ok.inj h) hne.ne

theorem let_bvSDiv {f : TermId → TermId → Result β}
    (h : (do let .bvSDiv a b ← kind s t | return d
             f a b) = ok r) [hne : Apart d r] :
    ∃ a b, s.kindAt t = some (.bvSDiv a b) ∧ f a b = ok r := by
  obtain ⟨k, hk, h⟩ := bind_eq_ok.mp h
  split at h
  · exact ⟨_, _, kind_eq_ok.mp hk, h⟩
  · exact absurd (Outcome.ok.inj h) hne.ne

theorem let_bvConcat {f : TermId → TermId → Result β}
    (h : (do let .bvConcat a b ← kind s t | return d
             f a b) = ok r) [hne : Apart d r] :
    ∃ a b, s.kindAt t = some (.bvConcat a b) ∧ f a b = ok r := by
  obtain ⟨k, hk, h⟩ := bind_eq_ok.mp h
  split at h
  · exact ⟨_, _, kind_eq_ok.mp hk, h⟩
  · exact absurd (Outcome.ok.inj h) hne.ne

theorem let_bvExtract {f : TermId → Nat → Nat → Result β}
    (h : (do let .bvExtract child high low ← kind s t | return d
             f child high low) = ok r) [hne : Apart d r] :
    ∃ child high low, s.kindAt t = some (.bvExtract child high low) ∧ f child high low = ok r := by
  obtain ⟨k, hk, h⟩ := bind_eq_ok.mp h
  split at h
  · exact ⟨_, _, _, kind_eq_ok.mp hk, h⟩
  · exact absurd (Outcome.ok.inj h) hne.ne

theorem let_bvIte {f : TermId → TermId → TermId → Result β}
    (h : (do let .bvIte cond thenValue elseValue ← kind s t | return d
             f cond thenValue elseValue) = ok r) [hne : Apart d r] :
    ∃ cond thenValue elseValue, s.kindAt t = some (.bvIte cond thenValue elseValue) ∧
      f cond thenValue elseValue = ok r := by
  obtain ⟨k, hk, h⟩ := bind_eq_ok.mp h
  split at h
  · exact ⟨_, _, _, kind_eq_ok.mp hk, h⟩
  · exact absurd (Outcome.ok.inj h) hne.ne

theorem let_boolIte {f : TermId → TermId → TermId → Result β}
    (h : (do let .boolIte cond thenValue elseValue ← kind s t | return d
             f cond thenValue elseValue) = ok r) [hne : Apart d r] :
    ∃ cond thenValue elseValue, s.kindAt t = some (.boolIte cond thenValue elseValue) ∧
      f cond thenValue elseValue = ok r := by
  obtain ⟨k, hk, h⟩ := bind_eq_ok.mp h
  split at h
  · exact ⟨_, _, _, kind_eq_ok.mp hk, h⟩
  · exact absurd (Outcome.ok.inj h) hne.ne

/-- `let Sort::Bv(width) = query.arena.sort(t)? else { return Ok(d) }`. -/
theorem let_bv {f : Nat → Result β}
    (h : (do let .bv width ← s.sort t | return d
             f width) = ok r) [hne : Apart d r] : ∃ w, s.IsBv t w ∧ f w = ok r := by
  obtain ⟨σ, hσ, h⟩ := bind_eq_ok.mp h
  split at h
  · exact ⟨_, Arena.sort_eq_ok.mp hσ, h⟩
  · exact absurd (Outcome.ok.inj h) hne.ne

/-! `let Some((a, b)) = x? else { return Ok(d) }`. -/

theorem let_pair {x : Result (Option (TermId × TermId))} {f : TermId → TermId → Result β}
    (h : (do let some (a, b) ← x | return d
             f a b) = ok r) [hne : Apart d r] :
    ∃ a b, x = ok (some (a, b)) ∧ f a b = ok r := by
  obtain ⟨o, ho, h⟩ := bind_eq_ok.mp h
  rcases o with - | ⟨a, b⟩
  · exact absurd (Outcome.ok.inj h) hne.ne
  · exact ⟨a, b, ho, h⟩

theorem let_term {x : Result (Option TermId)} {f : TermId → Result β}
    (h : (do let some a ← x | return d
             f a) = ok r) [hne : Apart d r] : ∃ a, x = ok (some a) ∧ f a = ok r := by
  obtain ⟨o, ho, h⟩ := bind_eq_ok.mp h
  cases o with
  | none => exact absurd (Outcome.ok.inj h) hne.ne
  | some a => exact ⟨a, ho, h⟩

theorem let_operand {x : Result (Option (TermId × TermId × Nat))}
    {f : TermId → TermId → Nat → Result β}
    (h : (do let some (a, b, width) ← x | return d
             f a b width) = ok r) [hne : Apart d r] :
    ∃ a b w, x = ok (some (a, b, w)) ∧ f a b w = ok r := by
  obtain ⟨o, ho, h⟩ := bind_eq_ok.mp h
  rcases o with - | ⟨a, b, w⟩
  · exact absurd (Outcome.ok.inj h) hne.ne
  · exact ⟨a, b, w, ho, h⟩

theorem let_extension {x : Result (Option (TermId × Nat × Nat))}
    {f : TermId → Nat → Nat → Result β}
    (h : (do let some (a, width, extra) ← x | return d
             f a width extra) = ok r) [hne : Apart d r] :
    ∃ a w e, x = ok (some (a, w, e)) ∧ f a w e = ok r := by
  obtain ⟨o, ho, h⟩ := bind_eq_ok.mp h
  rcases o with - | ⟨a, w, e⟩
  · exact absurd (Outcome.ok.inj h) hne.ne
  · exact ⟨a, w, e, ho, h⟩

/-! ## Operands -/

/-- The `*_parts` helpers: the operands of an operator that `split` knows. -/
def parts (split : NodeKind → Option (TermId × TermId)) (s : Arena) (term : TermId) :
    Result (Option (TermId × TermId)) := do
  return split (← kind s term)

def bvAddParts (s : Arena) (term : TermId) : Result (Option (TermId × TermId)) :=
  parts (·.bvAdd?) s term

def bvMulParts (s : Arena) (term : TermId) : Result (Option (TermId × TermId)) :=
  parts (·.bvMul?) s term

def bvAndParts (s : Arena) (term : TermId) : Result (Option (TermId × TermId)) :=
  parts (·.bvAnd?) s term

def boolEqPair (s : Arena) (term : TermId) : Result (Option (TermId × TermId)) :=
  parts (·.boolEq?) s term

theorem parts_eq {split : NodeKind → Option (TermId × TermId)} {o : Option (TermId × TermId)} :
    parts split s t = ok o ↔ ∃ k, s.kindAt t = some k ∧ split k = o := by
  simp only [parts, bind_eq_ok, kind_eq_ok, pure_eq, Outcome.ok.injEq]

theorem parts_answers {split : NodeKind → Option (TermId × TermId)} {σ : TermSort}
    (h : s.sortAt t = some σ) :
    Answers (parts split s t) fun o => ∃ k, s.kindAt t = some k ∧ split k = o :=
  (kind_answers h).bind fun k hk => answers_ok ⟨k, hk, rfl⟩

theorem bvAddParts_eq : bvAddParts s t = ok (some p) ↔ s.kindAt t = some (.bvAdd p.1 p.2) := by
  simp only [bvAddParts, parts_eq, NodeKind.bvAdd?_eq, exists_eq_right]

theorem bvMulParts_eq : bvMulParts s t = ok (some p) ↔ s.kindAt t = some (.bvMul p.1 p.2) := by
  simp only [bvMulParts, parts_eq, NodeKind.bvMul?_eq, exists_eq_right]

theorem bvAndParts_eq : bvAndParts s t = ok (some p) ↔ s.kindAt t = some (.bvAnd p.1 p.2) := by
  simp only [bvAndParts, parts_eq, NodeKind.bvAnd?_eq, exists_eq_right]

theorem boolEqPair_eq : boolEqPair s t = ok (some p) ↔ s.kindAt t = some (.boolEq p.1 p.2) := by
  simp only [boolEqPair, parts_eq, NodeKind.boolEq?_eq, exists_eq_right]

theorem bvEqPair_eq : bvEqPair s t = ok (some p) ↔ s.kindAt t = some (.bvEq p.1 p.2) := by
  rw [show bvEqPair s t = parts (·.bvEq?) s t from rfl]
  simp only [parts_eq, NodeKind.bvEq?_eq, exists_eq_right]

def isBvNotOf (s : Arena) (candidate child : TermId) : Result Bool := do
  return (← kind s candidate).bvNot? == some child

theorem isBvNotOf_true {child : TermId} (h : isBvNotOf s t child = ok true) :
    s.kindAt t = some (.bvNot child) := by
  obtain ⟨k, hk, h⟩ := bind_eq_ok.mp h
  rw [pure_eq, Outcome.ok.injEq, beq_iff_eq] at h
  rw [kind_eq_ok.mp hk, NodeKind.bvNot?_eq.mp h]

theorem sameUnorderedPair_eq {x y : TermId} : sameUnorderedPair a b x y = true ↔
    (a = x ∧ b = y) ∨ (a = y ∧ b = x) := by
  simp [sameUnorderedPair]

/-! A commutative operator is matched in either order of its operands. -/

theorem bv_bvMul_either {p : TermId × TermId} (hs : s.Inv)
    (hk : s.kindAt t = some (.bvMul a b)) (hw : s.IsBv t w) (hp : p ∈ [(a, b), (b, a)]) :
    s.IsBv p.1 w ∧ s.IsBv p.2 w ∧ s.bv ρ t w = s.bv ρ p.1 w * s.bv ρ p.2 w := by
  obtain ⟨ha, hb, heq⟩ := Arena.bv_bvMul (ρ := ρ) hs hk hw
  simp only [List.mem_cons, List.not_mem_nil, or_false] at hp
  rcases hp with rfl | rfl
  · exact ⟨ha, hb, heq⟩
  · exact ⟨hb, ha, heq.trans (BitVec.mul_comm _ _)⟩

theorem bv_bvAdd_either {p : TermId × TermId} (hs : s.Inv)
    (hk : s.kindAt t = some (.bvAdd a b)) (hw : s.IsBv t w) (hp : p ∈ [(a, b), (b, a)]) :
    s.IsBv p.1 w ∧ s.IsBv p.2 w ∧ s.bv ρ t w = s.bv ρ p.1 w + s.bv ρ p.2 w := by
  obtain ⟨ha, hb, heq⟩ := Arena.bv_bvAdd (ρ := ρ) hs hk hw
  simp only [List.mem_cons, List.not_mem_nil, or_false] at hp
  rcases hp with rfl | rfl
  · exact ⟨ha, hb, heq⟩
  · exact ⟨hb, ha, heq.trans (BitVec.add_comm _ _)⟩

/-! ## Constants -/

/-- `bytes.iter().enumerate().all(|(index, byte)| *byte == expected(index))`. -/
def bytesAre (expected : Nat → UInt8) (bytes : List UInt8) : Bool :=
  bytes.zipIdx.all fun p => p.1 == expected p.2

def isBvConstU64 (s : Arena) (term : TermId) (width : Nat) (value : UInt64) : Result Bool := do
  match ← kind s term with
  | .bvConst actualWidth bytes =>
    return actualWidth = width ∧ bytes.length = divCeil8 width ∧
      bytesAre (fun index =>
        if index < 8 then ((value >>> UInt64.ofNat (index * 8)) &&& 0xff).toUInt8 else 0) bytes
  | _ => return false

def isPowerOfTwoConst (s : Arena) (term : TermId) (bit : Nat) : Result Bool := do
  match ← kind s term with
  | .bvConst _ bytes =>
    return bytesAre (fun index => if index = bit / 8 then 1 <<< UInt8.ofNat (bit % 8) else 0) bytes
  | _ => return false

def isAllOnesBvConst (s : Arena) (term : TermId) (width : Nat) : Result Bool := do
  match ← kind s term with
  | .bvConst actual bytes =>
    let fullBytes := divCeil8 width
    return actual = width ∧ bytes.length = fullBytes ∧ bytesAre (fun index =>
      let validBits := if index + 1 = fullBytes ∧ width % 8 ≠ 0 then width % 8 else 8
      if validBits = 8 then 0xff else (1 <<< UInt8.ofNat validBits) - 1) bytes
  | _ => return false

/-- Only asked of widths that are not zero. -/
def isSignedMinBvConst (s : Arena) (term : TermId) (width : Nat) : Result Bool := do
  match ← kind s term with
  | .bvConst actual bytes =>
    return actual = width ∧ (List.range (width - 1)).all (fun bit => !Bytes.getBit bytes bit) ∧
      Bytes.getBit bytes (width - 1)
  | _ => return false

theorem testBit_of_bytesAre {expected : Nat → UInt8} {bytes : List UInt8}
    (h : bytesAre expected bytes = true) {i : Nat} (hi : i < 8 * bytes.length) :
    (leNat bytes).testBit i = (expected (i / 8)).toNat.testBit (i % 8) := by
  have hlt : i / 8 < bytes.length := by omega
  have hbyte := List.all_eq_true.mp h (bytes[i / 8], i / 8)
    (List.mem_zipIdx_iff_getElem?.mpr (List.getElem?_eq_getElem hlt))
  rw [testBit_leNat, List.getD_eq_getElem _ _ hlt]
  rw [show bytes[i / 8] = expected (i / 8) from beq_iff_eq.mp hbyte]

/-- The number of a constant, from what its bits should be. -/
theorem num_of_bytesAre (hs : s.Inv) {expected : Nat → UInt8} {bytes : List UInt8} {n : Nat}
    (hk : s.kindAt t = some (.bvConst w bytes)) (h : bytesAre expected bytes = true)
    (hn : ∀ i < 8 * divCeil8 w, (expected (i / 8)).toNat.testBit (i % 8) = n.testBit i) :
    s.IsBv t w ∧ ∀ ρ, s.num ρ t = n % 2 ^ (8 * divCeil8 w) := by
  obtain ⟨σ, hσ, rfl, hlen, -⟩ := hs.hasSort hk
  refine ⟨hσ, fun ρ => ?_⟩
  rw [Arena.num_bvConst hs hk]
  refine Nat.eq_of_testBit_eq fun i => ?_
  rw [Nat.testBit_mod_two_pow]
  by_cases hi : i < 8 * divCeil8 w
  · rw [testBit_of_bytesAre h (hlen ▸ hi), hn i hi]
    simp [hi]
  · rw [testBit_leNat_of_le (by omega)]
    simp [hi]

theorem byte_of_word (value : UInt64) {i : Nat} (hi : i < 64) :
    ((value >>> UInt64.ofNat (i / 8 * 8)) &&& 0xff).toUInt8.toNat.testBit (i % 8) =
      value.toNat.testBit i := by
  have hshift : (UInt64.ofNat (i / 8 * 8)).toNat % 64 = i / 8 * 8 := by
    rw [UInt64.toNat_ofNat']
    omega
  rw [UInt64.toNat_toUInt8, UInt64.toNat_and, UInt64.toNat_shiftRight, hshift,
    show (0xff : UInt64).toNat = 2 ^ 8 - 1 from rfl, Nat.and_two_pow_sub_one_eq_mod,
    Nat.mod_mod, Nat.testBit_mod_two_pow, Nat.testBit_shiftRight,
    show i / 8 * 8 + i % 8 = i by omega]
  simp [Nat.mod_lt]

theorem isBvConstU64_true (hs : s.Inv) {value : UInt64}
    (h : isBvConstU64 s t w value = ok true) :
    s.IsBv t w ∧ ∀ ρ, s.num ρ t = value.toNat % 2 ^ (8 * divCeil8 w) := by
  obtain ⟨k, hk, h⟩ := bind_eq_ok.mp h
  split at h
  · simp only [pure_eq, Outcome.ok.injEq, decide_eq_true_eq] at h
    obtain ⟨rfl, -, h⟩ := h
    refine num_of_bytesAre hs (kind_eq_ok.mp hk) h fun i _ => ?_
    by_cases hi : i < 64
    · rw [if_pos (by omega), byte_of_word value hi]
    · rw [if_neg (by omega), Nat.testBit_lt_two_pow (Nat.lt_of_lt_of_le value.toNat_lt
        (Nat.pow_le_pow_right (by decide) (Nat.le_of_not_lt hi)))]
      simp
  · cases h

/-- The number of a constant that was compared in full bytes. -/
theorem bv_eq_ofNat (hs : s.Inv) {n : Nat} (hw : s.IsBv t w)
    (h : s.num ρ t = n % 2 ^ (8 * divCeil8 w)) : s.bv ρ t w = BitVec.ofNat w n := by
  refine BitVec.eq_of_toNat_eq ?_
  have hmod := (hw.num_eq (ρ := ρ) hs).symm.trans h
  rw [BitVec.toNat_ofNat, ← Nat.mod_eq_of_lt (BitVec.isLt (s.bv ρ t w)), hmod]
  exact Nat.mod_mod_of_dvd _ (Nat.pow_dvd_pow 2 (Bytes.le_eight_mul_divCeil8 w))

theorem bv_of_isBvConstU64 (hs : s.Inv) {value : UInt64} (h : isBvConstU64 s t w value = ok true) :
    s.IsBv t w ∧ s.bv ρ t w = BitVec.ofNat w value.toNat := by
  obtain ⟨hw, hnum⟩ := isBvConstU64_true hs h
  exact ⟨hw, bv_eq_ofNat hs hw (hnum ρ)⟩

theorem isPowerOfTwoConst_true (hs : s.Inv) {bit : Nat} (h : isPowerOfTwoConst s t bit = ok true)
    (hw : s.IsBv t w) (ρ : Env) : s.num ρ t = 2 ^ bit % 2 ^ (8 * divCeil8 w) := by
  obtain ⟨k, hk, h⟩ := bind_eq_ok.mp h
  split at h
  · simp only [pure_eq, Outcome.ok.injEq] at h
    have key : ∀ b i : Fin 8, (1 <<< UInt8.ofNat b : UInt8).toNat.testBit i = decide (b = i) := by
      decide
    obtain ⟨hv, hnum⟩ := num_of_bytesAre (n := 2 ^ bit) hs (kind_eq_ok.mp hk) h (by
      intro i _
      rw [Nat.testBit_two_pow]
      split
      · rw [key ⟨bit % 8, by omega⟩ ⟨i % 8, by omega⟩]
        simp only [Fin.mk.injEq, decide_eq_decide]
        omega
      · rw [decide_eq_false (by omega)]
        exact Nat.zero_testBit _)
    obtain rfl := hw.inj hv
    exact hnum ρ
  · cases h

theorem isAllOnesBvConst_true (hs : s.Inv) (h : isAllOnesBvConst s t w = ok true) :
    s.IsBv t w ∧ ∀ ρ, s.bv ρ t w = BitVec.allOnes w := by
  obtain ⟨k, hk, h⟩ := bind_eq_ok.mp h
  split at h
  · rename_i actual bytes
    simp only [pure_eq, Outcome.ok.injEq, decide_eq_true_eq] at h
    obtain ⟨heq, hlen, h⟩ := h
    subst actual
    have hk := kind_eq_ok.mp hk
    obtain ⟨σ, hσ, rfl, -, -⟩ := hs.hasSort hk
    refine ⟨hσ, fun ρ => BitVec.eq_of_getLsbD_eq fun i hi => ?_⟩
    have hcover := Bytes.le_eight_mul_divCeil8 w
    have hfull : ∀ j : Fin 8, (0xff : UInt8).toNat.testBit j = true := by decide
    have hpart : ∀ b j : Fin 8, j < b →
        ((1 <<< UInt8.ofNat b : UInt8) - 1).toNat.testBit j = true := by decide
    rw [Arena.IsBv.getLsbD hs hσ, ← Arena.testBit_num, Arena.num_bvConst hs hk,
      testBit_of_bytesAre h (by omega), BitVec.getLsbD_allOnes, decide_eq_true hi]
    by_cases hlast : i / 8 + 1 = divCeil8 w ∧ w % 8 ≠ 0
    · have hbits : i % 8 < w % 8 := by
        obtain ⟨hlast, hne⟩ := hlast
        rw [divCeil8] at hlast
        omega
      simp only [if_pos hlast, if_neg (show ¬w % 8 = 8 by omega)]
      exact hpart ⟨w % 8, by omega⟩ ⟨i % 8, by omega⟩ hbits
    · simp only [if_neg hlast]
      exact hfull ⟨i % 8, by omega⟩
  · cases h

theorem isSignedMinBvConst_true (hs : s.Inv) (h : isSignedMinBvConst s t w = ok true) :
    s.IsBv t w ∧ ∀ ρ, s.bv ρ t w = BitVec.intMin w := by
  obtain ⟨k, hk, h⟩ := bind_eq_ok.mp h
  split at h
  · rename_i actual bytes
    simp only [pure_eq, Outcome.ok.injEq, decide_eq_true_eq, List.all_eq_true, List.mem_range,
      Bool.not_eq_true', Bytes.getBit_eq] at h
    obtain ⟨heq, hlow, hhigh⟩ := h
    subst actual
    have hk := kind_eq_ok.mp hk
    obtain ⟨σ, hσ, rfl, -, -⟩ := hs.hasSort hk
    refine ⟨hσ, fun ρ => BitVec.eq_of_getLsbD_eq fun i hi => ?_⟩
    rw [Arena.IsBv.getLsbD hs hσ, ← Arena.testBit_num, Arena.num_bvConst hs hk,
      BitVec.getLsbD_intMin]
    by_cases hlast : i + 1 = w
    · subst hlast
      simpa using hhigh
    · rw [hlow i (by omega)]
      simp [hlast]
  · cases h

theorem isZeroBvConst_true (hs : s.Inv) (hw : s.IsBv t w) (h : isZeroBvConst s t = ok true)
    (ρ : Env) : s.bv ρ t w = 0 := by
  have hnum := (isZeroBvConst_answers hs hw).of_eq h rfl ρ
  rw [hw.num_eq hs] at hnum
  exact BitVec.eq_of_toNat_eq (by simpa using hnum)

theorem isOneBvConst_true (hs : s.Inv) (hw : s.IsBv t w) (h : isOneBvConst s t = ok true)
    (ρ : Env) : s.bv ρ t w = 1 := by
  have hnum := (isOneBvConst_answers hs hw).of_eq h rfl ρ
  rw [hw.num_eq hs] at hnum
  exact BitVec.eq_of_toNat_eq (hnum.trans (BitVec.toNat_one (hw.pos hs)).symm)

/-! ## Pairs that are collected -/

/-- A walk over the conjuncts that keeps the operands of those `split` knows. -/
theorem collected_answers {q : Query} (hq : q.WellFormed)
    {split : NodeKind → Option (TermId × TermId)} {act : TermId → List BvPair → Result (List BvPair)}
    (hact : ∀ leaf out, act leaf out = (do
      match split (← kind q.arena leaf) with
      | some p => return out ++ [p]
      | none => return out)) :
    Answers (forAllConjuncts q act []) fun out => ∀ p ∈ out, ∃ leaf k,
      q.arena.kindAt leaf = some k ∧ split k = some p ∧ ∀ ρ, Asserted q ρ → q.arena.IsTrue ρ leaf := by
  obtain ⟨leaves, hleaves, hsorts, htrue⟩ := conjuncts_answers hq
  rw [forAllConjuncts_eq hleaves]
  refine answers_foldlM (fun _ (out : List BvPair) => ∀ p ∈ out, ∃ leaf k,
    q.arena.kindAt leaf = some k ∧ split k = some p ∧
      ∀ ρ, Asserted q ρ → q.arena.IsTrue ρ leaf) (by simp) ?_
  intro leaf hleaf _ out hout
  rw [hact]
  refine (kind_answers (hsorts leaf hleaf)).bind fun k hk => ?_
  cases hp : split k with
  | none => exact answers_ok hout
  | some p =>
    refine answers_ok (List.forall_mem_append.mpr ⟨hout, ?_⟩)
    simpa using ⟨leaf, k, hk, hp, fun ρ hρ => (htrue ρ).mp hρ leaf hleaf⟩

/-! ## What is asserted of words -/

/-- `collect_bv_equalities_and_disequalities` on a conjunct. -/
def collectBvEqualitiesAndDisequalities (s : Arena) (leaf : TermId)
    (out : List BvPair × List BvPair) : Result (List BvPair × List BvPair) := do
  match ← kind s leaf with
  | .bvEq a b => return (out.1 ++ [(a, b)], out.2)
  | .boolNot child =>
    match (← kind s child).bvEq? with
    | some p => return (out.1, out.2 ++ [p])
    | none => return out
  | _ => return out

def bvEqualitiesAndDisequalities (q : Query) : Result (List BvPair × List BvPair) :=
  forAllConjuncts q (collectBvEqualitiesAndDisequalities q.arena) ([], [])

/-- Two words of one width, equal wherever the assertions are true. -/
def EqualBv (q : Query) (a b : TermId) : Prop :=
  ∃ w, q.arena.IsBv a w ∧ q.arena.IsBv b w ∧
    ∀ ρ, Asserted q ρ → q.arena.bv ρ a w = q.arena.bv ρ b w

/-- Two words of one width, different wherever the assertions are true. -/
def DistinctBv (q : Query) (a b : TermId) : Prop :=
  ∃ w, q.arena.IsBv a w ∧ q.arena.IsBv b w ∧
    ∀ ρ, Asserted q ρ → q.arena.bv ρ a w ≠ q.arena.bv ρ b w

variable {q : Query}

theorem EqualBv.symm (h : EqualBv q a b) : EqualBv q b a := by
  obtain ⟨w, ha, hb, heq⟩ := h
  exact ⟨w, hb, ha, fun ρ hρ => (heq ρ hρ).symm⟩

theorem DistinctBv.symm (h : DistinctBv q a b) : DistinctBv q b a := by
  obtain ⟨w, ha, hb, hne⟩ := h
  exact ⟨w, hb, ha, fun ρ hρ => (hne ρ hρ).symm⟩

/-- Words that are asserted to differ, in either order. -/
theorem distinct_of_any {disequalities : List BvPair}
    (hdistinct : ∀ p ∈ disequalities, DistinctBv q p.1 p.2)
    (h : disequalities.any (fun (x, y) => sameUnorderedPair x y a b) = true) :
    DistinctBv q a b := by
  obtain ⟨⟨x, y⟩, hxy, h⟩ := List.any_eq_true.mp h
  rcases sameUnorderedPair_eq.mp h with ⟨rfl, rfl⟩ | ⟨rfl, rfl⟩
  · exact hdistinct _ hxy
  · exact (hdistinct _ hxy).symm

theorem EqualBv.of_width (h : EqualBv q a b) (ha : q.arena.IsBv a w) :
    q.arena.IsBv b w ∧ ∀ ρ, Asserted q ρ → q.arena.bv ρ a w = q.arena.bv ρ b w := by
  obtain ⟨v, ha', hb, heq⟩ := h
  obtain rfl := ha.inj ha'
  exact ⟨hb, heq⟩

theorem DistinctBv.of_width (h : DistinctBv q a b) (ha : q.arena.IsBv a w) :
    q.arena.IsBv b w ∧ ∀ ρ, Asserted q ρ → q.arena.bv ρ a w ≠ q.arena.bv ρ b w := by
  obtain ⟨v, ha', hb, hne⟩ := h
  obtain rfl := ha.inj ha'
  exact ⟨hb, hne⟩

theorem EqualBv.equalTerms (hs : q.arena.Inv) (h : EqualBv q a b) : EqualTerms q a b := by
  obtain ⟨w, ha, hb, heq⟩ := h
  exact ⟨ha.trans hb.symm, fun ρ hρ => (Arena.value_eq_iff_bv hs ha hb).mpr (heq ρ hρ)⟩

theorem EqualTerms.equalBv (hs : q.arena.Inv) (h : EqualTerms q a b) (ha : q.arena.IsBv a w) :
    EqualBv q a b := by
  have hb : q.arena.IsBv b w := h.1.symm.trans ha
  exact ⟨w, ha, hb, fun ρ hρ => (Arena.value_eq_iff_bv hs ha hb).mp (h.2 ρ hρ)⟩

/-- An equation that is true wherever the assertions are. -/
theorem equalBv_of_kind (hs : q.arena.Inv) (hk : q.arena.kindAt t = some (.bvEq a b))
    (ht : ∀ ρ, Asserted q ρ → q.arena.IsTrue ρ t) : EqualBv q a b := by
  obtain ⟨w, ha, hb⟩ := hs.bvEq_sort hk
  exact ⟨w, ha, hb, fun ρ hρ => (Arena.isTrue_bvEq_bv hs hk ha).2.mp (ht ρ hρ)⟩

theorem distinctBv_of_kind (hs : q.arena.Inv) (hk : q.arena.kindAt t = some (.bvEq a b))
    (ht : ∀ ρ, Asserted q ρ → ¬q.arena.IsTrue ρ t) : DistinctBv q a b := by
  obtain ⟨w, ha, hb⟩ := hs.bvEq_sort hk
  exact ⟨w, ha, hb, fun ρ hρ heq => ht ρ hρ ((Arena.isTrue_bvEq_bv hs hk ha).2.mpr heq)⟩

/-- What is collected is asserted. -/
theorem bvEqualitiesAndDisequalities_answers (hq : q.WellFormed) :
    Answers (bvEqualitiesAndDisequalities q) fun out =>
      (∀ p ∈ out.1, EqualBv q p.1 p.2) ∧ ∀ p ∈ out.2, DistinctBv q p.1 p.2 := by
  have hs := hq.arena
  obtain ⟨leaves, hleaves, hsorts, htrue⟩ := conjuncts_answers hq
  rw [bvEqualitiesAndDisequalities, forAllConjuncts_eq hleaves]
  refine answers_foldlM (fun _ (out : List BvPair × List BvPair) =>
    (∀ p ∈ out.1, EqualBv q p.1 p.2) ∧ ∀ p ∈ out.2, DistinctBv q p.1 p.2) (by simp) ?_
  rintro leaf hleaf - ⟨equalities, disequalities⟩ ⟨heq, hne⟩
  have hleaf' : ∀ ρ, Asserted q ρ → q.arena.IsTrue ρ leaf := fun ρ hρ => (htrue ρ).mp hρ leaf hleaf
  refine (kind_answers (hsorts leaf hleaf)).bind fun k hk => ?_
  cases k with
  | bvEq a b =>
    refine answers_ok ⟨List.forall_mem_append.mpr ⟨heq, ?_⟩, hne⟩
    simpa using equalBv_of_kind hs hk hleaf'
  | boolNot child =>
    refine (kind_answers (hs.sort_kind hk (hsorts leaf hleaf)).2).bind fun k' hk' => ?_
    cases hp : k'.bvEq? with
    | none => exact answers_ok ⟨heq, hne⟩
    | some p =>
      obtain rfl := NodeKind.bvEq?_eq.mp hp
      refine answers_ok ⟨heq, List.forall_mem_append.mpr ⟨hne, ?_⟩⟩
      simpa using distinctBv_of_kind hs hk' fun ρ hρ =>
        (Arena.isTrue_boolNot hs hk).mp (hleaf' ρ hρ)
  | _ => exact answers_ok ⟨heq, hne⟩

end Shortcuts
end Qfbv
end SmtServer
