import SmtServer.Qfbv.Builder.Arith
import SmtServer.Qfbv.Builder.Built

/-!
# What the builder sees

Before it adds a term the builder looks at the terms it has. A look never fails on a term that
exists, and what it tells is said here once: a test is a proposition about the arena (`Tells`),
and such a proposition is worth something because of what it says about the vectors the terms
denote — that one is zero, that two have no bit in common.
-/

namespace SmtServer
namespace Qfbv

open Lib Outcome Bytes
open Lib.Smt (Value)

namespace Builder

variable {V : NodeKind → Prop} {s s' : Arena} {ρ : Env}
variable {t a b : TermId} {w : Nat} {x y : BitVec w} {k j : NodeKind}
  {α β : Type} {P R : Prop} {Q : β → Arena → Prop}

/-! ## Looking -/

/-- The look returns what `P` allows. -/
def Reads (f : ArenaR α) (s : Arena) (P : α → Prop) : Prop := ∃ v, f s = ok v ∧ P v

@[simp] theorem bind_apply (m : ArenaR α) (f : α → ArenaR β) (s : Arena) :
    (m >>= f) s = m s >>= fun a => f a s := rfl

@[simp] theorem pure_apply (a : α) (s : Arena) : (pure a : ArenaR α) s = ok a := rfl

theorem reads_pure {v : α} {P : α → Prop} (h : P v) : Reads (pure v) s P := ⟨v, rfl, h⟩

theorem Reads.bind {f : ArenaR α} {g : α → ArenaR β} {P : α → Prop} {R : β → Prop}
    (hf : Reads f s P) (hg : ∀ v, P v → Reads (g v) s R) : Reads (f >>= g) s R := by
  obtain ⟨v, hv, hp⟩ := hf
  obtain ⟨u, hu, hr⟩ := hg v hp
  exact ⟨u, by rw [bind_apply, hv, ok_bind, hu], hr⟩

theorem reads_bind {f : ArenaR α} {g : α → ArenaR β} {v : α} {R : β → Prop} (hf : f s = ok v)
    (hg : Reads (g v) s R) : Reads (f >>= g) s R :=
  Reads.bind (P := (· = v)) ⟨v, hf, rfl⟩ fun _ hv => hv ▸ hg

theorem node_of_kind (hk : s.kindAt t = some k) : ∃ n, node t s = ok n ∧ n.kind = k := by
  obtain ⟨n, hn, rfl⟩ := Arena.kindAt_eq_some.mp hk
  exact ⟨n, Arena.node_eq_ok.mpr hn, rfl⟩

theorem look_eq {f : NodeKind → Option α} (hk : s.kindAt t = some k) : look t f s = ok (f k) := by
  obtain ⟨n, hn, rfl⟩ := node_of_kind hk
  simp [look, hn]

theorem kind_of_sort {σ : TermSort} (h : s.sortAt t = some σ) : ∃ k, s.kindAt t = some k := by
  obtain ⟨n, hn, -⟩ := Arena.sortAt_eq_some.mp h
  exact ⟨n.kind, Arena.kindAt_of_node hn⟩

/-- A look at one shape splits the rest of the run. -/
theorem spec_look {f : NodeKind → Option α} {g : Option α → ArenaM β} {σ : TermSort}
    (h : s.sortAt t = some σ)
    (hsome : ∀ k a, s.kindAt t = some k → f k = some a → Spec V (g (some a)) s Q)
    (hnone : ∀ k, s.kindAt t = some k → f k = none → Spec V (g none) s Q) :
    Spec V (Grow.read (look t f) >>= g) s Q := by
  obtain ⟨k, hk⟩ := kind_of_sort h
  refine spec_read (look_eq hk) ?_
  cases hf : f k with
  | some a => exact hsome k a hk hf
  | none => exact hnone k hk hf

end Builder

/-! Only the shape itself is seen as that shape. -/

namespace NodeKind

variable {k : NodeKind}

theorem bvConst?_eq {p : Nat × List UInt8} : k.bvConst? = some p ↔ k = .bvConst p.1 p.2 := by
  cases k <;> simp [bvConst?, Prod.ext_iff]

theorem boolConst?_eq {v : Bool} : k.boolConst? = some v ↔ k = .boolConst v := by
  cases k <;> simp [boolConst?]

theorem bvIte?_eq {p : TermId × TermId × TermId} :
    k.bvIte? = some p ↔ k = .bvIte p.1 p.2.1 p.2.2 := by
  cases k <;> simp [bvIte?, Prod.ext_iff]

theorem bvNot?_eq {c : TermId} : k.bvNot? = some c ↔ k = .bvNot c := by
  cases k <;> simp [bvNot?]

theorem bvNeg?_eq {c : TermId} : k.bvNeg? = some c ↔ k = .bvNeg c := by
  cases k <;> simp [bvNeg?]

theorem boolNot?_eq {c : TermId} : k.boolNot? = some c ↔ k = .boolNot c := by
  cases k <;> simp [boolNot?]

theorem bvShl?_eq {p : TermId × TermId} : k.bvShl? = some p ↔ k = .bvShl p.1 p.2 := by
  cases k <;> simp [bvShl?, Prod.ext_iff]

theorem bvLShr?_eq {p : TermId × TermId} : k.bvLShr? = some p ↔ k = .bvLShr p.1 p.2 := by
  cases k <;> simp [bvLShr?, Prod.ext_iff]

theorem bvAnd?_eq {p : TermId × TermId} : k.bvAnd? = some p ↔ k = .bvAnd p.1 p.2 := by
  cases k <;> simp [bvAnd?, Prod.ext_iff]

theorem bvOr?_eq {p : TermId × TermId} : k.bvOr? = some p ↔ k = .bvOr p.1 p.2 := by
  cases k <;> simp [bvOr?, Prod.ext_iff]

theorem bvMul?_eq {p : TermId × TermId} : k.bvMul? = some p ↔ k = .bvMul p.1 p.2 := by
  cases k <;> simp [bvMul?, Prod.ext_iff]

theorem bvConcat?_eq {p : TermId × TermId} : k.bvConcat? = some p ↔ k = .bvConcat p.1 p.2 := by
  cases k <;> simp [bvConcat?, Prod.ext_iff]

theorem bvExtract?_eq {p : TermId × Nat × Nat} :
    k.bvExtract? = some p ↔ k = .bvExtract p.1 p.2.1 p.2.2 := by
  cases k <;> simp [bvExtract?, Prod.ext_iff]

theorem isConst_iff : k.IsConst ↔ ∃ w bytes, k = .bvConst w bytes := by
  cases k <;> simp [IsConst]

end NodeKind

namespace Builder

variable {V : NodeKind → Prop} {s s' : Arena} {ρ : Env}
variable {t a b : TermId} {w : Nat} {x y : BitVec w} {k j : NodeKind}
  {α β : Type} {P R : Prop} {Q : β → Arena → Prop}

/-! ## Tests -/

/-- The test answers whether `P`. -/
def Tells (f : ArenaR Bool) (s : Arena) (P : Prop) : Prop := Reads f s fun v => v = true ↔ P

theorem Tells.or {f g : ArenaR Bool} (hf : Tells f s P) (hg : Tells g s R) :
    Tells (f <||> g) s (P ∨ R) := by
  obtain ⟨v, hv, hP⟩ := hf
  obtain ⟨u, hu, hR⟩ := hg
  cases v with
  | true => exact ⟨true, by simp [orM, hv, toBool], by simp [← hP]⟩
  | false => exact ⟨u, by simp [orM, hv, hu, toBool], by simp [← hP, hR]⟩

theorem Tells.and {f g : ArenaR Bool} (hf : Tells f s P) (hg : Tells g s R) :
    Tells (f <&&> g) s (P ∧ R) := by
  obtain ⟨v, hv, hP⟩ := hf
  obtain ⟨u, hu, hR⟩ := hg
  cases v with
  | true => exact ⟨u, by simp [andM, hv, hu, toBool], by simp [← hP, hR]⟩
  | false => exact ⟨false, by simp [andM, hv, toBool], by simp [← hP]⟩

/-- A test splits the rest of the run. -/
theorem spec_tells {f : ArenaR Bool} {m n : ArenaM β} (h : Tells f s P)
    (hm : P → Spec V m s Q) (hn : ¬ P → Spec V n s Q) :
    Spec V (Grow.read f >>= fun v => if v = true then m else n) s Q := by
  obtain ⟨v, hv, hP⟩ := h
  refine spec_read hv ?_
  by_cases hp : P
  · rw [if_pos (hP.mpr hp)]
    exact hm hp
  · rw [if_neg fun hv => hp (hP.mp hv)]
    exact hn hp

/-- The second answer to a question that was put before. -/
theorem spec_pick {f : ArenaR Bool} {Q : TermId → Arena → Prop} (h : Tells f s P)
    (ha : P → Q a s) (hb : ¬ P → Q b s) :
    Spec V (Grow.read f >>= fun v => pure (if v = true then a else b)) s Q := by
  obtain ⟨v, hv, hP⟩ := h
  refine spec_read hv ?_
  by_cases hp : P
  · rw [if_pos (hP.mpr hp)]
    exact spec_pure (ha hp)
  · rw [if_neg fun hv => hp (hP.mp hv)]
    exact spec_pure (hb hp)

/-! ### Constants -/

/-- The term is a constant whose bytes are such. -/
def ConstAt (s : Arena) (t : TermId) (p : Nat → List UInt8 → Bool) : Prop :=
  ∃ v bytes, s.kindAt t = some (.bvConst v bytes) ∧ p v bytes = true

def ZeroAt (s : Arena) (t : TermId) : Prop := ConstAt s t fun _ bytes => isZeroBytes bytes

def OneAt (s : Arena) (t : TermId) : Prop := ConstAt s t fun _ bytes => isOneBytes bytes

def OnesAt (s : Arena) (t : TermId) : Prop :=
  ConstAt s t fun v bytes => bytes == maskUnusedHighBits (List.replicate bytes.length 0xff) v

theorem tells_const {p : Nat → List UInt8 → Bool} (h : s.Denotes ρ t x) :
    Tells (do return (← bvConstValue t).any fun (v, bytes) => p v bytes) s (ConstAt s t p) := by
  obtain ⟨k, hk⟩ := kind_of_sort h.sort
  refine ⟨_, by rw [bind_apply, bvConstValue, look_eq hk]; rfl, ?_⟩
  dsimp only
  rw [Option.any_eq_true]
  constructor
  · rintro ⟨⟨v, bytes⟩, hc, hp⟩
    exact ⟨v, bytes, by rw [hk, NodeKind.bvConst?_eq.mp hc], hp⟩
  · rintro ⟨v, bytes, hc, hp⟩
    obtain rfl := Option.some.inj (hk.symm.trans hc)
    exact ⟨(v, bytes), rfl, hp⟩

theorem tells_isZero (h : s.Denotes ρ t x) : Tells (isZero t) s (ZeroAt s t) :=
  tells_const (p := fun _ bytes => isZeroBytes bytes) h

theorem tells_isOne (h : s.Denotes ρ t x) : Tells (isOne t) s (OneAt s t) :=
  tells_const (p := fun _ bytes => isOneBytes bytes) h

theorem tells_isAllOnes (h : s.Denotes ρ t x) : Tells (isAllOnes t) s (OnesAt s t) :=
  tells_const (p := fun v bytes =>
    bytes == maskUnusedHighBits (List.replicate bytes.length 0xff) v) h

theorem ZeroAt.eq (hs : s.Inv) (h : s.Denotes ρ t x) (hz : ZeroAt s t) : x = 0 := by
  obtain ⟨v, bytes, hk, hp⟩ := hz
  obtain ⟨rfl, hb⟩ := hs.bvConst h hk
  exact hb.isZeroBytes.mp hp

theorem OneAt.eq (hs : s.Inv) (h : s.Denotes ρ t x) (ho : OneAt s t) : x = 1 := by
  obtain ⟨v, bytes, hk, hp⟩ := ho
  obtain ⟨rfl, hb⟩ := hs.bvConst h hk
  exact (hb.isOneBytes (hs.width h).1).mp hp

theorem OnesAt.eq (hs : s.Inv) (h : s.Denotes ρ t x) (ho : OnesAt s t) : x = .allOnes w := by
  obtain ⟨v, bytes, hk, hp⟩ := ho
  obtain ⟨rfl, hb⟩ := hs.bvConst h hk
  refine (hb.inj (Spells.allOnes v)).mp ?_
  rw [← hb.length]
  exact beq_iff_eq.mp hp

/-- Two constants are folded. -/
theorem spec_constPair {g : Option (List UInt8 × List UInt8) → ArenaM β} (hs : s.Inv)
    (ha : s.Denotes ρ a x) (hb : s.Denotes ρ b y)
    (hsome : ∀ av bv, Spells av x → Spells bv y → Spec V (g (some (av, bv))) s Q)
    (hnone : (∀ j k, s.kindAt a = some j → s.kindAt b = some k → ¬(j.IsConst ∧ k.IsConst)) →
      Spec V (g none) s Q) :
    Spec V (Grow.read (bvConstPair a b) >>= g) s Q := by
  obtain ⟨j, hj⟩ := kind_of_sort ha.sort
  obtain ⟨k, hk⟩ := kind_of_sort hb.sort
  have hrun : bvConstPair a b s = ok (j.bvConst?.bind fun p => k.bvConst?.map fun q => (p.2, q.2)) := by
    simp only [bvConstPair, bind_apply, bvConstValue, look_eq hj, look_eq hk, ok_bind]
    cases j.bvConst? with
    | none => rfl
    | some p =>
      cases k.bvConst? with
      | none => rfl
      | some q => rfl
  refine spec_read hrun ?_
  cases hjc : j.bvConst? with
  | none =>
    refine hnone fun j' k' hj' hk' hboth => ?_
    obtain rfl := Option.some.inj (hj.symm.trans hj')
    obtain ⟨v, bytes, rfl⟩ := NodeKind.isConst_iff.mp hboth.1
    simp [NodeKind.bvConst?] at hjc
  | some p =>
    cases hkc : k.bvConst? with
    | none =>
      refine hnone fun j' k' hj' hk' hboth => ?_
      obtain rfl := Option.some.inj (hk.symm.trans hk')
      obtain ⟨v, bytes, rfl⟩ := NodeKind.isConst_iff.mp hboth.2
      simp [NodeKind.bvConst?] at hkc
    | some q =>
      rw [NodeKind.bvConst?_eq.mp hjc] at hj
      rw [NodeKind.bvConst?_eq.mp hkc] at hk
      obtain ⟨-, hav⟩ := hs.bvConst ha hj
      obtain ⟨-, hbv⟩ := hs.bvConst hb hk
      exact hsome p.2 q.2 hav hbv

/-- A constant is folded. -/
theorem spec_constValue {g : Option (Nat × List UInt8) → ArenaM β} (hs : s.Inv)
    (h : s.Denotes ρ t x)
    (hsome : ∀ bytes, s.kindAt t = some (.bvConst w bytes) → Spells bytes x →
      Spec V (g (some (w, bytes))) s Q)
    (hnone : (∀ k, s.kindAt t = some k → ¬k.IsConst) → Spec V (g none) s Q) :
    Spec V (Grow.read (bvConstValue t) >>= g) s Q := by
  refine spec_look h.sort ?_ ?_
  · rintro k ⟨v, bytes⟩ hk hf
    rw [NodeKind.bvConst?_eq.mp hf] at hk
    obtain ⟨rfl, hb⟩ := hs.bvConst h hk
    exact hsome bytes hk hb
  · intro k hk hf
    refine hnone fun k' hk' hc => ?_
    obtain rfl := Option.some.inj (hk.symm.trans hk')
    obtain ⟨v, bytes, rfl⟩ := NodeKind.isConst_iff.mp hc
    simp [NodeKind.bvConst?] at hf

/-! ### Shapes -/

/-- One of two terms has a given shape. -/
theorem tells_pair [BEq α] [LawfulBEq α] {f : NodeKind → Option α} {p q : α} {σ τ : TermSort}
    (ha : s.sortAt a = some σ) (hb : s.sortAt b = some τ) (hp : ∀ l, f l = some p ↔ l = j)
    (hq : ∀ l, f l = some q ↔ l = k) :
    Tells (do return (← look a f) == some p || (← look b f) == some q) s
      (s.kindAt a = some j ∨ s.kindAt b = some k) := by
  obtain ⟨ka, hka⟩ := kind_of_sort ha
  obtain ⟨kb, hkb⟩ := kind_of_sort hb
  refine ⟨f ka == some p || f kb == some q, ?_, ?_⟩
  · simp only [bind_apply, pure_apply, look_eq hka, look_eq hkb, ok_bind]
  · dsimp only
    rw [Bool.or_eq_true, beq_iff_eq, beq_iff_eq, hp, hq, hka, hkb, Option.some.injEq,
      Option.some.injEq]

theorem tells_isBvNegationPair (ha : s.Denotes ρ a x) (hb : s.Denotes ρ b y) :
    Tells (isBvNegationPair a b) s
      (s.kindAt a = some (.bvNot b) ∨ s.kindAt b = some (.bvNot a)) :=
  tells_pair ha.sort hb.sort (fun _ => NodeKind.bvNot?_eq) fun _ => NodeKind.bvNot?_eq

theorem tells_isBoolNegationPair {u v : Bool} (ha : s.DenotesBool ρ a u)
    (hb : s.DenotesBool ρ b v) :
    Tells (isBoolNegationPair a b) s
      (s.kindAt a = some (.boolNot b) ∨ s.kindAt b = some (.boolNot a)) :=
  tells_pair ha.sort hb.sort (fun _ => NodeKind.boolNot?_eq) fun _ => NodeKind.boolNot?_eq

theorem tells_selfShiftLeftPair (ha : s.Denotes ρ a x) (hb : s.Denotes ρ b y) :
    Tells (selfShiftLeftPair a b) s
      (s.kindAt a = some (.bvShl b b) ∨ s.kindAt b = some (.bvShl a a)) :=
  tells_pair ha.sort hb.sort (fun _ => NodeKind.bvShl?_eq) fun _ => NodeKind.bvShl?_eq

/-- One of the two children of a term is `b`. -/
theorem tells_contains {f : NodeKind → Option (TermId × TermId)}
    {node : TermId → TermId → NodeKind} (hf : ∀ k p, f k = some p ↔ k = node p.1 p.2)
    (ha : s.Denotes ρ a x) :
    Tells (do return (← look a f).any fun (c, d) => c == b || d == b) s
      (∃ c d, s.kindAt a = some (node c d) ∧ (c = b ∨ d = b)) := by
  obtain ⟨j, hj⟩ := kind_of_sort ha.sort
  refine ⟨_, by rw [bind_apply, look_eq hj]; rfl, ?_⟩
  dsimp only
  rw [Option.any_eq_true]
  constructor
  · rintro ⟨⟨c, d⟩, hp, hor⟩
    exact ⟨c, d, by rw [hj, (hf j _).mp hp], by simpa using hor⟩
  · rintro ⟨c, d, hp, hor⟩
    obtain rfl := Option.some.inj (hj.symm.trans hp)
    exact ⟨(c, d), (hf _ _).mpr rfl, by simpa using hor⟩

theorem tells_bvAndContains (ha : s.Denotes ρ a x) :
    Tells (bvAndContains a b) s (∃ c d, s.kindAt a = some (.bvAnd c d) ∧ (c = b ∨ d = b)) :=
  tells_contains (fun _ _ => NodeKind.bvAnd?_eq) ha

theorem tells_bvOrContains (ha : s.Denotes ρ a x) :
    Tells (bvOrContains a b) s (∃ c d, s.kindAt a = some (.bvOr c d) ∧ (c = b ∨ d = b)) :=
  tells_contains (fun _ _ => NodeKind.bvOr?_eq) ha

/-! ### Shift amounts -/

theorem constShiftAmount_cases (hs : s.Inv) (hb : s.Denotes ρ b y) :
    ((∃ bytes, s.kindAt b = some (.bvConst w bytes)) ∧
      constShiftAmount b w s = ok (some (min y.toNat w))) ∨
    ((∀ k, s.kindAt b = some k → ¬k.IsConst) ∧ constShiftAmount b w s = ok none) := by
  obtain ⟨k, hk⟩ := kind_of_sort hb.sort
  have hw := (hs.width hb).2
  have hbound : w < 2 ^ 64 := lt_of_le_of_lt hw (by decide)
  have hrun : constShiftAmount b w s = ok (k.bvConst?.map fun p => bytesToBoundedUsize p.2 w) := by
    simp only [constShiftAmount, bind_apply, bvConstValue, look_eq hk, ok_bind]
    cases k.bvConst? with
    | none => rfl
    | some p => rfl
  rw [hrun]
  cases hc : k.bvConst? with
  | none =>
    refine .inr ⟨fun k' hk' hconst => ?_, rfl⟩
    obtain rfl := Option.some.inj (hk.symm.trans hk')
    obtain ⟨v, bytes, rfl⟩ := NodeKind.isConst_iff.mp hconst
    simp [NodeKind.bvConst?] at hc
  | some p =>
    rw [NodeKind.bvConst?_eq.mp hc] at hk
    obtain ⟨hv, hbytes⟩ := hs.bvConst hb hk
    refine .inl ⟨⟨p.2, hv ▸ hk⟩, ?_⟩
    rw [Option.map_some, bytesToBoundedUsize_eq hbound, hbytes.toNat]

/-- A shift by a constant amount: what counts is the amount, up to the width. -/
theorem spec_shiftAmount {g : Option Nat → ArenaM β} (hs : s.Inv) (hb : s.Denotes ρ b y)
    (hsome : ∀ bytes, s.kindAt b = some (.bvConst w bytes) → Spec V (g (some (min y.toNat w))) s Q)
    (hnone : (∀ k, s.kindAt b = some k → ¬k.IsConst) → Spec V (g none) s Q) :
    Spec V (Grow.read (constShiftAmount b w) >>= g) s Q := by
  rcases constShiftAmount_cases hs hb with ⟨⟨bytes, hk⟩, hrun⟩ | ⟨hk, hrun⟩
  · exact spec_read hrun (hsome bytes hk)
  · exact spec_read hrun (hnone hk)

theorem shl_min (x y : BitVec w) : x <<< min y.toNat w = x <<< y := by
  rw [BitVec.shiftLeft_eq']
  by_cases h : y.toNat ≤ w
  · rw [Nat.min_eq_left h]
  · rw [Nat.min_eq_right (by omega), BitVec.shiftLeft_eq_zero (le_refl w),
      BitVec.shiftLeft_eq_zero (by omega)]

theorem lshr_min (x y : BitVec w) : x >>> min y.toNat w = x >>> y := by
  rw [BitVec.ushiftRight_eq']
  by_cases h : y.toNat ≤ w
  · rw [Nat.min_eq_left h]
  · rw [Nat.min_eq_right (by omega), BitVec.ushiftRight_eq_zero (le_refl w),
      BitVec.ushiftRight_eq_zero (by omega)]

theorem ashr_min (x y : BitVec w) : x.sshiftRight (min y.toNat w) = x.sshiftRight' y := by
  rw [BitVec.sshiftRight_eq']
  by_cases h : y.toNat ≤ w
  · rw [Nat.min_eq_left h]
  · refine BitVec.eq_of_getLsbD_eq fun i hi => ?_
    rw [BitVec.getLsbD_sshiftRight, BitVec.getLsbD_sshiftRight]
    simp [show ¬w ≤ i by omega, show ¬min y.toNat w + i < w by omega,
      show ¬y.toNat + i < w by omega]

end Builder
end Qfbv
end SmtServer
