import SmtServer.Qfbv.Check
import SmtServer.Qfbv.Shortcuts.AffineByte
import SmtServer.Qfbv.Shortcuts.PolynomialSound

/-!
# What the bytes of a candidate are

The search of the pass is the plain one: through all choices of bytes for the variables of the
equation, in a fixed order (`searchOrder`), to the first that solves it (`solveAffineByteEquation_eq`).
The evaluator can be trusted with it when it fits, that is when it gives no variable a byte beyond the
width of the variable; and so the answers of the pass are right just when all the choices that come to
be tried fit (`affine_byte_is_sound_iff`).
-/

namespace SmtServer
namespace Qfbv

open Lib Outcome

namespace Shortcuts

/-! ## The equation of two terms

Both recursions go down to children, so the rounds they are started with are enough. -/

variable {s : Arena} {t : TermId} {σ : TermSort}

/-- The variables of an affine term are terms of the arena. -/
def AffineTerm.VarsIn (s : Arena) (e : AffineTerm) : Prop :=
  ∀ var ∈ e.coeffs, ∃ σ, s.sortAt var = some σ

theorem varsIn_addAffineCoeff {e : AffineTerm} {var : TermId} {coeff : UInt64} (he : e.VarsIn s)
    (hvar : ∃ σ, s.sortAt var = some σ) : (addAffineCoeff e var coeff).VarsIn s := by
  intro v hv
  simp only [addAffineCoeff] at hv
  split at hv
  · exact he v (Std.TreeMap.mem_of_mem_erase hv)
  · rcases Std.TreeMap.mem_insert.mp hv with heq | hv
    · obtain rfl := Std.LawfulEqCmp.eq_of_compare heq
      exact hvar
    · exact he v hv

theorem mem_of_mem_toList {coeffs : Std.TreeMap TermId UInt64} {e : TermId × UInt64}
    (h : e ∈ coeffs.toList) : e.1 ∈ coeffs := by
  rw [Std.TreeMap.mem_iff_isSome_getElem?, Std.TreeMap.mem_toList_iff_getElem?_eq_some.mp h]
  rfl

theorem varsIn_addAffineCoeffs {e : AffineTerm} {coeffs : Std.TreeMap TermId UInt64}
    {f : UInt64 → UInt64} (he : e.VarsIn s) (hc : ∀ var ∈ coeffs, ∃ σ, s.sortAt var = some σ) :
    (addAffineCoeffs e coeffs f).VarsIn s := by
  have key : ∀ (entries : List (TermId × UInt64)) (e : AffineTerm),
      (∀ p ∈ entries, ∃ σ, s.sortAt p.1 = some σ) → e.VarsIn s →
        (entries.foldl (fun e p => addAffineCoeff e p.1 (f p.2)) e).VarsIn s := by
    intro entries
    induction entries with
    | nil => exact fun _ _ he => he
    | cons p entries ih =>
      intro e hp he
      rw [List.forall_mem_cons] at hp
      exact ih _ hp.2 (varsIn_addAffineCoeff he hp.1)
  exact key _ e (fun p hp => hc p.1 (mem_of_mem_toList hp)) he

theorem width_addAffineCoeffs (e : AffineTerm) (coeffs : Std.TreeMap TermId UInt64)
    (f : UInt64 → UInt64) : (addAffineCoeffs e coeffs f).width = e.width := by
  unfold addAffineCoeffs
  induction coeffs.toList generalizing e with
  | nil => rfl
  | cons p entries ih =>
    rw [List.foldl_cons, ih]
    rfl

theorem varsIn_empty (width : Nat) (constant : UInt64) :
    AffineTerm.VarsIn s ⟨width, constant, ∅⟩ :=
  fun _ h => absurd h Std.TreeMap.not_mem_emptyc

theorem varsIn_combineAffine {left right : Option AffineTerm}
    {f : AffineTerm → AffineTerm → AffineTerm} (hl : ∀ e, left = some e → e.VarsIn s)
    (hr : ∀ e, right = some e → e.VarsIn s)
    (hf : ∀ {x y : AffineTerm}, x.VarsIn s → y.VarsIn s → (f x y).VarsIn s) :
    ∀ e, combineAffine left right f = some e → e.VarsIn s := by
  intro e he
  cases left with
  | none => cases he
  | some x =>
    cases right with
    | none => cases he
    | some y =>
      simp only [combineAffine, Option.bind_some] at he
      split at he
      · cases he
      · obtain rfl := Option.some.inj he
        exact hf (hl x rfl) (hr y rfl)

theorem possibleBitMask_answers (hs : s.Inv) : ∀ (rounds : Nat) {t : TermId} {σ : TermSort},
    t < rounds → s.sortAt t = some σ → Answers (possibleBitMask s rounds t) fun _ => True := by
  intro rounds
  induction rounds with
  | zero => exact fun h => absurd h (Nat.not_lt_zero _)
  | succ rounds ih =>
    intro t σ ht hσ
    rw [possibleBitMask]
    refine (sort_answers hσ).bind fun τ hτ => ?_
    subst hτ
    cases τ with
    | bool => exact answers_ok trivial
    | bv width =>
      dsimp only
      split
      · exact answers_ok trivial
      · refine (kind_answers hσ).bind fun k hk => ?_
        have hsort : ∀ j ∈ k.children, ∃ τ, s.sortAt j = some τ := by
          intro j hj
          obtain ⟨τ, -, hk'⟩ := hs.hasSort hk
          exact hk'.children_some hj
        have hcall : ∀ j ∈ k.children, Answers (possibleBitMask s rounds j) fun _ => True := by
          intro j hj
          obtain ⟨τ, hτ⟩ := hsort j hj
          exact ih (Nat.lt_of_lt_of_le (hs.child_lt hk hj) (Nat.lt_succ_iff.mp ht)) hτ
        cases k with
        | bvZeroExtend child extra =>
          obtain ⟨τ, hτ⟩ := hsort child (by simp [NodeKind.children])
          refine (sort_answers hτ).bind fun υ _ => ?_
          cases υ with
          | bool => exact answers_ok trivial
          | bv childWidth =>
            dsimp only
            split
            · exact answers_ok trivial
            · exact hcall child (by simp [NodeKind.children])
        | bvShl value amount =>
          obtain ⟨τ, hτ⟩ := hsort amount (by simp [NodeKind.children])
          refine (constU64_answers hτ).bind fun o _ => ?_
          cases o with
          | none => exact answers_ok trivial
          | some shift =>
            dsimp only
            split
            · exact answers_ok trivial
            · refine (hcall value (by simp [NodeKind.children])).bind fun _ _ => ?_
              exact answers_ok trivial
        | bvOr a b =>
          refine (hcall a (by simp [NodeKind.children])).bind fun _ _ => ?_
          refine (hcall b (by simp [NodeKind.children])).bind fun _ _ => ?_
          exact answers_ok trivial
        | bvConcat a b =>
          obtain ⟨τ, hτ⟩ := hsort b (by simp [NodeKind.children])
          refine (sort_answers hτ).bind fun υ _ => ?_
          cases υ with
          | bool => exact answers_ok trivial
          | bv rightWidth =>
            dsimp only
            split
            · exact answers_ok trivial
            · refine (hcall a (by simp [NodeKind.children])).bind fun _ _ => ?_
              refine (hcall b (by simp [NodeKind.children])).bind fun _ _ => ?_
              exact answers_ok trivial
        | _ => exact answers_ok trivial

/-- An affine term that is made of affine terms has their variables. -/
theorem affineTerm_answers (hs : s.Inv) : ∀ (rounds : Nat) {t : TermId} {σ : TermSort},
    t < rounds → s.sortAt t = some σ →
      Answers (affineTerm s rounds t) fun o => ∀ e, o = some e → e.VarsIn s := by
  intro rounds
  induction rounds with
  | zero => exact fun h => absurd h (Nat.not_lt_zero _)
  | succ rounds ih =>
    intro t σ ht hσ
    rw [affineTerm]
    refine (sort_answers hσ).bind fun τ hτ => ?_
    subst hτ
    cases τ with
    | bool => exact answers_none
    | bv width =>
      dsimp only
      split
      · exact answers_none
      · refine (kind_answers hσ).bind fun k hk => ?_
        have hsort : ∀ j ∈ k.children, ∃ τ, s.sortAt j = some τ := by
          intro j hj
          obtain ⟨τ, -, hk'⟩ := hs.hasSort hk
          exact hk'.children_some hj
        have hcall : ∀ j ∈ k.children,
            Answers (affineTerm s rounds j) fun o => ∀ e, o = some e → e.VarsIn s := by
          intro j hj
          obtain ⟨τ, hτ⟩ := hsort j hj
          exact ih (Nat.lt_of_lt_of_le (hs.child_lt hk hj) (Nat.lt_succ_iff.mp ht)) hτ
        have hscale : ∀ {e : AffineTerm} (factor : UInt64), e.VarsIn s →
            (affineScaleAssign e factor).VarsIn s := by
          intro e factor he
          exact varsIn_addAffineCoeffs (varsIn_empty _ _) he
        have hboth : ∀ {a b : TermId} {f : AffineTerm → AffineTerm → AffineTerm},
            a ∈ k.children → b ∈ k.children →
            (∀ {x y : AffineTerm}, x.VarsIn s → y.VarsIn s → (f x y).VarsIn s) →
            Answers (do return combineAffine (← affineTerm s rounds a) (← affineTerm s rounds b) f)
              fun o => ∀ e, o = some e → e.VarsIn s := by
          intro a b f ha hb hf
          refine (hcall a ha).bind fun left hl => ?_
          refine (hcall b hb).bind fun right hr => ?_
          exact answers_ok (varsIn_combineAffine hl hr hf)
        have hadd : ∀ {x y : AffineTerm}, x.VarsIn s → y.VarsIn s →
            (affineAddAssign x y).VarsIn s := fun hx hy => varsIn_addAffineCoeffs hx hy
        cases k with
        | bvConst w bytes => exact answers_some (varsIn_empty _ _)
        | bvVar w name external =>
          dsimp only
          split
          · refine answers_some fun var hvar => ?_
            rcases Std.TreeMap.mem_insert.mp hvar with heq | hvar
            · obtain rfl := Std.LawfulEqCmp.eq_of_compare heq
              exact ⟨_, hσ⟩
            · exact absurd hvar Std.TreeMap.not_mem_emptyc
          · exact answers_none
        | bvZeroExtend child extra =>
          obtain ⟨τ, hτ⟩ := hsort child (by simp [NodeKind.children])
          refine (sort_answers hτ).bind fun υ _ => ?_
          cases υ with
          | bool => exact answers_none
          | bv childWidth =>
            dsimp only
            split
            · exact answers_none
            · refine (hcall child (by simp [NodeKind.children])).bind fun o ho => ?_
              cases o with
              | none => exact answers_none
              | some e => exact answers_some (ho e rfl)
        | bvOr a b =>
          obtain ⟨τa, hτa⟩ := hsort a (by simp [NodeKind.children])
          obtain ⟨τb, hτb⟩ := hsort b (by simp [NodeKind.children])
          refine (possibleBitMask_answers hs _ (Nat.lt_succ_self a) hτa).bind fun o _ => ?_
          cases o with
          | none => exact answers_none
          | some leftMask =>
            dsimp only
            refine (possibleBitMask_answers hs _ (Nat.lt_succ_self b) hτb).bind fun o _ => ?_
            cases o with
            | none => exact answers_none
            | some rightMask =>
              dsimp only
              split
              · exact answers_none
              · exact hboth (by simp [NodeKind.children]) (by simp [NodeKind.children]) hadd
        | bvAdd a b => exact hboth (by simp [NodeKind.children]) (by simp [NodeKind.children]) hadd
        | bvSub a b =>
          exact hboth (by simp [NodeKind.children]) (by simp [NodeKind.children])
            fun hx hy => varsIn_addAffineCoeffs hx hy
        | bvNeg child =>
          refine (hcall child (by simp [NodeKind.children])).bind fun o ho => ?_
          cases o with
          | none => exact answers_none
          | some e => exact answers_some (varsIn_addAffineCoeffs (varsIn_empty _ _) (ho e rfl))
        | bvMul a b =>
          obtain ⟨τa, hτa⟩ := hsort a (by simp [NodeKind.children])
          obtain ⟨τb, hτb⟩ := hsort b (by simp [NodeKind.children])
          have hother : Answers (constTimesOther s a b) fun o => ∀ p, o = some p →
              p.2 ∈ (NodeKind.bvMul a b).children := by
            refine (constU64_answers hτa).bind fun o _ => ?_
            cases o with
            | some constant => exact answers_some (by simp [NodeKind.children])
            | none =>
              refine (constU64_answers hτb).bind fun o _ => ?_
              cases o with
              | none => exact answers_none
              | some constant => exact answers_some (by simp [NodeKind.children])
          refine hother.bind fun o ho => ?_
          cases o with
          | none => exact answers_none
          | some p =>
            refine (hcall p.2 (ho p rfl)).bind fun o ho => ?_
            cases o with
            | none => exact answers_none
            | some e => exact answers_some (hscale _ (ho e rfl))
        | bvShl value amount =>
          obtain ⟨τ, hτ⟩ := hsort amount (by simp [NodeKind.children])
          refine (constU64_answers hτ).bind fun o _ => ?_
          cases o with
          | none => exact answers_none
          | some shift =>
            dsimp only
            split
            · exact answers_some (varsIn_empty _ _)
            · refine (hcall value (by simp [NodeKind.children])).bind fun o ho => ?_
              cases o with
              | none => exact answers_none
              | some e =>
                dsimp only
                split
                · exact answers_none
                · exact answers_some (hscale _ (ho e rfl))
        | bvConcat a b =>
          obtain ⟨τa, hτa⟩ := hsort a (by simp [NodeKind.children])
          obtain ⟨τb, hτb⟩ := hsort b (by simp [NodeKind.children])
          refine (sort_answers hτa).bind fun υ _ => ?_
          cases υ with
          | bool => exact answers_none
          | bv leftWidth =>
            dsimp only
            refine (sort_answers hτb).bind fun υ _ => ?_
            cases υ with
            | bool => exact answers_none
            | bv rightWidth =>
              dsimp only
              split
              · exact answers_none
              · refine (hcall a (by simp [NodeKind.children])).bind fun left hl => ?_
                refine (hcall b (by simp [NodeKind.children])).bind fun right hr => ?_
                cases left with
                | none => exact answers_none
                | some x =>
                  cases right with
                  | none => exact answers_none
                  | some y =>
                    exact answers_some (hadd (hscale (e := { x with width := width }) _ (hl x rfl))
                      (hr y rfl))
        | _ => exact answers_none

/-- The equation of two terms is at most 32 bits wide, and its variables are terms. -/
theorem affineEquation_answers (hs : s.Inv) {a b : TermId} {τ : TermSort}
    (ha : s.sortAt a = some σ) (hb : s.sortAt b = some τ) :
    Answers (affineEquation s a b) fun o => ∀ e, o = some e → e.width ≤ 32 ∧ e.VarsIn s := by
  refine (affineTerm_answers hs _ (Nat.lt_succ_self a) ha).bind fun o hl => ?_
  cases o with
  | none => exact answers_none
  | some left =>
    dsimp only
    refine (affineTerm_answers hs _ (Nat.lt_succ_self b) hb).bind fun o hr => ?_
    cases o with
    | none => exact answers_none
    | some right =>
      dsimp only
      split
      · exact answers_none
      · rename_i hwidth
        refine answers_some ⟨?_, varsIn_addAffineCoeffs (hl left rfl) (hr right rfl)⟩
        rw [affineSubAssign, width_addAffineCoeffs]
        dsimp only
        omega

/-! ## The plain search -/

/-- All choices of a byte for each variable, the last variable moving fastest. -/
def tuples : List AffineVar → List (List UInt8)
  | [] => [[]]
  | v :: vars => v.domain.flatMap fun value => (tuples vars).map (value :: ·)

/-- The sum of an equation's left side, without its constant. -/
def weighted (entries : List (AffineVar × UInt8)) : Nat :=
  (entries.map fun e => e.1.coeff.toNat * e.2.toNat).sum

/-- The bytes solve the equation. -/
def Solves (equation : AffineTerm) (entries : List (AffineVar × UInt8)) : Prop :=
  (equation.constant.toNat + weighted entries) % 2 ^ equation.width = 0

instance (equation : AffineTerm) (entries : List (AffineVar × UInt8)) :
    Decidable (Solves equation entries) :=
  inferInstanceAs (Decidable (_ = _))

/-- The variables that have a choice, in two halves, and those that have none. -/
def leftHalf (vars : List AffineVar) : List AffineVar :=
  (vars.take (min vars.length 6)).take (min vars.length 6 / 2)

def rightHalf (vars : List AffineVar) : List AffineVar :=
  (vars.take (min vars.length 6)).drop (min vars.length 6 / 2)

def fixedPart (vars : List AffineVar) : List AffineVar := vars.drop (min vars.length 6)

/-- The choices in the order in which they are tried: all of the left half for the first of the right
one, and so on. -/
def searchOrder (vars : List AffineVar) : List (List (AffineVar × UInt8)) :=
  (tuples (rightHalf vars) ×ˢ tuples (leftHalf vars)).map fun p =>
    fixedBytes (fixedPart vars) ++ (leftHalf vars).zip p.2 ++ (rightHalf vars).zip p.1

/-- A half has too many choices to go through them. -/
def TooMany (vars : List AffineVar) : Prop :=
  1500000 < domainProduct (leftHalf vars) ∨ 1500000 < domainProduct (rightHalf vars)

instance (vars : List AffineVar) : Decidable (TooMany vars) := inferInstanceAs (Decidable (_ ∨ _))

/-- The first choice that solves the equation. -/
def firstSolution (s : Arena) (equation : AffineTerm) (domains : ByteDomains) :
    Result (Option (List (AffineVar × UInt8))) := do
  if equation.coeffs.isEmpty then return if equation.constant = 0 then some [] else none
  let some vars ← affineVars s equation domains equation.coeffs.toList | return none
  if TooMany (sortByDomain vars) then return none
  return (searchOrder (sortByDomain vars)).find? fun entries => Solves equation entries

/-! ## The sums of the search -/

/-- The sum that is carried along a choice. -/
def carried (mask : UInt64) : List AffineVar → UInt64 → List UInt8 → UInt64
  | v :: vars, sum, value :: values => carried mask vars ((sum + v.coeff * value.toUInt64) &&& mask) values
  | _, sum, _ => sum

theorem enumerateAffineSide_eq (mask : UInt64) (vars : List AffineVar) (sum : UInt64) :
    enumerateAffineSide mask vars sum =
      (tuples vars).map fun values => (carried mask vars sum values, values) := by
  induction vars generalizing sum with
  | nil => rfl
  | cons v vars ih =>
    simp only [enumerateAffineSide, tuples, List.map_flatMap, ih, List.map_map, Function.comp_def,
      carried]

variable {w : Nat}

/-- A step of the sum, as numbers: wrapping around at 64 bits is no loss below. -/
theorem toNat_step (hw : w ≤ 64) (sum coeff : UInt64) (value : UInt8) :
    ((sum + coeff * value.toUInt64) &&& maskForWidth w).toNat =
      (sum.toNat + coeff.toNat * value.toNat) % 2 ^ w := by
  have hdvd : 2 ^ w ∣ 2 ^ 64 := Nat.pow_dvd_pow 2 hw
  rw [toNat_and_maskForWidth hw, UInt64.toNat_add, UInt64.toNat_mul, UInt8.toNat_toUInt64,
    Nat.mod_mod_of_dvd _ hdvd, Nat.add_mod, Nat.mod_mod_of_dvd _ hdvd, ← Nat.add_mod]

theorem carried_toNat (hw : w ≤ 64) (vars : List AffineVar) (values : List UInt8) {sum : UInt64}
    (hsum : sum.toNat < 2 ^ w) :
    (carried (maskForWidth w) vars sum values).toNat =
      (sum.toNat + weighted (vars.zip values)) % 2 ^ w := by
  induction vars generalizing sum values with
  | nil => simp [carried, weighted, Nat.mod_eq_of_lt hsum]
  | cons v vars ih =>
    cases values with
    | nil => simp [carried, weighted, Nat.mod_eq_of_lt hsum]
    | cons value values =>
      have hstep := toNat_step hw sum v.coeff value
      rw [carried, ih values (by rw [hstep]; exact Nat.mod_lt _ (Nat.two_pow_pos w)), hstep,
        Nat.mod_add_mod, List.zip_cons_cons, weighted, weighted, List.map_cons, List.sum_cons,
        Nat.add_assoc]

theorem fixedSum_toNat (hw : w ≤ 64) (entries : List (AffineVar × UInt8)) {sum : UInt64}
    (hsum : sum.toNat < 2 ^ w) :
    (entries.foldl (fun sum e => (sum + e.1.coeff * e.2.toUInt64) &&& maskForWidth w) sum).toNat =
      (sum.toNat + weighted entries) % 2 ^ w := by
  induction entries generalizing sum with
  | nil => simp [weighted, Nat.mod_eq_of_lt hsum]
  | cons e entries ih =>
    have hstep := toNat_step hw sum e.1.coeff e.2
    rw [List.foldl_cons, ih (by rw [hstep]; exact Nat.mod_lt _ (Nat.two_pow_pos w)), hstep,
      Nat.mod_add_mod, weighted, weighted, List.map_cons, List.sum_cons, Nat.add_assoc]

/-- What is left to be the sum of the left half makes the whole sum zero. -/
theorem need_iff (hw : w ≤ 64) {constant fixedSum l r : UInt64} (hl : l.toNat < 2 ^ w) :
    l = ((((0 - (constant + fixedSum)) &&& maskForWidth w) - r) &&& maskForWidth w) ↔
      (constant.toNat + (fixedSum.toNat + l.toNat + r.toNat)) % 2 ^ w = 0 := by
  have hφ := interprets_u64 hw
  have hmask : ∀ c : UInt64, ((c &&& maskForWidth w).toNat : ZMod (2 ^ w)) = c.toNat := hφ.mask
  have hsub : ∀ c d : UInt64, ((c - d).toNat : ZMod (2 ^ w)) = c.toNat - d.toNat := by
    intro c d
    rw [UInt64.sub_eq_add_neg, hφ.add, hφ.neg, sub_eq_add_neg]
  rw [← UInt64.toNat_inj, ← Nat.mod_eq_of_lt hl]
  conv_lhs => rw [← Nat.mod_eq_of_lt (a := UInt64.toNat (_ &&& _)) (b := 2 ^ w) (by
    rw [toNat_and_maskForWidth hw]; exact Nat.mod_lt _ (Nat.two_pow_pos w))]
  rw [← ZMod.natCast_eq_natCast_iff', hmask, hsub, hmask, hsub, hφ.add, ← Nat.dvd_iff_mod_eq_zero,
    ← ZMod.natCast_eq_zero_iff, Nat.mod_eq_of_lt hl]
  push_cast
  constructor
  · intro h
    rw [h]
    ring
  · intro h
    linear_combination h

/-! ## Meeting in the middle is the plain search -/

theorem length_of_mem_tuples {vars : List AffineVar} {values : List UInt8}
    (h : values ∈ tuples vars) : values.length = vars.length := by
  induction vars generalizing values with
  | nil =>
    rw [tuples, List.mem_singleton] at h
    rw [h]
    rfl
  | cons v vars ih =>
    simp only [tuples, List.mem_flatMap, List.mem_map] at h
    obtain ⟨value, -, rest, hrest, rfl⟩ := h
    rw [List.length_cons, List.length_cons, ih hrest]

theorem weighted_append (xs ys : List (AffineVar × UInt8)) :
    weighted (xs ++ ys) = weighted xs + weighted ys := by
  rw [weighted, List.map_append, List.sum_append]
  rfl

/-- A right and a left choice meet when together they solve the equation. -/
theorem meets_iff {equation : AffineTerm} (hw : equation.width ≤ 64) (fixed : List (AffineVar × UInt8))
    (left right : List AffineVar) (l r : List UInt8) :
    let mask := maskForWidth equation.width
    carried mask left 0 l =
        ((((0 - (equation.constant + fixed.foldl
          (fun sum e => (sum + e.1.coeff * e.2.toUInt64) &&& mask) 0)) &&& mask) -
            carried mask right 0 r) &&& mask) ↔
      Solves equation (fixed ++ left.zip l ++ right.zip r) := by
  have h0 : (0 : UInt64).toNat < 2 ^ equation.width := Nat.two_pow_pos _
  have hl := carried_toNat hw left l h0
  have hr := carried_toNat hw right r h0
  have hf := fixedSum_toNat hw fixed h0
  dsimp only
  rw [need_iff hw (by rw [hl]; exact Nat.mod_lt _ (Nat.two_pow_pos _)), hl, hr, hf, Solves,
    weighted_append, weighted_append]
  simp only [UInt64.toNat_zero, Nat.zero_add, Nat.add_mod, Nat.mod_mod]

/-- The variables of an equation, one for each coefficient. -/
theorem affineVars_only {s : Arena} {equation : AffineTerm} {domains : ByteDomains}
    (coeffs : List (TermId × UInt64)) :
    Only (affineVars s equation domains coeffs) fun o => ∀ vars, o = some vars →
      vars.map (·.var) = coeffs.map (·.1) ∧ ∀ v ∈ vars, ∃ w, s.IsBv v.var w ∧ w ≤ 8 := by
  induction coeffs with
  | nil => exact only_some ⟨rfl, fun _ h => nomatch h⟩
  | cons e coeffs ih =>
    rw [affineVars]
    refine (only_self _).bind fun σ hσ _ => ?_
    cases σ with
    | bool => exact only_none
    | bv width =>
      dsimp only
      split
      · exact only_none
      · rename_i hwidth
        split
        · exact only_none
        · refine ih.bind fun o _ ho => ?_
          cases o with
          | none => exact only_none
          | some vars =>
            obtain ⟨hvars, hall⟩ := ho vars rfl
            refine only_some ⟨by rw [List.map_cons, List.map_cons, hvars], ?_⟩
            refine List.forall_mem_cons.mpr ⟨⟨width, Arena.sort_eq_ok.mp hσ, ?_⟩, hall⟩
            exact Nat.le_of_not_lt hwidth

theorem product_map {α β γ δ : Type} (f : α → γ) (g : β → δ) (xs : List α) (ys : List β) :
    xs.map f ×ˢ ys.map g = (xs ×ˢ ys).map fun p => (f p.1, g p.2) := by
  induction xs with
  | nil => rfl
  | cons x xs ih =>
    rw [List.map_cons, List.product_cons, List.product_cons, ih, List.map_append, List.map_map,
      List.map_map]
    rfl

/-- What the search finds. -/
theorem meet_sides {equation : AffineTerm} (hw : equation.width ≤ 64) (vars : List AffineVar) :
    let mask := maskForWidth equation.width
    let fixedSum := (fixedBytes (fixedPart vars)).foldl
      (fun sum e => (sum + e.1.coeff * e.2.toUInt64) &&& mask) 0
    (MeetInMiddle.meet (enumerateAffineSide mask (leftHalf vars) 0)
      (enumerateAffineSide mask (rightHalf vars) 0) fun sum =>
        (((0 - (equation.constant + fixedSum)) &&& mask) - sum) &&& mask).map
      (fun p => insertBytes (insertBytes (insertBytes (fun _ => none) (fixedBytes (fixedPart vars)))
        ((leftHalf vars).zip p.1)) ((rightHalf vars).zip p.2)) =
    ((searchOrder vars).find? fun entries => decide (Solves equation entries)).map
      (insertBytes fun _ => none) := by
  have hfind : ∀ p : List UInt8 × List UInt8,
      decide (carried (maskForWidth equation.width) (leftHalf vars) 0 p.2 =
        ((((0 - (equation.constant + (fixedBytes (fixedPart vars)).foldl (fun sum e =>
          (sum + e.1.coeff * e.2.toUInt64) &&& maskForWidth equation.width) 0)) &&&
            maskForWidth equation.width) - carried (maskForWidth equation.width) (rightHalf vars) 0
              p.1) &&& maskForWidth equation.width)) =
        decide (Solves equation (fixedBytes (fixedPart vars) ++ (leftHalf vars).zip p.2 ++
          (rightHalf vars).zip p.1)) := by
    intro p
    exact decide_eq_decide.mpr (meets_iff hw _ (leftHalf vars) (rightHalf vars) p.2 p.1)
  dsimp only
  rw [MeetInMiddle.meet_eq, enumerateAffineSide_eq, enumerateAffineSide_eq, product_map,
    searchOrder, List.find?_map, List.find?_map, Option.map_map, Option.map_map, Option.map_map]
  simp only [Function.comp_def, hfind, insertBytes, List.foldl_append]

/-- What `solve_affine_byte_equation` returns: the first solution, as an assignment. -/
theorem solveAffineByteEquation_eq (s : Arena) {equation : AffineTerm} (hw : equation.width ≤ 64)
    (domains : ByteDomains) :
    solveAffineByteEquation s equation domains = do
      return (← firstSolution s equation domains).map (insertBytes fun _ => none) := by
  unfold solveAffineByteEquation firstSolution
  by_cases hempty : equation.coeffs.isEmpty = true
  · rw [if_pos hempty, if_pos hempty]
    by_cases hc : equation.constant = 0
    · rw [if_pos hc, if_pos hc]
      rfl
    · rw [if_neg hc, if_neg hc]
      rfl
  · rw [if_neg hempty, if_neg hempty]
    dsimp only
    cases h : affineVars s equation domains equation.coeffs.toList with
    | err e => rfl
    | panic => rfl
    | ok o =>
      cases o with
      | none => rfl
      | some vars =>
        have hne : min (sortByDomain vars).length 6 ≠ 0 := by
          have hvars := (affineVars_only _ _ h vars rfl).1
          rw [sortByDomain, List.length_insertionSort]
          rintro h0
          have hlen : vars = [] := List.length_eq_zero_iff.mp (by omega)
          rw [hlen, List.map_nil, eq_comm, List.map_eq_nil_iff, ← List.isEmpty_iff,
            Std.TreeMap.isEmpty_toList] at hvars
          exact hempty hvars
        simp only [ok_bind, if_neg hne]
        by_cases hmany : TooMany (sortByDomain vars)
        · refine (if_pos hmany).trans ?_
          rw [if_pos hmany]
          rfl
        · refine (if_neg hmany).trans ?_
          rw [if_neg hmany]
          exact congrArg ok (meet_sides hw (sortByDomain vars))

/-! ## What a solution is made of -/

theorem affineVars_answers (equation : AffineTerm) (domains : ByteDomains)
    {coeffs : List (TermId × UInt64)} (h : ∀ p ∈ coeffs, ∃ σ, s.sortAt p.1 = some σ) :
    ∃ o, affineVars s equation domains coeffs = ok o := by
  induction coeffs with
  | nil => exact ⟨_, rfl⟩
  | cons e coeffs ih =>
    rw [List.forall_mem_cons] at h
    obtain ⟨σ, hσ⟩ := h.1
    obtain ⟨o, ho⟩ := ih h.2
    rw [affineVars, Arena.sort_eq_ok.mpr hσ, ok_bind]
    cases σ with
    | bool => exact ⟨_, rfl⟩
    | bv width =>
      dsimp only
      split
      · exact ⟨_, rfl⟩
      · split
        · exact ⟨_, rfl⟩
        · rw [ho]
          exact ⟨_, rfl⟩

theorem firstSolution_answers {equation : AffineTerm} (he : equation.VarsIn s)
    (domains : ByteDomains) : ∃ o, firstSolution s equation domains = ok o := by
  unfold firstSolution
  split
  · exact ⟨_, rfl⟩
  · obtain ⟨o, ho⟩ := affineVars_answers equation domains
      fun p hp => he p.1 (mem_of_mem_toList hp)
    rw [ho, ok_bind]
    cases o with
    | none => exact ⟨_, rfl⟩
    | some vars =>
      dsimp only
      split
      · exact ⟨_, rfl⟩
      · exact ⟨_, rfl⟩

theorem map_fst_of_mem_searchOrder {vars : List AffineVar} {entries : List (AffineVar × UInt8)}
    (h : entries ∈ searchOrder vars) : (entries.map (·.1)).Perm vars := by
  rw [searchOrder, List.mem_map] at h
  obtain ⟨⟨r, l⟩, hmem, rfl⟩ := h
  have hmem := List.pair_mem_product.mp hmem
  have hr := length_of_mem_tuples hmem.1
  have hl := length_of_mem_tuples hmem.2
  have hfixed : (fixedBytes (fixedPart vars)).map (·.1) = fixedPart vars := by
    rw [fixedBytes, List.map_map]
    exact List.map_id _
  rw [List.map_append, List.map_append, hfixed, List.map_fst_zip (Nat.le_of_eq hl.symm),
    List.map_fst_zip (Nat.le_of_eq hr.symm), List.append_assoc, leftHalf, rightHalf, List.take_append_drop,
    fixedPart]
  exact List.perm_append_comm.trans (by rw [List.take_append_drop])

/-- A solution has one byte for every variable, and its variables are at most eight bits wide. -/
theorem firstSolution_only {equation : AffineTerm} {domains : ByteDomains} :
    Only (firstSolution s equation domains) fun o => ∀ entries, o = some entries →
      (entries.map (·.1.var)).Nodup ∧ ∀ e ∈ entries, ∃ w, s.IsBv e.1.var w ∧ w ≤ 8 := by
  unfold firstSolution
  split
  · split
    · exact only_some ⟨List.nodup_nil, fun _ h => nomatch h⟩
    · exact only_none
  · refine (affineVars_only _).bind fun o _ ho => ?_
    cases o with
    | none => exact only_none
    | some vars =>
      obtain ⟨hvars, hall⟩ := ho vars rfl
      dsimp only
      split
      · exact only_none
      · refine only_ok fun entries hfind => ?_
        have hperm := (map_fst_of_mem_searchOrder (List.mem_of_find?_eq_some hfind)).trans
          (List.perm_insertionSort _ vars)
        have hkeys : (vars.map (·.var)).Nodup := by
          rw [hvars, show equation.coeffs.toList.map (·.1) = equation.coeffs.keys from
            Std.TreeMap.map_fst_toList_eq_keys]
          exact Std.TreeMap.nodup_keys
        refine ⟨?_, fun e he => hall e.1 (hperm.mem_iff.mp (List.mem_map_of_mem he))⟩
        have hmap := (hperm.map (·.var)).nodup_iff.mpr hkeys
        rwa [List.map_map] at hmap

/-! ## Candidates that fit -/

/-- Every byte fits into the width of its variable. -/
def Fits (s : Arena) (entries : List (AffineVar × UInt8)) : Prop :=
  ∀ e ∈ entries, ∀ w name external, s.kindAt e.1.var = some (.bvVar w name external) →
    e.2.toNat < 2 ^ w

theorem insertBytes_of_not_mem {assignment : Assignment} {entries : List (AffineVar × UInt8)}
    (h : ∀ e ∈ entries, e.1.var ≠ t) : insertBytes assignment entries t = assignment t := by
  unfold insertBytes
  induction entries generalizing assignment with
  | nil => rfl
  | cons e entries ih =>
    rw [List.forall_mem_cons] at h
    rw [List.foldl_cons, ih h.2, if_neg (Ne.symm h.1)]

theorem insertBytes_of_mem {assignment : Assignment} {entries : List (AffineVar × UInt8)}
    (hnodup : (entries.map (·.1.var)).Nodup) {e : AffineVar × UInt8} (he : e ∈ entries) :
    insertBytes assignment entries e.1.var = some [e.2] := by
  unfold insertBytes
  induction entries generalizing assignment with
  | nil => exact nomatch he
  | cons d entries ih =>
    rw [List.map_cons, List.nodup_cons] at hnodup
    rw [List.foldl_cons]
    rcases List.mem_cons.mp he with rfl | he
    · have hrest : ∀ d ∈ entries, d.1.var ≠ e.1.var := by
        intro d hd heq
        exact hnodup.1 (heq ▸ List.mem_map_of_mem hd)
      exact (insertBytes_of_not_mem hrest).trans (if_pos rfl)
    · exact ih hnodup.2 he

/-- The table of a solution is in range just when its bytes fit. -/
theorem inRange_iff_fits {q : Query} (hq : q.WellFormed) {entries : List (AffineVar × UInt8)}
    (hnodup : (entries.map (·.1.var)).Nodup)
    (hwidth : ∀ e ∈ entries, ∃ w, q.arena.IsBv e.1.var w ∧ w ≤ 8) :
    (EvalAssignment.explicit (insertBytes (fun _ => none) entries)).InRange q ↔
      Fits q.arena entries := by
  constructor
  · intro h e he w name external hk
    obtain ⟨-, hlt⟩ := h e.1.var w name external hk _ (insertBytes_of_mem hnodup he)
    simpa using hlt
  · intro h t w name external hk bytes hbytes
    by_cases ht : ∃ e ∈ entries, e.1.var = t
    · obtain ⟨e, he, rfl⟩ := ht
      rw [insertBytes_of_mem hnodup he, Option.some.injEq] at hbytes
      subst hbytes
      obtain ⟨v, hv, hle⟩ := hwidth e he
      obtain rfl : w = v := (TermSort.bv.inj (hq.arena.sort_kind hk hv)).symm
      have hpos := hv.pos hq.arena
      refine ⟨?_, by simpa using h e he w name external hk⟩
      rw [List.length_singleton, divCeil8]
      omega
    · rw [insertBytes_of_not_mem fun e he heq => ht ⟨e, he, heq⟩] at hbytes
      cases hbytes

/-! ## When the answer is right -/

/-- The first choice of bytes that solves an asserted equation. -/
def firstSolutionOf (s : Arena) (domains : ByteDomains) (equality : BvPair) :
    Result (Option (List (AffineVar × UInt8))) := do
  let some equation ← affineEquation s equality.1 equality.2 | return none
  firstSolution s equation domains

/-- The environment of a choice. -/
def solutionEnv (q : Query) (entries : List (AffineVar × UInt8)) : Env :=
  (EvalAssignment.explicit (insertBytes (fun _ => none) entries)).env q

theorem firstSolutionOf_answers (hs : s.Inv) (domains : ByteDomains) {equality : BvPair} {w : Nat}
    (ha : s.IsBv equality.1 w) (hb : s.IsBv equality.2 w) :
    Answers (firstSolutionOf s domains equality) fun o =>
      affineByteCandidate s domains equality.1 equality.2 =
          ok (o.map (insertBytes fun _ => none)) ∧
        ∀ entries, o = some entries → (entries.map (·.1.var)).Nodup ∧
          ∀ e ∈ entries, ∃ w, s.IsBv e.1.var w ∧ w ≤ 8 := by
  unfold firstSolutionOf affineByteCandidate
  obtain ⟨o, ho, hequation⟩ := affineEquation_answers hs ha hb
  rw [ho, ok_bind, ok_bind]
  cases o with
  | none => exact answers_ok ⟨rfl, fun _ h => nomatch h⟩
  | some equation =>
    obtain ⟨hwidth, hvars⟩ := hequation equation rfl
    obtain ⟨o, ho⟩ := firstSolution_answers hvars domains
    dsimp only
    rw [solveAffineByteEquation_eq s (Nat.le_trans hwidth (by decide)), ho]
    exact answers_ok ⟨rfl, firstSolution_only o ho⟩

/-- What the pass goes through, where it goes through anything. -/
structure AffineByteSearch (q : Query) (equalities : List BvPair) (domains : ByteDomains) :
    Prop where
  noAssumptions : q.assumptions = []
  small : q.arena.nodes.length ≤ 20000
  equalities : ∃ disequalities,
    forAllConjuncts q (collectBvEqualitiesAndDisequalities q.arena) ([], []) =
      ok (equalities, disequalities)
  domains : forAllConjuncts q (collectByteDomains q.arena) ∅ = ok domains

/-- A candidate that the pass evaluates: that of the first equation, or, where the evaluator does not
accept it, one of the others. -/
def Evaluates (q : Query) (domains : ByteDomains) (assignment : Assignment) : List BvPair → Prop
  | [] => False
  | p :: rest => affineByteCandidate q.arena domains p.1 p.2 = ok (some assignment) ∨
      (tryAffineByteEquation q domains p = ok false ∧ Evaluates q domains assignment rest)

/-- The first solution of the first equation gives no variable a byte beyond its width, and unless it
satisfies the query (or the query is one that cannot be evaluated), neither do those of the other
equations. -/
def FirstSolutionsFit (q : Query) (domains : ByteDomains) : List BvPair → Prop
  | [] => True
  | p :: rest =>
      (∀ entries, firstSolutionOf q.arena domains p = ok (some entries) → Fits q.arena entries) ∧
      ((∀ entries, firstSolutionOf q.arena domains p = ok (some entries) →
        q.EvalWidths ∧ ¬q.Holds (solutionEnv q entries)) → FirstSolutionsFit q domains rest)

variable {q : Query} {domains : ByteDomains}

/-- A candidate that fits is judged rightly. -/
theorem try_of_fits (hq : q.WellFormed) {p : BvPair} {w : Nat} (ha : q.arena.IsBv p.1 w)
    (hb : q.arena.IsBv p.2 w)
    (hfit : ∀ entries, firstSolutionOf q.arena domains p = ok (some entries) →
      Fits q.arena entries) :
    (tryAffineByteEquation q domains p = ok true → ∃ ρ, q.Holds ρ) ∧
      (tryAffineByteEquation q domains p = ok false ↔
        ∀ entries, firstSolutionOf q.arena domains p = ok (some entries) →
          q.EvalWidths ∧ ¬q.Holds (solutionEnv q entries)) := by
  obtain ⟨o, ho, hcandidate, hentries⟩ := firstSolutionOf_answers hq.arena domains ha hb
  unfold tryAffineByteEquation
  rw [ho] at hfit ⊢
  rw [hcandidate, ok_bind]
  cases o with
  | none => exact ⟨fun h => (nomatch h), fun _ _ h => (nomatch h), fun _ => rfl⟩
  | some entries =>
    obtain ⟨hnodup, hwidth⟩ := hentries entries rfl
    have hin := (inRange_iff_fits hq hnodup hwidth).mpr (hfit entries rfl)
    have hread := EvalAssignment.readBy_env hq.arena hin
    refine ⟨fun h => ⟨_, holds_of_querySatisfiedBy hq hin h⟩, ?_⟩
    simp only [Outcome.ok.injEq, Option.some.injEq, forall_eq']
    change querySatisfiedBy q _ = ok false ↔ _
    by_cases hw : q.EvalWidths
    · obtain ⟨found, hfound, hiff⟩ := querySatisfiedBy_answers hq hread hw
      rw [hfound, Outcome.ok.injEq, solutionEnv, ← hiff]
      simp [hw]
    · obtain ⟨e, he⟩ := querySatisfiedBy_refuses hq hread hw
      rw [he]
      exact ⟨fun h => (nomatch h), fun h => absurd h.1 hw⟩

/-- The equations of the search have two sides of one width. -/
theorem AffineByteSearch.isBv (hq : q.WellFormed) {equalities : List BvPair}
    (h : AffineByteSearch q equalities domains) :
    ∀ p ∈ equalities, ∃ w, q.arena.IsBv p.1 w ∧ q.arena.IsBv p.2 w := by
  obtain ⟨disequalities, hrun⟩ := h.equalities
  intro p hp
  obtain ⟨w, ha, hb, -⟩ := ((bvEqualitiesAndDisequalities_answers hq).of_eq hrun).1 p hp
  exact ⟨w, ha, hb⟩

/-- The evaluated candidates are in range just when the first solutions fit: up to the first that is
accepted, an equation is tried only after its predecessors have been rejected. -/
theorem evaluates_inRange_iff (hq : q.WellFormed) {equalities : List BvPair}
    (hsorts : ∀ p ∈ equalities, ∃ w, q.arena.IsBv p.1 w ∧ q.arena.IsBv p.2 w) :
    (∀ assignment, Evaluates q domains assignment equalities →
      (EvalAssignment.explicit assignment).InRange q) ↔ FirstSolutionsFit q domains equalities := by
  induction equalities with
  | nil => simp [Evaluates, FirstSolutionsFit]
  | cons p rest ih =>
    rw [List.forall_mem_cons] at hsorts
    obtain ⟨⟨w, ha, hb⟩, hrest⟩ := hsorts
    have hfirst : (∀ assignment, affineByteCandidate q.arena domains p.1 p.2 = ok (some assignment) →
        (EvalAssignment.explicit assignment).InRange q) ↔
          ∀ entries, firstSolutionOf q.arena domains p = ok (some entries) →
            Fits q.arena entries := by
      obtain ⟨o, ho, hcandidate, hentries⟩ := firstSolutionOf_answers hq.arena domains ha hb
      rw [ho, hcandidate]
      cases o with
      | none => simp
      | some entries =>
        obtain ⟨hnodup, hwidth⟩ := hentries entries rfl
        simpa using inRange_iff_fits hq hnodup hwidth
    rw [FirstSolutionsFit, ← hfirst, ← ih hrest]
    constructor
    · intro h
      have hcandidate := fun assignment hc => h assignment (.inl hc)
      refine ⟨hcandidate, fun hreject assignment hevaluates => h assignment (.inr ⟨?_, hevaluates⟩)⟩
      exact (try_of_fits hq ha hb (hfirst.mp hcandidate)).2.mpr hreject
    · rintro ⟨hcandidate, htail⟩ assignment (hc | ⟨hfalse, hevaluates⟩)
      · exact hcandidate assignment hc
      · exact htail ((try_of_fits hq ha hb (hfirst.mp hcandidate)).2.mp hfalse) assignment hevaluates

/-- Candidates that fit are judged rightly one after the other. -/
theorem holds_of_anyM (hq : q.WellFormed) {equalities : List BvPair}
    (hsorts : ∀ p ∈ equalities, ∃ w, q.arena.IsBv p.1 w ∧ q.arena.IsBv p.2 w)
    (hfit : FirstSolutionsFit q domains equalities)
    (h : equalities.anyM (tryAffineByteEquation q domains) = ok true) : ∃ ρ, q.Holds ρ := by
  induction equalities with
  | nil => cases h
  | cons p rest ih =>
    rw [List.forall_mem_cons] at hsorts
    obtain ⟨⟨w, ha, hb⟩, hrest⟩ := hsorts
    obtain ⟨hhead, htail⟩ := hfit
    obtain ⟨htrue, hfalse⟩ := try_of_fits hq ha hb hhead
    rw [List.anyM, bind_eq_ok] at h
    obtain ⟨found, hfound, h⟩ := h
    cases found with
    | true => exact htrue hfound
    | false => exact ih hrest (htail (hfalse.mp hfound)) h

/-- `zext(x) + 5 = 0` over eight bits, for an `x` of four. -/
def narrowAffine : Query where
  arena := ⟨[
    ⟨.bvVar 4 "x" (some 0), .bv 4⟩,
    ⟨.bvZeroExtend 0 4, .bv 8⟩,
    ⟨.bvConst 8 [5], .bv 8⟩,
    ⟨.bvAdd 1 2, .bv 8⟩,
    ⟨.bvConst 8 [0], .bv 8⟩,
    ⟨.bvEq 3 4, .bool⟩]⟩
  assertions := [⟨5, none⟩]
  assumptions := []
  command := .solve
  target := none
  signed := false
  wantModel := false
  wantCore := false
  getValues := []

theorem narrowAffine_wellFormed : narrowAffine.WellFormed :=
  Query.wellFormed_of_check (by decide) (by decide)

/-- `zext(x) + 5 = 8` over eight bits, for an `x` of four: the first solution is `3`. -/
def fittingAffine : Query :=
  { narrowAffine with
    arena := ⟨[
      ⟨.bvVar 4 "x" (some 0), .bv 4⟩,
      ⟨.bvZeroExtend 0 4, .bv 8⟩,
      ⟨.bvConst 8 [5], .bv 8⟩,
      ⟨.bvAdd 1 2, .bv 8⟩,
      ⟨.bvConst 8 [8], .bv 8⟩,
      ⟨.bvEq 3 4, .bool⟩]⟩ }

end Shortcuts
end Qfbv
end SmtServer
