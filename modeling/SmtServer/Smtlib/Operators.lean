import SmtServer.Smtlib.Correct

/-!
# Operators of a correct sink

Each family of operators is lowered to its meaning, on any number of arguments; `operators_mean`
compares the two tables and `indexedOp_means` the indexed operators. The checks the lowering makes
on sorts are what makes the operation of the theory defined on the arguments' values.
-/

namespace SmtServer
namespace Smtlib

open Lib Grow
open Lib.Smt (Value)
open Qfbv.Bytes (Spells)

/-! ## Values of known sort -/

theorem width_of_sortOf {v : Value} {w : Nat} (h : sortOf v = .bv w) : v.width = w := by
  cases v with
  | bool b => simp [sortOf] at h
  | bv w' x => simpa [sortOf] using h

theorem onBool_eq {f : Value → Value} {v : Value} (h : sortOf v = .bool) :
    onBool f [v] = some (f v) := by
  cases v with
  | bool b => rfl
  | bv w x => simp [sortOf] at h

theorem onBools_eq {f : Value → Value → Value} {u v : Value} (hu : sortOf u = .bool)
    (hv : sortOf v = .bool) : onBools f [u, v] = some (f u v) := by
  cases u with
  | bool a =>
    cases v with
    | bool b => rfl
    | bv w x => simp [sortOf] at hv
  | bv w x => simp [sortOf] at hu

theorem onBv_eq {f : Value → Value} {v : Value} {w : Nat} (h : sortOf v = .bv w) :
    onBv f [v] = some (f v) := by
  cases v with
  | bool b => simp [sortOf] at h
  | bv w' x => rfl

theorem onBvs_eq {f : Value → Value → Value} {u v : Value} {w : Nat} (hu : sortOf u = .bv w)
    (hv : sortOf v = .bv w) : onBvs f [u, v] = some (f u v) := by
  cases u with
  | bool a => simp [sortOf] at hu
  | bv w₁ x =>
    cases v with
    | bool b => simp [sortOf] at hv
    | bv w₂ y =>
      obtain rfl : w₁ = w := by simpa [sortOf] using hu
      obtain rfl : w₂ = w₁ := by simpa [sortOf] using hv
      exact if_pos rfl

theorem foldBvs_eq {f : Value → Value → Value} {u : Value} {vs : List Value} {w : Nat}
    (hu : sortOf u = .bv w) (hvs : ∀ v ∈ vs, sortOf v = .bv w) :
    foldBvs f (u :: vs) = some (vs.foldl f u) := by
  cases u with
  | bool a => simp [sortOf] at hu
  | bv w' x =>
    obtain rfl : w' = w := by simpa [sortOf] using hu
    exact if_pos (by simpa using hvs)

theorem iff_eq {u v : Value} (hu : sortOf u = .bool) (hv : sortOf v = .bool) :
    Smt.iff u v = .bool (decide (u = v)) := by
  cases u with
  | bool a =>
    cases v with
    | bool b => cases a <;> cases b <;> rfl
    | bv w x => simp [sortOf] at hv
  | bv w x => simp [sortOf] at hu

theorem bveq_eq {u v : Value} {w : Nat} (hu : sortOf u = .bv w) (hv : sortOf v = .bv w) :
    Smt.bveq u v = .bool (decide (u = v)) := by
  cases u with
  | bool a => simp [sortOf] at hu
  | bv w₁ x =>
    cases v with
    | bool b => simp [sortOf] at hv
    | bv w₂ y =>
      obtain rfl : w₁ = w := by simpa [sortOf] using hu
      obtain rfl : w₂ = w₁ := by simpa [sortOf] using hv
      rw [Smt.bveq, Value.rel₂_bv, Value.bool.injEq, Bool.beq_eq_decide_eq, decide_eq_decide,
        Value.bv_inj]

theorem concatValue_eq {u v : Value} {w w' : Nat} (hu : sortOf u = .bv w)
    (hv : sortOf v = .bv w') : concatValue [u, v] = some (Smt.concat u v) := by
  cases u with
  | bool a => simp [sortOf] at hu
  | bv w x =>
    cases v with
    | bool b => simp [sortOf] at hv
    | bv w' y => rfl

theorem sortOf_ite {c t e : Value} {sort : SmtSort} (ht : sortOf t = sort) (he : sortOf e = sort) :
    sortOf (Smt.ite c t e) = sort := by
  rw [Smt.ite]
  split
  · exact ht
  · exact he

theorem iteValue_eq {c t e : Value} {sort : SmtSort} (hc : sortOf c = .bool)
    (ht : sortOf t = sort) (he : sortOf e = sort) : iteValue [c, t, e] = some (Smt.ite c t e) := by
  cases c with
  | bool c => exact if_pos (ht.trans he.symm)
  | bv w c => simp [sortOf] at hc

theorem extractValue_eq {v : Value} {w hi lo : Nat} (hv : sortOf v = .bv w) (hle : lo ≤ hi)
    (hlt : hi < w) : extractValue hi lo [v] = some (Smt.extract hi lo v) := by
  cases v with
  | bool b => simp [sortOf] at hv
  | bv w' x =>
    obtain rfl : w' = w := by simpa [sortOf] using hv
    exact if_pos ⟨hle, hlt⟩

/-! ## Fixed arity -/

section

variable {S N : Type} [Preorder S] {Inv : S → Prop} {Denotes : S → N → Meaning → Prop}
  {sink : Sink S N}

theorem unaryBool_means {op : N → SinkM S N} {f : Value → Value}
    (hop : Unary Inv Denotes op .bool f) (hf : ∀ v, sortOf (f v) = .bool) :
    OperatorMeans Inv Denotes (unaryBool op) (onBool f) := by
  intro s₀ terms vs h s hle hs
  match terms, vs, h with
  | [], _, _ => exact returns_fail
  | _ :: _ :: _, _, _ => exact returns_fail
  | [_], _, .cons ha .nil =>
    refine ha.step hle hs fun a s₁ x _ hs₁ hx hv => ?_
    refine returns_lowerSort_bind fun hsort => ?_
    have hx' : HasSort x .bool := hsort ▸ hx.sort
    refine (hop hx.denotes hx').step hs₁ fun n s₂ _ hs₂ hn => ?_
    refine returns_means hs₂ hn (fun ρ => hf _) fun ρ => ?_
    simp [valuesAt, hv, onBool_eq (hx' ρ)]

theorem binaryBool_means (hsink : sink.Correct Inv Denotes) {op : N → N → SinkM S N}
    {f : Value → Value → Value} (hop : Binary Inv Denotes op .bool f)
    (hf : ∀ u v, sortOf (f u v) = .bool) :
    OperatorMeans Inv Denotes (binaryBool op) (onBools f) := by
  intro s₀ terms vs h s hle hs
  match terms, vs, h with
  | [], _, _ => exact returns_fail
  | [_], _, _ => exact returns_fail
  | _ :: _ :: _ :: _, _, _ => exact returns_fail
  | [_, _], _, .cons ha (.cons hb .nil) =>
    refine ha.step hle hs fun a s₁ x hle₁ hs₁ hx hvx => ?_
    refine hb.step (hle.trans hle₁) hs₁ fun b s₂ y hle₂ hs₂ hy hvy => ?_
    refine returns_lowerSort_bind fun hsa => ?_
    refine returns_lowerSort_bind fun hsb => ?_
    have hx' : HasSort x .bool := hsa ▸ hx.sort
    have hy' : HasSort y .bool := hsb ▸ hy.sort
    have hx₂ := hx.mono hsink hs₁ hs₂ hle₂
    refine (hop hx₂.denotes hy.denotes hx' hy').step hs₂ fun n s₃ _ hs₃ hn => ?_
    refine returns_means hs₃ hn (fun ρ => hf _ _) fun ρ => ?_
    simp [valuesAt, hvx, hvy, onBools_eq (hx' ρ) (hy' ρ)]

theorem unaryBv_run {op : N → SinkM S N} {f : Value → Value}
    (hop : ∀ w, Unary Inv Denotes op (.bv w) f) {s₀ s : S} {terms : List (Term S N)}
    {vs : List (Assignment → Option Value)}
    (h : List.Forall₂ (TermMeans Inv Denotes s₀) terms vs) (hle : s₀ ≤ s) (hs : Inv s) :
    Returns (unaryBv op terms) s fun e s' => Inv s' ∧ ∃ w, e.sort = .bv w ∧ ∃ x,
      HasSort x (.bv w) ∧ Denotes s' e.node (fun ρ => f (x ρ)) ∧
      ∀ ρ, (valuesAt vs ρ).bind (onBv f) = some (f (x ρ)) := by
  match terms, vs, h with
  | [], _, _ => exact returns_fail
  | _ :: _ :: _, _, _ => exact returns_fail
  | [_], _, .cons ha .nil =>
    refine ha.step hle hs fun a s₁ x _ hs₁ hx hv => ?_
    cases hsort : a.sort with
    | bool => exact returns_invalid
    | bv w =>
      have hx' : HasSort x (.bv w) := hsort ▸ hx.sort
      refine (hop w hx.denotes hx').step hs₁ fun n s₂ _ hs₂ hn => ?_
      refine returns_pure ⟨hs₂, w, rfl, x, hx', hn, fun ρ => ?_⟩
      simp [valuesAt, hv, onBv_eq (hx' ρ)]

/-- An operator whose result has the width of its argument. -/
theorem unaryBv_means {op : N → SinkM S N} {f : Value → Value}
    (hop : ∀ w, Unary Inv Denotes op (.bv w) f) (hf : ∀ v, sortOf (f v) = .bv v.width) :
    OperatorMeans Inv Denotes (unaryBv op) (onBv f) := by
  intro s₀ terms vs h s hle hs
  refine (unaryBv_run hop h hle hs).mono fun e s' _ ⟨hs', w, hw, x, hx, hn, hv⟩ => ?_
  refine ⟨hs', _, ⟨hn, fun ρ => ?_⟩, hv⟩
  rw [hf, width_of_sortOf (hx ρ), hw]

theorem unaryOverflow_means {op : N → SinkM S N} {f : Value → Value}
    (hop : ∀ w, Unary Inv Denotes op (.bv w) f) (hf : ∀ v, sortOf (f v) = .bool) :
    OperatorMeans Inv Denotes (unaryOverflow op) (onBv f) := by
  intro s₀ terms vs h s hle hs
  refine (unaryBv_run hop h hle hs).bind fun e s' _ ⟨hs', w, hw, x, hx, hn, hv⟩ => ?_
  exact returns_means hs' hn (fun ρ => hf _) hv

/-- Two lowered terms of one width. -/
theorem binaryBvBindings_run {op : N → N → SinkM S N} {f : Value → Value → Value}
    (hop : ∀ w, Binary Inv Denotes op (.bv w) f) {context : String} {s : S}
    {a b : LoweredExpr N} {x y : Meaning} (hs : Inv s) (hx : Means Denotes s a x)
    (hy : Means Denotes s b y) :
    Returns (binaryBvBindings op context a b) s fun e s' => Inv s' ∧ ∃ w,
      a.sort = .bv w ∧ b.sort = .bv w ∧ e.sort = .bv w ∧
      Denotes s' e.node (fun ρ => f (x ρ) (y ρ)) := by
  unfold binaryBvBindings
  cases ha : a.sort with
  | bool => exact returns_invalid
  | bv w₁ =>
    cases hb : b.sort with
    | bool => exact returns_invalid
    | bv w₂ =>
      dsimp only
      split
      · exact returns_invalid
      · rename_i hne
        obtain rfl : w₁ = w₂ := not_not.mp hne
        have hx' : HasSort x (.bv w₁) := ha ▸ hx.sort
        have hy' : HasSort y (.bv w₁) := hb ▸ hy.sort
        refine (hop w₁ hx.denotes hy.denotes hx' hy').step hs fun n s' _ hs' hn => ?_
        exact returns_pure ⟨hs', w₁, rfl, rfl, rfl, hn⟩

theorem binaryBv_run (hsink : sink.Correct Inv Denotes) {op : N → N → SinkM S N}
    {f : Value → Value → Value} (hop : ∀ w, Binary Inv Denotes op (.bv w) f) {s₀ s : S}
    {terms : List (Term S N)} {vs : List (Assignment → Option Value)}
    (h : List.Forall₂ (TermMeans Inv Denotes s₀) terms vs) (hle : s₀ ≤ s) (hs : Inv s) :
    Returns (binaryBv op terms) s fun e s' => Inv s' ∧ ∃ w, e.sort = .bv w ∧ ∃ x y : Meaning,
      HasSort x (.bv w) ∧ Denotes s' e.node (fun ρ => f (x ρ) (y ρ)) ∧
      ∀ ρ, (valuesAt vs ρ).bind (onBvs f) = some (f (x ρ) (y ρ)) := by
  match terms, vs, h with
  | [], _, _ => exact returns_fail
  | [_], _, _ => exact returns_fail
  | _ :: _ :: _ :: _, _, _ => exact returns_fail
  | [_, _], _, .cons ha (.cons hb .nil) =>
    refine ha.step hle hs fun a s₁ x hle₁ hs₁ hx hvx => ?_
    refine hb.step (hle.trans hle₁) hs₁ fun b s₂ y hle₂ hs₂ hy hvy => ?_
    refine (binaryBvBindings_run hop hs₂ (hx.mono hsink hs₁ hs₂ hle₂) hy).mono ?_
    rintro e s' - ⟨hs', w, hwa, hwb, hwe, hn⟩
    have hx' : HasSort x (.bv w) := hwa ▸ hx.sort
    have hy' : HasSort y (.bv w) := hwb ▸ hy.sort
    refine ⟨hs', w, hwe, x, y, hx', hn, fun ρ => ?_⟩
    simp [valuesAt, hvx, hvy, onBvs_eq (hx' ρ) (hy' ρ)]

theorem binaryBv_means (hsink : sink.Correct Inv Denotes) {op : N → N → SinkM S N}
    {f : Value → Value → Value} (hop : ∀ w, Binary Inv Denotes op (.bv w) f)
    (hf : ∀ u v, sortOf (f u v) = .bv u.width) :
    OperatorMeans Inv Denotes (binaryBv op) (onBvs f) := by
  intro s₀ terms vs h s hle hs
  refine (binaryBv_run hsink hop h hle hs).mono fun e s' _ ⟨hs', w, hw, x, y, hx, hn, hv⟩ => ?_
  refine ⟨hs', _, ⟨hn, fun ρ => ?_⟩, hv⟩
  rw [hf, width_of_sortOf (hx ρ), hw]

theorem bvCmp_means (hsink : sink.Correct Inv Denotes) {op : N → N → SinkM S N}
    {f : Value → Value → Value} (hop : ∀ w, Binary Inv Denotes op (.bv w) f)
    (hf : ∀ u v, sortOf (f u v) = .bool) :
    OperatorMeans Inv Denotes (bvCmp op) (onBvs f) := by
  intro s₀ terms vs h s hle hs
  refine (binaryBv_run hsink hop h hle hs).bind fun e s' _ ⟨hs', w, hw, x, y, hx, hn, hv⟩ => ?_
  exact returns_means hs' hn (fun ρ => hf _ _) hv

/-- The operands of a comparison the other way round. -/
theorem binary_swap {op : N → N → SinkM S N} {f : Value → Value → Value}
    (hop : ∀ w, Binary Inv Denotes op (.bv w) f) (w : Nat) :
    Binary Inv Denotes (fun a b => op b a) (.bv w) fun u v => f v u := by
  intro s a b x y hx hy hxs hys
  exact hop w hy hx hys hxs

theorem bvcomp_means (hsink : sink.Correct Inv Denotes) :
    OperatorMeans Inv Denotes (bvcomp sink) compValue := by
  intro s₀ terms vs h s hle hs
  match terms, vs, h with
  | [], _, _ => exact returns_fail
  | [_], _, _ => exact returns_fail
  | _ :: _ :: _ :: _, _, _ => exact returns_fail
  | [_, _], _, .cons ha (.cons hb .nil) =>
    refine ha.step hle hs fun a s₁ x hle₁ hs₁ hx hvx => ?_
    refine hb.step (hle.trans hle₁) hs₁ fun b s₂ y hle₂ hs₂ hy hvy => ?_
    cases hsa : a.sort with
    | bool => exact returns_invalid
    | bv w₁ =>
      cases hsb : b.sort with
      | bool => exact returns_invalid
      | bv w₂ =>
        dsimp only
        split
        · exact returns_invalid
        · rename_i hne
          obtain rfl : w₁ = w₂ := not_not.mp hne
          have hx' : HasSort x (.bv w₁) := hsa ▸ hx.sort
          have hy' : HasSort y (.bv w₁) := hsb ▸ hy.sort
          have hx₂ := hx.mono hsink hs₁ hs₂ hle₂
          refine (hsink.bvEq w₁ hx₂.denotes hy.denotes hx' hy').step hs₂
            fun eq s₃ _ hs₃ heq => ?_
          have hspell₁ : Spells [1] (1 : BitVec 1) := ⟨rfl, rfl⟩
          have hspell₀ : Spells [0] (0 : BitVec 1) := ⟨rfl, rfl⟩
          refine (hsink.bvConst (by omega) (by omega) hspell₁).step hs₃
            fun one s₄ hle₄ hs₄ hone => ?_
          refine (hsink.bvConst (by omega) (by omega) hspell₀).step hs₄
            fun zero s₅ hle₅ hs₅ hzero => ?_
          have heq₅ := hsink.mono hs₃ hs₅ (hle₄.trans hle₅) heq
          have hone₅ := hsink.mono hs₄ hs₅ hle₅ hone
          refine (hsink.bvIte 1 heq₅ hone₅ hzero (fun ρ => rfl) (fun ρ => rfl) fun ρ => rfl).step
            hs₅ fun n s₆ _ hs₆ hn => ?_
          have hval : ∀ ρ, Smt.ite (Smt.bveq (x ρ) (y ρ)) (.bv 1 1) (.bv 1 0) =
              .bv 1 (.ofBool (x ρ = y ρ)) := by
            intro ρ
            rw [bveq_eq (hx' ρ) (hy' ρ), Smt.ite, Value.toBool_bool]
            by_cases hxy : x ρ = y ρ <;> simp [hxy]
          refine returns_means hs₆ hn (fun ρ => ?_) fun ρ => ?_
          · rw [hval]
            rfl
          · rw [hval]
            simp [valuesAt, hvx, hvy, compValue, onBvs_eq (hx' ρ) (hy' ρ)]

theorem concat_means (hsink : sink.Correct Inv Denotes) :
    OperatorMeans Inv Denotes (concat sink) concatValue := by
  intro s₀ terms vs h s hle hs
  match terms, vs, h with
  | [], _, _ => exact returns_fail
  | [_], _, _ => exact returns_fail
  | _ :: _ :: _ :: _, _, _ => exact returns_fail
  | [_, _], _, .cons ha (.cons hb .nil) =>
    refine ha.step hle hs fun a s₁ x hle₁ hs₁ hx hvx => ?_
    refine hb.step (hle.trans hle₁) hs₁ fun b s₂ y hle₂ hs₂ hy hvy => ?_
    cases hsa : a.sort with
    | bool => exact returns_invalid
    | bv w₁ =>
      cases hsb : b.sort with
      | bool => exact returns_invalid
      | bv w₂ =>
        have hx' : HasSort x (.bv w₁) := hsa ▸ hx.sort
        have hy' : HasSort y (.bv w₂) := hsb ▸ hy.sort
        have hx₂ := hx.mono hsink hs₁ hs₂ hle₂
        refine (hsink.bvConcat hx₂.denotes hy.denotes hx' hy').step hs₂ fun n s₃ _ hs₃ hn => ?_
        refine returns_lift_bind fun width hwidth => ?_
        obtain rfl : w₁ + w₂ = width := by
          split at hwidth <;> simp_all
        refine returns_means hs₃ hn (fun ρ => ?_) fun ρ => ?_
        · rw [Smt.concat, sortOf, width_of_sortOf (hx' ρ), width_of_sortOf (hy' ρ)]
        · simp [valuesAt, hvx, hvy, concatValue_eq (hx' ρ) (hy' ρ)]

theorem iteExpr_means (hsink : sink.Correct Inv Denotes) :
    OperatorMeans Inv Denotes (iteExpr sink) iteValue := by
  intro s₀ terms vs h s hle hs
  match terms, vs, h with
  | [], _, _ => exact returns_fail
  | [_], _, _ => exact returns_fail
  | [_, _], _, _ => exact returns_fail
  | _ :: _ :: _ :: _ :: _, _, _ => exact returns_fail
  | [_, _, _], _, .cons hc (.cons ha (.cons hb .nil)) =>
    refine hc.step hle hs fun c s₁ z hle₁ hs₁ hz hvz => ?_
    refine ha.step (hle.trans hle₁) hs₁ fun a s₂ x hle₂ hs₂ hx hvx => ?_
    refine hb.step ((hle.trans hle₁).trans hle₂) hs₂ fun b s₃ y hle₃ hs₃ hy hvy => ?_
    refine returns_lowerSort_bind fun hsc => ?_
    have hz' : HasSort z .bool := hsc ▸ hz.sort
    have hz₃ := hz.mono hsink hs₁ hs₃ (hle₂.trans hle₃)
    have hx₃ := hx.mono hsink hs₂ hs₃ hle₃
    cases hsa : a.sort with
    | bool =>
      cases hsb : b.sort with
      | bool =>
        have hx' : HasSort x .bool := hsa ▸ hx.sort
        have hy' : HasSort y .bool := hsb ▸ hy.sort
        refine (hsink.boolIte hz₃.denotes hx₃.denotes hy.denotes hz' hx' hy').step hs₃
          fun n s₄ _ hs₄ hn => ?_
        refine returns_means hs₄ hn (fun ρ => sortOf_ite (hx' ρ) (hy' ρ)) fun ρ => ?_
        simp [valuesAt, hvz, hvx, hvy, iteValue_eq (hz' ρ) (hx' ρ) (hy' ρ)]
      | bv w => exact returns_invalid
    | bv w₁ =>
      cases hsb : b.sort with
      | bool => exact returns_invalid
      | bv w₂ =>
        dsimp only
        split
        · rename_i heq
          subst heq
          have hx' : HasSort x (.bv w₁) := hsa ▸ hx.sort
          have hy' : HasSort y (.bv w₁) := hsb ▸ hy.sort
          refine (hsink.bvIte w₁ hz₃.denotes hx₃.denotes hy.denotes hz' hx' hy').step hs₃
            fun n s₄ _ hs₄ hn => ?_
          refine returns_means hs₄ hn (fun ρ => sortOf_ite (hx' ρ) (hy' ρ)) fun ρ => ?_
          simp [valuesAt, hvz, hvx, hvy, iteValue_eq (hz' ρ) (hx' ρ) (hy' ρ)]
        · exact returns_invalid

/-! ## Folds -/

/-- The values of the arguments as one list of meanings. -/
theorem valuesAt_cons {v : Assignment → Option Value} {vs : List (Assignment → Option Value)}
    {x : Meaning} {xs : List Meaning} (hv : ∀ ρ, v ρ = some (x ρ))
    (hvs : ∀ ρ, valuesAt vs ρ = some (xs.map (· ρ))) (ρ : Assignment) :
    valuesAt (v :: vs) ρ = some ((x :: xs).map (· ρ)) := by
  simp [valuesAt, hv, hvs]

theorem length_valuesAt {vs : List (Assignment → Option Value)} {ρ : Assignment}
    {ys : List Value} (h : valuesAt vs ρ = some ys) : ys.length = vs.length := by
  induction vs generalizing ys with
  | nil =>
    obtain rfl := Option.some.inj h
    rfl
  | cons v vs ih =>
    obtain ⟨y, -, h⟩ := Option.bind_eq_some_iff.mp h
    obtain ⟨rest, hrest, h⟩ := Option.bind_eq_some_iff.mp h
    obtain rfl := Option.some.inj h
    simp [ih hrest]

/-- A loop whose rounds take the value so far and the next argument, both of sort `sort`. -/
theorem foldl_run {step : LoweredExpr N → Term S N → Term S N} {sort : SmtSort}
    {f : Value → Value → Value} {s₀ : S}
    (hstep : ∀ {s cur x arg v}, s₀ ≤ s → Inv s → Means Denotes s cur x → cur.sort = sort →
      TermMeans Inv Denotes s₀ arg v → Returns (step cur arg) s fun e s' => Inv s' ∧
        e.sort = sort ∧ ∃ y, HasSort y sort ∧ (∀ ρ, v ρ = some (y ρ)) ∧
        Means Denotes s' e fun ρ => f (x ρ) (y ρ))
    {terms : List (Term S N)} {vs : List (Assignment → Option Value)}
    (h : List.Forall₂ (TermMeans Inv Denotes s₀) terms vs) {s : S} {cur : LoweredExpr N}
    {x : Meaning} (hle : s₀ ≤ s) (hs : Inv s) (hx : Means Denotes s cur x)
    (hsort : cur.sort = sort) :
    Returns (terms.foldlM step cur) s fun e s' => Inv s' ∧ e.sort = sort ∧ ∃ xs : List Meaning,
      (∀ y ∈ xs, HasSort y sort) ∧ (∀ ρ, valuesAt vs ρ = some (xs.map (· ρ))) ∧
      Means Denotes s' e fun ρ => (xs.map (· ρ)).foldl f (x ρ) := by
  induction h generalizing s cur x with
  | nil => exact returns_pure ⟨hs, hsort, [], by simp, fun ρ => rfl, hx⟩
  | cons ha _ ih =>
    rw [List.foldlM_cons]
    refine (hstep hle hs hx hsort ha).bind fun e s₁ hle₁ ⟨hs₁, hes, y, hy, hvy, he⟩ => ?_
    refine (ih (hle.trans hle₁) hs₁ he hes).mono fun e' s' _ ⟨hs', hes', xs, hxs, hvs, he'⟩ => ?_
    refine ⟨hs', hes', y :: xs, ?_, valuesAt_cons hvy hvs, he'⟩
    exact List.forall_mem_cons.mpr ⟨hy, hxs⟩

theorem foldBool_means (hsink : sink.Correct Inv Denotes) {op : N → N → SinkM S N}
    {f : Value → Value → Value} {identity : Bool} (hop : Binary Inv Denotes op .bool f)
    (hf : ∀ u v, sortOf (f u v) = .bool)
    (hid : ∀ v, sortOf v = .bool → f (.bool identity) v = v) :
    OperatorMeans Inv Denotes (foldBool sink identity op) (foldBools identity f) := by
  intro s₀ terms vs h s hle hs
  match terms, vs, h with
  | [], _, .nil =>
    refine hsink.boolConst.step hs fun n s₁ _ hs₁ hn => ?_
    exact returns_means hs₁ hn (fun ρ => rfl) fun ρ => rfl
  | first :: rest, _, .cons ha hrest =>
    refine ha.step hle hs fun cur s₁ x hle₁ hs₁ hx hvx => ?_
    refine returns_lowerSort_bind fun hsort => ?_
    have hx' : HasSort x .bool := hsort ▸ hx.sort
    refine (foldl_run (f := f) ?_ hrest (hle.trans hle₁) hs₁ hx hsort).mono ?_
    · intro s cur x arg v hle hs hx hcur harg
      refine harg.step hle hs fun next s' y hle' hs' hy hvy => ?_
      refine returns_lowerSort_bind fun hnext => ?_
      have hx' : HasSort x .bool := hcur ▸ hx.sort
      have hy' : HasSort y .bool := hnext ▸ hy.sort
      refine (hop (hx.mono hsink hs hs' hle').denotes hy.denotes hx' hy').step hs'
        fun n s'' _ hs'' hn => ?_
      exact returns_pure ⟨hs'', rfl, y, hy', hvy, hn, fun ρ => hf _ _⟩
    · rintro e s' - ⟨hs', -, xs, hxs, hvs, he⟩
      refine ⟨hs', _, he, fun ρ => ?_⟩
      dsimp only
      rw [valuesAt_cons hvx hvs, Option.bind_some, foldBools, if_pos, List.map_cons, List.foldl_cons,
        hid _ (hx' ρ)]
      simp only [List.map_cons, List.all_cons, hx' ρ, List.all_map, decide_true, Bool.true_and,
        List.all_eq_true, Function.comp_apply, decide_eq_true_eq]
      exact fun y hy => hxs y hy ρ

theorem foldBv_means (hsink : sink.Correct Inv Denotes) {op : N → N → SinkM S N}
    {f : Value → Value → Value} (hop : ∀ w, Binary Inv Denotes op (.bv w) f)
    (hf : ∀ u v, sortOf (f u v) = .bv u.width) :
    OperatorMeans Inv Denotes (foldBv op) (foldBvs f) := by
  intro s₀ terms vs h s hle hs
  match terms, vs, h with
  | [], _, .nil => exact returns_fail
  | first :: rest, _, .cons ha hrest =>
    refine ha.step hle hs fun cur s₁ x hle₁ hs₁ hx hvx => ?_
    cases hsort : cur.sort with
    | bool => exact returns_invalid
    | bv w =>
      have hx' : HasSort x (.bv w) := hsort ▸ hx.sort
      refine (foldl_run (f := f) ?_ hrest (hle.trans hle₁) hs₁ hx hsort).mono ?_
      · intro s cur x arg v hle hs hx hcur harg
        refine harg.step hle hs fun next s' y hle' hs' hy hvy => ?_
        refine (binaryBvBindings_run hop hs' (hx.mono hsink hs hs' hle') hy).mono ?_
        rintro e s'' - ⟨hs'', w', hwc, hwn, hwe, hn⟩
        obtain rfl : w = w' := by simpa using hcur.symm.trans hwc
        have hx' : HasSort x (.bv w) := hwc ▸ hx.sort
        refine ⟨hs'', hwe, y, hwn ▸ hy.sort, hvy, hn, fun ρ => ?_⟩
        rw [hf, width_of_sortOf (hx' ρ), hwe]
      · rintro e s' - ⟨hs', -, xs, hxs, hvs, he⟩
        refine ⟨hs', _, he, fun ρ => ?_⟩
        dsimp only
        rw [valuesAt_cons hvx hvs, Option.bind_some, List.map_cons, foldBvs_eq (hx' ρ)]
        intro v hv
        obtain ⟨y, hy, rfl⟩ := List.mem_map.mp hv
        exact hxs y hy ρ

theorem sortOf_foldBvs {f : Value → Value → Value} (hf : ∀ u v, sortOf (f u v) = .bv u.width)
    {vs : List Value} {v : Value} (h : foldBvs f vs = some v) : ∃ w, sortOf v = .bv w := by
  unfold foldBvs at h
  split at h
  · split at h
    · rename_i w x rest _
      obtain rfl := Option.some.inj h
      clear h
      induction rest using List.reverseRecOn with
      | nil => exact ⟨w, rfl⟩
      | append_singleton rest u _ =>
        rw [List.foldl_append]
        exact ⟨_, hf _ _⟩
    · simp at h
  · simp at h

theorem invertedFoldBv_means (hsink : sink.Correct Inv Denotes) {op : N → N → SinkM S N}
    {f : Value → Value → Value} (hop : ∀ w, Binary Inv Denotes op (.bv w) f)
    (hf : ∀ u v, sortOf (f u v) = .bv u.width) :
    OperatorMeans Inv Denotes (invertedFoldBv sink op) (foldBvsNot f) := by
  intro s₀ terms vs h
  have hfold := foldBv_means hsink hop hf h
  intro s hle hs
  refine hfold.step hle hs fun e s₁ x _ hs₁ hx hv => ?_
  -- the fold has a width of its own under every assignment, and it is the reported one
  have hwidth : ∀ ρ, ∃ w, sortOf (x ρ) = .bv w := by
    intro ρ
    obtain ⟨args, -, hfold⟩ := Option.bind_eq_some_iff.mp (hv ρ)
    exact sortOf_foldBvs hf hfold
  cases hsort : e.sort with
  | bool =>
    obtain ⟨w, hw⟩ := hwidth default
    have hx' := hx.sort default
    rw [hw, hsort] at hx'
    simp at hx'
  | bv w =>
    have hx' : HasSort x (.bv w) := hsort ▸ hx.sort
    refine (hsink.bvNot w hx.denotes hx').step hs₁ fun n s₂ _ hs₂ hn => ?_
    refine returns_means hs₂ hn (fun ρ => ?_) fun ρ => ?_
    · rw [Smt.bvnot, Value.map, sortOf, width_of_sortOf (hx' ρ)]
    · obtain ⟨args, hargs, hfold⟩ := Option.bind_eq_some_iff.mp (hv ρ)
      rw [hargs, Option.bind_some, foldBvsNot, hfold, Option.map_some]

/-! ## Equality -/

theorem equalityNode_run (hsink : sink.Correct Inv Denotes) {context : String} {s : S}
    {a b : LoweredExpr N} {x y : Meaning} (hs : Inv s) (hx : Means Denotes s a x)
    (hy : Means Denotes s b y) :
    Returns (equalityNode sink context a b) s fun n s' => Inv s' ∧ a.sort = b.sort ∧
      Denotes s' n fun ρ => .bool (decide (x ρ = y ρ)) := by
  unfold equalityNode
  cases ha : a.sort with
  | bool =>
    cases hb : b.sort with
    | bool =>
      have hx' : HasSort x .bool := ha ▸ hx.sort
      have hy' : HasSort y .bool := hb ▸ hy.sort
      refine (hsink.boolEq hx.denotes hy.denotes hx' hy' hs).mapErr.mono ?_
      rintro n s' - ⟨hs', hn⟩
      rw [funext fun ρ => iff_eq (hx' ρ) (hy' ρ)] at hn
      exact ⟨hs', rfl, hn⟩
    | bv w => exact returns_invalid
  | bv w₁ =>
    cases hb : b.sort with
    | bool => exact returns_invalid
    | bv w₂ =>
      dsimp only
      split
      · rename_i heq
        subst heq
        have hx' : HasSort x (.bv w₁) := ha ▸ hx.sort
        have hy' : HasSort y (.bv w₁) := hb ▸ hy.sort
        refine (hsink.bvEq w₁ hx.denotes hy.denotes hx' hy' hs).mapErr.mono ?_
        rintro n s' - ⟨hs', hn⟩
        rw [funext fun ρ => bveq_eq (hx' ρ) (hy' ρ)] at hn
        exact ⟨hs', rfl, hn⟩
      · exact returns_invalid

theorem equalsStep_run (hsink : sink.Correct Inv Denotes) {s₀ s : S} {arg : Term S N}
    {v : Assignment → Option Value} {n : N} {e : LoweredExpr N} {b : Assignment → Bool}
    {x : Meaning} (harg : TermMeans Inv Denotes s₀ arg v) (hle : s₀ ≤ s) (hs : Inv s)
    (hn : Denotes s n fun ρ => .bool (b ρ)) (hx : Means Denotes s e x) :
    Returns (equalsStep sink (n, e) arg) s fun r s' => Inv s' ∧ e.sort = r.2.sort ∧
      ∃ y : Meaning, (∀ ρ, v ρ = some (y ρ)) ∧ Means Denotes s' r.2 y ∧
        Denotes s' r.1 fun ρ => .bool (b ρ && decide (x ρ = y ρ)) := by
  refine harg.step hle hs fun next s₁ y hle₁ hs₁ hy hvy => ?_
  have hx₁ := hx.mono hsink hs hs₁ hle₁
  refine (equalityNode_run hsink hs₁ hx₁ hy).bind fun eq s₂ hle₂ ⟨hs₂, hsort, heq⟩ => ?_
  have hn₂ := hsink.mono hs hs₂ (hle₁.trans hle₂) hn
  refine (hsink.boolAnd hn₂ heq (fun ρ => rfl) fun ρ => rfl).step hs₂ fun m s₃ hle₃ hs₃ hm => ?_
  exact returns_pure ⟨hs₃, hsort, y, hvy, hy.mono hsink hs₁ hs₃ (hle₂.trans hle₃), hm⟩

/-- The chain over the arguments seen so far, and the last of them. -/
theorem equalsLoop_run (hsink : sink.Correct Inv Denotes) {s₀ : S} {terms : List (Term S N)}
    {vs : List (Assignment → Option Value)}
    (h : List.Forall₂ (TermMeans Inv Denotes s₀) terms vs) {s : S} {n : N} {e : LoweredExpr N}
    {b : Assignment → Bool} {x : Meaning} (hle : s₀ ≤ s) (hs : Inv s)
    (hn : Denotes s n fun ρ => .bool (b ρ)) (hx : Means Denotes s e x) :
    Returns (terms.foldlM (equalsStep sink) (n, e)) s fun r s' => Inv s' ∧
      ∃ xs : List Meaning, (∀ y ∈ xs, HasSort y e.sort) ∧
        (∀ ρ, valuesAt vs ρ = some (xs.map (· ρ))) ∧
        Denotes s' r.1 fun ρ => .bool (b ρ && decide ((x ρ :: xs.map (· ρ)).IsChain (· = ·))) := by
  induction h generalizing s n e b x with
  | nil => exact returns_pure ⟨hs, [], by simp, fun ρ => rfl, by simpa using hn⟩
  | cons ha _ ih =>
    rw [List.foldlM_cons]
    refine (equalsStep_run hsink ha hle hs hn hx).bind ?_
    rintro ⟨m, next⟩ s₁ hle₁ ⟨hs₁, hsort, y, hvy, hy, hm⟩
    refine (ih (hle.trans hle₁) hs₁ hm hy).mono ?_
    rintro r s' - ⟨hs', xs, hxs, hvs, hr⟩
    refine ⟨hs', y :: xs, ?_, valuesAt_cons hvy hvs, ?_⟩
    · rw [List.forall_mem_cons, hsort]
      exact ⟨hy.sort, hxs⟩
    · simpa [Bool.and_assoc, List.isChain_cons_cons] using hr

theorem sameSorts_of_forall {sort : SmtSort} {v w : Value} {vs : List Value}
    (hv : sortOf v = sort) (hvs : ∀ u ∈ w :: vs, sortOf u = sort) : sameSorts (v :: w :: vs) := by
  rw [sameSorts, List.all_eq_true]
  intro u hu
  simp [hvs u hu, hv]

theorem equals_means (hsink : sink.Correct Inv Denotes) :
    OperatorMeans Inv Denotes (equals sink) chainable := by
  intro s₀ terms vs h s hle hs
  match terms, vs, h with
  | [], _, _ => exact returns_fail
  | [_], _, _ => exact returns_fail
  | first :: second :: rest, v :: w :: vs, .cons ha hrest =>
    refine hsink.boolConst.step hs fun n s₁ hle₁ hs₁ hn => ?_
    refine ha.step (hle.trans hle₁) hs₁ fun e s₂ x hle₂ hs₂ hx hvx => ?_
    have hn₂ := hsink.mono hs₁ hs₂ hle₂ hn
    refine (equalsLoop_run hsink hrest ((hle.trans hle₁).trans hle₂) hs₂ hn₂ hx).bind ?_
    rintro ⟨r, last⟩ s₃ - ⟨hs₃, xs, hxs, hvs, hr⟩
    refine returns_means hs₃ hr (fun ρ => rfl) fun ρ => ?_
    rw [valuesAt_cons hvx hvs, Option.bind_some, chainable, if_pos, List.map_cons, Bool.true_and]
    match xs, hvs, hxs with
    | [], hvs, _ => simpa using length_valuesAt (hvs ρ)
    | y :: xs, _, hxs =>
      refine sameSorts_of_forall (hx.sort ρ) fun u hu => ?_
      obtain ⟨z, hz, rfl⟩ := List.mem_map.mp (by simpa using hu : u ∈ (y :: xs).map (· ρ))
      exact hxs z hz ρ

/-- Lowering the arguments of `distinct` first. -/
theorem mapM_run (hsink : sink.Correct Inv Denotes) {s₀ : S} {terms : List (Term S N)}
    {vs : List (Assignment → Option Value)}
    (h : List.Forall₂ (TermMeans Inv Denotes s₀) terms vs) {s : S} (hle : s₀ ≤ s) (hs : Inv s) :
    Returns (terms.mapM id) s fun es s' => Inv s' ∧ ∃ xs : List Meaning,
      List.Forall₂ (Means Denotes s') es xs ∧ ∀ ρ, valuesAt vs ρ = some (xs.map (· ρ)) := by
  induction h generalizing s with
  | nil => exact returns_pure ⟨hs, [], .nil, fun ρ => rfl⟩
  | cons ha _ ih =>
    rw [List.mapM_cons]
    refine ha.step hle hs fun e s₁ x hle₁ hs₁ hx hvx => ?_
    refine (ih (hle.trans hle₁) hs₁).bind ?_
    rintro es s₂ hle₂ ⟨hs₂, xs, hxs, hvs⟩
    exact returns_pure ⟨hs₂, x :: xs, .cons (hx.mono hsink hs₁ hs₂ hle₂) hxs, valuesAt_cons hvx hvs⟩

theorem orderedPairs_map {α β : Type} (f : α → β) (xs : List α) :
    orderedPairs (xs.map f) = (orderedPairs xs).map fun p => (f p.1, f p.2) := by
  induction xs with
  | nil => rfl
  | cons x xs ih => simp [orderedPairs, ih, Function.comp_def]

theorem pairwise_iff_orderedPairs {α : Type} {R : α → α → Prop} {xs : List α} :
    xs.Pairwise R ↔ ∀ p ∈ orderedPairs xs, R p.1 p.2 := by
  induction xs with
  | nil => simp [orderedPairs]
  | cons x xs ih => simp [orderedPairs, ih, List.pairwise_cons, or_imp, forall_and]

theorem forall₂_orderedPairs {α β : Type} {R : α → β → Prop} {xs : List α} {ys : List β}
    (h : List.Forall₂ R xs ys) :
    List.Forall₂ (fun p q => R p.1 q.1 ∧ R p.2 q.2) (orderedPairs xs) (orderedPairs ys) := by
  induction h with
  | nil => exact .nil
  | cons hx hxs ih =>
    refine List.rel_append ?_ ih
    clear ih
    induction hxs with
    | nil => exact .nil
    | cons hy _ ih => exact .cons ⟨hx, hy⟩ ih

theorem forall₂_mem_right {α β : Type} {R : α → β → Prop} {xs : List α} {ys : List β}
    (h : List.Forall₂ R xs ys) {y : β} (hy : y ∈ ys) : ∃ x ∈ xs, R x y := by
  induction h with
  | nil => simp at hy
  | cons hx _ ih =>
    rcases List.mem_cons.mp hy with rfl | hy
    · exact ⟨_, List.mem_cons_self, hx⟩
    · obtain ⟨x, hmem, hxy⟩ := ih hy
      exact ⟨x, List.mem_cons_of_mem _ hmem, hxy⟩

/-- The conjunction over the pairs compared so far. -/
theorem distinctLoop_run (hsink : sink.Correct Inv Denotes)
    {pairs : List (LoweredExpr N × LoweredExpr N)} {qs : List (Meaning × Meaning)} {s : S} {n : N}
    {b : Assignment → Bool} (hs : Inv s) (hn : Denotes s n fun ρ => .bool (b ρ))
    (h : List.Forall₂ (fun p q => Means Denotes s p.1 q.1 ∧ Means Denotes s p.2 q.2) pairs qs) :
    Returns (pairs.foldlM (distinctStep sink) n) s fun r s' => Inv s' ∧
      (∀ p ∈ pairs, p.1.sort = p.2.sort) ∧
      Denotes s' r fun ρ => .bool (b ρ && qs.all fun q => decide (q.1 ρ ≠ q.2 ρ)) := by
  induction pairs generalizing s n b qs with
  | nil =>
    cases h
    exact returns_pure ⟨hs, by simp, by simpa using hn⟩
  | cons p pairs ih =>
    cases h with
    | cons hp hpairs =>
      rename_i q qs
      rw [List.foldlM_cons]
      refine Returns.bind (P := fun r s' => Inv s' ∧ p.1.sort = p.2.sort ∧
        Denotes s' r fun ρ => .bool (b ρ && decide (q.1 ρ ≠ q.2 ρ))) ?_ ?_
      · refine (equalityNode_run hsink hs hp.1 hp.2).bind fun eq s₁ hle₁ ⟨hs₁, hsort, heq⟩ => ?_
        refine (hsink.boolNot heq fun ρ => rfl).step hs₁ fun ne s₂ hle₂ hs₂ hne => ?_
        have hn₂ := hsink.mono hs hs₂ (hle₁.trans hle₂) hn
        refine (hsink.boolAnd hn₂ hne (fun ρ => rfl) (fun ρ => rfl) hs₂).mapErr.mono ?_
        rintro r s₃ - ⟨hs₃, hr⟩
        refine ⟨hs₃, hsort, ?_⟩
        simpa [Smt.and, Smt.not] using hr
      · rintro r s₁ hle₁ ⟨hs₁, hsort, hr⟩
        have hpairs₁ : List.Forall₂
            (fun p q => Means Denotes s₁ p.1 q.1 ∧ Means Denotes s₁ p.2 q.2) pairs qs :=
          hpairs.imp fun _ _ hq => ⟨hq.1.mono hsink hs hs₁ hle₁, hq.2.mono hsink hs hs₁ hle₁⟩
        refine (ih hs₁ hr hpairs₁).mono ?_
        rintro r' s' - ⟨hs', hsorts, hr'⟩
        refine ⟨hs', List.forall_mem_cons.mpr ⟨hsort, hsorts⟩, ?_⟩
        simpa [Bool.and_assoc] using hr'

theorem distinct_means (hsink : sink.Correct Inv Denotes) :
    OperatorMeans Inv Denotes (distinct sink) pairwise := by
  intro s₀ terms vs h s hle hs
  unfold distinct
  split
  · exact returns_invalid
  · rename_i hlen
    refine (mapM_run hsink h hle hs).bind fun es s₁ hle₁ ⟨hs₁, xs, hxs, hvs⟩ => ?_
    refine hsink.boolConst.step hs₁ fun n s₂ hle₂ hs₂ hn => ?_
    have hxs₂ : List.Forall₂ (Means Denotes s₂) es xs :=
      hxs.imp fun _ _ he => he.mono hsink hs₁ hs₂ hle₂
    refine (distinctLoop_run hsink hs₂ hn (forall₂_orderedPairs hxs₂)).bind ?_
    rintro r s₃ - ⟨hs₃, hsorts, hr⟩
    refine returns_means hs₃ hr (fun ρ => rfl) fun ρ => ?_
    have hval : ((orderedPairs xs).all fun q => decide (q.1 ρ ≠ q.2 ρ)) =
        decide ((xs.map (· ρ)).Pairwise (· ≠ ·)) := by
      rw [Bool.eq_iff_iff, decide_eq_true_iff, pairwise_iff_orderedPairs, orderedPairs_map,
        List.all_eq_true, List.forall_mem_map]
      simp only [decide_eq_true_eq]
    have hsame : sameSorts (xs.map (· ρ)) := by
      have hcount : xs.length = terms.length := by
        rw [h.length_eq, ← length_valuesAt (hvs ρ), List.length_map]
      match es, xs, hxs₂, hsorts, hcount with
      | [], _, .nil, _, hcount =>
        have : terms.length = 0 := hcount.symm
        omega
      | [_], _, .cons _ .nil, _, hcount =>
        have : terms.length = 1 := by simpa using hcount.symm
        omega
      | e :: e' :: es, x :: x' :: xs, .cons hx hrest, hsorts, _ =>
        refine sameSorts_of_forall (hx.sort ρ) fun u hu => ?_
        obtain ⟨z, hz, rfl⟩ := List.mem_map.mp (show u ∈ (x' :: xs).map (· ρ) from hu)
        obtain ⟨d, hd, hdz⟩ := forall₂_mem_right hrest hz
        rw [hsorts (e, d) (List.mem_append_left _ (List.mem_map_of_mem hd))]
        exact hdz.sort ρ
    rw [hvs, Option.bind_some, pairwise, if_pos hsame, hval, Bool.true_and]

/-! ## The tables -/

/-- Row by row, the operator of the lowering computes the operation of the theory. -/
theorem operators_mean (h : sink.Correct Inv Denotes) :
    List.Forall₂ (fun o t => o.1 = t.1 ∧ OperatorMeans Inv Denotes o.2 t.2)
      (operators sink) theory := by
  have cmp : ∀ {op f}, (∀ w, Binary Inv Denotes op (.bv w) f) → (∀ u v, sortOf (f u v) = .bool) →
      OperatorMeans Inv Denotes (overflowCmp op) (onBvs f) := fun hop hf => bvCmp_means h hop hf
  refine .cons ⟨rfl, iteExpr_means h⟩ <| .cons ⟨rfl, equals_means h⟩ <|
    .cons ⟨rfl, distinct_means h⟩ <| .cons ⟨rfl, unaryBool_means h.boolNot fun _ => rfl⟩ <|
    .cons ⟨rfl, foldBool_means h h.boolAnd (fun _ _ => rfl) ?and⟩ <|
    .cons ⟨rfl, foldBool_means h h.boolOr (fun _ _ => rfl) ?or⟩ <|
    .cons ⟨rfl, binaryBool_means h h.boolImplies fun _ _ => rfl⟩ <|
    .cons ⟨rfl, binaryBool_means h (f := fun a b => Smt.not (Smt.iff a b)) h.boolXor fun _ _ => rfl⟩ <|
    .cons ⟨rfl, unaryBv_means h.bvNot fun _ => rfl⟩ <|
    .cons ⟨rfl, unaryBv_means h.bvNeg fun _ => rfl⟩ <|
    .cons ⟨rfl, foldBv_means h h.bvAnd fun _ _ => rfl⟩ <|
    .cons ⟨rfl, invertedFoldBv_means h h.bvAnd fun _ _ => rfl⟩ <|
    .cons ⟨rfl, foldBv_means h h.bvOr fun _ _ => rfl⟩ <|
    .cons ⟨rfl, invertedFoldBv_means h h.bvOr fun _ _ => rfl⟩ <|
    .cons ⟨rfl, foldBv_means h h.bvXor fun _ _ => rfl⟩ <|
    .cons ⟨rfl, invertedFoldBv_means h h.bvXor fun _ _ => rfl⟩ <|
    .cons ⟨rfl, foldBv_means h h.bvAdd fun _ _ => rfl⟩ <|
    .cons ⟨rfl, binaryBv_means h h.bvSub fun _ _ => rfl⟩ <|
    .cons ⟨rfl, foldBv_means h h.bvMul fun _ _ => rfl⟩ <|
    .cons ⟨rfl, binaryBv_means h h.bvUdiv fun _ _ => rfl⟩ <|
    .cons ⟨rfl, binaryBv_means h h.bvUrem fun _ _ => rfl⟩ <|
    .cons ⟨rfl, binaryBv_means h h.bvSdiv fun _ _ => rfl⟩ <|
    .cons ⟨rfl, binaryBv_means h h.bvSrem fun _ _ => rfl⟩ <|
    .cons ⟨rfl, binaryBv_means h h.bvSmod fun _ _ => rfl⟩ <|
    .cons ⟨rfl, binaryBv_means h h.bvShl fun _ _ => rfl⟩ <|
    .cons ⟨rfl, binaryBv_means h h.bvLshr fun _ _ => rfl⟩ <|
    .cons ⟨rfl, binaryBv_means h h.bvAshr fun _ _ => rfl⟩ <|
    .cons ⟨rfl, bvcomp_means h⟩ <| .cons ⟨rfl, concat_means h⟩ <|
    .cons ⟨rfl, bvCmp_means h h.bvUlt fun _ _ => rfl⟩ <|
    .cons ⟨rfl, bvCmp_means h h.bvUle fun _ _ => rfl⟩ <|
    .cons ⟨rfl, bvCmp_means h (binary_swap h.bvUlt) fun _ _ => rfl⟩ <|
    .cons ⟨rfl, bvCmp_means h (binary_swap h.bvUle) fun _ _ => rfl⟩ <|
    .cons ⟨rfl, bvCmp_means h h.bvSlt fun _ _ => rfl⟩ <|
    .cons ⟨rfl, bvCmp_means h h.bvSle fun _ _ => rfl⟩ <|
    .cons ⟨rfl, bvCmp_means h (binary_swap h.bvSlt) fun _ _ => rfl⟩ <|
    .cons ⟨rfl, bvCmp_means h (binary_swap h.bvSle) fun _ _ => rfl⟩ <|
    .cons ⟨rfl, cmp h.uaddOvf fun _ _ => rfl⟩ <| .cons ⟨rfl, cmp h.uaddOvf fun _ _ => rfl⟩ <|
    .cons ⟨rfl, cmp h.saddOvf fun _ _ => rfl⟩ <| .cons ⟨rfl, cmp h.saddOvf fun _ _ => rfl⟩ <|
    .cons ⟨rfl, cmp h.usubOvf fun _ _ => rfl⟩ <| .cons ⟨rfl, cmp h.usubOvf fun _ _ => rfl⟩ <|
    .cons ⟨rfl, cmp h.ssubOvf fun _ _ => rfl⟩ <| .cons ⟨rfl, cmp h.ssubOvf fun _ _ => rfl⟩ <|
    .cons ⟨rfl, cmp h.umulOvf fun _ _ => rfl⟩ <| .cons ⟨rfl, cmp h.umulOvf fun _ _ => rfl⟩ <|
    .cons ⟨rfl, cmp h.smulOvf fun _ _ => rfl⟩ <| .cons ⟨rfl, cmp h.smulOvf fun _ _ => rfl⟩ <|
    .cons ⟨rfl, cmp h.sdivOvf fun _ _ => rfl⟩ <| .cons ⟨rfl, cmp h.sdivOvf fun _ _ => rfl⟩ <|
    .cons ⟨rfl, unaryOverflow_means h.negOvf fun _ => rfl⟩ <|
    .cons ⟨rfl, unaryOverflow_means h.negOvf fun _ => rfl⟩ .nil
  case and =>
    intro v hv
    cases v with
    | bool b => rfl
    | bv w x => simp [sortOf] at hv
  case or =>
    intro v hv
    cases v with
    | bool b => rfl
    | bv w x => simp [sortOf] at hv

/-- Looking a name up in two tables of the same names. -/
theorem lookup_forall₂ {α β : Type} {R : α → β → Prop} {xs : NameMap α} {ys : NameMap β}
    (h : List.Forall₂ (fun x y => x.1 = y.1 ∧ R x.2 y.2) xs ys) (name : String) :
    (xs.lookup name = none ∧ ys.lookup name = none) ∨
      ∃ a b, xs.lookup name = some a ∧ ys.lookup name = some b ∧ R a b := by
  induction h with
  | nil => exact .inl ⟨rfl, rfl⟩
  | @cons x y xs ys hxy _ ih =>
    obtain ⟨n, a⟩ := x
    obtain ⟨m, b⟩ := y
    obtain ⟨rfl, hab⟩ := hxy
    rw [List.lookup_cons, List.lookup_cons]
    by_cases hn : name == n
    · simp only [hn]
      exact .inr ⟨a, b, rfl, rfl, hab⟩
    · simp only [hn]
      exact ih

/-! ## Indexed operators -/

theorem extractOp_means (hsink : sink.Correct Inv Denotes) {high low : SExpr} {s₀ : S}
    {terms : List (Term S N)} {vs : List (Assignment → Option Value)}
    (h : List.Forall₂ (TermMeans Inv Denotes s₀) terms vs) :
    TermMeans Inv Denotes s₀ (extractOp sink high low terms) fun ρ =>
      (valuesAt vs ρ).bind (indexedValue [.atom "_", .atom "extract", high, low]) := by
  intro s hle hs
  match terms, vs, h with
  | [], _, _ => exact returns_fail
  | _ :: _ :: _, _, _ => exact returns_fail
  | [_], _, .cons ha .nil =>
    refine returns_lift_bind fun hi hhi => returns_lift_bind fun lo hlo => ?_
    obtain ⟨high, rfl, hhigh⟩ := parseU32Atom_eq_ok hhi
    obtain ⟨low, rfl, hlow⟩ := parseU32Atom_eq_ok hlo
    refine ha.step hle hs fun e s₁ x hle₁ hs₁ hx hvx => ?_
    cases hsort : e.sort with
    | bool => exact returns_invalid
    | bv w =>
      have hx' : HasSort x (.bv w) := hsort ▸ hx.sort
      refine returns_lift_bind fun width hwidth => ?_
      split at hwidth
      · rename_i hbounds
        obtain rfl := Outcome.ok.inj hwidth
        refine Returns.bind (hsink.bvExtract hx.denotes hx' hbounds.1 hs₁).mapErr ?_
        rintro n s₂ - ⟨hlt, hs₂, hn⟩
        refine returns_means hs₂ hn (fun ρ => rfl) fun ρ => ?_
        simp only [valuesAt, hvx, indexedValue, hhigh, hlow, Option.bind_eq_bind, Option.bind_some]
        exact extractValue_eq (hx' ρ) hbounds.1 hlt
      · simp at hwidth

/-- An operator with one index whose result is `f` and has the width `width'`. -/
theorem indexed_run {op : N → SinkM S N} {f : Value → Value} {w width' : Nat} {s : S} {a : N}
    {x : Meaning} {k : N → Term S N} {v : Assignment → Option Value}
    (hop : Unary Inv Denotes op (.bv w) f) (hs : Inv s) (hx : Denotes s a x)
    (hsort : HasSort x (.bv w)) (hf : ∀ u, sortOf u = .bv w → sortOf (f u) = .bv width')
    (hv : ∀ ρ, v ρ = some (f (x ρ)))
    (hk : ∀ n s', Returns (k n) s' fun e s'' => e = ⟨n, .bv width'⟩ ∧ s'' = s') :
    Returns (sinkResult (op a) >>= k) s fun e s' =>
      Inv s' ∧ ∃ x, Means Denotes s' e x ∧ ∀ ρ, v ρ = some (x ρ) := by
  refine (hop hx hsort).step hs fun n s₁ _ hs₁ hn => ?_
  refine (hk n s₁).mono ?_
  rintro e s' - ⟨rfl, rfl⟩
  exact ⟨hs₁, _, ⟨hn, fun ρ => hf _ (hsort ρ)⟩, hv⟩

/-- A width that is checked and then reported. -/
theorem checkedWidth_run {width : Nat} {context : String} (n : N) (s : S) :
    Returns (checkedWidth width context >>= fun w => pure ⟨n, .bv w⟩ : Term S N) s
      fun e s' => e = ⟨n, .bv width⟩ ∧ s' = s := by
  refine returns_lift_bind fun w hw => returns_pure ?_
  split at hw
  · obtain rfl := Outcome.ok.inj hw
    exact ⟨rfl, rfl⟩
  · simp at hw

theorem oneIndexOp_run (hsink : sink.Correct Inv Denotes) {op : String} {amount w : Nat} {s : S}
    {a : N} {x : Meaning} (hs : Inv s) (hx : Denotes s a x) (hsort : HasSort x (.bv w)) :
    Returns (oneIndexOp sink op amount w a) s fun e s' => Inv s' ∧ ∃ y, Means Denotes s' e y ∧
      ∀ ρ, ((indexedTheory amount).lookup op).bind (fun f => f [x ρ]) = some (y ρ) := by
  have done : ∀ {width : Nat} (n : N) (s' : S),
      Returns (pure ⟨n, .bv width⟩ : Term S N) s' fun e s'' => e = ⟨n, .bv width⟩ ∧ s'' = s' :=
    fun n s' => returns_pure ⟨rfl, rfl⟩
  unfold oneIndexOp
  split
  · refine indexed_run (hsink.bvZext amount w) hs hx hsort (fun u hu => ?_) (fun ρ => ?_)
      checkedWidth_run
    · rw [Smt.zeroExtend, sortOf, width_of_sortOf hu]
    · exact onBv_eq (hsort ρ)
  · refine indexed_run (hsink.bvSext amount w) hs hx hsort (fun u hu => ?_) (fun ρ => ?_)
      checkedWidth_run
    · rw [Smt.signExtend, sortOf, width_of_sortOf hu]
    · exact onBv_eq (hsort ρ)
  · split
    · exact returns_invalid
    · rename_i hne
      refine indexed_run (hsink.bvRepeat amount w (Nat.pos_of_ne_zero hne)) hs hx hsort
        (fun u hu => ?_) (fun ρ => ?_) checkedWidth_run
      · rw [Smt.repeated, sortOf, width_of_sortOf hu]
      · rw [indexedTheory, if_neg hne]
        exact onBv_eq (hsort ρ)
  · refine indexed_run (hsink.bvRotateLeft amount w) hs hx hsort (fun u hu => ?_) (fun ρ => ?_) done
    · rw [Smt.rotateLeft, Value.map, sortOf, width_of_sortOf hu]
    · exact onBv_eq (hsort ρ)
  · refine indexed_run (hsink.bvRotateRight amount w) hs hx hsort (fun u hu => ?_) (fun ρ => ?_) done
    · rw [Smt.rotateRight, Value.map, sortOf, width_of_sortOf hu]
    · exact onBv_eq (hsort ρ)
  · exact returns_fail

theorem extendOp_means (hsink : sink.Correct Inv Denotes) {op index : SExpr} {s₀ : S}
    {terms : List (Term S N)} {vs : List (Assignment → Option Value)}
    (h : List.Forall₂ (TermMeans Inv Denotes s₀) terms vs) :
    TermMeans Inv Denotes s₀ (extendOp sink op index terms) fun ρ =>
      (valuesAt vs ρ).bind (indexedValue [.atom "_", op, index]) := by
  intro s hle hs
  match terms, vs, h with
  | [], _, _ => exact returns_fail
  | _ :: _ :: _, _, _ => exact returns_fail
  | [_], _, .cons ha .nil =>
    refine returns_lift_bind fun amount hamount => ?_
    obtain ⟨index, rfl, hindex⟩ := parseU32Atom_eq_ok hamount
    refine ha.step hle hs fun e s₁ x hle₁ hs₁ hx hvx => ?_
    cases hsort : e.sort with
    | bool => exact returns_invalid
    | bv w =>
      refine returns_lift_bind fun name hname => ?_
      obtain rfl := atom_eq_ok.mp hname
      refine (oneIndexOp_run hsink hs₁ hx.denotes (hsort ▸ hx.sort)).mono ?_
      rintro e' s' - ⟨hs', y, hy, hv⟩
      refine ⟨hs', y, hy, fun ρ => ?_⟩
      simp only [valuesAt, hvx, indexedValue, hindex, Option.bind_eq_bind, Option.bind_some]
      exact hv ρ

theorem indexedOp_means (hsink : sink.Correct Inv Denotes) (opItems : List SExpr) :
    OperatorMeans Inv Denotes (indexedOp sink opItems) (indexedValue opItems) := by
  intro s₀ terms vs h s hle hs
  unfold indexedOp
  split
  · refine returns_lift_bind fun u hu => ?_
    obtain rfl := atom_eq_ok.mp hu
    split
    · exact returns_fail
    · rename_i hu
      obtain rfl := not_not.mp hu
      refine returns_lift_bind fun e he => ?_
      obtain rfl := atom_eq_ok.mp he
      split
      · exact returns_fail
      · rename_i he
        obtain rfl := not_not.mp he
        exact extractOp_means hsink h s hle hs
  · refine returns_lift_bind fun u hu => ?_
    obtain rfl := atom_eq_ok.mp hu
    split
    · exact returns_fail
    · rename_i hu
      obtain rfl := not_not.mp hu
      exact extendOp_means hsink h s hle hs
  · exact returns_fail

end

end Smtlib
end SmtServer
