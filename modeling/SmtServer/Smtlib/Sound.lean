import SmtServer.Smtlib.Operators

/-!
# Lowering keeps the meaning of terms

Over a correct sink, a term that is lowered without an error has a value under every assignment,
the node denotes it and the reported sort is its sort. Nothing is assumed of the term: atoms are
read the frontend's way (`frontendAtom`).

The induction is on the expansions that are left and then on the size of the term. One lemma
stands for each construct that has a scope of its own: a call, whose body sees its parameters and
no other local name, and a `let`, whose bindings are read in the scope around it.
-/

namespace SmtServer
namespace Smtlib

open Lib Grow
open Lib.Smt (Value)

/-! ## Scopes -/

/-- The values of a scope under an assignment. -/
def scopeAt (scope : NameMap Meaning) (ρ : Assignment) : Scope :=
  scope.map fun binding => (binding.1, binding.2 ρ)

theorem lookup_scopeAt (scope : NameMap Meaning) (ρ : Assignment) (name : String) :
    (scopeAt scope ρ).lookup name = (scope.lookup name).map (· ρ) := by
  induction scope with
  | nil => rfl
  | cons binding scope ih =>
    rw [scopeAt, List.map_cons, List.lookup_cons, List.lookup_cons]
    by_cases h : name == binding.1
    · simp only [h, Option.map_some]
    · simp only [h]
      exact ih

theorem names_scopeAt (scope : NameMap Meaning) (ρ : Assignment) :
    (scopeAt scope ρ).map (·.1) = scope.map (·.1) := by
  simp [scopeAt, Function.comp_def]

theorem insertAll_eq {α : Type} (map : NameMap α) (pairs : List (String × α)) :
    map.insertAll pairs = pairs.reverse ++ map := by
  induction pairs generalizing map with
  | nil => rfl
  | cons pair pairs ih =>
    rw [NameMap.insertAll, List.foldl_cons]
    exact (ih (pair :: map)).trans (by simp)

theorem scopeAt_insertAll (scope pairs : NameMap Meaning) (ρ : Assignment) :
    scopeAt (scope.insertAll pairs) ρ = (scopeAt scope ρ).insertAll (scopeAt pairs ρ) := by
  simp [insertAll_eq, scopeAt]

theorem lookup_eq_none {α : Type} {map : NameMap α} {name : String}
    (h : name ∉ map.map (·.1)) : map.lookup name = none := by
  induction map with
  | nil => rfl
  | cons pair map ih =>
    rw [List.map_cons, List.mem_cons, not_or] at h
    rw [List.lookup_cons, beq_eq_false_iff_ne.mpr h.1]
    exact ih h.2

section

variable {S N : Type} [Preorder S] {Inv : S → Prop} {Denotes : S → N → Meaning → Prop}
  {sink : Sink S N}

/-- Lowered names and what they stand for. -/
def ScopeMeans (Denotes : S → N → Meaning → Prop) (s : S) (locals : NameMap (LoweredExpr N))
    (scope : NameMap Meaning) : Prop :=
  List.Forall₂ (fun l x => l.1 = x.1 ∧ Means Denotes s l.2 x.2) locals scope

theorem ScopeMeans.mono (hsink : sink.Correct Inv Denotes) {s s' : S}
    {locals : NameMap (LoweredExpr N)} {scope : NameMap Meaning} (hs : Inv s) (hs' : Inv s')
    (hle : s ≤ s') (h : ScopeMeans Denotes s locals scope) : ScopeMeans Denotes s' locals scope :=
  h.imp fun _ _ hx => ⟨hx.1, hx.2.mono hsink hs hs' hle⟩

theorem ScopeMeans.insertAll {s : S} {locals pairs : NameMap (LoweredExpr N)}
    {scope bound : NameMap Meaning} (h : ScopeMeans Denotes s locals scope)
    (hp : ScopeMeans Denotes s pairs bound) :
    ScopeMeans Denotes s (locals.insertAll pairs) (scope.insertAll bound) := by
  rw [insertAll_eq, insertAll_eq]
  exact List.rel_append (List.rel_reverse hp) h

theorem ScopeMeans.names {s : S} {locals : NameMap (LoweredExpr N)} {scope : NameMap Meaning}
    (h : ScopeMeans Denotes s locals scope) : locals.map (·.1) = scope.map (·.1) := by
  induction h with
  | nil => rfl
  | cons hx _ ih => rw [List.map_cons, List.map_cons, hx.1, ih]

theorem TermMeans.mono_start {s₀ s₁ : S} {m : Term S N} {v : Assignment → Option Value}
    (h : TermMeans Inv Denotes s₀ m v) (hle : s₀ ≤ s₁) : TermMeans Inv Denotes s₁ m v :=
  fun s hle' hs => h s (hle.trans hle') hs

/-! ## Atoms -/

theorem literalDigits_radix {text : String} {digits : List Char} {radix : Nat}
    (h : literalDigits text = some (digits, radix)) : radix = 2 ∨ radix = 16 := by
  unfold literalDigits at h
  split at h
  · exact .inl (Prod.mk.inj (Option.some.inj h)).2.symm
  · obtain ⟨ds, -, hds⟩ := Option.map_eq_some_iff.mp h
    exact .inr (Prod.mk.inj hds).2.symm

/-- A literal that is lowered is the number it spells, at the width that was computed. -/
theorem wrappedLiteral_eq {text : String} {digits : List Char} {radix width : Nat}
    {bytes : List UInt8} (hlit : literalDigits text = some (digits, radix))
    (hwidth : literalWidth digits radix = .ok width)
    (hbytes : literalBytes digits radix width text = .ok bytes) :
    1 ≤ width ∧ width ≤ 65536 ∧ ∃ x : BitVec width, Qfbv.Bytes.Spells bytes x ∧
      wrappedLiteral text = some (.bv width x) := by
  obtain ⟨hw, hw', ds, hds, hspell⟩ := literalBytes_spells (literalDigits_radix hlit) hbytes
  refine ⟨hw, hw', _, hspell, ?_⟩
  simp [wrappedLiteral, hlit, hds, hwidth]

/-- The value of a term, as the frontend reads it. -/
def frontendValue (constants scope : NameMap Meaning) (functions : NameMap FunctionBinding)
    (depth : Nat) (e : SExpr) (ρ : Assignment) : Option Value :=
  termValue (frontendAtom (scopeAt constants ρ)) functions depth e (scopeAt scope ρ)

theorem atomExpr_means (hsink : sink.Correct Inv Denotes) {tables : Tables N}
    {constants scope : NameMap Meaning} {locals : NameMap (LoweredExpr N)} {s₀ : S} {name : String}
    (hs₀ : Inv s₀) (henv : ScopeMeans Denotes s₀ tables.env constants)
    (hscope : ScopeMeans Denotes s₀ locals scope) :
    TermMeans Inv Denotes s₀ (atomExpr sink tables name locals) fun ρ =>
      frontendAtom (scopeAt constants ρ) (scopeAt scope ρ) name := by
  intro s hle hs
  unfold atomExpr frontendAtom
  split
  · refine hsink.boolConst.step hs fun n s₁ _ hs₁ hn => ?_
    exact returns_means hs₁ hn (fun ρ => rfl) fun ρ => rfl
  · split
    · refine hsink.boolConst.step hs fun n s₁ _ hs₁ hn => ?_
      exact returns_means hs₁ hn (fun ρ => rfl) fun ρ => rfl
    · split
      · rename_i digits radix hlit
        refine returns_lift_bind fun width hwidth => returns_lift_bind fun bytes hbytes => ?_
        obtain ⟨hw, hw', x, hspell, hval⟩ := wrappedLiteral_eq hlit hwidth hbytes
        refine (hsink.bvConst hw hw' hspell).step hs fun n s₁ _ hs₁ hn => ?_
        refine returns_means hs₁ hn (fun ρ => rfl) fun ρ => ?_
        simp only [hlit, Option.isSome_some, if_true, hval]
      · rename_i hlit
        simp only [hlit, Option.isSome_none, Bool.false_eq_true, if_false, lookup_scopeAt]
        refine returns_read fun e he => ?_
        have he := Outcome.ofOption_eq_ok.mp he
        -- the innermost scope that has the name, on both sides
        rcases lookup_forall₂ hscope name with ⟨hl, hx⟩ | ⟨a, x, hl, hx, hax⟩
        · rcases lookup_forall₂ henv name with ⟨hl', -⟩ | ⟨a, y, hl', hy, hay⟩
          · simp [hl, hl'] at he
          · obtain rfl : a = e := by simpa [hl, hl'] using he
            refine ⟨hs, y, hay.mono hsink hs₀ hs hle, fun ρ => ?_⟩
            simp [hx, hy]
        · obtain rfl : a = e := by simpa [hl] using he
          refine ⟨hs, x, hax.mono hsink hs₀ hs hle, fun ρ => ?_⟩
          simp [hx]

/-! ## Terms -/

/-- What is to be shown of a term: in every scope, its lowering means its value. -/
def Lowers (sink : Sink S N) (tables : Tables N) (Inv : S → Prop)
    (Denotes : S → N → Meaning → Prop) (constants : NameMap Meaning) (depth : Nat) (e : SExpr) :
    Prop :=
  ∀ ⦃s₀ locals scope⦄, Inv s₀ → ScopeMeans Denotes s₀ tables.env constants →
    ScopeMeans Denotes s₀ locals scope →
      TermMeans Inv Denotes s₀ (lowerTerm sink tables (expansion sink tables depth) e locals)
        (frontendValue constants scope tables.functions depth e)

variable {tables : Tables N} {constants scope : NameMap Meaning} {depth : Nat} {s₀ s : S}
  {locals : NameMap (LoweredExpr N)}

/-- The values of a list of terms, one by one. -/
theorem valuesAt_terms (es : List SExpr) (ρ : Assignment) :
    valuesAt (es.map (frontendValue constants scope tables.functions depth)) ρ =
      values (readingAt (frontendAtom (scopeAt constants ρ)) tables.functions depth) es
        (scopeAt scope ρ) := by
  induction es with
  | nil => rfl
  | cons e es ih =>
    rw [List.map_cons, valuesAt, values, ih]
    rfl

theorem lowerTerms_mean {es : List SExpr}
    (h : ∀ e ∈ es, Lowers sink tables Inv Denotes constants depth e) (hs₀ : Inv s₀)
    (henv : ScopeMeans Denotes s₀ tables.env constants)
    (hscope : ScopeMeans Denotes s₀ locals scope) :
    List.Forall₂ (fun t v => TermMeans Inv Denotes s₀ (t locals) v)
      (lowerTerms sink tables (expansion sink tables depth) es)
      (es.map (frontendValue constants scope tables.functions depth)) := by
  induction es with
  | nil => exact .nil
  | cons e es ih =>
    rw [lowerTerms, List.map_cons]
    refine .cons (h e List.mem_cons_self hs₀ henv hscope) ?_
    exact ih fun e he => h e (List.mem_cons_of_mem _ he)

/-- The arguments of a call, bound to the parameters. -/
theorem bindArgs_run (hsink : sink.Correct Inv Denotes) {params : List (String × SmtSort)}
    {terms : List (ScopedTerm S N)} {vs : List (Assignment → Option Value)}
    {m : NameMap (LoweredExpr N)} {sc : NameMap Meaning}
    (h : List.Forall₂ (fun t v => TermMeans Inv Denotes s₀ (t locals) v) terms vs)
    (hlen : terms.length = params.length) (hle : s₀ ≤ s) (hs : Inv s)
    (hm : ScopeMeans Denotes s m sc) :
    Returns (bindArgs locals params terms m) s fun m' s' => Inv s' ∧ ∃ xs : List Meaning,
      (∀ ρ, valuesAt vs ρ = some (xs.map (· ρ))) ∧
      (∀ ρ, (xs.map (· ρ)).map sortOf = params.map (·.2)) ∧
      ScopeMeans Denotes s' m' (sc.insertAll ((params.map (·.1)).zip xs)) := by
  induction h generalizing s params m sc with
  | nil =>
    obtain rfl := List.length_eq_zero_iff.mp hlen.symm
    exact returns_pure ⟨hs, [], fun ρ => rfl, fun ρ => rfl, hm⟩
  | cons ha _ ih =>
    match params, hlen with
    | (name, sort) :: params, hlen =>
      refine ha.step hle hs fun e s₁ x hle₁ hs₁ hx hvx => ?_
      refine returns_lowerSort_bind fun hsort => ?_
      have hm₁ : ScopeMeans Denotes s₁ ((name, e) :: m) ((name, x) :: sc) :=
        .cons ⟨rfl, hx⟩ (hm.mono hsink hs hs₁ hle₁)
      refine (ih (Nat.succ.inj hlen) (hle.trans hle₁) hs₁ hm₁).mono ?_
      rintro m' s' - ⟨hs', xs, hvs, hsorts, hm'⟩
      refine ⟨hs', x :: xs, valuesAt_cons hvx hvs, fun ρ => ?_, hm'⟩
      rw [List.map_cons, List.map_cons, List.map_cons, hsorts, hx.sort ρ, hsort]

theorem scopeAt_zip (names : List String) (xs : List Meaning) (ρ : Assignment) :
    scopeAt (names.zip xs) ρ = names.zip (xs.map (· ρ)) := by
  induction names generalizing xs with
  | nil => rfl
  | cons name names ih =>
    cases xs with
    | nil => rfl
    | cons x xs => simpa [scopeAt] using ih xs

/-- A call means the body, where only the parameters are bound. -/
theorem functionCall_means (hsink : sink.Correct Inv Denotes) (name : String)
    (function : FunctionBinding) {es : List SExpr} (hs₀ : Inv s₀)
    (henv : ScopeMeans Denotes s₀ tables.env constants)
    (hdepth : ∀ d e, depth = d + 1 → Lowers sink tables Inv Denotes constants d e)
    (hargs : List.Forall₂ (fun t v => TermMeans Inv Denotes s₀ (t locals) v)
      (lowerTerms sink tables (expansion sink tables depth) es)
      (es.map (frontendValue constants scope tables.functions depth))) :
    TermMeans Inv Denotes s₀
      (functionCall (expansion sink tables depth) name function
        (lowerTerms sink tables (expansion sink tables depth) es) locals)
      fun ρ => (valuesAt (es.map (frontendValue constants scope tables.functions depth)) ρ).bind
        (applyFunction (frontendAtom (scopeAt constants ρ)) tables.functions depth function) := by
  intro s hle hs
  unfold functionCall
  split
  · exact returns_invalid
  · rename_i hlen
    cases depth with
    | zero => exact returns_invalid
    | succ d =>
      have hnil : ScopeMeans Denotes s [] [] := .nil
      refine (bindArgs_run hsink hargs (not_not.mp hlen) hle hs hnil).bind ?_
      rintro m s₁ hle₁ ⟨hs₁, xs, hvs, hsorts, hm⟩
      have henv₁ := henv.mono hsink hs₀ hs₁ (hle.trans hle₁)
      have hbody := hdepth d function.body rfl hs₁ henv₁ hm
      refine hbody.step (le_refl s₁) hs₁ fun e s₂ x hle₂ hs₂ hx hvx => ?_
      refine returns_lowerSort_bind fun hsort => returns_pure ⟨hs₂, x, hx, fun ρ => ?_⟩
      have hbodyρ := hvx ρ
      rw [frontendValue, scopeAt_insertAll, scopeAt_zip] at hbodyρ
      dsimp only
      rw [hvs, Option.bind_some, applyFunction, if_pos (hsorts ρ)]
      refine Option.filter_eq_some_iff.mpr ⟨hbodyρ, ?_⟩
      simp [hx.sort ρ, hsort]

/-- The bindings of a `let`, each read in the scope around it. -/
theorem letLoop_run (hsink : sink.Correct Inv Denotes) (pairs : List SExpr)
    (h : ∀ items, .list items ∈ pairs → ∀ e ∈ items,
      Lowers sink tables Inv Denotes constants depth e)
    (hs₀ : Inv s₀) (henv : ScopeMeans Denotes s₀ tables.env constants)
    (hscope : ScopeMeans Denotes s₀ locals scope)
    {parsed : NameMap (LoweredExpr N)} {pm : NameMap Meaning} (hle : s₀ ≤ s) (hs : Inv s)
    (hparsed : ScopeMeans Denotes s parsed pm) :
    Returns (letLoop locals
      (pairs.zip (lowerParts sink tables (expansion sink tables depth) pairs)) parsed) s
      fun p s' => Inv s' ∧ ∃ more : NameMap Meaning, ScopeMeans Denotes s' p (pm ++ more) ∧
        ∀ ρ, bindingValues
          (readingAt (frontendAtom (scopeAt constants ρ)) tables.functions depth) pairs
            (scopeAt scope ρ) = some (scopeAt more ρ) := by
  induction pairs generalizing s parsed pm with
  | nil =>
    rw [lowerParts, List.zip_nil_left, letLoop]
    exact returns_pure ⟨hs, [], by simpa using hparsed, fun ρ => rfl⟩
  | cons pair pairs ih =>
    have hrest : ∀ items, .list items ∈ pairs → ∀ e ∈ items,
        Lowers sink tables Inv Denotes constants depth e :=
      fun items hi => h items (List.mem_cons_of_mem _ hi)
    match pair, h with
    | .atom _, _ => exact returns_invalid
    | .list [], _ => exact returns_invalid
    | .list [_], _ => exact returns_invalid
    | .list (_ :: _ :: _ :: _), _ => exact returns_invalid
    | .list [name, term], h =>
      rw [lowerParts, List.zip_cons_cons, lowerTerms, lowerTerms, lowerTerms, letLoop]
      refine returns_lift_bind fun text htext => ?_
      obtain rfl := atom_eq_ok.mp htext
      split
      · exact returns_invalid
      · have hterm := h [.atom text, term] List.mem_cons_self term (by simp) hs₀ henv hscope
        refine hterm.step hle hs fun e s₁ x hle₁ hs₁ hx hvx => ?_
        have hparsed₁ : ScopeMeans Denotes s₁ (parsed ++ [(text, e)]) (pm ++ [(text, x)]) :=
          List.rel_append (hparsed.mono hsink hs hs₁ hle₁) (.cons ⟨rfl, hx⟩ .nil)
        refine (ih hrest (hle.trans hle₁) hs₁ hparsed₁).mono ?_
        rintro p s' - ⟨hs', more, hp, hvs⟩
        refine ⟨hs', (text, x) :: more, by simpa using hp, fun ρ => ?_⟩
        have hvxρ := hvx ρ
        rw [frontendValue, termValue] at hvxρ
        rw [bindingValues, hvxρ, hvs]
        rfl

theorem letExpr_means (hsink : sink.Correct Inv Denotes) {args : List SExpr}
    (h : ∀ e ∈ args, Lowers sink tables Inv Denotes constants depth e)
    (hparts : ∀ pairs, .list pairs ∈ args → ∀ items, .list items ∈ pairs → ∀ e ∈ items,
      Lowers sink tables Inv Denotes constants depth e)
    (hs₀ : Inv s₀) (henv : ScopeMeans Denotes s₀ tables.env constants)
    (hscope : ScopeMeans Denotes s₀ locals scope) :
    TermMeans Inv Denotes s₀
      (letExpr args (lowerTerms sink tables (expansion sink tables depth) args)
        (lowerFirst sink tables (expansion sink tables depth) args) locals)
      fun ρ => letValue (readingAt (frontendAtom (scopeAt constants ρ)) tables.functions depth) args
        (scopeAt scope ρ) := by
  intro s hle hs
  match args, h, hparts with
  | [], _, _ => exact returns_fail
  | [a], _, _ => cases a <;> exact returns_fail
  | a :: _ :: _ :: _, _, _ => cases a <;> exact returns_fail
  | [.atom _, _], _, _ => exact returns_fail
  | [.list pairs, body], h, hparts =>
    have hnil : ScopeMeans Denotes s [] [] := .nil
    refine (letLoop_run hsink pairs (hparts pairs List.mem_cons_self) hs₀ henv hscope hle hs
      hnil).bind ?_
    rintro p s₁ hle₁ ⟨hs₁, more, hp, hvs⟩
    have hle₀ := hle.trans hle₁
    have hbody := h body (by simp) hs₁ (henv.mono hsink hs₀ hs₁ hle₀)
      ((hscope.mono hsink hs₀ hs₁ hle₀).insertAll (by simpa using hp))
    refine (hbody s₁ (le_refl s₁) hs₁).mono ?_
    rintro e s₂ - ⟨hs₂, x, hx, hvx⟩
    refine ⟨hs₂, x, hx, fun ρ => ?_⟩
    have hvxρ := hvx ρ
    rw [frontendValue, scopeAt_insertAll] at hvxρ
    dsimp only
    rw [letValue, hvs]
    exact hvxρ

theorem indexedLiteral_means (hsink : sink.Correct Inv Denotes) (items : List SExpr) :
    TermMeans Inv Denotes s₀ (indexedLiteral sink items) fun _ => indexedLiteralValue items := by
  intro s hle hs
  refine returns_lift_bind fun ⟨bytes, width⟩ h => ?_
  obtain ⟨value, text, ds, hparts, -, htext, hds, hw, hw', hspell⟩ := indexedBvLiteralBytes_spells h
  refine (hsink.bvConst hw hw' hspell).step hs fun n s₁ _ hs₁ hn => ?_
  refine returns_means hs₁ hn (fun ρ => rfl) fun ρ => ?_
  rw [indexedLiteralValue, hparts]
  simp [hds, htext]

/-- A list, given its parts. -/
theorem lowers_list (hsink : sink.Correct Inv Denotes) {head : SExpr} {args : List SExpr}
    (hdepth : ∀ d e, depth = d + 1 → Lowers sink tables Inv Denotes constants d e)
    (h : ∀ e ∈ args, Lowers sink tables Inv Denotes constants depth e)
    (hparts : ∀ pairs, .list pairs ∈ args → ∀ items, .list items ∈ pairs → ∀ e ∈ items,
      Lowers sink tables Inv Denotes constants depth e) :
    Lowers sink tables Inv Denotes constants depth (.list (head :: args)) := by
  intro s₀ locals scope hs₀ henv hscope
  have terms := lowerTerms_mean h hs₀ henv hscope
  have operands := List.forall₂_map_left_iff.mpr terms
  rw [lowerTerm]
  unfold frontendValue termValue
  cases head with
  | list opItems =>
    have hop := indexedOp_means hsink opItems operands
    simp only [valuesAt_terms] at hop
    exact hop
  | atom op =>
    unfold listExpr
    dsimp only
    by_cases hunder : op = "_"
    · rw [if_pos hunder]
      simp only [value, if_pos hunder]
      exact indexedLiteral_means hsink _
    · rw [if_neg hunder]
      simp only [value, if_neg hunder, readingAt]
      cases tables.functions.lookup op with
      | some function =>
        have hmeans := functionCall_means hsink op function hs₀ henv hdepth terms
        simp only [valuesAt_terms] at hmeans
        exact hmeans
      | none =>
        dsimp only
        by_cases hbang : op = "!"
        · rw [if_pos hbang]
          simp only [if_pos hbang]
          intro s hle hs
          refine returns_lift_bind fun annotation _ => ?_
          cases args with
          | nil => cases annotation <;> exact returns_invalid
          | cons term rest =>
            cases annotation with
            | none => exact returns_invalid
            | some _ => exact h term List.mem_cons_self hs₀ henv hscope s hle hs
        · rw [if_neg hbang]
          by_cases hlet : op = "let"
          · rw [if_pos hlet]
            simp only [if_neg hbang, if_pos hlet]
            exact letExpr_means hsink h hparts hs₀ henv hscope
          · rw [if_neg hlet]
            simp only [if_neg hbang, if_neg hlet]
            rcases lookup_forall₂ (operators_mean hsink) op with ⟨hop, -⟩ | ⟨o, f, ho, hf, hof⟩
            · rw [hop]
              exact fun s _ _ => returns_fail
            · rw [ho, hf]
              have hmeans := hof operands
              simp only [valuesAt_terms] at hmeans
              exact hmeans

theorem sizeOf_lt_list {e : SExpr} {items : List SExpr} (h : e ∈ items) :
    sizeOf e < sizeOf (SExpr.list items) := by
  have := List.sizeOf_lt_of_mem h
  rw [SExpr.list.sizeOf_spec]
  omega

/-- Every term at one depth, given the bodies one level down. -/
theorem lowers_of_bodies (hsink : sink.Correct Inv Denotes)
    (hdepth : ∀ d e, depth = d + 1 → Lowers sink tables Inv Denotes constants d e) (e : SExpr) :
    Lowers sink tables Inv Denotes constants depth e := by
  -- on the size of the term: a `let` needs the terms three lists down
  induction hn : sizeOf e using Nat.strong_induction_on generalizing e with
  | _ n ih =>
    subst hn
    match e, ih with
    | .atom name, _ =>
      intro s₀ locals scope hs₀ henv hscope
      exact atomExpr_means hsink hs₀ henv hscope
    | .list [], _ =>
      intro s₀ locals scope _ _ _ s _ _
      exact returns_invalid
    | .list (head :: args), ih =>
      have hargs : ∀ e ∈ args, sizeOf e < sizeOf (SExpr.list (head :: args)) :=
        fun e he => sizeOf_lt_list (List.mem_cons_of_mem _ he)
      have hparts : ∀ pairs, .list pairs ∈ args → ∀ items, .list items ∈ pairs → ∀ e ∈ items,
          Lowers sink tables Inv Denotes constants depth e := by
        intro pairs hpairs items hitems e he
        have hlt := (sizeOf_lt_list he).trans (sizeOf_lt_list hitems)
        exact ih _ (hlt.trans (hargs _ hpairs)) e rfl
      exact lowers_list hsink hdepth (fun e he => ih _ (hargs e he) e rfl) hparts

theorem lowers (hsink : sink.Correct Inv Denotes) (depth : Nat) (e : SExpr) :
    Lowers sink tables Inv Denotes constants depth e := by
  induction depth generalizing e with
  | zero => exact lowers_of_bodies hsink (fun d e hd => absurd hd (Nat.zero_ne_add_one d)) e
  | succ depth ih =>
    refine lowers_of_bodies hsink ?_ e
    intro d e hd
    obtain rfl := Nat.succ.inj hd
    exact ih e

end

end Smtlib
end SmtServer
