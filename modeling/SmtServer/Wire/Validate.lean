import SmtServer.Wire.WellFormed

/-!
# Validation accepts exactly the well-formed buffers

The first pass is a fold whose state after `i` rounds is a *function* of the parts (`infos`,
`symbolsBefore`), so acceptance of the whole loop is the conjunction of its rounds
(`Outcome.foldlM_range_eq_ok`); the second pass is a conjunction already. What remains is that
comparing each variable with the newest entry of its name is comparing all variables of a
name (`ScanRule.consistent`), and the operand rule of each operator.
-/

namespace SmtServer
namespace Wire

open Lib Outcome

/-! ## The state of the first pass -/

namespace Parts

/-- What the first pass records of a node. -/
def infoOf (n : RawNode) : Option NodeInfo :=
  (Tag.tryFrom n.tag).map fun t => ⟨t, t.resultSort, n.width⟩

/-- The symbol a node declares, with its signature. -/
def symbolOf (p : Parts) (n : RawNode) : Option (String × NodeInfo) :=
  (Tag.tryFrom n.tag).bind fun t =>
    if t = .bvVar ∨ t = .boolVar then
      (p.textAt n.blobRef).map fun s => (s, ⟨t, t.resultSort, n.width⟩)
    else none

/-- `meta` before round `i`. -/
def infos (p : Parts) (i : Nat) : List NodeInfo := (p.nodes.take i).filterMap infoOf

/-- `symbols` before round `i`. -/
def symbolsBefore (p : Parts) (i : Nat) : List (String × NodeInfo) :=
  ((p.nodes.take i).filterMap p.symbolOf).reverse

/-- What round `i` of the first pass checks. -/
structure ScanRule (p : Parts) (i : Nat) (n : RawNode) (t : Tag) : Prop where
  arity : ArityRule n t
  width : WidthRule n t
  blob : p.BlobRule n t
  symbol : ∀ {s e}, t = .bvVar ∨ t = .boolVar → p.textAt n.blobRef = some s →
    (p.symbolsBefore i).lookup s = some e → e.sort = t.resultSort ∧ e.width = n.width

variable {p : Parts} {i : Nat} {n : RawNode} {t : Tag}

theorem infos_succ (hn : p.nodes[i]? = some n) (ht : Tag.tryFrom n.tag = some t) :
    p.infos (i + 1) = p.infos i ++ [⟨t, t.resultSort, n.width⟩] := by
  obtain ⟨hi, rfl⟩ := List.getElem?_eq_some_iff.mp hn
  rw [infos, List.take_succ_eq_append_getElem hi, List.filterMap_append]
  simp [infos, infoOf, ht]

theorem symbolsBefore_succ (hn : p.nodes[i]? = some n) :
    p.symbolsBefore (i + 1) = (p.symbolOf n).toList ++ p.symbolsBefore i := by
  obtain ⟨hi, rfl⟩ := List.getElem?_eq_some_iff.mp hn
  rw [symbolsBefore, List.take_succ_eq_append_getElem hi, List.filterMap_append,
    List.reverse_append]
  cases h : p.symbolOf p.nodes[i] <;> simp [symbolsBefore, h]

/-! ### The newest entry of a name speaks for all of them -/

theorem symbolOf_eq_some {s : String} {e : NodeInfo} (ht : Tag.tryFrom n.tag = some t) :
    p.symbolOf n = some (s, e) ↔ (t = .bvVar ∨ t = .boolVar) ∧ p.textAt n.blobRef = some s ∧
      e = ⟨t, t.resultSort, n.width⟩ := by
  simp only [symbolOf, ht, Option.bind_some]
  split
  · rename_i hvar
    simp [hvar, eq_comm]
  · rename_i hvar
    simp [hvar]

/-- Every entry of the table comes from an earlier declaration. -/
theorem declares_of_lookup {s : String} {e : NodeInfo}
    (h : (p.symbolsBefore i).lookup s = some e) :
    ∃ j n t, p.Declares j n t s ∧ e = ⟨t, t.resultSort, n.width⟩ := by
  obtain ⟨l₁, l₂, hl, -⟩ := List.lookup_eq_some_iff.mp h
  have hmem : (s, e) ∈ p.symbolsBefore i := by simp [hl]
  simp only [symbolsBefore, List.mem_reverse, List.mem_filterMap] at hmem
  obtain ⟨n, hn, hsym⟩ := hmem
  obtain ⟨j, hj⟩ := List.mem_iff_getElem?.mp (List.mem_of_mem_take hn)
  cases ht : Tag.tryFrom n.tag with
  | none => simp [symbolOf, ht] at hsym
  | some t =>
    obtain ⟨hvar, hs, he⟩ := (symbolOf_eq_some ht).mp hsym
    exact ⟨j, n, t, ⟨hj, ht, hvar, hs⟩, he⟩

/-- If every round so far accepted, the newest entry of a name agrees with every declaration
of it. By induction on the rounds: a new declaration has been compared with the newest entry
before it. -/
theorem lookup_of_declares (hi : i ≤ p.nodes.length)
    (hrule : ∀ j < i, ∃ n t, p.nodes[j]? = some n ∧ Tag.tryFrom n.tag = some t ∧ p.ScanRule j n t)
    {j : Nat} (hj : j < i) {s : String} (hd : p.Declares j n t s) :
    ∃ e, (p.symbolsBefore i).lookup s = some e ∧ e.sort = t.resultSort ∧ e.width = n.width := by
  induction i generalizing j n t with
  | zero => omega
  | succ i ih =>
    obtain ⟨m, u, hm, hu, hr⟩ := hrule i (by omega)
    have ih' := fun {j n t} hj hd => ih (j := j) (n := n) (t := t) (by omega)
      (fun k hk => hrule k (by omega)) hj hd
    rw [symbolsBefore_succ hm]
    cases hsym : p.symbolOf m with
    | none =>
      have hji : j ≠ i := by
        rintro rfl
        obtain ⟨hn, ht, hvar, hs⟩ := hd
        obtain rfl := Option.some.inj (hn.symm.trans hm)
        have := (symbolOf_eq_some ht).mpr ⟨hvar, hs, rfl⟩
        rw [hsym] at this
        cases this
      exact ih' (by omega) hd
    | some se =>
      obtain ⟨s', e'⟩ := se
      obtain ⟨hvar, hs', he'⟩ := (symbolOf_eq_some hu).mp hsym
      simp only [Option.toList_some, List.singleton_append, List.lookup_cons]
      by_cases hss : s = s'
      · subst hss
        refine ⟨e', by simp, ?_⟩
        rw [he']
        by_cases hji : j = i
        · subst hji
          obtain ⟨hn, ht, -⟩ := hd
          obtain rfl := Option.some.inj (hn.symm.trans hm)
          obtain rfl := Option.some.inj (ht.symm.trans hu)
          exact ⟨rfl, rfl⟩
        · obtain ⟨e, he, h1, h2⟩ := ih' (by omega) hd
          obtain ⟨h3, h4⟩ := hr.symbol hvar hs' he
          exact ⟨h3.symm.trans h1, h4.symm.trans h2⟩
      · have hji : j ≠ i := by
          rintro rfl
          obtain ⟨hn, ht, -, hs⟩ := hd
          obtain rfl := Option.some.inj (hn.symm.trans hm)
          exact hss (Option.some.inj (hs.symm.trans hs'))
        rw [show (s == s') = false by simpa using hss]
        exact ih' (by omega) hd

/-- The rounds of the first pass together: each node's own rule, and one signature a name. -/
theorem scan_all_iff :
    (∀ i < p.nodes.length, ∃ n t, p.nodes[i]? = some n ∧ Tag.tryFrom n.tag = some t ∧
      p.ScanRule i n t) ↔
    (∀ (i : Nat) n, p.nodes[i]? = some n → ∃ t, Tag.tryFrom n.tag = some t ∧ ArityRule n t ∧
      WidthRule n t ∧ p.BlobRule n t) ∧
    (∀ {i j n m t u s}, p.Declares i n t s → p.Declares j m u s →
      t.resultSort = u.resultSort ∧ n.width = m.width) := by
  constructor
  · intro h
    refine ⟨fun i n hn => ?_, fun {i j n m t u s} hd hd' => ?_⟩
    · obtain ⟨n', t, hn', ht, hr⟩ := h i (List.getElem?_eq_some_iff.mp hn).1
      obtain rfl := Option.some.inj (hn.symm.trans hn')
      exact ⟨t, ht, hr.arity, hr.width, hr.blob⟩
    · have hlt : ∀ {k x y}, p.Declares k x y s → k < p.nodes.length := fun hx =>
        (List.getElem?_eq_some_iff.mp hx.1).1
      obtain ⟨e, he, h1, h2⟩ := lookup_of_declares (le_refl _) h (hlt hd) hd
      obtain ⟨e', he', h3, h4⟩ := lookup_of_declares (le_refl _) h (hlt hd') hd'
      obtain rfl := Option.some.inj (he.symm.trans he')
      exact ⟨h1.symm.trans h3, h2.symm.trans h4⟩
  · rintro ⟨hnode, hsym⟩ i hi
    obtain ⟨t, ht, ha, hw, hb⟩ := hnode i _ (List.getElem?_eq_getElem hi)
    refine ⟨_, t, List.getElem?_eq_getElem hi, ht, ha, hw, hb, fun {s e} hvar hs he => ?_⟩
    obtain ⟨j, m, u, hd, rfl⟩ := declares_of_lookup he
    exact hsym hd ⟨List.getElem?_eq_getElem hi, ht, hvar, hs⟩

end Parts

/-! ## One round of the first pass -/

section Passes

variable {v : ExprView} {p : Parts} (hv : IsViewOf v p)

include hv

theorem IsViewOf.blobStr {r : BlobRef} {ctx s : String} :
    v.blobStr r ctx = ok s ↔ p.textAt r = some s := by
  simp only [ExprView.blobStr, bind_eq_ok, hv.blobRef, ofOption_eq_ok, Parts.textAt,
    Option.bind_eq_some_iff]

theorem IsViewOf.safe_blobStr {r : BlobRef} {ctx : String} : Safe (v.blobStr r ctx) :=
  hv.safe_blobRef.bind fun _ _ => safe_ofOption

omit hv in
theorem checkSignature_eq_ok {s : String} {o : Option NodeInfo} {sig : NodeInfo} {u : Unit} :
    ExprView.checkSignature s o sig = ok u ↔
      ∀ e, o = some e → e.sort = sig.sort ∧ e.width = sig.width := by
  cases o with
  | none => simp [ExprView.checkSignature]
  | some e => simp [ExprView.checkSignature]

/-- The symbol table of a round: a variable is checked against the newest entry of its
name. -/
theorem IsViewOf.scanSymbol {i : Nat} {n : RawNode} {t : Tag} (hn : p.nodes[i]? = some n)
    (ht : Tag.tryFrom n.tag = some t) {out : List (String × NodeInfo)} :
    v.scanSymbol (p.symbolsBefore i) n ⟨t, t.resultSort, n.width⟩ = ok out ↔
      (t = .bvVar ∨ t = .boolVar → ∃ s, p.textAt n.blobRef = some s ∧
        ∀ e, (p.symbolsBefore i).lookup s = some e →
          e.sort = t.resultSort ∧ e.width = n.width) ∧ out = p.symbolsBefore (i + 1) := by
  rw [Parts.symbolsBefore_succ hn]
  unfold ExprView.scanSymbol
  by_cases hvar : t = .bvVar ∨ t = .boolVar
  · rw [if_pos hvar]
    simp only [bind_eq_ok, hv.blobStr, checkSignature_eq_ok, pure_eq,
      Outcome.ok.injEq, hvar, true_implies, Parts.symbolOf, ht, Option.bind_some, exists_const]
    constructor
    · rintro ⟨s, hs, hsig, rfl⟩
      exact ⟨⟨s, hs, hsig⟩, by simp [hs]⟩
    · rintro ⟨⟨s, hs, hsig⟩, rfl⟩
      exact ⟨s, hs, hsig, by simp [hs]⟩
  · simp [hvar, Parts.symbolOf, ht, eq_comm]

theorem IsViewOf.scanWideConst {i : Nat} {n : RawNode} {t : Tag} (hw : Parts.WidthRule n t)
    {u : Unit} : v.scanWideConst i n t = ok u ↔ (t = .bvConst → 64 < n.width.toNat →
      n.blobRef.len.toNat = (n.width.toNat + 7) / 8 ∧ ∃ s, p.blobAt n.blobRef = some s) := by
  unfold ExprView.scanWideConst
  by_cases hc : t = .bvConst ∧ 64 < n.width.toNat
  · obtain ⟨rfl, hc⟩ := hc
    have hw : 1 ≤ n.width.toNat ∧ n.width.toNat ≤ maxBvWidth := hw
    rw [if_pos ⟨rfl, hc⟩]
    simp only [bytesForWidth, validateBvWidthValue, bind_eq_ok, ensure_eq_ok,
      hv.blobRef, pure_eq, Outcome.ok.injEq, exists_const, hc, true_implies]
    constructor
    · rintro ⟨_, ⟨-, rfl⟩, hl, s, hs, -⟩
      exact ⟨hl, s, hs⟩
    · rintro ⟨hl, s, hs⟩
      exact ⟨_, ⟨hw, rfl⟩, hl, s, hs, trivial⟩
  · rw [if_neg hc]
    refine ⟨fun _ ht hlt => absurd ⟨ht, hlt⟩ hc, fun _ => rfl⟩

omit hv in
theorem validateArity_eq_ok {i : Nat} {n : RawNode} {t : Tag} {u : Unit} :
    validateArity i t n.arity = ok u ↔ Parts.ArityRule n t := by
  unfold validateArity Parts.ArityRule
  cases t.fixedArity with
  | some k => exact ensure_eq_ok
  | none =>
    simp only [validateSelectArity, ensure_eq_ok, ← UInt8.toNat_inj, UInt8.toNat_mod]
    show ¬(n.arity.toNat = 0 ∨ n.arity.toNat % 2 = 0) ↔ _
    omega

omit hv in
theorem validateNodeWidth_eq_ok {i : Nat} {n : RawNode} {t : Tag} {u : Unit} :
    validateNodeWidth i t n.width = ok u ↔ Parts.WidthRule n t := by
  unfold validateNodeWidth Parts.WidthRule
  cases t.resultSort with
  | bool =>
    rw [ensure_eq_ok, ← UInt32.toNat_inj]
    rfl
  | bv => exact ensure_eq_ok

/-- A round of the first pass, as a check and the state it leaves. -/
theorem IsViewOf.scanNode {i : Nat} (hi : i < p.nodes.length)
    {st : List NodeInfo × List (String × NodeInfo)} :
    v.scanNode (p.infos i, p.symbolsBefore i) i = ok st ↔
      (∃ n t, p.nodes[i]? = some n ∧ Tag.tryFrom n.tag = some t ∧ p.ScanRule i n t) ∧
        st = (p.infos (i + 1), p.symbolsBefore (i + 1)) := by
  obtain ⟨n, hn⟩ : ∃ n, p.nodes[i]? = some n := ⟨_, List.getElem?_eq_getElem hi⟩
  simp only [ExprView.scanNode, bind_eq_ok, hv.node, hn, Option.some.injEq, parseTag,
    ofOption_eq_ok, pure_eq, Outcome.ok.injEq]
  constructor
  · rintro ⟨_, rfl, t, ht, _, ha, _, hw, syms, hsyms, _, hc, rfl⟩
    have hwidth := validateNodeWidth_eq_ok.mp hw
    obtain ⟨hsym, rfl⟩ := (hv.scanSymbol hn ht).mp hsyms
    refine ⟨⟨n, t, rfl, ht, validateArity_eq_ok.mp ha, hwidth, ⟨fun h => ?_, ?_⟩, ?_⟩, ?_⟩
    · obtain ⟨s, hs, -⟩ := hsym h
      exact ⟨s, hs⟩
    · exact (hv.scanWideConst hwidth).mp hc
    · intro s e h hs he
      obtain ⟨s', hs', hsig⟩ := hsym h
      obtain rfl := Option.some.inj (hs.symm.trans hs')
      exact hsig e he
    · rw [Parts.infos_succ hn ht]
  · rintro ⟨⟨_, t, rfl, ht, ha, hw, hb, hs⟩, rfl⟩
    refine ⟨n, rfl, t, ht, (), validateArity_eq_ok.mpr ha, (), validateNodeWidth_eq_ok.mpr hw, _,
      (hv.scanSymbol hn ht).mpr ⟨fun h => ?_, rfl⟩, (), (hv.scanWideConst hw).mpr hb.const, ?_⟩
    · obtain ⟨s, hname⟩ := hb.name h
      exact ⟨s, hname, fun e he => hs h hname he⟩
    · rw [Parts.infos_succ hn ht]

/-! ## One round of the second pass -/

variable {infos : List NodeInfo}
  (hlen : infos.length = p.nodes.length)
  (hinfos : ∀ (j : Nat) (m : RawNode), p.nodes[j]? = some m → ∃ t, Tag.tryFrom m.tag = some t ∧
    infos[j]? = some ⟨t, t.resultSort, m.width⟩)

include hlen hinfos

/-- Looking a child up is the operand relation, with the width it returns. -/
theorem IsViewOf.expectChild {i k : Nat} {n : RawNode} {σ : WireSort} {info : NodeInfo}
    (hk : k < 2 ^ 32) (h : v.expectChild infos i n k σ = ok info) :
    p.Operand i n k σ info.width.toNat := by
  simp only [ExprView.expectChild, validateRef, validateEarlier, checkedAdd32, bind_eq_ok,
    hv.childRef, ensure_eq_ok, expect_eq_ok, pure_eq, Outcome.ok.injEq, exists_const] at h
  obtain ⟨j, hj, r, hr, hlt, hsort, info', hinfo, hsort', hearlier, rfl⟩ := h
  rw [Nat.mod_eq_of_lt hk] at hj
  split at hj
  · obtain rfl := Outcome.ok.inj hj
    obtain ⟨m, hm⟩ : ∃ m, p.nodes[r.idx]? = some m :=
      ⟨_, List.getElem?_eq_getElem (hlen ▸ hlt)⟩
    obtain ⟨t, ht, hti⟩ := hinfos _ m hm
    obtain rfl := Option.some.inj (hinfo.symm.trans hti)
    exact ⟨r, m, t, hr, hsort, hearlier, hm, ht, hsort'.trans hsort, rfl⟩
  · cases hj

theorem IsViewOf.expectChild_of_operand {i k w : Nat} {n : RawNode} {σ : WireSort}
    (hk : k < 2 ^ 32) (h : p.Operand i n k σ w) :
    ∃ info, v.expectChild infos i n k σ = ok info ∧ info.width.toNat = w := by
  obtain ⟨r, m, t, hr, hsort, hearlier, hm, ht, hts, rfl⟩ := h
  obtain ⟨t', ht', hinfo⟩ := hinfos _ m hm
  obtain rfl := Option.some.inj (ht.symm.trans ht')
  refine ⟨⟨t, t.resultSort, m.width⟩, ?_, rfl⟩
  have hidx := (List.getElem?_eq_some_iff.mp hr).1
  rw [← hv.childCount] at hidx
  have hcount := v.header.childCount.toNat_lt
  have hlt : r.idx < infos.length := hlen ▸ (List.getElem?_eq_some_iff.mp hm).1
  simp only [ExprView.expectChild, validateRef, validateEarlier, checkedAdd32, bind_eq_ok,
    hv.childRef, ensure_eq_ok, expect_eq_ok, pure_eq, Outcome.ok.injEq, exists_const]
  refine ⟨_, ?_, r, hr, hlt, hsort, _, hinfo, hts.trans hsort.symm, hearlier, rfl⟩
  rw [Nat.mod_eq_of_lt hk, if_pos (by omega)]

omit hv hlen hinfos in
theorem Parts.Operand.width_unique {i k w w' : Nat} {n : RawNode} {σ σ' : WireSort}
    (h : p.Operand i n k σ w) (h' : p.Operand i n k σ' w') : w = w' := by
  obtain ⟨r, m, t, hr, -, -, hm, -, -, rfl⟩ := h
  obtain ⟨r', m', t', hr', -, -, hm', -, -, rfl⟩ := h'
  obtain rfl := Option.some.inj (hr.symm.trans hr')
  obtain rfl := Option.some.inj (hm.symm.trans hm')
  rfl

/-- One operand, then a check of its width. -/
theorem IsViewOf.expectChild_bind {i k : Nat} {n : RawNode} {σ : WireSort} (hk : k < 2 ^ 32)
    {f : NodeInfo → Result Unit} {P : Nat → Prop}
    (hf : ∀ info, p.Operand i n k σ info.width.toNat → (f info = ok () ↔ P info.width.toNat)) :
    (v.expectChild infos i n k σ >>= f) = ok () ↔ ∃ w, p.Operand i n k σ w ∧ P w := by
  rw [bind_eq_ok]
  constructor
  · rintro ⟨info, hinfo, h⟩
    have ho := hv.expectChild hlen hinfos hk hinfo
    exact ⟨_, ho, (hf info ho).mp h⟩
  · rintro ⟨w, ho, hp⟩
    obtain ⟨info, hinfo, rfl⟩ := hv.expectChild_of_operand hlen hinfos hk ho
    exact ⟨info, hinfo, (hf info ho).mpr hp⟩

omit hv hlen hinfos in
/-- A width that is the sum of two others, and a legal one. -/
theorem expected_width_ok {i a b : Nat} {n : RawNode} {t : Tag} {c₁ c₂ c₃ : String}
    (hw : 1 ≤ n.width.toNat ∧ n.width.toNat ≤ maxBvWidth) :
    (checkedAdd32 a b c₁ >>= fun e => validateBvWidthValue e c₂ >>= fun _ =>
      expectWidth i t n.width.toNat e c₃) = ok () ↔ n.width.toNat = a + b := by
  simp only [bind_eq_ok, checkedAdd32, validateBvWidthValue, ensure_eq_ok, expectWidth,
    exists_const]
  simp only [maxBvWidth] at hw ⊢
  constructor
  · rintro ⟨e, he, -, heq⟩
    split at he
    · rw [heq, ← Outcome.ok.inj he]
    · cases he
  · intro heq
    exact ⟨_, by rw [if_pos (by omega)], by omega, heq⟩

/-- The operand rules of the operators with a fixed number of operands: one, two or three
look-ups in order, then the width relation. -/
theorem IsViewOf.checkOperands {i : Nat} {n : RawNode} {t : Tag}
    (ha : Parts.ArityRule n t) (hw : Parts.WidthRule n t) :
    v.checkOperands infos i n t = ok () ↔ p.OperandRule i n t := by
  have child := fun {k σ f P} hk hf => hv.expectChild_bind hlen hinfos (i := i) (n := n)
    (k := k) (σ := σ) (f := f) (P := P) hk hf
  have small : ∀ k ≤ 2, k < 2 ^ 32 := fun k hk => by omega
  have last : ∀ {k σ}, k < 2 ^ 32 → ((v.expectChild infos i n k σ >>= fun _ => pure ()) = ok () ↔
      ∃ w, p.Operand i n k σ w) := fun {k σ} hk =>
    (child hk (P := fun _ => True) fun _ _ => by simp).trans (by simp)
  cases t with
  | bvVar | bvConst | boolTrue | boolFalse | boolVar => simp [ExprView.checkOperands, Parts.OperandRule]
  | bvNot | bvNeg =>
    refine (child (small 0 (by omega)) fun info _ => ensure_eq_ok).trans ?_
    simp [Parts.OperandRule]
  | bvAnd | bvOr | bvXor | bvAdd | bvSub | bvMul | bvUdiv | bvUrem | bvSdiv | bvSrem | bvSmod
  | bvShl | bvLshr | bvAshr =>
    refine (child (small 0 (by omega)) (P := fun w => ∃ w', p.Operand i n 1 .bv w' ∧
      w = w' ∧ n.width.toNat = w) fun lhs _ =>
        child (small 1 (by omega)) (P := fun w' => lhs.width.toNat = w' ∧
          n.width.toNat = lhs.width.toNat) fun rhs _ => ?_).trans ?_
    · simp [expectSameChildWidth, expectWidth, bind_eq_ok]
    · simp [Parts.OperandRule]
  | bvExtract =>
    have hhi := n.auxHi.toNat_lt
    refine (child (small 0 (by omega)) (P := fun w => n.auxLo.toNat ≤ n.auxHi.toNat ∧
      n.auxHi.toNat < w ∧ n.width.toNat = n.auxHi.toNat - n.auxLo.toNat + 1)
        fun info _ => ?_).trans Iff.rfl
    simp only [bind_eq_ok, ensure_eq_ok, subU_eq_ok, addU_eq_ok, expectWidth, exists_const]
    constructor
    · rintro ⟨hb, _, ⟨-, rfl⟩, _, ⟨-, rfl⟩, hw⟩
      exact ⟨by omega, by omega, hw⟩
    · rintro ⟨h1, h2, h3⟩
      exact ⟨by omega, _, ⟨h1, rfl⟩, _, ⟨by omega, rfl⟩, h3⟩
  | bvConcat =>
    refine (child (small 0 (by omega)) (P := fun h => ∃ l, p.Operand i n 1 .bv l ∧
      n.width.toNat = h + l) fun hi _ => child (small 1 (by omega))
        (P := fun l => n.width.toNat = hi.width.toNat + l) fun lo _ => expected_width_ok hw).trans ?_
    simp [Parts.OperandRule]
  | bvZext | bvSext =>
    exact (child (small 0 (by omega)) (P := fun w => n.width.toNat = w + n.auxHi.toNat)
      fun info _ => expected_width_ok hw).trans Iff.rfl
  | bvIte =>
    refine (child (small 0 (by omega)) (P := fun _ => ∃ w, p.Operand i n 1 .bv w ∧
      ∃ w', p.Operand i n 2 .bv w' ∧ w = w' ∧ n.width.toNat = w) fun _ _ =>
        child (small 1 (by omega)) (P := fun w => ∃ w', p.Operand i n 2 .bv w' ∧ w = w' ∧
          n.width.toNat = w) fun x _ =>
            child (small 2 (by omega)) (P := fun w' => x.width.toNat = w' ∧
              n.width.toNat = x.width.toNat) fun y _ => ?_).trans ?_
    · simp [expectSameChildWidth, expectWidth, bind_eq_ok]
    · simp [Parts.OperandRule, Parts.BoolOperand]
  | bvSelect =>
    have ha : n.arity.toNat % 2 = 1 := ha
    have haux := n.auxHi.toNat_lt
    have shape : validateSelectShape i n = ok () ↔ n.auxHi.toNat = (n.arity.toNat - 1) / 2 := by
      have harity : validateSelectArity i n.arity = ok () :=
        validateArity_eq_ok (i := i) (t := .bvSelect) |>.mpr ha
      simp only [validateSelectShape, harity, ok_bind, bind_eq_ok, subU_eq_ok, ensure_eq_ok]
      constructor
      · rintro ⟨_, ⟨-, rfl⟩, h⟩
        exact h
      · intro h
        exact ⟨_, ⟨by omega, rfl⟩, h⟩
    have pair : ∀ (d : NodeInfo) (k : Nat), k < n.auxHi.toNat →
        (v.checkSelectPair infos i n .bvSelect d k = ok () ↔ p.BoolOperand i n (k * 2) ∧
          p.Operand i n (k * 2 + 1) .bv d.width.toNat) := by
      intro d k hk
      have hk1 : k * 2 < 2 ^ 32 := by omega
      have hk2 : k * 2 + 1 < 2 ^ 32 := by omega
      refine (child hk1 (P := fun _ => ∃ w, p.Operand i n (k * 2 + 1) .bv w ∧
        w = d.width.toNat) fun _ _ => child hk2 fun x _ => ensure_eq_ok).trans ?_
      simp [Parts.BoolOperand]
    rw [ExprView.checkOperands, bind_eq_ok]
    simp only [shape, exists_const, Parts.OperandRule]
    refine and_congr_right fun _ => (child (by omega) (P := fun w => (∀ k < n.auxHi.toNat,
      p.BoolOperand i n (k * 2) ∧ p.Operand i n (k * 2 + 1) .bv w) ∧ n.width.toNat = w)
        fun d _ => ?_).trans ?_
    · rw [bind_eq_ok]
      simp only [expectWidth, ensure_eq_ok, forM_eq_ok, List.mem_range, exists_const]
      exact and_congr_left fun _ => forall₂_congr fun k hk => pair d k hk
    · constructor
      · rintro ⟨w, ho, hp, rfl⟩
        exact ⟨ho, hp⟩
      · rintro ⟨ho, hp⟩
        exact ⟨_, ho, hp, rfl⟩
  | boolNot | negOvf => exact last (small 0 (by omega))
  | boolAnd | boolOr | boolImplies =>
    refine (child (small 0 (by omega)) (P := fun _ => p.BoolOperand i n 1) fun _ _ =>
      last (small 1 (by omega))).trans ?_
    simp [Parts.OperandRule, Parts.BoolOperand]
  | bvEq | bvUlt | bvUle | bvSlt | bvSle | uaddOvf | saddOvf | usubOvf | ssubOvf | umulOvf
  | smulOvf | sdivOvf =>
    refine (child (small 0 (by omega)) (P := fun w => ∃ w', p.Operand i n 1 .bv w' ∧ w = w')
      fun lhs _ => child (small 1 (by omega)) fun rhs _ => ensure_eq_ok).trans ?_
    simp [Parts.OperandRule]

/-- The second pass at a node: its child range and its operand rule. -/
theorem IsViewOf.checkNode {i : Nat} {n : RawNode} {t : Tag} (hn : p.nodes[i]? = some n)
    (ht : Tag.tryFrom n.tag = some t) (ha : Parts.ArityRule n t) (hw : Parts.WidthRule n t) :
    v.checkNode infos i = ok () ↔
      (n.arity ≠ 0 → n.children.toNat + n.arity.toNat ≤ p.children.length) ∧
        p.OperandRule i n t := by
  obtain ⟨t', ht', hinfo⟩ := hinfos i n hn
  obtain rfl := Option.some.inj (ht.symm.trans ht')
  have range : ∀ u, validateChildrenRange v.header.childCount.toNat i n = ok u ↔
      (n.arity ≠ 0 → n.children.toNat + n.arity.toNat ≤ p.children.length) := by
    intro u
    have hcount := v.header.childCount.toNat_lt
    unfold validateChildrenRange
    by_cases h0 : n.arity = 0
    · simp [h0]
    · rw [if_neg h0, ← hv.childCount]
      simp only [checkedAdd32, bind_eq_ok, ensure_eq_ok, ne_eq, h0, not_false_eq_true,
        true_implies]
      constructor
      · rintro ⟨stop, hstop, hle⟩
        split at hstop
        · rwa [Outcome.ok.inj hstop]
        · cases hstop
      · intro hle
        exact ⟨_, by rw [if_pos (by omega)], hle⟩
  simp only [ExprView.checkNode, bind_eq_ok, hv.node, hn, Option.some.injEq, expect_eq_ok,
    hinfo, range, exists_const, exists_eq_left', hv.checkOperands hlen hinfos ha hw]

end Passes

/-! ## Both passes -/

section Validate

variable {v : ExprView} {p : Parts}

/-- `meta` at the end of the first pass: one entry a node. -/
theorem Parts.infos_length_eq (h : ∀ (j : Nat) (m : RawNode), p.nodes[j]? = some m →
    ∃ t, Tag.tryFrom m.tag = some t) :
    (p.infos p.nodes.length).length = p.nodes.length ∧
      ∀ (j : Nat) (m : RawNode), p.nodes[j]? = some m → ∃ t, Tag.tryFrom m.tag = some t ∧
        (p.infos p.nodes.length)[j]? = some ⟨t, t.resultSort, m.width⟩ := by
  have hmap : p.infos p.nodes.length =
      p.nodes.map fun n => (infoOf n).getD ⟨.bvVar, .bv, n.width⟩ := by
    rw [infos, List.take_length, List.filterMap_eq_map_iff_forall_eq_some]
    intro m hm
    obtain ⟨j, hj⟩ := List.mem_iff_getElem?.mp hm
    obtain ⟨t, ht⟩ := h j m hj
    simp [infoOf, ht]
  refine ⟨by simp [hmap], fun j m hm => ?_⟩
  obtain ⟨t, ht⟩ := h j m hm
  exact ⟨t, ht, by simp [hmap, hm, infoOf, ht]⟩

/-- **Validation accepts exactly the well-formed DAGs.** -/
theorem IsViewOf.validate (hv : IsViewOf v p) : v.validate = ok () ↔ p.WellFormed := by
  have hscan : ∀ st, (List.range p.nodes.length).foldlM v.scanNode ([], []) = ok st ↔ _ :=
    fun st => @foldlM_range_eq_ok _ _ _ (fun i => (p.infos i, p.symbolsBefore i)) _ _
      (fun i hi t => hv.scanNode hi) st
  rw [ExprView.validate, hv.nodeCount, bind_eq_ok]
  simp only [hscan, Parts.scan_all_iff, forM_eq_ok, List.mem_range]
  constructor
  · rintro ⟨_, ⟨⟨hnode, hsym⟩, rfl⟩, hcheck⟩
    refine ⟨fun i n hn => ?_, hsym⟩
    obtain ⟨t, ht, ha, hw, hb⟩ := hnode i n hn
    obtain ⟨hlen, hinfos⟩ := Parts.infos_length_eq fun j m hm =>
      (hnode j m hm).imp fun _ h => h.1
    have hi := (List.getElem?_eq_some_iff.mp hn).1
    obtain ⟨hr, ho⟩ := (hv.checkNode hlen hinfos hn ht ha hw).mp (hcheck i hi)
    exact ⟨t, ht, ha, hw, hb, hr, ho⟩
  · rintro ⟨hnode, hsym⟩
    obtain ⟨hlen, hinfos⟩ := Parts.infos_length_eq fun j m hm =>
      (hnode j m hm).imp fun _ h => h.1
    refine ⟨_, ⟨⟨fun i n hn => ?_, hsym⟩, rfl⟩, fun i hi => ?_⟩
    · obtain ⟨t, ht, hr⟩ := hnode i n hn
      exact ⟨t, ht, hr.arity, hr.width, hr.blob⟩
    · obtain ⟨t, ht, hr⟩ := hnode i _ (List.getElem?_eq_getElem hi)
      exact (hv.checkNode hlen hinfos (List.getElem?_eq_getElem hi) ht hr.arity hr.width).mpr
        ⟨hr.range, hr.operands⟩

/-! ## No input makes it panic -/

/-- Each field is read after the one before it was, so no offset of a record overflows. -/
theorem RawNode.safe_decode {b : List UInt8} {off : Nat} : Safe (RawNode.decode b off) := by
  refine safe_readU8.bind fun _ h => ?_
  rw [addU_of_lt (readU8_eq_ok.mp h).1, ok_bind]
  refine safe_readU8.bind fun _ h => ?_
  have hlt := (readU8_eq_ok.mp h).1
  rw [addU_of_lt (by omega), ok_bind]
  refine safe_readU16.bind fun _ h => ?_
  have hlt := (readU16_eq_ok.mp h).1
  rw [addU_of_lt (by omega), ok_bind]
  refine safe_readU32.bind fun _ h => ?_
  have hlt := (readU32_eq_ok.mp h).1
  rw [addU_of_lt (by omega), ok_bind]
  refine safe_readU32.bind fun _ h => ?_
  have hlt := (readU32_eq_ok.mp h).1
  rw [addU_of_lt (by omega), ok_bind]
  refine safe_readU32.bind fun _ h => ?_
  have hlt := (readU32_eq_ok.mp h).1
  rw [addU_of_lt (by omega), ok_bind]
  exact safe_readU64.bind fun _ _ => safe_ok _

theorem ExprView.safe_node {i : Nat} : Safe (v.node i) :=
  safe_ensure.bind fun _ _ => safe_checkedMul.bind fun _ _ => safe_checkedAdd.bind fun _ _ =>
    RawNode.safe_decode

theorem safe_checkedAdd32 {a b : Nat} {ctx : String} : Safe (checkedAdd32 a b ctx) := by
  unfold checkedAdd32
  split <;> simp

/-- The index into `meta` is checked first. -/
theorem safe_validateRef {infos : List NodeInfo} {r : NodeRef} {σ : WireSort} {o : Option Nat}
    {ctx : String} : Safe (validateRef infos r σ o ctx) := by
  refine safe_ensure.bind fun _ h => safe_ensure.bind fun _ _ => ?_
  rw [List.getElem?_eq_getElem (ensure_eq_ok.mp h), expect_some, ok_bind]
  refine safe_ensure.bind fun _ _ => Safe.bind ?_ fun _ _ => safe_ok _
  cases o with
  | none => exact safe_ok _
  | some j => exact safe_ensure

theorem ExprView.safe_expectChild {infos : List NodeInfo} {i k : Nat} {n : RawNode}
    {σ : WireSort} : Safe (v.expectChild infos i n k σ) :=
  safe_checkedAdd32.bind fun _ _ =>
    (safe_ensure.bind fun _ _ => safe_checkedMul.bind fun _ _ => safe_checkedAdd.bind fun _ _ =>
      safe_readU32.bind fun _ _ => safe_ok _).bind fun _ _ => safe_validateRef

theorem ExprView.safe_checkOperands {infos : List NodeInfo} {i : Nat} {n : RawNode} {t : Tag} :
    Safe (v.checkOperands infos i n t) := by
  have child : ∀ {k σ}, Safe (v.expectChild infos i n k σ) := safe_expectChild
  cases t with
  | bvVar | bvConst | boolTrue | boolFalse | boolVar => exact safe_ok _
  | bvNot | bvNeg => exact child.bind fun _ _ => safe_ensure
  | bvExtract =>
    have hhi := n.auxHi.toNat_lt
    refine child.bind fun _ _ => safe_ensure.bind fun _ h => ?_
    have hb := ensure_eq_ok.mp h
    rw [subU_of_le (by omega), ok_bind, addU_of_lt (by omega), ok_bind]
    exact safe_ensure
  | bvConcat =>
    exact child.bind fun _ _ => child.bind fun _ _ => safe_checkedAdd32.bind fun _ _ =>
      safe_ensure.bind fun _ _ => safe_ensure
  | bvZext | bvSext =>
    exact child.bind fun _ _ => safe_checkedAdd32.bind fun _ _ =>
      safe_ensure.bind fun _ _ => safe_ensure
  | bvIte =>
    exact child.bind fun _ _ => child.bind fun _ _ => child.bind fun _ _ =>
      safe_ensure.bind fun _ _ => safe_ensure
  | bvSelect =>
    refine Safe.bind (safe_ensure.bind fun _ h => ?_) fun _ _ => child.bind fun _ _ =>
      Safe.bind (safe_forM fun k _ => ?_) fun _ _ => safe_ensure
    · have harity := ensure_eq_ok.mp h
      have hpos : n.arity.toNat ≠ 0 := fun h0 => harity (.inl (UInt8.toNat_inj.mp h0))
      rw [subU_of_le (by omega), ok_bind]
      exact safe_ensure
    · exact child.bind fun _ _ => child.bind fun _ _ => safe_ensure
  | boolNot | negOvf => exact child.bind fun _ _ => safe_ok _
  | boolAnd | boolOr | boolImplies =>
    exact child.bind fun _ _ => child.bind fun _ _ => safe_ok _
  | bvEq | bvUlt | bvUle | bvSlt | bvSle | uaddOvf | saddOvf | usubOvf | ssubOvf | umulOvf
  | smulOvf | sdivOvf =>
    exact child.bind fun _ _ => child.bind fun _ _ => safe_ensure
  | _ =>
    exact child.bind fun _ _ => child.bind fun _ _ => safe_ensure.bind fun _ _ => safe_ensure

theorem IsViewOf.safe_scanNode (hv : IsViewOf v p)
    {st : List NodeInfo × List (String × NodeInfo)} {i : Nat} : Safe (v.scanNode st i) := by
  refine ExprView.safe_node.bind fun n _ => safe_ofOption.bind fun t _ => Safe.bind ?_ fun _ _ =>
    Safe.bind ?_ fun _ _ => Safe.bind ?_ fun _ _ => Safe.bind ?_ fun _ _ => safe_ok _
  · unfold validateArity
    cases t.fixedArity <;> exact safe_ensure
  · unfold validateNodeWidth
    cases t.resultSort <;> exact safe_ensure
  · unfold ExprView.scanSymbol
    split
    · refine hv.safe_blobStr.bind fun s _ => Safe.bind ?_ fun _ _ => safe_ok _
      cases st.2.lookup s with
      | none => exact safe_ok _
      | some e => exact safe_ensure
    · exact safe_ok _
  · unfold ExprView.scanWideConst
    split
    · exact (safe_ensure.bind fun _ _ => safe_ok _).bind fun _ _ =>
        safe_ensure.bind fun _ _ => hv.safe_blobRef.bind fun _ _ => safe_ok _
    · exact safe_ok _

/-- The first pass leaves one entry of `meta` for each node, so the second pass indexes inside
it. -/
theorem IsViewOf.safe_validate (hv : IsViewOf v p) : Safe v.validate := by
  obtain ⟨hs, hlen⟩ := safe_foldlM_range (f := v.scanNode) (s := ([], []))
    (n := v.header.nodeCount.toNat) (I := fun i st => st.1.length = i) rfl
    fun i _ st hi => ⟨hv.safe_scanNode, fun st' h => by
      simp only [ExprView.scanNode, bind_eq_ok, pure_eq, Outcome.ok.injEq] at h
      obtain ⟨_, -, _, -, _, -, _, -, _, -, _, -, rfl⟩ := h
      simp [hi]⟩
  refine hs.bind fun st hst => safe_forM fun i hi => ?_
  have hlt : i < st.1.length := by
    rw [hlen st hst]
    exact List.mem_range.mp hi
  refine ExprView.safe_node.bind fun n _ => ?_
  rw [List.getElem?_eq_getElem hlt, expect_some, ok_bind]
  refine Safe.bind ?_ fun _ _ => ExprView.safe_checkOperands
  unfold validateChildrenRange
  split
  · exact safe_ok _
  · exact safe_checkedAdd32.bind fun _ _ => safe_ensure

end Validate

theorem parseAndValidate_eq_ok {b : List UInt8} {v : ExprView} :
    ExprView.parseAndValidate b = ok v ↔ WellFormed b ∧ v = viewOf b := by
  simp only [ExprView.parseAndValidate, bind_eq_ok, parse_eq_ok, pure_eq, Outcome.ok.injEq]
  constructor
  · rintro ⟨_, ⟨hh, rfl⟩, _, hval, rfl⟩
    exact ⟨⟨hh, (isViewOf_viewOf hh).validate.mp hval⟩, rfl⟩
  · rintro ⟨⟨hh, hdag⟩, rfl⟩
    exact ⟨_, ⟨hh, rfl⟩, (), (isViewOf_viewOf hh).validate.mpr hdag, rfl⟩

theorem safe_parseAndValidate (b : List UInt8) : Safe (ExprView.parseAndValidate b) := by
  refine (safe_parse b).bind fun v hv => ?_
  obtain ⟨hh, rfl⟩ := parse_eq_ok.mp hv
  exact (isViewOf_viewOf hh).safe_validate.bind fun _ _ => safe_ok _

/-- **Expression validation accepts exactly the well-formed buffers**, and no buffer makes it
index out of bounds or overflow. -/
theorem parseAndValidate_ok_iff (b : List UInt8) :
    ((∃ v, ExprView.parseAndValidate b = ok v) ↔ WellFormed b) ∧
      Safe (ExprView.parseAndValidate b) := by
  refine ⟨⟨?_, fun h => ⟨_, parseAndValidate_eq_ok.mpr ⟨h, rfl⟩⟩⟩, safe_parseAndValidate b⟩
  rintro ⟨v, hv⟩
  exact (parseAndValidate_eq_ok.mp hv).1
end Wire
end SmtServer
