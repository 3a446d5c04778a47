import SmtServer.Qfbv.Shortcuts.SimpleProcessorSound

/-!
# Where the processor pass overflows

The width of a packed word is computed in 32 bits, and a query that is not too large can have so many
operators of such a width that it does not fit. The position of a function bit is computed from the
number of its processor: it is negative for a processor whose number is one more than the number of
operators, and no later processor is ever looked at.
-/

namespace SmtServer
namespace Qfbv

open Lib Outcome

namespace Shortcuts

variable {s : Arena} {q : Query} {w : Nat} {operators leaves : List TermId} {opcode : TermId}
  {processor : SimpleProcessor}

/-! ## Widths -/

/-- The first processor is complete up to its packed word, and that would be too wide. -/
def WidthOverflows (s : Arena) : Prop :=
  ∃ opcode operators w vars rest processor, (processorTables s).opcode = some opcode ∧
    contiguousTerms (processorTables s).operators = operators ∧ operators ≠ [] ∧
    (∀ t ∈ operators, s.IsBv t w) ∧ (processorTables s).processors = (1, vars) :: rest ∧
    processorOfVars s operators w 1 vars = ok (some processor) ∧ 2 ^ 32 ≤ w * operators.length + 1

section Widths

variable (hs : s.Inv) (hn : operators.length < 2 ^ 32)
include hs hn

theorem completeProcessors_returns (hw : w * operators.length + 1 < 2 ^ 32) {expectedIndex : Nat}
    {entries : List (Nat × SimpleProcessorVars)} (hentries : ∀ e ∈ entries, e.2.Named s e.1) :
    Returns (completeProcessors s operators w expectedIndex entries) := by
  induction entries generalizing expectedIndex with
  | nil => exact returns_ok _
  | cons e rest ih =>
    obtain ⟨index, vars⟩ := e
    rw [List.forall_mem_cons] at hentries
    rw [completeProcessors]
    split_ifs
    · exact returns_ok none
    · have hone : Returns (completeProcessor s operators w index vars) := by
        rcases completeProcessor_cases (w := w) hs hn hentries.1 with ⟨-, -, hwide, -⟩ | ⟨-, hans⟩
        · omega
        · exact hans.returns
      refine hone.bind fun o _ => ?_
      cases o with
      | none => exact returns_ok none
      | some p =>
        refine (ih hentries.2).bind fun o _ => ?_
        cases o with
        | none => exact returns_ok none
        | some complete => exact returns_ok _

end Widths

/-- The collection returns, or the width of a packed word overflows. -/
theorem collectSimpleProcessorVars_cases (hs : s.Inv) (hlen : s.nodes.length < 2 ^ 32) :
    (WidthOverflows s ∧ collectSimpleProcessorVars s = panic) ∨
      (¬WidthOverflows s ∧ Returns (collectSimpleProcessorVars s)) := by
  have hnamed := processorTables_named s
  have hn := contiguousTerms_operators hs hlen
  rw [collectSimpleProcessorVars]
  unfold WidthOverflows
  generalize processorTables s = tables at hnamed hn ⊢
  obtain ⟨o, operators, processors⟩ := tables
  dsimp only at hn ⊢
  cases o with
  | none => exact .inr ⟨by simp, returns_ok none⟩
  | some opcode =>
    have hterms : ∀ t ∈ contiguousTerms operators, ∃ σ, s.sortAt t = some σ := fun t ht => by
      obtain ⟨i, hi⟩ := List.getElem?_of_mem ht
      exact (hnamed.operators _ (contiguousTerms_getElem hi)).exists_sort hs
    generalize contiguousTerms operators = terms at hn hterms ⊢
    cases terms with
    | nil => exact .inr ⟨by simp, returns_ok none⟩
    | cons first others =>
      obtain ⟨σ, hσ⟩ := hterms first List.mem_cons_self
      dsimp only
      rw [Arena.sort_eq_ok.mpr hσ, ok_bind]
      cases σ with
      | bool =>
        refine .inr ⟨?_, returns_ok none⟩
        rintro ⟨-, -, v, -, -, -, -, rfl, -, hv, -⟩
        have hbool := hσ.symm.trans (hv first List.mem_cons_self)
        cases hbool
      | bv w =>
        have hwidth : ∀ {v}, (∀ t ∈ first :: others, s.IsBv t v) → v = w := fun hv =>
          (hv first List.mem_cons_self).inj hσ
        dsimp only
        by_cases hall : (first :: others).all (hasWidth s w) = true
        · rw [hall, if_neg (by simp)]
          cases processors with
          | nil => exact .inr ⟨by simp, returns_ok none⟩
          | cons e rest =>
            obtain ⟨index, vars⟩ := e
            have hvars : vars.Named s index := hnamed.processors _ List.mem_cons_self
            by_cases hindex : index = 1
            · subst hindex
              rcases completeProcessor_cases (w := w) hs hn hvars with
                ⟨p, hp, hwide, hpanic⟩ | ⟨hsmall, o, ho, -⟩
              · refine .inl ⟨⟨opcode, _, w, vars, rest, p, rfl, rfl, by simp, hasWidth_eq.mp hall, rfl,
                  hp, hwide⟩, ?_⟩
                rw [completeProcessors, if_neg (by simp), hpanic]
                rfl
              · refine .inr ⟨?_, ?_⟩
                · rintro ⟨_, _, v, _, _, p, _, rfl, _, hv, hcons, hp, hwide⟩
                  obtain ⟨hhead, -⟩ := List.cons.inj hcons
                  obtain rfl := (Prod.mk.inj hhead).2
                  obtain rfl := hwidth hv
                  exact absurd (hsmall p hp) (Nat.not_lt.mpr hwide)
                · cases o with
                  | none =>
                    rw [completeProcessors, if_neg (by simp), ho]
                    exact returns_ok none
                  | some p =>
                    obtain ⟨o', ho', h⟩ := bind_eq_ok.mp ho
                    cases o' with
                    | none => cases h
                    | some p' =>
                      refine (completeProcessors_returns hs hn (hsmall p' ho')
                        hnamed.processors).bind fun found _ => ?_
                      cases found with
                      | none => exact returns_ok none
                      | some complete =>
                        dsimp only
                        split_ifs
                        · exact returns_ok none
                        · exact returns_ok _
            · refine .inr ⟨?_, ?_⟩
              · rintro ⟨_, _, _, _, _, _, _, _, _, _, hcons, _⟩
                exact hindex (Prod.mk.inj (List.cons.inj hcons).1).1
              · rw [completeProcessors, if_pos (by simpa using hindex)]
                exact returns_ok none
        · rw [Bool.not_eq_true] at hall
          rw [hall, if_pos (by simp)]
          refine .inr ⟨?_, returns_ok none⟩
          rintro ⟨-, -, v, -, -, -, -, rfl, -, hv, -⟩
          obtain rfl := hwidth hv
          exact absurd (hasWidth_eq.mpr hv) (by rw [hall]; simp)

/-! ## Positions -/

/-- A definition of the packed word whose first branch is the one that the pass looks for. -/
def PacksNormally (s : Arena) (processor : SimpleProcessor) (leaf : TermId) : Prop :=
  ∃ cond thenValue elseValue fields, s.kindAt leaf = some (.boolIte cond thenValue elseValue) ∧
    matchesModeZero s cond processor.mode = ok true ∧
    simpleProcessorNormalFields processor = ok fields ∧
    matchesEqToConcat s thenValue processor.decode fields = ok true

/-- The tests get to a processor whose number is greater than that of the operators, and there to the
fields in the other order. -/
def PositionUnderflows (q : Query) : Prop :=
  ∃ found leaves before processor after, collectSimpleProcessorVars q.arena = ok (some found) ∧
    2 ≤ found.operators.length ∧ conjuncts q = ok leaves ∧
    hasSimpleProcessorFinalDisjunction q.arena leaves found.processors = ok true ∧
    found.processors = before ++ processor :: after ∧ before.length = found.operators.length ∧
    (∀ p ∈ before, processorMatches q.arena leaves found.opcode found.operators p = ok true) ∧
    processorDecodes q.arena leaves found.opcode found.operators processor = ok true ∧
    ∃ leaf ∈ leaves, PacksNormally q.arena processor leaf

section Positions

variable (hs : s.Inv) (hp : processor.Known s w operators.length)
  (hops : ∀ t ∈ operators, s.IsBv t w) (hne : operators ≠ [])
  (hleaves : ∀ leaf ∈ leaves, s.sortAt leaf = some .bool)
include hs hp hleaves

section Decodes

include hops hne

theorem processorDecodes_returns : Returns (processorDecodes s leaves opcode operators processor) := by
  have hpos : 0 < operators.length := List.length_pos_of_ne_nil hne
  obtain ⟨opr, hopr⟩ : ∃ opr, processor.oprs[0]? = some opr :=
    ⟨_, List.getElem?_eq_getElem (hp.oprs_length.symm ▸ hpos)⟩
  obtain ⟨operator, hoperator⟩ : ∃ operator, operators[0]? = some operator :=
    ⟨_, List.getElem?_eq_getElem hpos⟩
  rw [processorDecodes, hopr, expect_some, ok_bind, hoperator, expect_some, ok_bind]
  have hdecoder : ∀ inverse,
      Returns (hasSimpleProcessorDecoder s leaves processor opcode operators inverse) :=
    fun inverse => returns_anyM fun leaf hleaf =>
      (matchesSimpleProcessorDecoder_answers hs hp hops (hleaves leaf hleaf) hne).returns
  have hequal : Returns (hasBvEqLeaf s leaves opr operator) :=
    returns_anyM fun leaf hleaf => (matchesBvEqPair_answers hs (hleaves leaf hleaf)).returns
  exact hequal.and fun _ => (hdecoder false).and fun _ => hdecoder true

/-- The tests of a processor whose number is not too great end. -/
theorem processorMatches_returns (hpos : 1 ≤ processor.index)
    (hle : processor.index ≤ operators.length) (hlen : operators.length < 2 ^ 32) :
    Returns (processorMatches s leaves opcode operators processor) := by
  rw [← hp.oprs_length] at hle hlen
  obtain ⟨normal, hnormal, hpn⟩ := simpleProcessorNormalFields_answers hpos (Nat.le_succ_of_le hle)
  obtain ⟨reverse, hreverse, hpr⟩ := simpleProcessorReverseFields_answers hpos hle hlen
  have hpack : Returns (hasSimpleProcessorPackDefinition s leaves processor) :=
    returns_anyM fun leaf hleaf => (matchesSimpleProcessorPackDefinition_answers hs
      (hleaves leaf hleaf) hnormal hreverse).returns
  have hunpack : Returns (hasSimpleProcessorUnpackDefinition s leaves processor) :=
    returns_anyM fun leaf hleaf => (matchesSimpleProcessorUnpackDefinition_answers hs hp
      (hleaves leaf hleaf) hnormal hreverse hpn hpr).returns
  have hout : Returns (hasSimpleProcessorOutputDefinition s leaves processor) :=
    returns_anyM fun leaf hleaf =>
      (matchesSimpleProcessorOutputDefinition_answers hs hp (hleaves leaf hleaf)).returns
  exact (processorDecodes_returns hs hp hops hne hleaves).and fun _ =>
    hpack.and fun _ => hunpack.and fun _ => hout

end Decodes

/-- Of a processor whose number is one too great no definition of the packed word is found: the
position of the function bit in the other order is negative. -/
theorem matchesPack_of_next (hindex : processor.index = operators.length + 1) {leaf : TermId}
    (hleaf : leaf ∈ leaves) :
    (matchesSimpleProcessorPackDefinition s leaf processor = ok false ∧
        ¬PacksNormally s processor leaf) ∨
      (matchesSimpleProcessorPackDefinition s leaf processor = panic ∧
        PacksNormally s processor leaf) := by
  obtain ⟨normal, hnormal, -⟩ : Answers (simpleProcessorNormalFields processor) _ :=
    simpleProcessorNormalFields_answers (by omega) (by rw [hp.oprs_length]; omega)
  have hreverse : simpleProcessorReverseFields processor = panic := by
    rw [simpleProcessorReverseFields, subU, if_neg (by rw [hp.oprs_length]; omega), panic_bind]
  obtain ⟨k, hkind, hk⟩ := kind_answers (hleaves leaf hleaf)
  rw [matchesSimpleProcessorPackDefinition, hkind, ok_bind]
  unfold PacksNormally
  simp only [hk, hnormal, hreverse, ok_bind, panic_bind]
  cases k with
  | boolIte cond thenValue elseValue =>
    obtain ⟨-, hc, ha, -⟩ := hs.sort_kind hk (hleaves leaf hleaf)
    obtain ⟨zero, hzero⟩ : Returns (matchesModeZero s cond processor.mode) :=
      (matchesModeZero_answers hs hc).returns
    obtain ⟨packs, hpacks⟩ : Returns (matchesEqToConcat s thenValue processor.decode normal) :=
      (matchesEqToConcat_answers hs ha).returns
    cases zero with
    | false =>
      refine .inl ⟨by simp only [hzero, andM, ok_bind]; rfl, ?_⟩
      rintro ⟨cond', _, _, _, heq, hzero', -⟩
      simp only [Option.some.injEq, NodeKind.boolIte.injEq] at heq
      obtain ⟨rfl, -⟩ := heq
      cases hzero.symm.trans hzero'
    | true =>
      cases packs with
      | false =>
        refine .inl ⟨by simp only [hzero, hpacks, andM, ok_bind]; rfl, ?_⟩
        rintro ⟨_, then', _, fields, heq, -, hfields, hpacks'⟩
        simp only [Option.some.injEq, NodeKind.boolIte.injEq] at heq
        obtain ⟨-, rfl, -⟩ := heq
        obtain rfl := Outcome.ok.inj hfields
        cases hpacks.symm.trans hpacks'
      | true =>
        exact .inr ⟨by simp only [hzero, hpacks, andM, ok_bind]; rfl, cond, thenValue, elseValue,
          normal, rfl, hzero, rfl, hpacks⟩
  | _ => exact .inl ⟨rfl, by simp⟩

/-- The tests of that processor panic where they get as far as that. -/
theorem processorMatches_of_next (hops : ∀ t ∈ operators, s.IsBv t w) (hne : operators ≠ [])
    (hindex : processor.index = operators.length + 1) :
    Safe (processorMatches s leaves opcode operators processor) ↔
      ¬(processorDecodes s leaves opcode operators processor = ok true ∧
        ∃ leaf ∈ leaves, PacksNormally s processor leaf) := by
  have hpack := fun leaf (hleaf : leaf ∈ leaves) => matchesPack_of_next hs hp hleaves hindex hleaf
  obtain ⟨decodes, hdecodes⟩ : Returns (processorDecodes s leaves opcode operators processor) :=
    processorDecodes_returns hs hp hops hne hleaves
  rw [processorMatches, hdecodes]
  cases decodes with
  | false => simp [andM, toBool]
  | true =>
    rcases anyM_of_fails (fun leaf hleaf => (hpack leaf hleaf).imp And.left And.left) with
      ⟨hany, hall⟩ | ⟨hany, leaf, hleaf, hpanic⟩
    · refine ⟨fun _ => ?_, fun _ => ?_⟩
      · rintro ⟨-, leaf, hleaf, hpacks⟩
        rcases hpack leaf hleaf with ⟨-, hnot⟩ | ⟨hpanic, -⟩
        · exact hnot hpacks
        · cases hpanic.symm.trans (hall leaf hleaf)
      · rw [hasSimpleProcessorPackDefinition, hany]
        exact safe_ok false
    · refine ⟨fun h => ?_, fun h => ?_⟩
      · rw [hasSimpleProcessorPackDefinition, hany] at h
        exact absurd rfl h
      · rcases hpack leaf hleaf with ⟨hfalse, -⟩ | ⟨-, hpacks⟩
        · cases hpanic.symm.trans hfalse
        · exact absurd ⟨rfl, leaf, hleaf, hpacks⟩ h

end Positions

/-! ## The pass -/

/-- Of the processors one by one: the number of each is its place. -/
theorem processors_safe_iff {found : SimpleProcessorCollection} (hs : q.arena.Inv)
    (hknown : found.Known q.arena w) (hne : found.operators ≠ [])
    (hleaves : ∀ leaf ∈ leaves, q.arena.sortAt leaf = some .bool) :
    Safe (found.processors.allM (processorMatches q.arena leaves found.opcode found.operators)) ↔
      ∀ before processor after, found.processors = before ++ processor :: after →
        before.length = found.operators.length →
        (∀ p ∈ before, processorMatches q.arena leaves found.opcode found.operators p = ok true) →
        ¬(processorDecodes q.arena leaves found.opcode found.operators processor = ok true ∧
          ∃ leaf ∈ leaves, PacksNormally q.arena processor leaf) := by
  have hplace : ∀ before processor after, found.processors = before ++ processor :: after →
      processor.index = before.length + 1 ∧
        processor.Known q.arena w found.operators.length := by
    intro before processor after hsplit
    have hget : found.processors[before.length]? = some processor := by simp [hsplit]
    exact ⟨hknown.index _ _ hget, hknown.processors _ (List.mem_of_getElem? hget)⟩
  rw [safe_allM_iff]
  constructor
  · intro h before processor after hsplit hlen hbefore
    obtain ⟨hindex, hp⟩ := hplace before processor after hsplit
    exact (processorMatches_of_next hs hp hleaves hknown.operators hne (hlen ▸ hindex)).mp
      (h before processor after hsplit hbefore)
  · intro h before processor after hsplit hbefore
    obtain ⟨hindex, hp⟩ := hplace before processor after hsplit
    rcases Nat.lt_trichotomy before.length found.operators.length with hlt | heq | hgt
    · exact (processorMatches_returns hs hp hknown.operators hne hleaves (by omega) (by omega)
        hknown.operators_length).safe
    · exact (processorMatches_of_next hs hp hleaves hknown.operators hne (heq ▸ hindex)).mpr
        (h before processor after hsplit heq hbefore)
    · -- an earlier processor has a number that is too great already
      have hnext := List.getElem?_eq_getElem hgt
      have hget : found.processors[found.operators.length]? =
          some before[found.operators.length] := by
        rw [hsplit, List.getElem?_append_left hgt, hnext]
      have hindex' := hknown.index _ _ hget
      have hle := index_le_of_matches (hbefore _ (List.mem_of_getElem? hnext))
      rw [(hknown.processors _ (List.mem_of_getElem? hget)).oprs_length] at hle
      omega

/-- The pass does not panic, except where a width or a position overflows. -/
theorem simple_processor_is_safe_iff {q : Query} (hq : q.WellFormed) :
    Safe (hasSimpleProcessorEquivalenceContradiction q) ↔
      ¬((q.assumptions = [] ∧ q.arena.nodes.length ≤ 200000) ∧
        (WidthOverflows q.arena ∨ PositionUnderflows q)) := by
  have hs := hq.arena
  rw [hasSimpleProcessorEquivalenceContradiction]
  by_cases hguard : q.assumptions ≠ [] ∨ q.arena.nodes.length > 200000
  · rw [if_pos hguard]
    refine iff_of_true (safe_ok false) ?_
    rintro ⟨⟨hempty, hlen⟩, -⟩
    rcases hguard with h | h
    · exact h hempty
    · omega
  rw [if_neg hguard]
  rw [not_or, not_not, Nat.not_lt] at hguard
  obtain ⟨leaves, hleaves, hsorts, htrue⟩ := conjuncts_answers hq
  rcases collectSimpleProcessorVars_cases hs (by omega) with ⟨hwide, hpanic⟩ | ⟨hnarrow, o, ho⟩
  · rw [hpanic, panic_bind]
    exact iff_of_false not_safe_panic fun h => h ⟨hguard, .inl hwide⟩
  rw [ho, ok_bind, or_iff_right hnarrow]
  unfold PositionUnderflows
  simp only [ho, hleaves, ok_bind, Outcome.ok.injEq, hguard, and_true, true_and]
  cases o with
  | none => simp
  | some found =>
    obtain ⟨w, hknown⟩ := collectSimpleProcessorVars_eq hs (by omega) ho
    dsimp only
    by_cases hcount : found.processors.length < 2 ∨ found.operators.length < 2
    · rw [if_pos hcount]
      refine iff_of_true (safe_ok false) ?_
      rintro ⟨found', leaves', before, p, after, hfound, htwo, -, -, hsplit, hlen, -⟩
      obtain rfl := Option.some.inj hfound
      rw [hsplit, List.length_append, List.length_cons] at hcount
      omega
    rw [if_neg hcount]
    rw [not_or, Nat.not_lt, Nat.not_lt] at hcount
    obtain ⟨differs, hdiffers⟩ : Returns
        (hasSimpleProcessorFinalDisjunction q.arena leaves found.processors) :=
      (finalDisjunctionLoop_answers hs (fun _ => False) hsorts (by simp) (by simp)).returns
    rw [hdiffers, ok_bind]
    cases differs with
    | false =>
      refine iff_of_true (safe_ok false) ?_
      rintro ⟨found', leaves', before, p, after, hfound, -, hleaves', hfinal, -⟩
      obtain rfl := Option.some.inj hfound
      subst hleaves'
      cases hdiffers.symm.trans hfinal
    | true =>
      rw [if_neg (by simp), processors_safe_iff hs hknown (List.ne_nil_of_length_pos (by omega)) hsorts]
      constructor
      · rintro h ⟨found', leaves', before, p, after, hfound, -, hleaves', -, hsplit, hlen, hbefore,
          hdecodes, hpacks⟩
        obtain rfl := Option.some.inj hfound
        subst hleaves'
        exact h before p after hsplit hlen hbefore ⟨hdecodes, hpacks⟩
      · rintro h before p after hsplit hlen hbefore ⟨hdecodes, hpacks⟩
        exact h ⟨found, leaves, before, p, after, rfl, hcount.2, rfl, hdiffers, hsplit, hlen, hbefore,
          hdecodes, hpacks⟩

/-- The processors of the other example, and a third one. -/
def tooManyProcessors : Query := .asserting (processorShared ++ writtenProcessor 11 1 "1" ++
    writtenProcessor 70 2 "2" ++ writtenProcessor 129 3 "3" ++
    [⟨.bvEq 11 70, .bool⟩, ⟨.bvEq 12 71, .bool⟩, ⟨.boolNot 189, .bool⟩])
  (writtenRoots 11 ++ writtenRoots 70 ++ writtenRoots 129 ++ [188, 190])

theorem tooManyProcessors_wellFormed : tooManyProcessors.WellFormed :=
  Query.wellFormed_of_check
    ⟨by decide +kernel, nodup_of_codes nodeCode (by decide +kernel), by decide +kernel⟩
    (by decide)

theorem tooManyProcessors_panics :
    hasSimpleProcessorEquivalenceContradiction tooManyProcessors = panic := by decide +kernel

theorem simple_processor_of_too_many :
    ∃ q : Query, q.WellFormed ∧ ¬Safe (hasSimpleProcessorEquivalenceContradiction q) := by
  refine ⟨tooManyProcessors, tooManyProcessors_wellFormed, ?_⟩
  rw [tooManyProcessors_panics]
  exact not_safe_panic

theorem simple_processor_positions_of_too_many :
    WidthOverflows tooManyProcessors.arena ∨ PositionUnderflows tooManyProcessors := by
  have hpanic : ¬Safe (hasSimpleProcessorEquivalenceContradiction tooManyProcessors) := by
    rw [tooManyProcessors_panics]
    exact not_safe_panic
  exact (not_not.mp (mt (simple_processor_is_safe_iff tooManyProcessors_wellFormed).mpr hpanic)).2

end Shortcuts
end Qfbv
end SmtServer
