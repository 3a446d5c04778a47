import SmtServer.Qfbv.Shortcuts.SimpleProcessor

/-!
# Processors: variables and decoders

What is known of the variables comes from their names: a variable has one role, so no operand is
packed where the function bit is. What is known of the terms that the pass looks at is what they say
where they are true; a decoder says what the operands of a processor are, whatever the opcode is.
-/

namespace SmtServer
namespace Qfbv

open Lib Outcome

namespace Shortcuts

variable {s : Arena} {q : Query} {ρ : Env} {t a b c : TermId} {w n : Nat}

/-! ## Variables and their roles -/

/-- The term is a variable that the pass takes for this. -/
def HasRole (s : Arena) (t : TermId) (role : VariableRole) : Prop :=
  ∃ k, s.kindAt t = some k ∧ roleOf k = some role

theorem HasRole.inj {role role' : VariableRole} (h : HasRole s t role) (h' : HasRole s t role') :
    role = role' := by
  obtain ⟨k, hk, h⟩ := h
  obtain ⟨k', hk', h'⟩ := h'
  rw [hk, Option.some.injEq] at hk'
  subst hk'
  exact Option.some.inj (h.symm.trans h')

theorem HasRole.exists_sort {role : VariableRole} (hs : s.Inv) (h : HasRole s t role) :
    ∃ σ, s.sortAt t = some σ := by
  obtain ⟨k, hk, -⟩ := h
  obtain ⟨σ, hσ, -⟩ := hs.hasSort hk
  exact ⟨σ, hσ⟩

namespace SimpleProcessorVars

/-- The term that stands in a place of the record. -/
def Has (vars : SimpleProcessorVars) (t : TermId) : ProcessorRole → Prop
  | .mode => vars.mode = some t
  | .out => vars.out = some t
  | .func => vars.func = some t
  | .decode => vars.decode = some t
  | .decFunc => vars.decFunc = some t
  | .deciFunc => vars.deciFunc = some t
  | .ops operand => (operand, t) ∈ vars.ops
  | .oprs operand => (operand, t) ∈ vars.oprs

/-- Every place is taken by a variable of that role. -/
def Named (s : Arena) (index : Nat) (vars : SimpleProcessorVars) : Prop :=
  ∀ t role, vars.Has t role → HasRole s t (.processor index role)

theorem named_default (index : Nat) : Named s index default := by
  intro t role h
  cases role <;> cases h

theorem mem_insertTerm {map : List (Nat × TermId)} {index index' : Nat} {t' : TermId}
    (h : (index', t') ∈ insertTerm index t map) : (index', t') ∈ map ∨ (index' = index ∧ t' = t) :=
  Table.forall_alter (P := fun i u => (i, u) ∈ map ∨ (i = index ∧ u = t))
    (fun _ he => .inl he) (fun _ _ => .inr ⟨rfl, rfl⟩) _ h

/-- What is in the record after a variable was put into it. -/
theorem has_set {vars : SimpleProcessorVars} {role role' : ProcessorRole} {t' : TermId}
    (h : (vars.set t role).Has t' role') : vars.Has t' role' ∨ (role' = role ∧ t' = t) := by
  have hnew : ∀ {o : Option TermId}, some t = o → o = some t' → t' = t := by
    rintro o rfl h
    exact (Option.some.inj h).symm
  cases role with
  | ops operand =>
    cases role' with
    | ops operand' => exact (mem_insertTerm h).imp_right fun h => ⟨congrArg _ h.1, h.2⟩
    | _ => exact .inl h
  | oprs operand =>
    cases role' with
    | oprs operand' => exact (mem_insertTerm h).imp_right fun h => ⟨congrArg _ h.1, h.2⟩
    | _ => exact .inl h
  | _ =>
    cases role' with
    | ops _ | oprs _ => exact .inl h
    | _ => first | exact .inr ⟨rfl, hnew rfl h⟩ | exact .inl h

theorem Named.set {vars : SimpleProcessorVars} {index : Nat} {role : ProcessorRole}
    (h : vars.Named s index) (ht : HasRole s t (.processor index role)) :
    (vars.set t role).Named s index := by
  intro t' role' h'
  rcases has_set h' with h' | ⟨rfl, rfl⟩
  · exact h t' role' h'
  · exact ht

end SimpleProcessorVars

/-- Every variable that was found has the role it was found in. -/
structure ProcessorTables.Named (s : Arena) (tables : ProcessorTables) : Prop where
  opcode : ∀ t ∈ tables.opcode, HasRole s t .opcode
  operators : ∀ e ∈ tables.operators, HasRole s e.2 (.operator e.1)
  processors : ∀ e ∈ tables.processors, e.2.Named s e.1

theorem ProcessorTables.Named.set {tables : ProcessorTables} {role : VariableRole}
    (h : tables.Named s) (ht : HasRole s t role) : (tables.set t role).Named s := by
  cases role with
  | opcode =>
    refine ⟨?_, h.operators, h.processors⟩
    rintro t' ⟨⟩
    exact ht
  | operator index =>
    exact ⟨h.opcode, Table.forall_alter (P := fun i u => HasRole s u (.operator i)) h.operators
      fun _ _ => ht, h.processors⟩
  | processor index role =>
    refine ⟨h.opcode, h.operators, Table.forall_alter
      (P := fun i vars => SimpleProcessorVars.Named s i vars) h.processors fun o ho => ?_⟩
    cases o with
    | none => exact (SimpleProcessorVars.named_default index).set ht
    | some vars => exact (ho vars rfl).set ht

/-- A step of `processorTables`. -/
def recordRole (tables : ProcessorTables) (row : Node × Nat) : ProcessorTables :=
  match roleOf row.1.kind with
  | some role => tables.set row.2 role
  | none => tables

theorem processorTables_named (s : Arena) : (processorTables s).Named s := by
  have key : ∀ (nodes : List (Node × Nat)) (tables : ProcessorTables), tables.Named s →
      (∀ p ∈ nodes, s.kindAt p.2 = some p.1.kind) →
      (nodes.foldl recordRole tables).Named s := by
    intro nodes
    induction nodes with
    | nil => exact fun tables h _ => h
    | cons p nodes ih =>
      obtain ⟨node, term⟩ := p
      intro tables h hnodes
      rw [List.forall_mem_cons] at hnodes
      rw [List.foldl_cons]
      refine ih _ ?_ hnodes.2
      unfold recordRole
      dsimp only
      cases hrole : roleOf node.kind with
      | none => exact h
      | some role => exact h.set ⟨_, hnodes.1, hrole⟩
  refine key _ _ ⟨by simp, by simp, by simp⟩ fun p hp => ?_
  rw [Arena.kindAt, (List.mem_zipIdx_iff_getElem?.mp hp)]
  rfl

/-- Terms whose numbers are contiguous, by their numbers. -/
theorem contiguousTerms_getElem {map : List (Nat × TermId)} {i : Nat}
    (h : (contiguousTerms map)[i]? = some t) : (i + 1, t) ∈ map := by
  rw [contiguousTerms] at h
  split at h
  · rename_i hall
    rw [List.getElem?_map, Option.map_eq_some_iff] at h
    obtain ⟨⟨index, t'⟩, hget, rfl⟩ := h
    have hindex := List.all_eq_true.mp hall ((index, t'), i) (List.mem_zipIdx_iff_getElem?.mpr hget)
    obtain rfl : index = i + 1 := of_decide_eq_true hindex
    exact List.mem_of_getElem? hget
  · cases h

/-- Terms of different numbers have different roles. -/
theorem contiguousTerms_nodup {map : List (Nat × TermId)} {role : Nat → VariableRole}
    (hrole : ∀ i t, (i, t) ∈ map → HasRole s t (role i)) (hinj : ∀ i j, role i = role j → i = j) :
    (contiguousTerms map).Nodup := by
  rw [List.nodup_iff_getElem?_ne_getElem?]
  intro i j hij hj heq
  have ht := List.getElem?_eq_getElem hj
  have hi := hrole _ _ (contiguousTerms_getElem (heq.trans ht))
  have hnum := hinj _ _ (hi.inj (hrole _ _ (contiguousTerms_getElem ht)))
  omega

/-! ## Processors -/

/-- What is known of a processor whose tests were passed: `n` operands of width `w`, and a word
that they and a bit fit into exactly. -/
structure SimpleProcessor.Known (s : Arena) (w n : Nat) (processor : SimpleProcessor) : Prop where
  mode : s.IsBv processor.mode 1
  func : s.IsBv processor.func 1
  decFunc : s.IsBv processor.decFunc 1
  deciFunc : s.IsBv processor.deciFunc 1
  out : s.IsBv processor.out w
  decode : s.IsBv processor.decode (w * n + 1)
  ops : ∀ t ∈ processor.ops, s.IsBv t w
  oprs : ∀ t ∈ processor.oprs, s.IsBv t w
  ops_length : processor.ops.length = n
  oprs_length : processor.oprs.length = n
  nodup : processor.oprs.Nodup
  decFunc_notMem : processor.decFunc ∉ processor.oprs
  deciFunc_notMem : processor.deciFunc ∉ processor.oprs

theorem hasWidth_eq {operators : List TermId} :
    operators.all (hasWidth s w) = true ↔ ∀ t ∈ operators, s.IsBv t w := by
  simp only [List.all_eq_true, hasWidth, decide_eq_true_eq, Arena.sort_eq_ok, Arena.IsBv]

/-- The record that the tests up to the width of the packed word were made of. -/
structure SimpleProcessor.OfVars (s : Arena) (w n index : Nat) (vars : SimpleProcessorVars)
    (processor : SimpleProcessor) : Prop where
  index : processor.index = index
  has_decFunc : vars.Has processor.decFunc .decFunc
  has_deciFunc : vars.Has processor.deciFunc .deciFunc
  has_decode : vars.Has processor.decode .decode
  ops_eq : processor.ops = contiguousTerms vars.ops
  oprs_eq : processor.oprs = contiguousTerms vars.oprs
  ops_length : processor.ops.length = n
  oprs_length : processor.oprs.length = n
  mode : s.IsBv processor.mode 1
  func : s.IsBv processor.func 1
  decFunc : s.IsBv processor.decFunc 1
  deciFunc : s.IsBv processor.deciFunc 1
  out : s.IsBv processor.out w

theorem processorOfVars_answers (hs : s.Inv) (w : Nat) (operators : List TermId) {index : Nat}
    {vars : SimpleProcessorVars} (hvars : vars.Named s index) :
    Answers (processorOfVars s operators w index vars) fun o =>
      ∀ processor, o = some processor → processor.OfVars s w operators.length index vars := by
  have key : ∀ {t d} (role : ProcessorRole) {f : Result (Option SimpleProcessor)}
      {Q : SimpleProcessor → Prop}, vars.Has t role →
      (s.sortAt t = some d → Answers f fun o => ∀ p, o = some p → Q p) →
      Answers (do
        if (← s.sort t) ≠ d then return none
        f) fun o => ∀ p, o = some p → Q p := by
    intro t d role f Q ht hf
    obtain ⟨σ, hσ⟩ := (hvars t role ht).exists_sort hs
    refine (sort_answers hσ).bind ?_
    rintro σ' rfl
    split_ifs with hne
    · exact answers_none
    · rw [not_not] at hne
      exact hf (hne ▸ hσ)
  rw [processorOfVars]
  split
  · rename_i mode out func decode decFunc deciFunc hmode hout hfunc hdecode hdec hdeci
    dsimp only
    split_ifs with hlen
    · exact answers_none
    · rw [not_or, not_not, not_not] at hlen
      refine key .mode hmode fun hmode' => ?_
      refine key .func hfunc fun hfunc' => ?_
      refine key .decFunc hdec fun hdec' => ?_
      refine key .deciFunc hdeci fun hdeci' => ?_
      refine key .out hout fun hout' => ?_
      exact answers_some ⟨rfl, hdec, hdeci, hdecode, rfl, rfl, hlen.1, hlen.2, hmode', hfunc', hdec',
        hdeci', hout'⟩
  · exact answers_none

section Complete

variable (hs : s.Inv) {operators : List TermId} (hn : operators.length < 2 ^ 32)
include hs hn

/-- A processor is complete, or its packed word is too wide. -/
theorem completeProcessor_cases {index : Nat} {vars : SimpleProcessorVars}
    (hvars : vars.Named s index) :
    (∃ processor, processorOfVars s operators w index vars = ok (some processor) ∧
      2 ^ 32 ≤ w * operators.length + 1 ∧ completeProcessor s operators w index vars = panic) ∨
    ((∀ processor, processorOfVars s operators w index vars = ok (some processor) →
        w * operators.length + 1 < 2 ^ 32) ∧
      Answers (completeProcessor s operators w index vars) fun o =>
        ∀ processor, o = some processor →
          processor.index = index ∧ processor.Known s w operators.length) := by
  obtain ⟨o, ho, hof⟩ := processorOfVars_answers hs w operators hvars
  rw [completeProcessor, ho, ok_bind]
  cases o with
  | none => exact .inr ⟨fun p hp => (nomatch hp), answers_none⟩
  | some p =>
    have hp := hof p rfl
    obtain ⟨σ, hσ⟩ := (hvars _ _ hp.has_decode).exists_sort hs
    dsimp only
    rw [Arena.sort_eq_ok.mpr hσ, ok_bind, Nat.mod_eq_of_lt hn]
    by_cases hwide : 2 ^ 32 ≤ w * operators.length + 1
    · refine .inl ⟨p, rfl, hwide, ?_⟩
      by_cases hmul : w * operators.length < 2 ^ 32
      · rw [mulU_of_lt hmul, ok_bind, addU, if_neg (Nat.not_lt.mpr hwide), panic_bind]
      · rw [mulU, if_neg hmul, panic_bind]
    · rw [Nat.not_le] at hwide
      rw [mulU_of_lt (by omega), ok_bind, addU_of_lt hwide, ok_bind]
      refine .inr ⟨fun _ _ => hwide, ?_⟩
      split_ifs with hpacked hwidths
      · exact answers_none
      · rw [not_not] at hpacked
        subst hpacked
        simp only [hasWidth_eq, List.forall_mem_append] at hwidths
        have hrole : ∀ i t, (i, t) ∈ vars.oprs → HasRole s t (.processor index (.oprs i)) :=
          fun i t h => hvars t (.oprs i) h
        have hnotMem : ∀ {t role}, vars.Has t role → (∀ i, role ≠ .oprs i) → t ∉ p.oprs := by
          intro t role ht hne hmem
          rw [hp.oprs_eq] at hmem
          obtain ⟨i, hi⟩ := List.getElem?_of_mem hmem
          have := (hvars t role ht).inj (hrole _ t (contiguousTerms_getElem hi))
          rw [VariableRole.processor.injEq] at this
          exact hne _ this.2
        refine answers_some ⟨hp.index, hp.mode, hp.func, hp.decFunc, hp.deciFunc, hp.out, hσ,
          hwidths.1, hwidths.2, hp.ops_length, hp.oprs_length, ?_, hnotMem hp.has_decFunc (by simp),
          hnotMem hp.has_deciFunc (by simp)⟩
        rw [hp.oprs_eq]
        exact contiguousTerms_nodup hrole fun i j h => by simpa using h
      · exact answers_none

theorem completeProcessors_eq {expectedIndex : Nat} {entries : List (Nat × SimpleProcessorVars)}
    (hentries : ∀ e ∈ entries, e.2.Named s e.1) {processors : List SimpleProcessor}
    (h : completeProcessors s operators w expectedIndex entries = ok (some processors)) :
    (∀ p ∈ processors, p.Known s w operators.length) ∧
      ∀ i p, processors[i]? = some p → p.index = expectedIndex + i + 1 := by
  induction entries generalizing expectedIndex processors with
  | nil =>
    cases h
    simp
  | cons e rest ih =>
    obtain ⟨index, vars⟩ := e
    rw [List.forall_mem_cons] at hentries
    obtain ⟨hindex, h⟩ := of_if h
    rw [not_not] at hindex
    obtain ⟨o, ho, h⟩ := bind_eq_ok.mp h
    cases o with
    | none => cases h
    | some p =>
      obtain ⟨o', ho', h⟩ := bind_eq_ok.mp h
      cases o' with
      | none => cases h
      | some complete =>
        cases h
        have hp : p.index = index ∧ p.Known s w operators.length := by
          rcases completeProcessor_cases (w := w) hs hn hentries.1 with ⟨-, -, -, hpanic⟩ | ⟨-, hans⟩
          · cases ho.symm.trans hpanic
          · exact hans.of_eq ho p rfl
        obtain ⟨hknown, hindices⟩ := ih hentries.2 ho'
        refine ⟨List.forall_mem_cons.mpr ⟨hp.2, hknown⟩, fun i p' hp' => ?_⟩
        cases i with
        | zero =>
          obtain rfl := Option.some.inj hp'
          exact hp.1.trans hindex
        | succ i =>
          rw [hindices i p' hp']
          omega

end Complete

/-- What the pass knows of the variables it collected. -/
structure SimpleProcessorCollection.Known (s : Arena) (w : Nat) (found : SimpleProcessorCollection) :
    Prop where
  operators : ∀ t ∈ found.operators, s.IsBv t w
  operators_length : found.operators.length < 2 ^ 32
  processors : ∀ p ∈ found.processors, p.Known s w found.operators.length
  index : ∀ i p, found.processors[i]? = some p → p.index = i + 1

theorem contiguousTerms_operators (hs : s.Inv) (hlen : s.nodes.length < 2 ^ 32) :
    (contiguousTerms (processorTables s).operators).length < 2 ^ 32 := by
  have hrole : ∀ i t, (i, t) ∈ (processorTables s).operators → HasRole s t (.operator i) :=
    fun i t h => (processorTables_named s).operators (i, t) h
  refine Nat.lt_of_le_of_lt ?_ hlen
  have hnodup : (contiguousTerms (processorTables s).operators).Nodup :=
    contiguousTerms_nodup hrole fun i j h => by simpa using h
  have hsub : contiguousTerms (processorTables s).operators ⊆ List.range s.nodes.length := by
    intro t ht
    obtain ⟨i, hi⟩ := List.getElem?_of_mem ht
    obtain ⟨σ, hσ⟩ := (hrole _ _ (contiguousTerms_getElem hi)).exists_sort hs
    obtain ⟨node, hnode, -⟩ := Arena.sortAt_eq_some.mp hσ
    exact List.mem_range.mpr (List.getElem?_eq_some_iff.mp hnode).1
  simpa using (hnodup.subperm hsub).length_le

theorem collectSimpleProcessorVars_eq (hs : s.Inv) (hlen : s.nodes.length < 2 ^ 32)
    {found : SimpleProcessorCollection}
    (h : collectSimpleProcessorVars s = ok (some found)) : ∃ w, found.Known s w := by
  have hnamed := processorTables_named s
  have hn := contiguousTerms_operators hs hlen
  rw [collectSimpleProcessorVars] at h
  dsimp only at h
  split at h
  case h_2 => cases h
  split at h
  case h_1 => cases h
  rename_i first others hterms
  rw [hterms] at hn
  obtain ⟨w, -, h⟩ := let_bv h
  obtain ⟨hwidths, h⟩ := of_if h
  rw [Bool.not_eq_true, Bool.not_eq_false'] at hwidths
  obtain ⟨o, ho, h⟩ := bind_eq_ok.mp h
  cases o with
  | none => cases h
  | some complete =>
    obtain ⟨-, h⟩ := of_if h
    cases h
    obtain ⟨hknown, hindex⟩ := completeProcessors_eq hs hn hnamed.processors ho
    exact ⟨w, hasWidth_eq.mp hwidths, hn, hknown, fun i p hp => by
      rw [hindex i p hp, Nat.zero_add]⟩

/-! ## Equations -/

/-- Words of this width, which are equal exactly where `t` is true. -/
def Equates (s : Arena) (t a b : TermId) (w : Nat) : Prop :=
  s.IsBv a w ∧ s.IsBv b w ∧ ∀ ρ, s.IsTrue ρ t ↔ s.bv ρ a w = s.bv ρ b w

theorem Equates.symm (h : Equates s t a b w) : Equates s t b a w :=
  ⟨h.2.1, h.1, fun ρ => (h.2.2 ρ).trans eq_comm⟩

theorem equates_of_kind (hs : s.Inv) (hk : s.kindAt t = some (.bvEq a b)) :
    ∃ w, Equates s t a b w := by
  obtain ⟨w, ha, hb⟩ := hs.bvEq_sort hk
  exact ⟨w, ha, hb, fun ρ => (Arena.isTrue_bvEq_bv hs hk ha).2⟩

variable {σ : TermSort}

theorem isBvConstU64_returns {value : UInt64} (h : s.sortAt t = some σ) :
    Returns (isBvConstU64 s t w value) := by
  refine (kind_answers h).returns.bind fun k _ => ?_
  cases k with
  | bvConst v bytes => exact returns_ok _
  | _ => exact returns_ok false

section Equations

variable (hs : s.Inv) (ht : s.sortAt t = some σ)
include hs ht

theorem matchesBvEqPair_answers :
    Answers (matchesBvEqPair s t a b) fun found => found = true → ∃ w, Equates s t a b w := by
  refine (bvEqPair_answers ht).bind fun o ho => answers_ok fun h => ?_
  rcases o with - | ⟨x, y⟩
  · cases h
  obtain ⟨w, heq⟩ := equates_of_kind hs (ho _ rfl)
  rcases sameUnorderedPair_eq.mp h with ⟨rfl, rfl⟩ | ⟨rfl, rfl⟩
  · exact ⟨w, heq⟩
  · exact ⟨w, heq.symm⟩

theorem matchesBvEqConst_answers {var : TermId} {value : UInt64} :
    Answers (matchesBvEqConst s t var value w) fun found => found = true →
      s.IsBv var w ∧ ∀ ρ, s.IsTrue ρ t ↔ s.bv ρ var w = BitVec.ofNat w value.toNat := by
  refine (bvEqPair_answers ht).bind fun o ho => ?_
  rcases o with - | ⟨a, b⟩
  · exact answers_ok fun h => nomatch h
  obtain ⟨v, heq⟩ := equates_of_kind hs (ho _ rfl)
  have key : ∀ {x y : TermId}, Equates s t x y v →
      Answers (pure (x == var) <&&> isBvConstU64 s y w value) fun found => found = true →
        s.IsBv var w ∧ ∀ ρ, s.IsTrue ρ t ↔ s.bv ρ var w = BitVec.ofNat w value.toNat := by
    intro x y hxy
    refine ((returns_ok _).and fun _ => isBvConstU64_returns hxy.2.1).answers fun h => ?_
    obtain ⟨hx, hconst⟩ := and_eq_true.mp h
    obtain rfl := beq_iff_eq.mp (Outcome.ok.inj hx)
    obtain ⟨hy, -⟩ := isBvConstU64_true hs hconst
    obtain rfl := hxy.2.1.inj hy
    refine ⟨hxy.1, fun ρ => ?_⟩
    rw [hxy.2.2 ρ, (bv_of_isBvConstU64 hs hconst).2]
  exact (key heq).or (key heq.symm)

theorem matchesBvEqExtract_answers {target child : TermId} {high low : Nat} :
    Answers (matchesBvEqExtract s t target child high low) fun found => found = true →
      ∀ ρ, s.IsTrue ρ t → ∀ i ≤ high - low, s.bit ρ target i = s.bit ρ child (low + i) := by
  refine (bvEqPair_answers ht).bind fun o ho => ?_
  rcases o with - | ⟨a, b⟩
  · exact answers_ok fun h => nomatch h
  obtain ⟨v, heq⟩ := equates_of_kind hs (ho _ rfl)
  have key : ∀ {x y : TermId}, Equates s t x y v →
      Answers (pure (x == target) <&&> matchesExtract s y child high low) fun found =>
        found = true →
          ∀ ρ, s.IsTrue ρ t → ∀ i ≤ high - low, s.bit ρ target i = s.bit ρ child (low + i) := by
    intro x y hxy
    refine ((returns_ok _).and fun _ => (kind_answers hxy.2.1).returns.bind fun _ _ =>
      returns_ok _).answers fun h ρ hρ i hi => ?_
    obtain ⟨hx, hextract⟩ := and_eq_true.mp h
    obtain rfl := beq_iff_eq.mp (Outcome.ok.inj hx)
    obtain ⟨k, hk, hextract⟩ := bind_eq_ok.mp hextract
    obtain rfl := NodeKind.bvExtract?_eq.mp (beq_iff_eq.mp (Outcome.ok.inj hextract))
    rw [← hxy.1.getLsbD hs, (hxy.2.2 ρ).mp hρ, hxy.2.1.getLsbD hs,
      Arena.bit_bvExtract hs (kind_eq_ok.mp hk) hi]
  exact (key heq).or (key heq.symm)

theorem bvDiseqPair_answers : Answers (bvDiseqPair s t) fun o => ∀ p, o = some p →
    ∃ w, s.IsBv p.1 w ∧ s.IsBv p.2 w ∧ ∀ ρ, s.IsTrue ρ t → s.bv ρ p.1 w ≠ s.bv ρ p.2 w := by
  refine (kind_answers ht).bind fun k hk => ?_
  cases k with
  | boolNot child =>
    refine (bvEqPair_answers (hs.sort_kind hk ht).2).mono fun o ho p hp => ?_
    have hkc := ho p hp
    obtain ⟨w, ha, hb⟩ := hs.bvEq_sort hkc
    refine ⟨w, ha, hb, fun ρ hρ heq => ?_⟩
    exact (Arena.isTrue_boolNot hs hk).mp hρ ((Arena.isTrue_bvEq_bv hs hkc ha).2.mpr heq)
  | _ => exact answers_none

end Equations

/-! ## The query that is asked -/

/-- Two of the processors put out different words. -/
def OutputsDiffer (s : Arena) (ρ : Env) (processors : List SimpleProcessor) : Prop :=
  ∃ p ∈ processors, ∃ p' ∈ processors, ∃ w, s.IsBv p.out w ∧ s.IsBv p'.out w ∧
    s.bv ρ p.out w ≠ s.bv ρ p'.out w

section Asked

variable {processors : List SimpleProcessor}

theorem exists_of_indexByOut {index : Nat}
    (h : simpleProcessorIndexByOut processors t = some index) : ∃ p ∈ processors, p.out = t := by
  obtain ⟨p, hp, h⟩ := List.exists_of_findSome?_eq_some h
  split_ifs at h with hout
  exact ⟨p, hp, hout⟩

theorem outputsDiffer_of_pair {p : BvPair} {pair : Nat × Nat}
    (h : indexPair (simpleProcessorIndexByOut processors) p = some pair)
    (hne : ∃ w, s.IsBv p.1 w ∧ s.IsBv p.2 w ∧ ∀ ρ, s.IsTrue ρ t → s.bv ρ p.1 w ≠ s.bv ρ p.2 w)
    (hρ : s.IsTrue ρ t) : OutputsDiffer s ρ processors := by
  obtain ⟨w, ha, hb, hne⟩ := hne
  simp only [indexPair, Option.bind_eq_bind, Option.bind_eq_some_iff] at h
  obtain ⟨left, hleft, right, hright, -⟩ := h
  obtain ⟨p₁, hp₁, hout₁⟩ := exists_of_indexByOut hleft
  obtain ⟨p₂, hp₂, hout₂⟩ := exists_of_indexByOut hright
  rw [← hout₁] at ha hne
  rw [← hout₂] at hb hne
  exact ⟨p₁, hp₁, p₂, hp₂, w, ha, hb, hne ρ hρ⟩

variable (hs : s.Inv)
include hs

theorem badDisjunctStep_answers {pairs : Option (Nat × Nat) × Option (Nat × Nat)}
    (ht : s.sortAt t = some σ) :
    Answers (badDisjunctStep s processors pairs t) fun pairs' => pairs'.2.isSome →
      pairs.2.isSome ∨ ∀ ρ, s.IsTrue ρ t → OutputsDiffer s ρ processors := by
  refine (bvEqPair_answers ht).bind fun o _ => ?_
  cases o with
  | some p =>
    dsimp only
    split
    · exact answers_ok .inl
    · exact answers_ok .inl
  | none =>
    refine (bvDiseqPair_answers hs ht).bind fun o ho => ?_
    cases o with
    | none => exact answers_ok .inl
    | some p =>
      dsimp only
      split
      · rename_i hpair
        exact answers_ok fun _ => .inr fun ρ hρ => outputsDiffer_of_pair hpair (ho p rfl) hρ
      · exact answers_ok .inl

theorem simpleProcessorBadDisjunct_answers (ht : s.sortAt t = some .bool) :
    Answers (simpleProcessorBadDisjunct s t processors) fun o => o.isSome →
      ∀ ρ, s.IsTrue ρ t → OutputsDiffer s ρ processors := by
  refine (collectBoolAndConjuncts_answers hs ht).bind fun parts ⟨hsorts, htrue⟩ => ?_
  split_ifs
  · exact answers_ok fun h => nomatch h
  · refine (answers_foldlM (fun _ (pairs : Option (Nat × Nat) × Option (Nat × Nat)) =>
      pairs.2.isSome → ∀ ρ, s.IsTrue ρ t → OutputsDiffer s ρ processors) (by simp)
      fun part hpart _ pairs hpairs => ?_).bind fun pairs hpairs => ?_
    · refine (badDisjunctStep_answers hs (hsorts part hpart)).mono fun pairs' h hsome ρ hρ => ?_
      rcases h hsome with h | h
      · exact hpairs h ρ hρ
      · exact h ρ ((htrue ρ).mp hρ part hpart)
    · split
      · exact answers_ok fun _ => hpairs rfl
      · exact answers_ok fun h => nomatch h

omit hs in
theorem simpleProcessorModePair_returns (ht : s.sortAt t = some σ) :
    Returns (simpleProcessorModePair s t processors) := by
  refine (bvEqPair_answers ht).returns.bind fun o _ => ?_
  cases o with
  | none => exact returns_ok none
  | some p =>
    dsimp only
    split
    · exact returns_ok _
    · exact returns_ok none

theorem simpleProcessorOutDisequalityPair_answers (ht : s.sortAt t = some σ) :
    Answers (simpleProcessorOutDisequalityPair s t processors) fun o => o.isSome →
      ∀ ρ, s.IsTrue ρ t → OutputsDiffer s ρ processors := by
  refine (bvDiseqPair_answers hs ht).bind fun o ho => ?_
  cases o with
  | none => exact answers_ok fun h => nomatch h
  | some p =>
    dsimp only
    split
    · rename_i hpair
      exact answers_ok fun _ ρ hρ => outputsDiffer_of_pair hpair (ho p rfl) hρ
    · exact answers_ok fun h => nomatch h

/-- Wherever the conjuncts are true, outputs differ, if the pass finds that they do. -/
theorem finalDisjunctionLoop_answers (Assumed : Env → Prop) {leaves : List TermId}
    (hsorts : ∀ leaf ∈ leaves, s.sortAt leaf = some .bool)
    (htrue : ∀ leaf ∈ leaves, ∀ ρ, Assumed ρ → s.IsTrue ρ leaf)
    {modePairs outPairs : List (Nat × Nat)}
    (hout : outPairs ≠ [] → ∀ ρ, Assumed ρ → OutputsDiffer s ρ processors) :
    Answers (finalDisjunctionLoop s processors leaves modePairs outPairs) fun found =>
      found = true → ∀ ρ, Assumed ρ → OutputsDiffer s ρ processors := by
  induction leaves generalizing modePairs outPairs with
  | nil =>
    refine answers_ok fun h => hout ?_
    rintro rfl
    simp at h
  | cons leaf leaves ih =>
    rw [List.forall_mem_cons] at hsorts htrue
    refine (collectBoolOrLeaves_answers hs hsorts.1).bind fun disjuncts hdis => ?_
    refine (answers_allM fun disjunct hd =>
      (simpleProcessorBadDisjunct_answers hs (hdis.1 disjunct hd)).bind fun o ho =>
        answers_ok ho).bind fun matchedAll hall => ?_
    split_ifs with hbad
    · refine answers_ok fun _ ρ hρ => ?_
      obtain ⟨disjunct, hd, hdtrue⟩ := (hdis.2 ρ).mp (htrue.1 ρ hρ)
      exact hall hbad.2 disjunct hd ρ hdtrue
    · obtain ⟨modePair, hmode⟩ : Returns (simpleProcessorModePair s leaf processors) :=
        simpleProcessorModePair_returns hsorts.1
      rw [hmode, ok_bind]
      refine (simpleProcessorOutDisequalityPair_answers hs hsorts.1).bind fun outPair hpair => ?_
      refine ih hsorts.2 htrue.2 fun hne ρ hρ => ?_
      cases outPair with
      | some pair => exact hpair rfl ρ (htrue.1 ρ hρ)
      | none => exact hout (by simpa using hne) ρ hρ

end Asked

/-! ## What a processor does -/

/-- The function bit of an opcode. -/
def decodeBit (o : BitVec 8) : Bool := o = 136 ∨ o = 138

/-- The operands of an opcode. -/
def processorOperands (o : BitVec 8) : List (BitVec w) → List (BitVec w)
  | [] => []
  | first :: others => first :: if o = 136 ∨ o = 137 then others else others.map fun _ => 1

/-- What a processor puts out. -/
def processorResult (o : BitVec 8) (operators : List (BitVec w)) : BitVec w :=
  if decodeBit o then (processorOperands o operators).sum
  else (processorOperands o operators).foldr (· ||| ·) 0

/-- The operands of a processor after the first, by their places. -/
def OperandsAre (s : Arena) (ρ : Env) (w : Nat) (oprs operators : List TermId) (keep : Prop)
    [Decidable keep] : Prop :=
  ∀ i opr operator, 1 ≤ i → oprs[i]? = some opr → operators[i]? = some operator →
    s.bv ρ opr w = if keep then s.bv ρ operator w else 1

theorem processorOperands_eq {o : BitVec 8} {oprs operators : List TermId}
    (hlen : oprs.length = operators.length)
    (hfirst : ∀ opr operator, oprs[0]? = some opr → operators[0]? = some operator →
      s.bv ρ opr w = s.bv ρ operator w)
    (hrest : OperandsAre s ρ w oprs operators (o = 136 ∨ o = 137)) :
    oprs.map (s.bv ρ · w) = processorOperands o (operators.map (s.bv ρ · w)) := by
  cases oprs with
  | nil =>
    rw [List.eq_nil_of_length_eq_zero hlen.symm]
    rfl
  | cons opr oprs =>
    cases operators with
    | nil => cases hlen
    | cons operator operators =>
      rw [List.map_cons, List.map_cons, processorOperands, hfirst opr operator rfl rfl]
      congr 1
      refine List.ext_getElem? fun i => ?_
      have hi := hrest (i + 1)
      simp only [List.getElem?_cons_succ] at hi
      rw [List.length_cons, List.length_cons, Nat.add_right_cancel_iff] at hlen
      by_cases hlt : i < oprs.length
      · have hopr := List.getElem?_eq_getElem hlt
        have hoperator := List.getElem?_eq_getElem (hlen ▸ hlt)
        have hval := hi _ _ (Nat.le_add_left 1 i) hopr hoperator
        rw [List.getElem?_map, hopr, Option.map_some, hval]
        split_ifs <;> simp [hoperator]
      · rw [List.getElem?_eq_none (by simpa using hlt), List.getElem?_eq_none]
        split_ifs <;> simpa [← hlen] using hlt

section Processor

variable {operators : List TermId} {processor : SimpleProcessor} (hs : s.Inv)
  (hp : processor.Known s w operators.length) (hops : ∀ t ∈ operators, s.IsBv t w)

section Decode

include hs

theorem operandIsDecoded_answers {parts : List TermId} {opr operator : TermId} {index : Nat}
    {ones : Bool} (hparts : ∀ part ∈ parts, s.sortAt part = some .bool)
    (hopr : s.IsBv opr w) (hoperator : operators[index]? = some operator) :
    Answers (operandIsDecoded s parts operators w ones opr index) fun found => found = true →
      ∀ ρ, (∀ part ∈ parts, s.IsTrue ρ part) →
        s.bv ρ opr w = if ones = false then s.bv ρ operator w else 1 := by
  cases ones with
  | true =>
    refine (answers_anyM fun part hpart =>
      (matchesBvEqConst_answers hs (hparts part hpart)).unwrapOr).mono fun found h hfound ρ hρ => ?_
    obtain ⟨part, hpart, -, hone⟩ := h hfound
    exact (hone ρ).mp (hρ part hpart)
  | false =>
    rw [operandIsDecoded, if_neg (by simp), hoperator, expect_some, ok_bind]
    refine (answers_anyM fun part hpart =>
      (matchesBvEqPair_answers hs (hparts part hpart)).unwrapOr).mono fun found h hfound ρ hρ => ?_
    obtain ⟨part, hpart, v, hv, -, heq⟩ := h hfound
    obtain rfl := hopr.inj hv
    exact (heq ρ).mp (hρ part hpart)

include hp hops

theorem branchMatchesProcessorDecode_answers {branch bit : TermId} {bitValue ones : Bool}
    (hbranch : s.sortAt branch = some .bool) (hne : operators ≠ []) :
    Answers (branchMatchesProcessorDecode s branch bit bitValue processor operators ones)
      fun found => found = true → ∀ ρ, s.IsTrue ρ branch →
        s.bv ρ bit 1 = BitVec.ofBool bitValue ∧
          OperandsAre s ρ w processor.oprs operators (ones = false) := by
  refine (collectBoolAndConjuncts_answers hs hbranch).bind fun parts ⟨hsorts, htrue⟩ => ?_
  by_cases hlen : parts.length ≠ operators.length
  · rw [if_pos hlen]
    exact answers_ok fun h => nomatch h
  rw [if_neg hlen]
  refine (answers_anyM fun part hpart =>
    (matchesBvEqConst_answers hs (hsorts part hpart)).unwrapOr).bind fun found hbit => ?_
  cases found with
  | false => exact answers_ok fun h => nomatch h
  | true =>
    obtain ⟨first, hfirst⟩ : ∃ first, operators[0]? = some first :=
      ⟨_, List.getElem?_eq_getElem (List.length_pos_of_ne_nil hne)⟩
    rw [if_neg (by simp), hfirst, expect_some, ok_bind,
      Arena.expectBv_of_sort (hops first (List.mem_of_getElem? hfirst)), ok_bind]
    refine (answers_allM (P := fun e => ∀ operator, operators[e.2]? = some operator → ∀ ρ,
      (∀ part ∈ parts, s.IsTrue ρ part) →
        s.bv ρ e.1 w = if ones = false then s.bv ρ operator w else 1) ?_).mono ?_
    · rintro ⟨opr, index⟩ he
      have hget := List.mem_zipIdx_iff_getElem?.mp (List.mem_of_mem_drop he)
      obtain ⟨hlt, -⟩ := List.getElem?_eq_some_iff.mp hget
      have hoperator := List.getElem?_eq_getElem (hp.oprs_length ▸ hlt)
      refine (operandIsDecoded_answers hs hsorts (hp.oprs opr (List.mem_of_getElem? hget))
        hoperator).mono fun found h hfound operator hoperator' => ?_
      obtain rfl := Option.some.inj (hoperator.symm.trans hoperator')
      exact h hfound
    · intro found h hfound ρ hρ
      have hparts := (htrue ρ).mp hρ
      obtain ⟨part, hpart, -, hvalue⟩ := hbit rfl
      refine ⟨?_, fun i opr operator hi hopr hoperator => ?_⟩
      · rw [(hvalue ρ).mp (hparts part hpart)]
        cases bitValue <;> rfl
      · refine h hfound (opr, i) ?_ operator hoperator ρ hparts
        refine List.mem_of_getElem? (i := i - 1) ?_
        rw [List.getElem?_drop, List.getElem?_zipIdx, show 1 + (i - 1) = i by omega, hopr]
        simp

/-- A step of `matchesSimpleProcessorDecoder`: the opcode is compared with one value. -/
def decoderStep (s : Arena) (term opcode : TermId) (value : UInt64)
    (rest : TermId → TermId → Result Bool) : Result Bool := do
  let .boolIte cond thenValue elseValue ← kind s term | return false
  if !(← matchesBvEqConst s cond opcode value 8) then return false
  rest thenValue elseValue

/-- A decoder says what the function bit and the operands are, whatever the opcode is. -/
theorem matchesSimpleProcessorDecoder_answers {opcode : TermId} {inverse : Bool}
    (ht : s.sortAt t = some .bool) (hne : operators ≠ []) :
    Answers (matchesSimpleProcessorDecoder s t processor opcode operators inverse)
      fun found => found = true → ∀ ρ, s.IsTrue ρ t →
        s.bv ρ (if inverse then processor.deciFunc else processor.decFunc) 1 =
            BitVec.ofBool (decodeBit (s.bv ρ opcode 8)) ∧
          OperandsAre s ρ w processor.oprs operators
            (s.bv ρ opcode 8 = 136 ∨ s.bv ρ opcode 8 = 137) := by
  have key : ∀ {t : TermId} {value : UInt64} {f : TermId → TermId → Result Bool}
      {Q : TermId → TermId → Prop}, s.sortAt t = some .bool →
      (∀ a b, s.sortAt a = some .bool → s.sortAt b = some .bool →
        Answers (f a b) fun found => found = true → Q a b) →
      Answers (decoderStep s t opcode value f) fun found => found = true → ∃ a b, Q a b ∧
          ∀ ρ, s.IsTrue ρ t → if s.bv ρ opcode 8 = BitVec.ofNat 8 value.toNat then s.IsTrue ρ a
            else s.IsTrue ρ b := by
    intro t value f Q ht hf
    unfold decoderStep
    refine (kind_answers ht).bind fun k hk => ?_
    cases k with
    | boolIte c a b =>
      obtain ⟨-, hc, ha, hb⟩ := hs.sort_kind hk ht
      refine (matchesBvEqConst_answers hs hc).bind fun found hcond => ?_
      cases found with
      | false => exact answers_ok fun h => by cases h
      | true =>
        refine (hf a b ha hb).mono fun found hq hfound => ⟨a, b, hq hfound, fun ρ hρ => ?_⟩
        have hite := (Arena.isTrue_boolIte hs hk).mp hρ
        rw [(hcond rfl).2 ρ] at hite
        split_ifs with h
        · exact hite.1 h
        · exact hite.2 h
    | _ => exact answers_ok fun h => by cases h
  refine (key ht fun branch136 rest137 h136 h137 => key h137 fun branch137 rest138 h137 h138 =>
    key h138 fun branch138 branchDefault h138 hdefault =>
      (branchMatchesProcessorDecode_answers hs hp hops h136 hne).and <|
        (branchMatchesProcessorDecode_answers hs hp hops h137 hne).and <|
          (branchMatchesProcessorDecode_answers hs hp hops h138 hne).and <|
            branchMatchesProcessorDecode_answers hs hp hops hdefault hne).mono ?_
  intro found h hfound ρ hρ
  obtain ⟨branch136, rest137, ⟨branch137, rest138, ⟨branch138, branchDefault,
    ⟨hb136, hb137, hb138, hbd⟩, hrest138⟩, hrest137⟩, hrest136⟩ := h hfound
  -- the four branches, one of which is true
  have hfirst : if s.bv ρ opcode 8 = 136 then s.IsTrue ρ branch136 else s.IsTrue ρ rest137 :=
    hrest136 ρ hρ
  by_cases h136 : s.bv ρ opcode 8 = 136
  · rw [if_pos h136] at hfirst
    rw [h136]
    exact hb136 ρ hfirst
  rw [if_neg h136] at hfirst
  have hsecond : if s.bv ρ opcode 8 = 137 then s.IsTrue ρ branch137 else s.IsTrue ρ rest138 :=
    hrest137 ρ hfirst
  by_cases h137 : s.bv ρ opcode 8 = 137
  · rw [if_pos h137] at hsecond
    rw [h137]
    exact hb137 ρ hsecond
  rw [if_neg h137] at hsecond
  have hthird : if s.bv ρ opcode 8 = 138 then s.IsTrue ρ branch138 else s.IsTrue ρ branchDefault :=
    hrest138 ρ hsecond
  by_cases h138 : s.bv ρ opcode 8 = 138
  · rw [if_pos h138] at hthird
    rw [h138]
    exact hb138 ρ hthird
  · rw [if_neg h138] at hthird
    obtain ⟨hbit, hoperands⟩ := hbd ρ hthird
    refine ⟨?_, ?_⟩
    · rw [hbit, decodeBit, decide_eq_false (not_or.mpr ⟨h136, h138⟩)]
    · intro i opr operator hi hopr hoperator
      rw [hoperands i opr operator hi hopr hoperator, if_neg (by decide),
        if_neg (not_or.mpr ⟨h136, h137⟩)]

end Decode

end Processor

end Shortcuts
end Qfbv
end SmtServer
