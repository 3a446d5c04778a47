import SmtServer.Qfbv.Shortcuts.Lfsr
import SmtServer.Qfbv.Shortcuts.SimpleProcessor

/-!
# `log_slicing.rs` — what a written-out circuit is made of

A circuit that is spelled out by equations between slices is a pile of fragments: words that are
asserted to be equal (`LogSlicingIndex`), words that repeat one bit (`Repeats`), and choices
`(mask & a) | (!mask & b)` between two words.

Whether a word repeats a bit is found by a walk that follows concatenations, slices, halves and
equations. The last of these lead anywhere in the arena, so the walk keeps the path it has come by
and a memo. It ends because the path never holds a term twice, and every entry of the memo is true
whatever path it was found on.
-/

namespace SmtServer
namespace Qfbv

open Lib Outcome

namespace Shortcuts

/-! ## The index -/

/-- `if !out.contains(&term) { out.push(term) }`. -/
def pushNew (out : List TermId) (term : TermId) : List TermId :=
  if term ∈ out then out else out ++ [term]

def pushAllNew (out terms : List TermId) : List TermId := terms.foldl pushNew out

/-- A `BTreeMap` of vectors is the list of what was pushed under its keys. -/
structure LogSlicingIndex where
  aliases : List (TermId × TermId)
  extracts : List ((TermId × Nat × Nat) × TermId)
  deriving DecidableEq

/-- The vector of a key. `LogSlicingIndex::new` sorts every vector and removes repetitions when it
has pushed everything. -/
def valuesOf {κ : Type} [DecidableEq κ] (entries : List (κ × TermId)) (key : κ) : List TermId :=
  sortDedup ((entries.filter (·.1 = key)).map (·.2))

namespace LogSlicingIndex

def pushAliases (s : Arena) (a b : TermId) (index : LogSlicingIndex) : Result LogSlicingIndex := do
  if (← s.sort a) = (← s.sort b) then
    return { index with aliases := index.aliases ++ [(a, b), (b, a)] }
  return index

def pushExtract (s : Arena) (a b : TermId) (index : LogSlicingIndex) : Result LogSlicingIndex := do
  match (← kind s a).bvExtract? with
  | some key => return { index with extracts := index.extracts ++ [(key, b)] }
  | none => return index

def new (s : Arena) (equalities : List BvPair) : Result LogSlicingIndex :=
  equalities.foldlM (fun index (a, b) => do
    pushExtract s b a (← pushExtract s a b (← pushAliases s a b index))) ⟨[], []⟩

def aliasesOf (index : LogSlicingIndex) (term : TermId) : List TermId :=
  pushAllNew [term] (valuesOf index.aliases term)

def candidateTerms (index : LogSlicingIndex) (term : TermId) : List TermId :=
  (index.aliasesOf term).foldl (fun out other => pushAllNew out (index.aliasesOf other))
    (index.aliasesOf term)

def sameOrEqual (index : LogSlicingIndex) (a b : TermId) : Bool :=
  a == b || (valuesOf index.aliases a).contains b

def extractTerms (index : LogSlicingIndex) (child : TermId) (high low : Nat) : List TermId :=
  valuesOf index.extracts (child, high, low)

end LogSlicingIndex

def sameOrEqualIndex (s : Arena) (index : LogSlicingIndex) (a b : TermId) : Result Bool := do
  return (← s.sort a) = (← s.sort b) ∧ index.sameOrEqual a b

/-- `same_or_equal_index(..).unwrap_or(false)` of one of the terms. -/
def anySame (s : Arena) (index : LogSlicingIndex) (a : TermId) (terms : List TermId) :
    Result Bool :=
  terms.anyM fun b => (sameOrEqualIndex s index a b).unwrapOr false

/-- `matches!(query.arena.sort(term), Ok(Sort::Bv(w)) if w == width)`. -/
def isOfWidth (s : Arena) (width : Nat) (term : TermId) : Bool := s.sort term = ok (.bv width)

/-! ## Repeated conditions -/

/-- The conditions that were found before, by the term they are repeated in. -/
abbrev ConditionMemo := TermMap (List TermId)

/-- `for cond in term_repeated_conditions(..)? { if !out.contains(&cond) { out.push(cond) } }`, for
one term after another. -/
def pushConditions (conditions : TermId → Nat → ConditionMemo → Result (List TermId × ConditionMemo)) :
    List (TermId × Nat) → List TermId → ConditionMemo → Result (List TermId × ConditionMemo)
  | [], out, memo => return (out, memo)
  | (term, width) :: rest, out, memo => do
    let (found, memo) ← conditions term width memo
    pushConditions conditions rest (pushAllNew out found) memo

/-- The terms that repeat a condition in one half of a word, where both halves are the same. -/
def halfTerms (s : Arena) (index : LogSlicingIndex) (term : TermId) (width : Nat) :
    Result (List TermId) := do
  let halves ← ((index.aliasesOf term).filter (isOfWidth s width)).mapM fun base =>
    (index.extractTerms base (width / 2 - 1) 0).filterM fun low =>
      anySame s index low (index.extractTerms base (width - 1) (width / 2))
  return halves.flatten

/-- A word that is neither a concatenation nor a slice repeats what its halves repeat, and what the
words that are equal to it do. -/
def equalTerms (s : Arena) (index : LogSlicingIndex) (term : TermId) (width : Nat) :
    Result (List (TermId × Nat)) := do
  let halves ← if width % 2 = 0 then halfTerms s index term width else pure []
  let others := (index.aliasesOf term).filter fun other => other ≠ term ∧ isOfWidth s width other
  return halves.map (·, width / 2) ++ others.map (·, width)

/-- `term_repeated_conditions` on a term that is new: `conditions` is the recursion. -/
def newConditions (s : Arena) (index : LogSlicingIndex)
    (conditions : TermId → Nat → ConditionMemo → Result (List TermId × ConditionMemo))
    (term : TermId) (width : Nat) (memo : ConditionMemo) :
    Result (List TermId × ConditionMemo) := do
  if width = 1 then
    let ones ← (index.aliasesOf term).filterM fun other => do return (← s.sort other) = .bv 1
    return (pushAllNew [] ones, memo)
  match ← kind s term with
  | .bvConcat high low =>
    let highWidth ← s.expectBv high "log slicing concat high"
    let lowWidth ← s.expectBv low "log slicing concat low"
    let (highConditions, memo) ← conditions high highWidth memo
    let (lowConditions, memo) ← conditions low lowWidth memo
    let both ← highConditions.filterM fun highCondition =>
      anySame s index highCondition lowConditions
    return (pushAllNew [] both, memo)
  | .bvExtract child _ _ =>
    let childWidth ← s.expectBv child "log slicing extract child"
    pushConditions conditions [(child, childWidth)] [] memo
  | _ => pushConditions conditions (← equalTerms s index term width) [] memo

/-- Every call goes on from a term that is not on the path `visited`, and the path holds no term
twice: one round more than the arena has terms is enough. -/
def termRepeatedConditions (s : Arena) (index : LogSlicingIndex) :
    (rounds : Nat) → (visited : List TermId) → (term : TermId) → (width : Nat) → ConditionMemo →
      Result (List TermId × ConditionMemo)
  | 0, _, _, _, _ => .panic
  | rounds + 1, visited, term, width, memo => do
    match memo.lookup term with
    | some cached => return (cached, memo)
    | none =>
      if term ∈ visited then return ([], memo)
      let (out, memo) ← newConditions s index
        (termRepeatedConditions s index rounds (term :: visited)) term width memo
      return (out, memo.insert term out)

def repeatedConditionsForMask (s : Arena) (index : LogSlicingIndex) (mask : TermId) :
    Result (List TermId) := do
  let candidates ← (index.candidateTerms mask).mapM fun candidate => do
    match ← s.sort candidate with
    | .bv width => return some (candidate, width)
    | .bool => return none
  let (out, _) ← pushConditions (termRepeatedConditions s index (s.nodes.length + 1) [])
    candidates.reduceOption [] ∅
  return out

/-! ## Choices -/

def bvNotChild (s : Arena) (term : TermId) : Result (Option TermId) := do
  return (← kind s term).bvNot?

/-- `log_mux_expr_parts` and `log_slicing_mux_expr_parts`: `accept` is what they make of a mask and
the two words. -/
def muxExprParts {α : Type} (accept : TermId → TermId → TermId → Result (Option α)) (s : Arena)
    (thenPart elsePart : TermId) : Result (Option α) := do
  let some (thenA, thenB) ← bvAndParts s thenPart | return none
  let some (elseA, elseB) ← bvAndParts s elsePart | return none
  [(thenA, thenB), (thenB, thenA)].findSomeM? fun (mask, thenValue) =>
    [(elseA, elseB), (elseB, elseA)].findSomeM? fun (maybeNotMask, elseValue) => do
      if (← bvNotChild s maybeNotMask) = some mask then accept mask thenValue elseValue
      else return none

/-- `log_mux_expr` and `log_slicing_mux_expr`. -/
def muxExpr {α : Type} (accept : TermId → TermId → TermId → Result (Option α)) (s : Arena)
    (term : TermId) : Result (Option α) := do
  match ← collectBvOrTerms s term with
  | [first, second] =>
    match ← muxExprParts accept s first second with
    | some definition => return some definition
    | none => muxExprParts accept s second first
  | _ => return none

/-- `if a == target { if let Some(definition) = log_mux_expr(query, b)? { .. } }`. -/
def muxOfSide {α : Type} (accept : TermId → TermId → TermId → Result (Option α)) (s : Arena)
    (target a b : TermId) : Result (Option α) :=
  if a = target then muxExpr accept s b else return none

/-- `log_mux_definitions_for_target` and `log_slicing_mux_definitions`. -/
def muxDefinitions {α : Type} (accept : TermId → TermId → TermId → Result (Option α)) (s : Arena)
    (equalities : List BvPair) (target : TermId) : Result (List α) := do
  let definitions ← equalities.mapM fun (a, b) => do
    let forward ← muxOfSide accept s target a b
    let backward ← muxOfSide accept s target b a
    return [forward, backward].reduceOption
  return definitions.flatten

/-! ## What the index says -/

variable {q : Query} {index : LogSlicingIndex} {equalities : List BvPair} {ρ : Env}
  {t a b c x : TermId} {w v i : Nat}

theorem mem_pushNew {out : List TermId} : x ∈ pushNew out t ↔ x ∈ out ∨ x = t := by
  unfold pushNew
  split
  · simp only [iff_self_or]
    rintro rfl
    assumption
  · simp

theorem mem_pushAllNew {out terms : List TermId} :
    x ∈ pushAllNew out terms ↔ x ∈ out ∨ x ∈ terms := by
  induction terms generalizing out with
  | nil => simp [pushAllNew]
  | cons t terms ih =>
    rw [pushAllNew, List.foldl_cons, ← pushAllNew, ih, mem_pushNew, List.mem_cons, or_assoc]

theorem mem_valuesOf {κ : Type} [DecidableEq κ] {entries : List (κ × TermId)} {key : κ} :
    x ∈ valuesOf entries key ↔ (key, x) ∈ entries := by
  rw [valuesOf, mem_sortDedup]
  simp

theorem EqualBv.refl (h : q.arena.IsBv a w) : EqualBv q a a := ⟨w, h, h, fun _ _ => rfl⟩

/-- The term is a slice that is equal to `x`. -/
def SliceEqual (q : Query) (child : TermId) (high low : Nat) (x : TermId) : Prop :=
  ∃ e, q.arena.kindAt e = some (.bvExtract child high low) ∧ EqualBv q e x

/-- Everything that was pushed is asserted. -/
structure LogSlicingIndex.Sound (q : Query) (index : LogSlicingIndex) : Prop where
  aliases : ∀ p ∈ index.aliases, EqualBv q p.1 p.2
  extracts : ∀ p ∈ index.extracts, SliceEqual q p.1.1 p.1.2.1 p.1.2.2 p.2

namespace LogSlicingIndex

theorem pushAliases_answers (hi : index.Sound q) (h : EqualBv q a b) :
    Answers (pushAliases q.arena a b index) (·.Sound q) := by
  obtain ⟨w, ha, hb, heq⟩ := h
  have h : EqualBv q a b := ⟨w, ha, hb, heq⟩
  refine (sort_answers ha).bind fun _ hσ => (sort_answers hb).bind fun _ hτ => ?_
  subst hσ hτ
  rw [if_pos rfl]
  refine answers_ok ⟨List.forall_mem_append.mpr ⟨hi.aliases, ?_⟩, hi.extracts⟩
  simpa using ⟨h, h.symm⟩

theorem pushExtract_answers (hi : index.Sound q) (h : EqualBv q a b) :
    Answers (pushExtract q.arena a b index) (·.Sound q) := by
  obtain ⟨w, ha, hb, heq⟩ := h
  have h : EqualBv q a b := ⟨w, ha, hb, heq⟩
  refine (kind_answers ha).bind fun k hk => ?_
  cases hkey : k.bvExtract? with
  | none => exact answers_ok hi
  | some key =>
    refine answers_ok ⟨hi.aliases, List.forall_mem_append.mpr ⟨hi.extracts, ?_⟩⟩
    rw [NodeKind.bvExtract?_eq.mp hkey] at hk
    simpa using ⟨a, hk, h⟩

theorem new_answers (heq : ∀ p ∈ equalities, EqualBv q p.1 p.2) :
    Answers (new q.arena equalities) (·.Sound q) := by
  refine answers_foldlM (fun _ index => Sound q index) ⟨by simp, by simp⟩ ?_
  intro p hp _ index hi
  refine (pushAliases_answers hi (heq p hp)).bind fun index hi => ?_
  refine (pushExtract_answers hi (heq p hp)).bind fun index hi => ?_
  exact pushExtract_answers hi (heq p hp).symm

variable (hi : index.Sound q)
include hi

theorem Sound.of_aliasesOf (ht : q.arena.IsBv t w) (h : x ∈ index.aliasesOf t) :
    EqualBv q t x := by
  rcases mem_pushAllNew.mp h with h | h
  · rw [List.mem_singleton.mp h]
    exact .refl ht
  · exact hi.aliases _ (mem_valuesOf.mp h)

theorem Sound.of_candidateTerms (ht : q.arena.IsBv t w) (h : x ∈ index.candidateTerms t) :
    EqualBv q t x := by
  have key : ∀ (terms out : List TermId), (∀ y ∈ terms, EqualBv q t y) → (∀ y ∈ out, EqualBv q t y) →
      ∀ y ∈ terms.foldl (fun out other => pushAllNew out (index.aliasesOf other)) out,
        EqualBv q t y := by
    intro terms
    induction terms with
    | nil => exact fun out _ hout => hout
    | cons other terms ih =>
      intro out hterms hout
      rw [List.forall_mem_cons] at hterms
      refine ih _ hterms.2 fun y hy => ?_
      rcases mem_pushAllNew.mp hy with hy | hy
      · exact hout y hy
      · obtain ⟨v, -, hother, -⟩ := hterms.1
        exact hterms.1.trans (hi.of_aliasesOf hother hy)
  exact key _ _ (fun y hy => hi.of_aliasesOf ht hy) (fun y hy => hi.of_aliasesOf ht hy) x h

theorem Sound.of_sameOrEqual (ha : q.arena.IsBv a w) (h : index.sameOrEqual a b = true) :
    EqualBv q a b := by
  rw [sameOrEqual, Bool.or_eq_true, beq_iff_eq, List.contains_iff_mem, mem_valuesOf] at h
  rcases h with rfl | h
  · exact .refl ha
  · exact hi.aliases _ h

theorem Sound.of_extractTerms {high low : Nat} (h : x ∈ index.extractTerms c high low) :
    SliceEqual q c high low x :=
  hi.extracts _ (mem_valuesOf.mp h)

end LogSlicingIndex

theorem sameOrEqualIndex_answers (hi : index.Sound q) (ha : q.arena.IsBv a w)
    (hb : q.arena.IsBv b v) :
    Answers (sameOrEqualIndex q.arena index a b) fun same => same = true → EqualBv q a b := by
  refine (sort_answers ha).bind fun _ _ => (sort_answers hb).bind fun _ _ => answers_ok fun h => ?_
  rw [decide_eq_true_eq] at h
  exact hi.of_sameOrEqual ha h.2

theorem anySame_answers (hi : index.Sound q) (ha : q.arena.IsBv a w) {terms : List TermId}
    (hterms : ∀ b ∈ terms, ∃ v, q.arena.IsBv b v) :
    Answers (anySame q.arena index a terms) fun same =>
      same = true → ∃ b ∈ terms, EqualBv q a b := by
  refine answers_anyM fun b hb => ?_
  obtain ⟨v, hv⟩ := hterms b hb
  exact (sameOrEqualIndex_answers hi ha hv).unwrapOr

theorem isOfWidth_eq : isOfWidth q.arena w t = true ↔ q.arena.IsBv t w := by
  rw [isOfWidth, decide_eq_true_eq, Arena.sort_eq_ok]
  rfl

/-- A slice that is equal to `x`, bit by bit. -/
theorem SliceEqual.bit (hs : q.arena.Inv) {high low : Nat} (h : SliceEqual q c high low x) :
    q.arena.IsBv x (high - low + 1) ∧ (∃ v, q.arena.IsBv c v ∧ high < v) ∧ low ≤ high ∧
      ∀ ρ, Asserted q ρ → ∀ i ≤ high - low, q.arena.bit ρ x i = q.arena.bit ρ c (low + i) := by
  obtain ⟨e, hk, heq⟩ := h
  obtain ⟨v, he, hc, hle, hlt⟩ := hs.bvExtract_sort hk
  refine ⟨(heq.of_width he).1, ⟨v, hc, hlt⟩, hle, fun ρ hρ i hi => ?_⟩
  rw [← heq.bit hs hρ, Arena.bit_bvExtract hs hk hi]

/-! ## Words that repeat a bit -/

/-- Every bit of the word is the bit `c`, wherever the assertions are true. -/
def Repeats (q : Query) (c t : TermId) : Prop :=
  q.arena.IsBv c 1 ∧ ∃ w, q.arena.IsBv t w ∧
    ∀ ρ, Asserted q ρ → ∀ i < w, q.arena.bit ρ t i = q.arena.bit ρ c 0

section Repeats

variable (hs : q.arena.Inv)
include hs

theorem Repeats.of_equal (h : Repeats q c t) (heq : EqualBv q t x) : Repeats q c x := by
  obtain ⟨hc, w, ht, hbits⟩ := h
  refine ⟨hc, w, (heq.of_width ht).1, fun ρ hρ i hi => ?_⟩
  rw [← heq.bit hs hρ, hbits ρ hρ i hi]

theorem Repeats.of_condition (h : Repeats q c t) (heq : EqualBv q c x) : Repeats q x t := by
  obtain ⟨hc, w, ht, hbits⟩ := h
  refine ⟨(heq.of_width hc).1, w, ht, fun ρ hρ i hi => ?_⟩
  rw [← heq.bit hs hρ, hbits ρ hρ i hi]

theorem repeats_of_bit (heq : EqualBv q t c) (ht : q.arena.IsBv t 1) : Repeats q c t := by
  refine ⟨(heq.of_width ht).1, 1, ht, fun ρ hρ i hi => ?_⟩
  obtain rfl := Nat.lt_one_iff.mp hi
  exact heq.bit hs hρ 0

theorem Repeats.concat {high low : TermId} (hk : q.arena.kindAt t = some (.bvConcat high low))
    (hhigh : Repeats q c high) (hlow : Repeats q c low) : Repeats q c t := by
  obtain ⟨hc, hw, hh, hhbits⟩ := hhigh
  obtain ⟨-, lw, hl, hlbits⟩ := hlow
  obtain ⟨hw', lw', ht, hh', hl'⟩ := hs.bvConcat_sort hk
  obtain rfl := hh.inj hh'
  obtain rfl := hl.inj hl'
  refine ⟨hc, hw + lw, ht, fun ρ hρ i hi => ?_⟩
  rw [Arena.bit_bvConcat hs hk hl]
  split
  · rename_i hlt
    exact hlbits ρ hρ i hlt
  · exact hhbits ρ hρ _ (by omega)

theorem Repeats.extract {high low : Nat} (hk : q.arena.kindAt t = some (.bvExtract x high low))
    (h : Repeats q c x) : Repeats q c t := by
  obtain ⟨hc, w, hx, hbits⟩ := h
  obtain ⟨v, ht, hx', hle, hlt⟩ := hs.bvExtract_sort hk
  obtain rfl := hx.inj hx'
  refine ⟨hc, _, ht, fun ρ hρ i hi => ?_⟩
  rw [Arena.bit_bvExtract hs hk (by omega), hbits ρ hρ _ (by omega)]

/-- Both halves of the word are equal, and one of them repeats the bit. -/
theorem Repeats.halves {low high : TermId} (ht : q.arena.IsBv t w) (heven : w % 2 = 0)
    (hlow : SliceEqual q t (w / 2 - 1) 0 low) (hhigh : SliceEqual q t (w - 1) (w / 2) high)
    (heq : EqualBv q low high) (h : Repeats q c low) : Repeats q c t := by
  have hpos := ht.pos hs
  obtain ⟨hc, v, hlowBv, hbits⟩ := h
  obtain ⟨hlowBv', -, -, hlowBits⟩ := hlow.bit hs
  obtain ⟨-, -, -, hhighBits⟩ := hhigh.bit hs
  obtain rfl : v = w / 2 := (hlowBv.inj hlowBv').trans (by omega)
  refine ⟨hc, w, ht, fun ρ hρ i hi => ?_⟩
  by_cases hlt : i < w / 2
  · have hbit := hlowBits ρ hρ i (by omega)
    rw [Nat.zero_add] at hbit
    rw [← hbit, hbits ρ hρ i hlt]
  · have hbit := hhighBits ρ hρ (i - w / 2) (by omega)
    rw [Nat.add_sub_cancel' (Nat.le_of_not_lt hlt)] at hbit
    rw [← hbit, ← heq.bit hs hρ, hbits ρ hρ _ (by omega)]

end Repeats

/-- Every condition in the list is repeated in the term. -/
def Conditions (q : Query) (t : TermId) (out : List TermId) : Prop := ∀ c ∈ out, Repeats q c t

/-- Every entry of the memo is true. -/
def SoundMemo (q : Query) (memo : ConditionMemo) : Prop :=
  ∀ t out, memo.lookup t = some out → Conditions q t out

theorem SoundMemo.insert {memo : ConditionMemo} {out : List TermId} (h : SoundMemo q memo)
    (hout : Conditions q t out) : SoundMemo q (memo.insert t out) := by
  intro t' out' hlook
  by_cases ht : t' = t
  · subst ht
    rw [AList.lookup_insert] at hlook
    exact Option.some.inj hlook ▸ hout
  · rw [AList.lookup_insert_ne ht] at hlook
    exact h t' out' hlook

section Walk

variable (hs : q.arena.Inv) (hi : index.Sound q)
include hs hi

/-- A half whose conditions are the word's. -/
theorem halfTerms_answers (ht : q.arena.IsBv t w) (heven : w % 2 = 0) :
    Answers (halfTerms q.arena index t w) fun out => ∀ low ∈ out,
      q.arena.IsBv low (w / 2) ∧ ∀ c, Repeats q c low → Repeats q c t := by
  have hpos := ht.pos hs
  have hbase : ∀ base ∈ (index.aliasesOf t).filter (isOfWidth q.arena w),
      Answers ((index.extractTerms base (w / 2 - 1) 0).filterM fun low =>
        anySame q.arena index low (index.extractTerms base (w - 1) (w / 2))) fun lows =>
          ∀ low ∈ lows, q.arena.IsBv low (w / 2) ∧ ∀ c, Repeats q c low → Repeats q c t := by
    intro base hbase
    obtain ⟨hbase, hwidth⟩ := List.mem_filter.mp hbase
    have hbaseBv := isOfWidth_eq.mp hwidth
    have heq := hi.of_aliasesOf ht hbase
    refine (answers_filterM fun low hlow => anySame_answers hi (hi.of_extractTerms hlow |>.bit hs).1
      fun high hhigh => ⟨_, (hi.of_extractTerms hhigh |>.bit hs).1⟩).mono fun lows hlows => ?_
    intro low hlow
    obtain ⟨hlow, high, hhigh, hsame⟩ := hlows low hlow
    have hslice := hi.of_extractTerms hlow
    have hlowBv := (hslice.bit hs).1
    rw [show w / 2 - 1 - 0 + 1 = w / 2 by omega] at hlowBv
    refine ⟨hlowBv, fun c hc => ?_⟩
    exact (Repeats.halves hs hbaseBv heven hslice (hi.of_extractTerms hhigh) hsame hc).of_equal hs
      heq.symm
  refine (answers_mapM hbase).bind fun halves hhalves => answers_ok fun low hlow => ?_
  obtain ⟨lows, hlows, hlow⟩ := List.mem_flatten.mp hlow
  obtain ⟨base, -, h⟩ := exists_of_forall₂ hhalves lows hlows
  exact h low hlow

theorem equalTerms_answers (ht : q.arena.IsBv t w) :
    Answers (equalTerms q.arena index t w) fun calls => ∀ p ∈ calls,
      q.arena.IsBv p.1 p.2 ∧ ∀ c, Repeats q c p.1 → Repeats q c t := by
  have hothers : ∀ p ∈ ((index.aliasesOf t).filter fun other =>
      other ≠ t ∧ isOfWidth q.arena w other).map (·, w),
      q.arena.IsBv p.1 p.2 ∧ ∀ c, Repeats q c p.1 → Repeats q c t := by
    intro p hp
    obtain ⟨other, hother, rfl⟩ := List.mem_map.mp hp
    obtain ⟨hother, hkeep⟩ := List.mem_filter.mp hother
    rw [decide_eq_true_eq] at hkeep
    exact ⟨isOfWidth_eq.mp hkeep.2, fun c hc => hc.of_equal hs (hi.of_aliasesOf ht hother).symm⟩
  rw [equalTerms]
  split
  · rename_i heven
    refine (halfTerms_answers hs hi ht heven).bind fun halves hhalves => answers_ok ?_
    refine List.forall_mem_append.mpr ⟨fun p hp => ?_, hothers⟩
    obtain ⟨low, hlow, rfl⟩ := List.mem_map.mp hp
    exact hhalves low hlow
  · exact answers_ok hothers

omit hs hi in
theorem pushConditions_answers
    {conditions : TermId → Nat → ConditionMemo → Result (List TermId × ConditionMemo)}
    {calls : List (TermId × Nat)} (hcalls : ∀ p ∈ calls, ∀ memo, SoundMemo q memo →
      Answers (conditions p.1 p.2 memo) fun r => Conditions q p.1 r.1 ∧ SoundMemo q r.2)
    (hup : ∀ p ∈ calls, ∀ c, Repeats q c p.1 → Repeats q c t) :
    ∀ {out : List TermId} {memo : ConditionMemo}, Conditions q t out → SoundMemo q memo →
      Answers (pushConditions conditions calls out memo) fun r =>
        Conditions q t r.1 ∧ SoundMemo q r.2 := by
  induction calls with
  | nil => exact fun hout hm => answers_ok ⟨hout, hm⟩
  | cons p rest ih =>
    intro out memo hout hm
    rw [List.forall_mem_cons] at hcalls hup
    rw [pushConditions]
    refine (hcalls.1 memo hm).bind fun r hr => ih hcalls.2 hup.2 ?_ hr.2
    intro c hc
    rcases mem_pushAllNew.mp hc with hc | hc
    · exact hout c hc
    · exact hup.1 c (hr.1 c hc)

theorem newConditions_answers
    {conditions : TermId → Nat → ConditionMemo → Result (List TermId × ConditionMemo)}
    (hcall : ∀ x v memo, q.arena.IsBv x v → SoundMemo q memo →
      Answers (conditions x v memo) fun r => Conditions q x r.1 ∧ SoundMemo q r.2)
    (ht : q.arena.IsBv t w) {memo : ConditionMemo} (hm : SoundMemo q memo) :
    Answers (newConditions q.arena index conditions t w memo) fun r =>
      Conditions q t r.1 ∧ SoundMemo q r.2 := by
  rw [newConditions]
  by_cases hone : w = 1
  · rw [if_pos hone]
    subst hone
    refine (answers_filterM (P := fun _ => True) fun other hother => ?_).bind
      fun ones hones => answers_ok ⟨fun c hc => ?_, hm⟩
    · obtain ⟨v, -, hv, -⟩ := hi.of_aliasesOf ht hother
      exact (sort_answers hv).bind fun _ _ => answers_ok fun _ => trivial
    · rcases mem_pushAllNew.mp hc with hc | hc
      · cases hc
      · exact repeats_of_bit hs (hi.of_aliasesOf ht (hones c hc).1) ht
  · rw [if_neg hone]
    refine (kind_answers ht).bind fun k hk => ?_
    have hother : Answers (do
        pushConditions conditions (← equalTerms q.arena index t w) [] memo) fun r =>
          Conditions q t r.1 ∧ SoundMemo q r.2 := by
      refine (equalTerms_answers hs hi ht).bind fun calls hcalls => ?_
      exact pushConditions_answers (fun p hp memo => hcall p.1 p.2 memo (hcalls p hp).1)
        (fun p hp => (hcalls p hp).2) (by simp [Conditions]) hm
    cases k with
    | bvConcat high low =>
      obtain ⟨hw, lw, -, hh, hl⟩ := hs.bvConcat_sort hk
      dsimp only
      rw [Arena.expectBv_of_sort hh, Arena.expectBv_of_sort hl, ok_bind, ok_bind]
      refine (hcall high hw memo hh hm).bind fun highs hhighs => ?_
      refine (hcall low lw highs.2 hl hhighs.2).bind fun lows hlows => ?_
      refine (answers_filterM fun c hc => anySame_answers hi (hhighs.1 c hc).1
        fun b hb => ⟨1, (hlows.1 b hb).1⟩).bind fun both hboth =>
          answers_ok ⟨fun c hc => ?_, hlows.2⟩
      rcases mem_pushAllNew.mp hc with hc | hc
      · cases hc
      · obtain ⟨hhigh, d, hd, hsame⟩ := hboth c hc
        exact .concat hs hk (hhighs.1 c hhigh) ((hlows.1 d hd).of_condition hs hsame.symm)
    | bvExtract child high low =>
      obtain ⟨v, -, hchild, -⟩ := hs.bvExtract_sort hk
      dsimp only
      rw [Arena.expectBv_of_sort hchild, ok_bind]
      refine pushConditions_answers ?_ ?_ (by simp [Conditions]) hm
      · rintro p hp
        obtain rfl := List.mem_singleton.mp hp
        exact fun memo => hcall child v memo hchild
      · rintro p hp c hc
        obtain rfl := List.mem_singleton.mp hp
        exact hc.extract hs hk
    | _ => exact hother

/-- The path only holds terms of the arena, each once, so it never gets longer than the arena. -/
theorem termRepeatedConditions_answers : ∀ (rounds : Nat) (visited : List TermId) (t : TermId)
    (w : Nat) (memo : ConditionMemo), q.arena.IsBv t w → SoundMemo q memo → visited.Nodup →
      (∀ x ∈ visited, x < q.arena.nodes.length) →
      q.arena.nodes.length < visited.length + rounds →
        Answers (termRepeatedConditions q.arena index rounds visited t w memo) fun r =>
          Conditions q t r.1 ∧ SoundMemo q r.2 := by
  intro rounds
  induction rounds with
  | zero =>
    intro visited t w memo _ _ hnodup hlt hlen
    have hsub : visited ⊆ List.range q.arena.nodes.length :=
      fun x hx => List.mem_range.mpr (hlt x hx)
    have hle := (hnodup.subperm hsub).length_le
    rw [List.length_range] at hle
    exact absurd hlen (Nat.not_lt.mpr hle)
  | succ rounds ih =>
    intro visited t w memo ht hm hnodup hlt hlen
    rw [termRepeatedConditions]
    cases hlook : memo.lookup t with
    | some cached => exact answers_ok ⟨hm t cached hlook, hm⟩
    | none =>
      dsimp only
      by_cases hvisited : t ∈ visited
      · rw [if_pos hvisited]
        exact answers_ok ⟨by simp [Conditions], hm⟩
      · rw [if_neg hvisited]
        refine (newConditions_answers hs hi (fun x v memo hx hm => ?_) ht hm).bind
          fun r hr => answers_ok ⟨hr.1, hr.2.insert hr.1⟩
        -- every call goes on with `t` on the path
        refine ih (t :: visited) x v memo hx hm (List.nodup_cons.mpr ⟨hvisited, hnodup⟩) ?_ ?_
        · exact List.forall_mem_cons.mpr ⟨Arena.lt_of_sortAt ht, hlt⟩
        · rw [List.length_cons]
          omega

/-- **Every condition that is found for a mask is repeated in it.** -/
theorem repeatedConditionsForMask_answers (ht : q.arena.IsBv t w) :
    Answers (repeatedConditionsForMask q.arena index t) (Conditions q t) := by
  have hmap : Answers ((index.candidateTerms t).mapM fun candidate => do
      match ← q.arena.sort candidate with
      | .bv width => return some (candidate, width)
      | .bool => return none) fun candidates =>
        ∀ o ∈ candidates, ∀ p, o = some p → q.arena.IsBv p.1 p.2 ∧ EqualBv q t p.1 := by
    refine (answers_mapM (R := fun candidate o => ∀ p, o = some p →
      q.arena.IsBv p.1 p.2 ∧ EqualBv q t p.1) fun candidate hc => ?_).mono fun candidates h o ho => ?_
    · have heq := hi.of_candidateTerms ht hc
      obtain ⟨v, -, hv, -⟩ := heq
      refine (sort_answers hv).bind fun σ hσ => ?_
      subst hσ
      refine answers_some ⟨hv, hi.of_candidateTerms ht hc⟩
    · obtain ⟨candidate, -, h⟩ := exists_of_forall₂ h o ho
      exact h
  refine hmap.bind fun candidates hcandidates => ?_
  have hcalls : ∀ p ∈ candidates.reduceOption, q.arena.IsBv p.1 p.2 ∧ EqualBv q t p.1 := by
    intro p hp
    exact hcandidates _ (List.reduceOption_mem_iff.mp hp) p rfl
  refine (pushConditions_answers (t := t) (fun p hp memo hm => ?_) (fun p hp c hc => ?_)
    (by simp [Conditions]) (fun t out h => ?_)).bind fun r hr => answers_ok hr.1
  · exact termRepeatedConditions_answers hs hi _ [] p.1 p.2 memo (hcalls p hp).1 hm List.nodup_nil
      (by simp) (by simp)
  · exact hc.of_equal hs (hcalls p hp).2.symm
  · rw [AList.lookup_empty] at h
    cases h

end Walk

/-! ## Words chosen by a mask -/

/-- The bit that a mask chooses. -/
def choose (mask thenBit elseBit : Bool) : Bool := if mask then thenBit else elseBit

/-- Wherever the assertions are true, the word has the bits of one of two words of its width, as the
bits of the mask say. -/
structure IsMux (q : Query) (t mask thenValue elseValue : TermId) (w : Nat) : Prop where
  maskSort : q.arena.IsBv mask w
  thenSort : q.arena.IsBv thenValue w
  elseSort : q.arena.IsBv elseValue w
  bits : ∀ ρ, Asserted q ρ → ∀ i < w, q.arena.bit ρ t i =
    choose (q.arena.bit ρ mask i) (q.arena.bit ρ thenValue i) (q.arena.bit ρ elseValue i)

theorem bvNotChild_answers (h : q.arena.IsBv t w) :
    Answers (bvNotChild q.arena t) fun o => ∀ c, o = some c →
      q.arena.kindAt t = some (.bvNot c) := by
  refine (kind_answers h).bind fun k hk => answers_ok fun c hc => ?_
  rwa [NodeKind.bvNot?_eq.mp hc] at hk

theorem bvAndParts_answers (hs : q.arena.Inv) (h : q.arena.IsBv t w) :
    Answers (bvAndParts q.arena t) fun o => ∀ p, o = some p → q.arena.IsBv p.1 w ∧
      q.arena.IsBv p.2 w ∧ q.arena.kindAt t = some (.bvAnd p.1 p.2) := by
  refine (parts_answers h).mono fun o ho p hp => ?_
  obtain ⟨k, hk, rfl⟩ := ho
  rw [NodeKind.bvAnd?_eq.mp hp] at hk
  obtain ⟨ha, hb⟩ := hs.binary_sort hk h id
  exact ⟨ha, hb, hk⟩

/-- One of two words, and the bits of the conjunction they are the operands of. -/
theorem and_either (hs : q.arena.Inv) {p : TermId × TermId} (h : q.arena.IsBv t w)
    (hk : q.arena.kindAt t = some (.bvAnd a b)) (hp : p ∈ [(a, b), (b, a)]) :
    q.arena.IsBv p.1 w ∧ q.arena.IsBv p.2 w ∧
      ∀ ρ i, q.arena.bit ρ t i = (q.arena.bit ρ p.1 i && q.arena.bit ρ p.2 i) := by
  obtain ⟨ha, hb⟩ := hs.binary_sort hk h id
  simp only [List.mem_cons, List.not_mem_nil, or_false] at hp
  rcases hp with rfl | rfl
  · exact ⟨ha, hb, fun ρ i => Arena.bit_bvAnd hs hk⟩
  · exact ⟨hb, ha, fun ρ i => (Arena.bit_bvAnd hs hk).trans (Bool.and_comm _ _)⟩

section Mux

variable {α : Type} {accept : TermId → TermId → TermId → Result (Option α)}
  {P : α → TermId → TermId → TermId → Prop} {thenPart elsePart : TermId}

theorem muxExprParts_answers (hs : q.arena.Inv) (hthen : q.arena.IsBv thenPart w)
    (helse : q.arena.IsBv elsePart w)
    (hbits : ∀ ρ, Asserted q ρ → ∀ i < w, q.arena.bit ρ t i =
      (q.arena.bit ρ thenPart i || q.arena.bit ρ elsePart i))
    (haccept : ∀ mask thenValue elseValue, IsMux q t mask thenValue elseValue w →
      Answers (accept mask thenValue elseValue) fun o => ∀ d, o = some d →
        P d mask thenValue elseValue) :
    Answers (muxExprParts accept q.arena thenPart elsePart) fun o => ∀ d, o = some d →
      ∃ mask thenValue elseValue, IsMux q t mask thenValue elseValue w ∧
        P d mask thenValue elseValue := by
  refine (bvAndParts_answers hs hthen).bind fun o ho => ?_
  cases o with
  | none => exact answers_none
  | some thenPair =>
    obtain ⟨-, -, hthenKind⟩ := ho thenPair rfl
    refine (bvAndParts_answers hs helse).bind fun o ho => ?_
    cases o with
    | none => exact answers_none
    | some elsePair =>
      obtain ⟨-, -, helseKind⟩ := ho elsePair rfl
      refine (answers_findSomeM? (P := fun p d => ∃ mask thenValue elseValue,
        IsMux q t mask thenValue elseValue w ∧ P d mask thenValue elseValue)
        fun ⟨mask, thenValue⟩ hp => ?_).mono fun o ho d hd => (ho d hd).elim fun _ h => h.2
      obtain ⟨hmask, hthenValue, hthenBits⟩ := and_either hs hthen hthenKind hp
      refine (answers_findSomeM? (P := fun p d => ∃ mask thenValue elseValue,
        IsMux q t mask thenValue elseValue w ∧ P d mask thenValue elseValue)
        fun ⟨notMask, elseValue⟩ hp' => ?_).mono fun o ho d hd => (ho d hd).elim fun _ h => h.2
      obtain ⟨hnotMask, helseValue, helseBits⟩ := and_either hs helse helseKind hp'
      refine (bvNotChild_answers hnotMask).bind fun o ho => ?_
      split
      · rename_i hnot
        have hkind := ho mask hnot
        have hmux : IsMux q t mask thenValue elseValue w := by
          refine ⟨hmask, hthenValue, helseValue, fun ρ hρ i hi => ?_⟩
          rw [hbits ρ hρ i hi, hthenBits, helseBits, Arena.bit_bvNot hs hkind hnotMask hi]
          cases hbit : q.arena.bit ρ mask i <;> simp [choose, hbit]
        exact (haccept mask thenValue elseValue hmux).mono fun o ho d hd =>
          ⟨mask, thenValue, elseValue, hmux, ho d hd⟩
      · exact answers_none

theorem muxExpr_answers (hs : q.arena.Inv) (heq : EqualBv q t x) (ht : q.arena.IsBv t w)
    (haccept : ∀ mask thenValue elseValue, IsMux q t mask thenValue elseValue w →
      Answers (accept mask thenValue elseValue) fun o => ∀ d, o = some d →
        P d mask thenValue elseValue) :
    Answers (muxExpr accept q.arena x) fun o => ∀ d, o = some d →
      ∃ mask thenValue elseValue, IsMux q t mask thenValue elseValue w ∧
        P d mask thenValue elseValue := by
  obtain ⟨hx, -⟩ := heq.of_width ht
  refine (collectBvOrTerms_answers hs hx).bind fun terms hterms => ?_
  obtain ⟨hsorts, hbits⟩ := hterms
  split
  · rename_i first second
    simp only [List.forall_mem_cons, List.not_mem_nil, false_imp_iff, implies_true,
      and_true] at hsorts
    obtain ⟨hfirst, hsecond⟩ := hsorts
    have hor : ∀ ρ, Asserted q ρ → ∀ i < w, q.arena.bit ρ t i =
        (q.arena.bit ρ first i || q.arena.bit ρ second i) := by
      intro ρ hρ i _
      rw [heq.bit hs hρ, hbits]
      simp
    refine (muxExprParts_answers hs hfirst hsecond hor haccept).bind fun o ho => ?_
    cases o with
    | some d => exact answers_ok ho
    | none =>
      refine muxExprParts_answers hs hsecond hfirst (fun ρ hρ i hi => ?_) haccept
      rw [hor ρ hρ i hi, Bool.or_comm]
  · exact answers_none

/-- **Every definition that is found for a word is a choice that the word is.** -/
theorem muxDefinitions_answers (hs : q.arena.Inv) (heq : ∀ p ∈ equalities, EqualBv q p.1 p.2)
    (ht : q.arena.IsBv t w)
    (haccept : ∀ mask thenValue elseValue, IsMux q t mask thenValue elseValue w →
      Answers (accept mask thenValue elseValue) fun o => ∀ d, o = some d →
        P d mask thenValue elseValue) :
    Answers (muxDefinitions accept q.arena equalities t) fun definitions => ∀ d ∈ definitions,
      ∃ mask thenValue elseValue, IsMux q t mask thenValue elseValue w ∧
        P d mask thenValue elseValue := by
  have hside : ∀ a b, EqualBv q a b →
      Answers (muxOfSide accept q.arena t a b) fun o => ∀ d, o = some d →
        ∃ mask thenValue elseValue, IsMux q t mask thenValue elseValue w ∧
          P d mask thenValue elseValue := by
    intro a b hab
    rw [muxOfSide]
    split
    · rename_i hat
      subst hat
      exact muxExpr_answers hs hab ht haccept
    · exact answers_none
  have hpair : ∀ p ∈ equalities, Answers (do
      let forward ← muxOfSide accept q.arena t p.1 p.2
      let backward ← muxOfSide accept q.arena t p.2 p.1
      return [forward, backward].reduceOption) fun definitions => ∀ d ∈ definitions,
        ∃ mask thenValue elseValue, IsMux q t mask thenValue elseValue w ∧
          P d mask thenValue elseValue := by
    intro p hp
    refine (hside p.1 p.2 (heq p hp)).bind fun forward hforward => ?_
    refine (hside p.2 p.1 (heq p hp).symm).bind fun backward hbackward => answers_ok fun d hd => ?_
    rw [List.reduceOption_mem_iff] at hd
    simp only [List.mem_cons, List.not_mem_nil, or_false] at hd
    rcases hd with hd | hd
    · exact hforward d hd.symm
    · exact hbackward d hd.symm
  refine (answers_mapM hpair).bind fun found hfound => answers_ok fun d hd => ?_
  obtain ⟨definitions, hdefinitions, hd⟩ := List.mem_flatten.mp hd
  obtain ⟨p, -, h⟩ := exists_of_forall₂ hfound definitions hdefinitions
  exact h d hd

end Mux

end Shortcuts
end Qfbv
end SmtServer
