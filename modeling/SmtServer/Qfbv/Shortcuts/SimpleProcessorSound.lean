import SmtServer.Qfbv.Shortcuts.SimpleProcessorDecode

/-!
# Processors do what the opcode says

What a processor puts out is a function of the opcode and the operators alone (`processorResult`):
the mode only chooses the order in which the operands are packed, and they are unpacked in the order
they were packed in. So no two processors that pass the tests differ, and a query that says two of
them do cannot be satisfied.

The positions are computed from the number of a processor, and that goes wrong at the first processor
that has a greater number than there are operators.
-/

namespace SmtServer
namespace Qfbv

open Lib Outcome

/-- The width of a vector. -/
def Arena.bvWidth (s : Arena) (t : TermId) : Nat :=
  match s.sortAt t with
  | some (.bv width) => width
  | _ => 0

theorem Arena.IsBv.bvWidth_eq {s : Arena} {t : TermId} {w : Nat} (h : s.IsBv t w) :
    s.bvWidth t = w := by
  rw [bvWidth, h]

namespace Shortcuts

variable {s : Arena} {q : Query} {ρ : Env} {t a b c : TermId} {w n : Nat}

/-! ## Fields

A word is made of fields, from its high end down; a field stands above all that follow it. -/

/-- The bits that the fields take. -/
def fieldsWidth (s : Arena) (fields : List TermId) : Nat := (fields.map s.bvWidth).sum

theorem fieldsWidth_append {first second : List TermId} :
    fieldsWidth s (first ++ second) = fieldsWidth s first + fieldsWidth s second := by
  rw [fieldsWidth, List.map_append, List.sum_append]
  rfl

theorem fieldsWidth_cons {field : TermId} {fields : List TermId} :
    fieldsWidth s (field :: fields) = s.bvWidth field + fieldsWidth s fields := by
  rw [fieldsWidth, List.map_cons, List.sum_cons]
  rfl

/-- Every field is where it should be. -/
def LaidOut (s : Arena) (ρ : Env) (packed : TermId) (fields : List TermId) : Prop :=
  ∀ before field after, fields = before ++ field :: after → ∀ i < s.bvWidth field,
    s.bit ρ packed (fieldsWidth s after + i) = s.bit ρ field i

/-- A concatenation lays its fields out. -/
theorem collectConcatFields_answers (hs : s.Inv) (ht : s.IsBv t w) :
    Answers (collectConcatFields s t) fun fields =>
      fieldsWidth s fields = w ∧ ∀ ρ, LaidOut s ρ t fields := by
  refine (collect_answers (P := fun t fields => ∀ w, s.IsBv t w →
    fieldsWidth s fields = w ∧ ∀ ρ, LaidOut s ρ t fields) hs ?_ ?_ ?_ _ t
      (Nat.lt_succ_self t) ht).mono fun fields h => h w ht
  · intro k a b hk
    rw [NodeKind.bvConcat?_eq.mp hk]
    simp [NodeKind.children]
  · intro t k _ _ w ht
    refine ⟨by rw [fieldsWidth_cons, ht.bvWidth_eq]; rfl, fun ρ before field after h i _ => ?_⟩
    obtain ⟨-, h⟩ | ⟨-, h⟩ := List.singleton_eq_append_iff.mp h
    · obtain ⟨rfl, rfl⟩ := List.cons.inj h
      rw [fieldsWidth, List.map_nil, List.sum_nil, Nat.zero_add]
    · cases h
  · intro t k high low highs lows hk hsplit ihh ihl w ht
    rw [NodeKind.bvConcat?_eq.mp hsplit] at hk
    obtain ⟨hw, lw, ht', hhigh, hlow⟩ := hs.bvConcat_sort hk
    obtain rfl := ht.inj ht'
    obtain ⟨hhighs, hlayh⟩ := ihh hw hhigh
    obtain ⟨hlows, hlayl⟩ := ihl lw hlow
    refine ⟨by rw [fieldsWidth_append, hhighs, hlows], fun ρ before field after h i hi => ?_⟩
    rw [Arena.bit_bvConcat hs hk hlow]
    have hlower : ∀ more, lows = more ++ field :: after →
        (if fieldsWidth s after + i < lw then s.bit ρ low (fieldsWidth s after + i)
          else s.bit ρ high (fieldsWidth s after + i - lw)) = s.bit ρ field i := by
      intro more hafter
      rw [if_pos, hlayl ρ more field after hafter i hi]
      rw [← hlows, hafter, fieldsWidth_append, fieldsWidth_cons]
      omega
    rcases List.append_eq_append_iff.mp h with ⟨more, -, hafter⟩ | ⟨more, hmore, hafter⟩
    · exact hlower more hafter
    · cases more with
      | nil => exact hlower [] hafter.symm
      | cons first rest =>
        rw [List.cons_append] at hafter
        obtain ⟨rfl, rfl⟩ := List.cons.inj hafter
        rw [fieldsWidth_append, hlows, if_neg (by omega), Nat.add_right_comm, Nat.add_sub_cancel]
        exact hlayh ρ before field rest hmore i hi

/-- The slices of a word that the fields fit into exactly. -/
theorem fieldSlicesLoop_answers (hs : s.Inv) {fields : List TermId}
    (hfields : ∀ field ∈ fields, ∃ v, s.IsBv field v) {slices : List (TermId × Nat × Nat)} :
    Answers (fieldSlicesLoop s (fieldsWidth s fields) fields slices) fun out =>
      slices ⊆ out ∧ ∀ before field after, fields = before ++ field :: after →
        (field, fieldsWidth s after + (s.bvWidth field - 1), fieldsWidth s after) ∈ out := by
  induction fields generalizing slices with
  | nil =>
    refine answers_ok ⟨List.Subset.refl slices, fun before field after h => ?_⟩
    cases before <;> cases h
  | cons first rest ih =>
    rw [List.forall_mem_cons] at hfields
    obtain ⟨v, hv⟩ := hfields.1
    have hpos := hv.pos hs
    rw [fieldsWidth_cons, hv.bvWidth_eq, fieldSlicesLoop, Arena.expectBv_of_sort hv, ok_bind,
      if_neg (by omega), subU_of_le (by omega), ok_bind, subU_of_le (by omega), ok_bind,
      Nat.add_sub_cancel_left]
    refine (ih hfields.2).mono fun out ⟨hsub, hout⟩ => ?_
    refine ⟨fun x hx => hsub (List.mem_append_left _ hx), fun before field after h => ?_⟩
    cases before with
    | nil =>
      obtain ⟨rfl, rfl⟩ := List.cons.inj h
      refine hsub (List.mem_append_right _ ?_)
      rw [hv.bvWidth_eq, show v + fieldsWidth s rest - 1 = fieldsWidth s rest + (v - 1) by omega]
      exact List.mem_singleton_self _
    | cons _ before =>
      exact hout before field after (List.cons.inj h).2

theorem fieldSlices_answers (hs : s.Inv) {packed : TermId} {fields : List TermId}
    (hpacked : s.IsBv packed (fieldsWidth s fields))
    (hfields : ∀ field ∈ fields, ∃ v, s.IsBv field v) :
    Answers (fieldSlices s packed fields) fun out => ∀ before field after,
      fields = before ++ field :: after →
        (field, fieldsWidth s after + (s.bvWidth field - 1), fieldsWidth s after) ∈ out := by
  rw [fieldSlices, Arena.expectBv_of_sort hpacked, ok_bind]
  exact (fieldSlicesLoop_answers hs hfields).mono fun _ h => h.2

/-! ## Packing and unpacking -/

/-- An equation that has the target on one of its sides. -/
theorem definition_answers (hs : s.Inv) (ht : s.sortAt t = some .bool) {target : TermId}
    {f : TermId → Result Bool} {P : Prop}
    (hf : ∀ expr v, Equates s t target expr v → Answers (f expr) fun found => found = true → P) :
    Answers (do
      let some (a, b) ← bvEqPair s t | return false
      let some expr := if a = target then some b else if b = target then some a else none
        | return false
      f expr) fun found => found = true → P := by
  refine (bvEqPair_answers ht).bind fun o ho => ?_
  rcases o with - | ⟨a, b⟩
  · exact answers_ok fun h => nomatch h
  obtain ⟨v, heq⟩ := equates_of_kind hs (ho _ rfl)
  dsimp only
  by_cases ha : a = target
  · rw [if_pos ha]
    exact hf b v (ha ▸ heq)
  · rw [if_neg ha]
    by_cases hb : b = target
    · rw [if_pos hb]
      exact hf a v (hb ▸ heq.symm)
    · rw [if_neg hb]
      exact answers_ok fun h => nomatch h

theorem matchesEqToConcat_answers (hs : s.Inv) {target : TermId} {fields : List TermId}
    (ht : s.sortAt t = some .bool) :
    Answers (matchesEqToConcat s t target fields) fun found => found = true →
      ∀ ρ, s.IsTrue ρ t → LaidOut s ρ target fields := by
  refine definition_answers hs ht fun expr v hexpr => ?_
  refine (collectConcatFields_answers hs hexpr.2.1).bind fun found ⟨_, hlay⟩ =>
    answers_ok fun h ρ hρ before field after hsplit i hi => ?_
  obtain rfl := of_decide_eq_true h
  rw [← hexpr.1.getLsbD hs, (hexpr.2.2 ρ).mp hρ, hexpr.2.1.getLsbD hs]
  exact hlay ρ before field after hsplit i hi

section Processor

variable {processor : SimpleProcessor} {normal reverse : List TermId}

theorem simpleProcessorNormalFields_answers (hpos : 1 ≤ processor.index)
    (hle : processor.index ≤ processor.oprs.length + 1) :
    Answers (simpleProcessorNormalFields processor) fun fields =>
      fields.Perm (processor.decFunc :: processor.oprs) := by
  rw [simpleProcessorNormalFields, subU_of_le hpos, ok_bind, slice_of_le (by omega) (by omega),
    ok_bind, slice_of_le (by omega) (Nat.le_refl _), ok_bind]
  refine answers_ok (List.perm_middle.trans (.cons _ ?_))
  rw [List.drop_zero, Nat.sub_zero, List.take_of_length_le (l := processor.oprs.drop _) (by simp),
    List.take_append_drop]

theorem simpleProcessorReverseFields_answers (hpos : 1 ≤ processor.index)
    (hle : processor.index ≤ processor.oprs.length) (hlen : processor.oprs.length < 2 ^ 32) :
    Answers (simpleProcessorReverseFields processor) fun fields =>
      fields.Perm (processor.deciFunc :: processor.oprs) := by
  rw [simpleProcessorReverseFields, subU_of_le hle, ok_bind, addU_of_lt (by omega), ok_bind,
    slice_of_le (by omega) (Nat.le_refl _), ok_bind, slice_of_le (by omega) (by omega), ok_bind]
  refine answers_ok (List.perm_middle.trans (.cons _ ?_))
  rw [List.drop_zero, Nat.sub_zero, List.take_of_length_le (l := processor.oprs.drop _) (by simp),
    ← List.reverse_append, List.take_append_drop]
  exact List.reverse_perm _

theorem unpackTarget_returns (hlen : processor.ops.length = processor.oprs.length)
    {funcField field : TermId} : Returns (unpackTarget processor funcField field) := by
  rw [unpackTarget]
  split_ifs
  · exact returns_ok _
  · split
    · rename_i index hindex
      obtain ⟨hlt, -⟩ := List.findIdx?_eq_some_iff_getElem.mp hindex
      rw [List.getElem?_eq_getElem (hlen ▸ hlt), expect_some]
      exact returns_ok _
    · exact returns_ok none

theorem unpackTarget_func {funcField : TermId} :
    unpackTarget processor funcField funcField = ok (some processor.func) := by
  rw [unpackTarget, if_pos rfl]
  rfl

/-- Operands are all different, so each is unpacked to its own. -/
theorem unpackTarget_opr (hnodup : processor.oprs.Nodup) {funcField opr op : TermId} {i : Nat}
    (hfunc : funcField ∉ processor.oprs) (hopr : processor.oprs[i]? = some opr)
    (hop : processor.ops[i]? = some op) :
    unpackTarget processor funcField opr = ok (some op) := by
  have hne : opr ≠ funcField := by
    rintro rfl
    exact hfunc (List.mem_of_getElem? hopr)
  obtain ⟨hlt, hget⟩ := List.getElem?_eq_some_iff.mp hopr
  have hindex : processor.oprs.findIdx? (· == opr) = some i := by
    refine List.findIdx?_eq_some_iff_getElem.mpr ⟨hlt, by simpa using hget, fun j hj h => ?_⟩
    rw [beq_iff_eq, ← hget, hnodup.getElem_inj_iff] at h
    omega
  rw [unpackTarget, if_neg hne, hindex]
  dsimp only
  rw [hop, expect_some]
  rfl

/-- What a branch unpacks is what was packed. -/
def Unpacked (s : Arena) (ρ : Env) (w : Nat) (processor : SimpleProcessor) (funcField : TermId) :
    Prop :=
  s.bv ρ processor.func 1 = s.bv ρ funcField 1 ∧
    processor.ops.map (s.bv ρ · w) = processor.oprs.map (s.bv ρ · w)

variable (hs : s.Inv) (hp : processor.Known s w n)
include hs hp

theorem branchMatchesProcessorUnpack_answers {branch funcField : TermId} {fields : List TermId}
    (hbranch : s.sortAt branch = some .bool) (hperm : fields.Perm (funcField :: processor.oprs))
    (hfunc : s.IsBv funcField 1) (hnotMem : funcField ∉ processor.oprs) :
    Answers (branchMatchesProcessorUnpack s branch processor fields funcField) fun found =>
      found = true → ∀ ρ, s.IsTrue ρ branch → LaidOut s ρ processor.decode fields →
        Unpacked s ρ w processor funcField := by
  have hlen : processor.ops.length = processor.oprs.length := hp.ops_length.trans hp.oprs_length.symm
  have hwidth : fieldsWidth s fields = w * n + 1 := by
    have hoprs : processor.oprs.map s.bvWidth = List.replicate n w := by
      rw [List.eq_replicate_iff, List.length_map, hp.oprs_length]
      refine ⟨rfl, List.forall_mem_map.mpr fun t ht => (hp.oprs t ht).bvWidth_eq⟩
    rw [fieldsWidth, (hperm.map s.bvWidth).sum_eq, List.map_cons, List.sum_cons, hfunc.bvWidth_eq,
      hoprs, List.sum_replicate, smul_eq_mul, Nat.mul_comm, Nat.add_comm]
  have hfields : ∀ field ∈ fields, ∃ v, s.IsBv field v := by
    intro field hfield
    rcases List.mem_cons.mp (hperm.mem_iff.mp hfield) with rfl | hopr
    · exact ⟨1, hfunc⟩
    · exact ⟨w, hp.oprs field hopr⟩
  refine (collectBoolAndConjuncts_answers hs hbranch).bind fun parts ⟨hsorts, htrue⟩ => ?_
  by_cases hparts : parts.length ≠ fields.length
  · rw [if_pos hparts]
    exact answers_ok fun h => nomatch h
  rw [if_neg hparts]
  refine (fieldSlices_answers hs (hwidth ▸ hp.decode) hfields).bind fun slices hslices => ?_
  refine (answers_allM (P := fun e => ∀ target,
    unpackTarget processor funcField e.1 = ok (some target) → ∀ ρ, s.IsTrue ρ branch →
      ∀ i ≤ e.2.1 - e.2.2, s.bit ρ target i = s.bit ρ processor.decode (e.2.2 + i)) ?_).mono ?_
  · rintro ⟨field, high, low⟩ -
    obtain ⟨o, ho⟩ : Returns (unpackTarget processor funcField field) := unpackTarget_returns hlen
    dsimp only
    rw [ho, ok_bind]
    cases o with
    | none => exact answers_ok fun h => nomatch h
    | some target =>
      refine (answers_anyM fun part hpart =>
        (matchesBvEqExtract_answers hs (hsorts part hpart)).unwrapOr).mono ?_
      intro found h hfound target' htarget ρ hρ
      obtain rfl := Option.some.inj (Outcome.ok.inj htarget)
      obtain ⟨part, hpart, hextract⟩ := h hfound
      exact hextract ρ ((htrue ρ).mp hρ part hpart)
  · intro found h hfound ρ hρ hlaid
    have hvalue : ∀ {field target v}, field ∈ fields → s.IsBv field v → s.IsBv target v →
        unpackTarget processor funcField field = ok (some target) →
        s.bv ρ target v = s.bv ρ field v := by
      intro field target v hfield hv htarget hunpack
      obtain ⟨before, after, hsplit⟩ := List.append_of_mem hfield
      refine BitVec.eq_of_getLsbD_eq fun i hi => ?_
      rw [htarget.getLsbD hs, hv.getLsbD hs,
        ← hlaid before field after hsplit i (hv.bvWidth_eq.symm ▸ hi)]
      refine h hfound _ (hslices before field after hsplit) target hunpack ρ hρ i ?_
      dsimp only
      rw [hv.bvWidth_eq]
      omega
    refine ⟨hvalue (hperm.mem_iff.mpr List.mem_cons_self) hfunc hp.func unpackTarget_func, ?_⟩
    refine List.ext_getElem? fun i => ?_
    rw [List.getElem?_map, List.getElem?_map]
    by_cases hi : i < processor.oprs.length
    · have hopr := List.getElem?_eq_getElem hi
      have hop := List.getElem?_eq_getElem (hlen ▸ hi)
      have hopr' := List.mem_of_getElem? hopr
      rw [hopr, hop, Option.map_some, Option.map_some, hvalue
        (hperm.mem_iff.mpr (List.mem_cons_of_mem _ hopr')) (hp.oprs _ hopr')
        (hp.ops _ (List.mem_of_getElem? hop)) (unpackTarget_opr hp.nodup hnotMem hopr hop)]
    · rw [List.getElem?_eq_none (Nat.not_lt.mp hi), List.getElem?_eq_none (by omega)]

omit hp in
/-- A definition by cases: the condition, and what the branches say. -/
theorem cases_answers {test first second : TermId → Result Bool} {C P Q : Env → Prop}
    (ht : s.sortAt t = some .bool)
    (htest : ∀ a, s.sortAt a = some .bool → Answers (test a) fun found => found = true →
      ∀ ρ, s.IsTrue ρ a ↔ C ρ)
    (hfirst : ∀ a, s.sortAt a = some .bool → Answers (first a) fun found => found = true →
      ∀ ρ, s.IsTrue ρ a → P ρ)
    (hsecond : ∀ a, s.sortAt a = some .bool → Answers (second a) fun found => found = true →
      ∀ ρ, s.IsTrue ρ a → Q ρ) :
    Answers (do
      let .boolIte cond thenValue elseValue ← kind s t | return false
      test cond <&&> first thenValue <&&> second elseValue) fun found => found = true →
        ∀ ρ, s.IsTrue ρ t → (C ρ → P ρ) ∧ (¬C ρ → Q ρ) := by
  refine (kind_answers ht).bind fun k hk => ?_
  cases k with
  | boolIte c a b =>
    obtain ⟨-, hc, ha, hb⟩ := hs.sort_kind hk ht
    refine ((htest c hc).and ((hfirst a ha).and (hsecond b hb))).mono fun found h hfound ρ hρ => ?_
    obtain ⟨hcond, hthen, helse⟩ := h hfound
    have hite := (Arena.isTrue_boolIte hs hk).mp hρ
    rw [hcond ρ] at hite
    exact ⟨fun h => hthen ρ (hite.1 h), fun h => helse ρ (hite.2 h)⟩
  | _ => exact answers_ok fun h => nomatch h

omit hp in
theorem matchesModeZero_answers {mode : TermId} (ht : s.sortAt t = some .bool) :
    Answers (matchesModeZero s t mode) fun found => found = true →
      ∀ ρ, s.IsTrue ρ t ↔ s.bv ρ mode 1 = 0 :=
  (matchesBvEqConst_answers hs ht).mono fun _ h hfound => (h hfound).2

omit hp in
theorem matchesSimpleProcessorPackDefinition_answers (ht : s.sortAt t = some .bool)
    (hnormal : simpleProcessorNormalFields processor = ok normal)
    (hreverse : simpleProcessorReverseFields processor = ok reverse) :
    Answers (matchesSimpleProcessorPackDefinition s t processor) fun found => found = true →
      ∀ ρ, s.IsTrue ρ t → (s.bv ρ processor.mode 1 = 0 → LaidOut s ρ processor.decode normal) ∧
        (¬s.bv ρ processor.mode 1 = 0 → LaidOut s ρ processor.decode reverse) := by
  unfold matchesSimpleProcessorPackDefinition
  simp only [hnormal, hreverse, ok_bind]
  exact cases_answers hs ht (fun _ => matchesModeZero_answers hs)
    (fun _ => matchesEqToConcat_answers hs) fun _ => matchesEqToConcat_answers hs

theorem matchesSimpleProcessorUnpackDefinition_answers (ht : s.sortAt t = some .bool)
    (hnormal : simpleProcessorNormalFields processor = ok normal)
    (hreverse : simpleProcessorReverseFields processor = ok reverse)
    (hpn : normal.Perm (processor.decFunc :: processor.oprs))
    (hpr : reverse.Perm (processor.deciFunc :: processor.oprs)) :
    Answers (matchesSimpleProcessorUnpackDefinition s t processor) fun found => found = true →
      ∀ ρ, s.IsTrue ρ t →
        (s.bv ρ processor.mode 1 = 0 → LaidOut s ρ processor.decode normal →
          Unpacked s ρ w processor processor.decFunc) ∧
        (¬s.bv ρ processor.mode 1 = 0 → LaidOut s ρ processor.decode reverse →
          Unpacked s ρ w processor processor.deciFunc) := by
  unfold matchesSimpleProcessorUnpackDefinition
  simp only [hnormal, hreverse, ok_bind]
  exact cases_answers hs ht (fun _ => matchesModeZero_answers hs)
    (fun _ ha => branchMatchesProcessorUnpack_answers hs hp ha hpn hp.decFunc hp.decFunc_notMem)
    fun _ hb => branchMatchesProcessorUnpack_answers hs hp hb hpr hp.deciFunc hp.deciFunc_notMem

/-! ## Outputs -/

omit hs hp in
theorem getLsbD_foldr_or {xs : List (BitVec w)} {i : Nat} :
    (xs.foldr (· ||| ·) 0).getLsbD i = xs.any (·.getLsbD i) := by
  induction xs with
  | nil => exact BitVec.getLsbD_zero
  | cons x xs ih => rw [List.foldr_cons, BitVec.getLsbD_or, ih, List.any_cons]

/-- What an operation makes of words. -/
def SimpleProcessorOp.apply (op : SimpleProcessorOp) (xs : List (BitVec w)) : BitVec w :=
  match op with
  | .add => xs.sum
  | .or => xs.foldr (· ||| ·) 0

omit hs hp in
theorem SimpleProcessorOp.apply_perm {op : SimpleProcessorOp} {xs ys : List (BitVec w)}
    (h : xs.Perm ys) : op.apply xs = op.apply ys := by
  cases op with
  | add => exact h.sum_eq
  | or =>
    refine BitVec.eq_of_getLsbD_eq fun i _ => ?_
    rw [apply, getLsbD_foldr_or, apply, getLsbD_foldr_or]
    exact h.any_eq

omit hp in
theorem collectSimpleProcessorOpTerms_answers (ht : s.IsBv t w) {op : SimpleProcessorOp} :
    Answers (collectSimpleProcessorOpTerms s t op) fun leaves =>
      ∀ ρ, s.bv ρ t w = op.apply (leaves.map (s.bv ρ · w)) := by
  have hreturns : Returns (collectSimpleProcessorOpTerms s t op) := by
    refine (collect_answers (P := fun _ _ => True) hs (fun k a b hk => ?_) (fun _ _ _ _ => trivial)
      (fun _ _ _ _ _ _ _ _ _ _ => trivial) _ t (Nat.lt_succ_self t) ht).returns
    cases op with
    | add =>
      rw [NodeKind.bvAdd?_eq.mp hk]
      simp [NodeKind.children]
    | or =>
      rw [NodeKind.bvOr?_eq.mp hk]
      simp [NodeKind.children]
  obtain ⟨leaves, hleaves⟩ := hreturns
  refine ⟨leaves, hleaves, fun ρ => ?_⟩
  cases op with
  | add => exact (collectBvAddTerms_eq hs ht hleaves).2 ρ
  | or =>
    obtain ⟨hsorts, hbits⟩ := (collectBvOrTerms_answers hs ht).of_eq hleaves
    refine BitVec.eq_of_getLsbD_eq fun i _ => ?_
    rw [ht.getLsbD hs, hbits, SimpleProcessorOp.apply, getLsbD_foldr_or, List.any_map]
    rw [Bool.eq_iff_iff, List.any_eq_true, List.any_eq_true]
    refine exists_congr fun leaf => and_congr_right fun hleaf => ?_
    rw [Function.comp_apply, (hsorts leaf hleaf).getLsbD hs]

theorem matchesOutputExpression_answers (ht : s.sortAt t = some .bool) {op : SimpleProcessorOp} :
    Answers (matchesOutputExpression s t processor op) fun found => found = true →
      ∀ ρ, s.IsTrue ρ t →
        s.bv ρ processor.out w = op.apply (processor.ops.map (s.bv ρ · w)) := by
  refine definition_answers hs ht fun expr v hexpr => ?_
  obtain rfl := hp.out.inj hexpr.1
  refine (collectSimpleProcessorOpTerms_answers hs hexpr.2.1).bind fun actual hval =>
    answers_ok fun h ρ hρ => ?_
  have hperm : actual.Perm processor.ops :=
    (List.perm_insertionSort _ _).symm.trans
      ((List.Perm.of_eq (of_decide_eq_true h)).trans (List.perm_insertionSort _ _))
  rw [(hexpr.2.2 ρ).mp hρ, hval ρ]
  exact SimpleProcessorOp.apply_perm (hperm.map _)

theorem matchesSimpleProcessorOutputDefinition_answers (ht : s.sortAt t = some .bool) :
    Answers (matchesSimpleProcessorOutputDefinition s t processor) fun found => found = true →
      ∀ ρ, s.IsTrue ρ t →
        (s.bv ρ processor.func 1 = 1 → s.bv ρ processor.out w =
          SimpleProcessorOp.add.apply (processor.ops.map (s.bv ρ · w))) ∧
        (¬s.bv ρ processor.func 1 = 1 → s.bv ρ processor.out w =
          SimpleProcessorOp.or.apply (processor.ops.map (s.bv ρ · w))) := by
  exact cases_answers hs ht
    (fun _ hc => (matchesBvEqConst_answers hs hc).mono fun _ h hfound => (h hfound).2)
    (fun _ ha => matchesOutputExpression_answers hs hp ha)
    fun _ hb => matchesOutputExpression_answers hs hp hb

omit hs hp in
/-- A processor that passes all tests has a number that is no greater than that of its operands. -/
theorem index_le_of_matches {leaves operators : List TermId} {opcode : TermId}
    (h : processorMatches s leaves opcode operators processor = ok true) :
    processor.index ≤ processor.oprs.length := by
  obtain ⟨-, h⟩ := and_eq_true.mp h
  obtain ⟨hpack, -⟩ := and_eq_true.mp h
  obtain ⟨leaf, -, hleaf⟩ := exists_of_anyM hpack
  obtain ⟨cond, thenValue, elseValue, -, h⟩ := let_boolIte hleaf
  obtain ⟨-, h⟩ := and_eq_true.mp h
  obtain ⟨-, h⟩ := and_eq_true.mp h
  obtain ⟨reverse, hreverse, -⟩ := bind_eq_ok.mp h
  obtain ⟨rest, hsub, -⟩ := bind_eq_ok.mp hreverse
  exact (subU_eq_ok.mp hsub).1

/-- What is asserted makes a processor put out what the opcode says. -/
theorem out_of_matches {leaves operators : List TermId} {opcode : TermId} (hne : operators ≠ [])
    (hn : n = operators.length) (hops : ∀ t ∈ operators, s.IsBv t w)
    (hleaves : ∀ leaf ∈ leaves, s.sortAt leaf = some .bool) (hpos : 1 ≤ processor.index)
    (hlen : n < 2 ^ 32) (h : processorMatches s leaves opcode operators processor = ok true)
    (hρ : ∀ leaf ∈ leaves, s.IsTrue ρ leaf) :
    s.bv ρ processor.out w =
      processorResult (s.bv ρ opcode 8) (operators.map (s.bv ρ · w)) := by
  subst hn
  have hle := index_le_of_matches h
  obtain ⟨hdecodes, h⟩ := and_eq_true.mp h
  obtain ⟨hpack, h⟩ := and_eq_true.mp h
  obtain ⟨hunpack, hout⟩ := and_eq_true.mp h
  obtain ⟨opr, hopr, h⟩ := bind_eq_ok.mp hdecodes
  obtain ⟨operator, hoperator, h⟩ := bind_eq_ok.mp h
  obtain ⟨hequal, h⟩ := and_eq_true.mp h
  obtain ⟨hdec, hdeci⟩ := and_eq_true.mp h
  rw [expect_eq_ok] at hopr hoperator
  -- the operands
  obtain ⟨leaf, hleaf, h⟩ := exists_of_anyM hequal
  obtain ⟨v, hv, -, heq⟩ := (matchesBvEqPair_answers hs (hleaves leaf hleaf)).of_eq h rfl
  obtain rfl := (hp.oprs opr (List.mem_of_getElem? hopr)).inj hv
  obtain ⟨leaf, hleaf', h⟩ := exists_of_anyM hdec
  obtain ⟨hdecBit, hrest⟩ := (matchesSimpleProcessorDecoder_answers hs hp hops (hleaves leaf hleaf')
    hne).of_eq h rfl ρ (hρ leaf hleaf')
  obtain ⟨leaf, hleaf', h⟩ := exists_of_anyM hdeci
  obtain ⟨hdeciBit, -⟩ := (matchesSimpleProcessorDecoder_answers hs hp hops (hleaves leaf hleaf')
    hne).of_eq h rfl ρ (hρ leaf hleaf')
  rw [if_neg (by simp)] at hdecBit
  rw [if_pos rfl] at hdeciBit
  have hoprs := processorOperands_eq hp.oprs_length (fun opr' operator' h h' => by
    obtain rfl := Option.some.inj (hopr.symm.trans h)
    obtain rfl := Option.some.inj (hoperator.symm.trans h')
    exact (heq ρ).mp (hρ _ hleaf)) hrest
  -- packed and unpacked
  obtain ⟨normal, hnormal, hpn⟩ :=
    simpleProcessorNormalFields_answers hpos (Nat.le_succ_of_le hle)
  obtain ⟨reverse, hreverse, hpr⟩ :=
    simpleProcessorReverseFields_answers hpos hle (hp.oprs_length.symm ▸ hlen)
  obtain ⟨leaf, hleaf', h⟩ := exists_of_anyM hpack
  have hpacked := (matchesSimpleProcessorPackDefinition_answers hs (hleaves leaf hleaf') hnormal
    hreverse).of_eq h rfl ρ (hρ leaf hleaf')
  obtain ⟨leaf, hleaf', h⟩ := exists_of_anyM hunpack
  have hunpacked := (matchesSimpleProcessorUnpackDefinition_answers hs hp (hleaves leaf hleaf')
    hnormal hreverse hpn hpr).of_eq h rfl ρ (hρ leaf hleaf')
  have hfunc : s.bv ρ processor.func 1 = BitVec.ofBool (decodeBit (s.bv ρ opcode 8)) ∧
      processor.ops.map (s.bv ρ · w) = processor.oprs.map (s.bv ρ · w) := by
    by_cases hmode : s.bv ρ processor.mode 1 = 0
    · obtain ⟨hf, ho⟩ := hunpacked.1 hmode (hpacked.1 hmode)
      exact ⟨hf.trans hdecBit, ho⟩
    · obtain ⟨hf, ho⟩ := hunpacked.2 hmode (hpacked.2 hmode)
      exact ⟨hf.trans hdeciBit, ho⟩
  -- the output
  obtain ⟨leaf, hleaf', h⟩ := exists_of_anyM hout
  have hresult := (matchesSimpleProcessorOutputDefinition_answers hs hp (hleaves leaf hleaf')).of_eq
    h rfl ρ (hρ leaf hleaf')
  rw [hfunc.1, hfunc.2, hoprs] at hresult
  rw [processorResult]
  split_ifs with hbit
  · exact hresult.1 (by rw [hbit]; rfl)
  · rw [Bool.not_eq_true] at hbit
    exact hresult.2 (by rw [hbit]; decide)

end Processor

/-! ## The pass -/

/-- Processors whose definitions are found put out the same word, whatever their modes are, and a
query that says that two of them do not cannot be satisfied. -/
theorem simple_processor_equivalence_is_sound {q : Query} (hq : q.WellFormed) :
    (∀ found leaves, q.arena.nodes.length ≤ 200000 →
      collectSimpleProcessorVars q.arena = ok (some found) → conjuncts q = ok leaves →
      found.operators ≠ [] →
      found.processors.allM (processorMatches q.arena leaves found.opcode found.operators) = ok true →
      ∃ w, ∀ ρ, Asserted q ρ → ∀ p ∈ found.processors, q.arena.IsBv p.out w ∧
        q.arena.bv ρ p.out w = processorResult (q.arena.bv ρ found.opcode 8)
          (found.operators.map (q.arena.bv ρ · w))) ∧
    (hasSimpleProcessorEquivalenceContradiction q = ok true → ¬∃ ρ, Asserted q ρ) := by
  have hs := hq.arena
  have hsame : ∀ found leaves, q.arena.nodes.length ≤ 200000 →
      collectSimpleProcessorVars q.arena = ok (some found) → conjuncts q = ok leaves →
      found.operators ≠ [] →
      found.processors.allM (processorMatches q.arena leaves found.opcode found.operators) = ok true →
      ∃ w, ∀ ρ, Asserted q ρ → ∀ p ∈ found.processors, q.arena.IsBv p.out w ∧
        q.arena.bv ρ p.out w = processorResult (q.arena.bv ρ found.opcode 8)
          (found.operators.map (q.arena.bv ρ · w)) := by
    intro found leaves hlen hfound hleaves hne hall
    obtain ⟨w, hknown⟩ := collectSimpleProcessorVars_eq hs (by omega) hfound
    obtain ⟨hsorts, htrue⟩ := (conjuncts_answers hq).of_eq hleaves
    refine ⟨w, fun ρ hρ p hp => ⟨(hknown.processors p hp).out, ?_⟩⟩
    obtain ⟨i, hi⟩ := List.getElem?_of_mem hp
    exact out_of_matches hs (hknown.processors p hp) hne rfl hknown.operators hsorts
      (by rw [hknown.index i p hi]; omega) hknown.operators_length (forall_of_allM hall p hp)
      ((htrue ρ).mp hρ)
  refine ⟨hsame, fun h => ?_⟩
  rintro ⟨ρ, hρ⟩
  obtain ⟨hguard, h⟩ := of_if h
  obtain ⟨o, hfound, h⟩ := bind_eq_ok.mp h
  cases o with
  | none => cases h
  | some found =>
    obtain ⟨hcount, h⟩ := of_if h
    obtain ⟨leaves, hleaves, h⟩ := bind_eq_ok.mp h
    obtain ⟨hfinal, hall⟩ := of_unless h
    obtain ⟨hsorts, htrue⟩ := (conjuncts_answers hq).of_eq hleaves
    have hne : found.operators ≠ [] := by
      intro hnil
      rw [hnil] at hcount
      simp at hcount
    obtain ⟨w, hout⟩ := hsame found leaves (by omega) hfound hleaves hne hall
    have hdiffer := (finalDisjunctionLoop_answers hs (fun ρ => ∀ leaf ∈ leaves,
      q.arena.IsTrue ρ leaf) hsorts (fun leaf hleaf ρ h => h leaf hleaf) (fun h => absurd rfl h)).of_eq
      hfinal rfl ρ ((htrue ρ).mp hρ)
    obtain ⟨p, hp, p', hp', v, hv, -, hne⟩ := hdiffer
    obtain ⟨hw, hval⟩ := hout ρ hρ p hp
    obtain rfl := hw.inj hv
    exact hne (hval.trans (hout ρ hρ p' hp').2.symm)


/-- What the processors of the examples share: the opcode and what it is compared with, the two bits,
and two operators of one bit. -/
def processorShared : List Node := [
    ⟨.bvVar 8 "opcode" (some 0), .bv 8⟩,
    ⟨.bvConst 8 [136], .bv 8⟩,
    ⟨.bvConst 8 [137], .bv 8⟩,
    ⟨.bvConst 8 [138], .bv 8⟩,
    ⟨.bvEq 0 1, .bool⟩,
    ⟨.bvEq 0 2, .bool⟩,
    ⟨.bvEq 0 3, .bool⟩,
    ⟨.bvConst 1 [0], .bv 1⟩,
    ⟨.bvConst 1 [1], .bv 1⟩,
    ⟨.bvVar 1 "operator1" (some 1), .bv 1⟩,
    ⟨.bvVar 1 "operator2" (some 2), .bv 1⟩]

/-- The terms of a processor of number `k`, from the place `b` on. -/
def writtenProcessor (b k : Nat) (name : String) : List Node :=
  let var (width : Nat) (start : String) : Node := ⟨.bvVar width (start ++ name) none, .bv width⟩
  let normal := [b + 8, b + 9].insertIdx (k - 1) (b + 4)
  let reverse := [b + 9, b + 8].insertIdx (k - 1) (b + 5)
  let normalTargets := [b + 6, b + 7].insertIdx (k - 1) (b + 2)
  let reverseTargets := [b + 7, b + 6].insertIdx (k - 1) (b + 2)
  [var 1 "mode_", var 1 "out_", var 1 "func_", var 3 "decode_", var 1 "dec_func_",
    var 1 "deci_func_", var 1 "op1_", var 1 "op2_", var 1 "opr1_", var 1 "opr2_",
    ⟨.bvEq (b + 8) 9, .bool⟩,
    ⟨.bvEq (b + 9) 10, .bool⟩,
    ⟨.bvEq (b + 9) 8, .bool⟩,
    ⟨.bvEq (b + 4) 8, .bool⟩,
    ⟨.bvEq (b + 4) 7, .bool⟩,
    ⟨.bvEq (b + 5) 8, .bool⟩,
    ⟨.bvEq (b + 5) 7, .bool⟩,
    ⟨.boolAnd (b + 13) (b + 11), .bool⟩,
    ⟨.boolAnd (b + 14) (b + 11), .bool⟩,
    ⟨.boolAnd (b + 13) (b + 12), .bool⟩,
    ⟨.boolAnd (b + 14) (b + 12), .bool⟩,
    ⟨.boolIte 6 (b + 19) (b + 20), .bool⟩,
    ⟨.boolIte 5 (b + 18) (b + 21), .bool⟩,
    ⟨.boolIte 4 (b + 17) (b + 22), .bool⟩,
    ⟨.boolAnd (b + 15) (b + 11), .bool⟩,
    ⟨.boolAnd (b + 16) (b + 11), .bool⟩,
    ⟨.boolAnd (b + 15) (b + 12), .bool⟩,
    ⟨.boolAnd (b + 16) (b + 12), .bool⟩,
    ⟨.boolIte 6 (b + 26) (b + 27), .bool⟩,
    ⟨.boolIte 5 (b + 25) (b + 28), .bool⟩,
    ⟨.boolIte 4 (b + 24) (b + 29), .bool⟩,
    ⟨.bvEq b 7, .bool⟩,
    ⟨.bvConcat (normal.getD 1 0) (normal.getD 2 0), .bv 2⟩,
    ⟨.bvConcat (normal.getD 0 0) (b + 32), .bv 3⟩,
    ⟨.bvEq (b + 3) (b + 33), .bool⟩,
    ⟨.bvConcat (reverse.getD 1 0) (reverse.getD 2 0), .bv 2⟩,
    ⟨.bvConcat (reverse.getD 0 0) (b + 35), .bv 3⟩,
    ⟨.bvEq (b + 3) (b + 36), .bool⟩,
    ⟨.boolIte (b + 31) (b + 34) (b + 37), .bool⟩,
    ⟨.bvExtract (b + 3) 2 2, .bv 1⟩,
    ⟨.bvExtract (b + 3) 1 1, .bv 1⟩,
    ⟨.bvExtract (b + 3) 0 0, .bv 1⟩,
    ⟨.bvEq (normalTargets.getD 0 0) (b + 39), .bool⟩,
    ⟨.bvEq (normalTargets.getD 1 0) (b + 40), .bool⟩,
    ⟨.bvEq (normalTargets.getD 2 0) (b + 41), .bool⟩,
    ⟨.boolAnd (b + 43) (b + 44), .bool⟩,
    ⟨.boolAnd (b + 42) (b + 45), .bool⟩,
    ⟨.bvEq (b + 39) (reverseTargets.getD 0 0), .bool⟩,
    ⟨.bvEq (b + 40) (reverseTargets.getD 1 0), .bool⟩,
    ⟨.bvEq (b + 41) (reverseTargets.getD 2 0), .bool⟩,
    ⟨.boolAnd (b + 48) (b + 49), .bool⟩,
    ⟨.boolAnd (b + 47) (b + 50), .bool⟩,
    ⟨.boolIte (b + 31) (b + 46) (b + 51), .bool⟩,
    ⟨.bvEq (b + 2) 8, .bool⟩,
    ⟨.bvAdd (b + 6) (b + 7), .bv 1⟩,
    ⟨.bvEq (b + 1) (b + 54), .bool⟩,
    ⟨.bvOr (b + 6) (b + 7), .bv 1⟩,
    ⟨.bvEq (b + 1) (b + 56), .bool⟩,
    ⟨.boolIte (b + 53) (b + 55) (b + 57), .bool⟩]

/-- The assertions about it. -/
def writtenRoots (b : Nat) : List TermId := [10, 23, 30, 38, 52, 58].map (b + ·)

/-- Two processors of equal modes, and outputs that differ. -/
def writtenProcessors : Query := .asserting (processorShared ++ writtenProcessor 11 1 "1" ++
    writtenProcessor 70 2 "2" ++ [⟨.bvEq 11 70, .bool⟩, ⟨.bvEq 12 71, .bool⟩, ⟨.boolNot 130, .bool⟩])
  (writtenRoots 11 ++ writtenRoots 70 ++ [129, 131])

/-- A number for a node, by which the nodes of the examples differ. -/
def nodeCode (node : Node) : Nat :=
  match node.kind with
  | .bvVar _ name _ => name.toList.foldl (fun code c => (256 * code + c.toNat) % 99991) 0
  | .bvConst width bytes => (256 * leNat bytes + width) % 99991
  | .bvExtract child high low => (256 * (256 * child + high) + low) * 64 % 99991
  | kind => (kind.children.foldl (fun code child => 256 * code + child + 1) kind.ctorIdx) % 99991

theorem writtenProcessors_wellSorted : writtenProcessors.arena.WellSorted :=
  ⟨by decide +kernel, nodup_of_codes nodeCode (by decide +kernel), by decide +kernel⟩

theorem simple_processor_equivalence_of_written :
    hasSimpleProcessorEquivalenceContradiction writtenProcessors = ok true ∧
      ¬∃ ρ, Asserted writtenProcessors ρ := by
  have hfound : hasSimpleProcessorEquivalenceContradiction writtenProcessors = ok true := by
    decide +kernel
  exact ⟨hfound, (simple_processor_equivalence_is_sound
    (Query.wellFormed_of_check writtenProcessors_wellSorted (by decide))).2 hfound⟩

end Shortcuts
end Qfbv
end SmtServer
