import SmtServer.Qfbv.FromWireTerms

/-!
# A query from a request asks what the request asks

The pass over the nodes has made a term for each of them. What is left of `query_from_wire` only
looks terms up: the request has been validated, so every root is a node of the right sort, every
name is text, and nothing can go wrong any more.
-/

namespace SmtServer
namespace Qfbv

open Lib Outcome
open Wire (ExprView RawNode NodeRef BlobRef Tag BinaryRequest Parts WireSort)

variable {p : Parts} {expr : ExprView} {s : Arena} {ρ : Env} {ω : Wire.Env} {σ : WireSort} {α : Type}

/-! ## Roots -/

/-- The reference is to a node of that sort. -/
def RootOf (p : Parts) (σ : WireSort) (r : NodeRef) : Prop :=
  ∃ n tag, p.nodes[r.idx]? = some n ∧ Tag.tryFrom n.tag = some tag ∧ tag.resultSort = σ

theorem rootOf_of_validate {r : NodeRef} {context : String} {a : RawNode}
    (hv : Wire.IsViewOf expr p) (h : Wire.validateNodeRef expr r σ context = ok a) :
    RootOf p σ r := by
  simp only [Wire.validateNodeRef, Wire.parseTag, bind_eq_ok, ensure_eq_ok, exists_const, hv.node,
    ofOption_eq_ok] at h
  obtain ⟨-, hsort, n, hn, tag, ht, hresult, -⟩ := h
  exact ⟨n, tag, hn, ht, hresult.trans hsort⟩

/-- The expression of a request. -/
abbrev partsOf (request : BinaryRequest) : Parts := Parts.ofBytes request.expression

/-- What a parsed request is known to hold. -/
structure Checked (request : BinaryRequest) : Prop where
  wellFormed : Wire.WellFormed request.expression
  assertions : ∀ r ∈ request.assertionRoots, RootOf (partsOf request) .bool r
  assumptions : ∀ r ∈ request.assumptionRoots, RootOf (partsOf request) .bool r
  names : ∀ r ∈ request.namedAssertionRefs, ∃ name, (partsOf request).textAt r = some name
  named_le : request.namedAssertionRefs.length ≤ request.assertionRoots.length
  target : request.envelope.command = .minimize ∨ request.envelope.command = .maximize →
    RootOf (partsOf request) .bv ⟨request.envelope.targetNode⟩
  flags : Wire.validateCommandFlags request.envelope.command request.envelope.flags = ok ()

theorem checked_of_validate {request : BinaryRequest} (h : request.validate = ok ()) :
    Checked request := by
  simp only [BinaryRequest.validate, bind_eq_ok, ensure_eq_ok, exists_const] at h
  obtain ⟨-, -, -, -, hle, v, hparse, _, hasserted, _, hassumed, _, hnamed, _, -, _, hflags,
    htarget⟩ := h
  obtain ⟨hw, rfl⟩ := Wire.parseAndValidate_eq_ok.mp hparse
  have hview := Wire.isViewOf_viewOf hw.header
  refine ⟨hw, fun r hr => ?_, fun r hr => ?_, fun r hr => ?_, hle, fun hcommand => ?_, hflags⟩
  · obtain ⟨n, hn, -⟩ := bind_eq_ok.mp (forM_eq_ok.mp hasserted r hr)
    exact rootOf_of_validate hview hn
  · obtain ⟨n, hn, -⟩ := bind_eq_ok.mp (forM_eq_ok.mp hassumed r hr)
    exact rootOf_of_validate hview hn
  · obtain ⟨name, hname, -⟩ := bind_eq_ok.mp (forM_eq_ok.mp hnamed r hr)
    exact ⟨name, hview.blobStr.mp hname⟩
  · rw [BinaryRequest.validateTarget] at htarget
    rcases hcommand with hcommand | hcommand
    · rw [hcommand] at htarget
      obtain ⟨n, hn, -⟩ := bind_eq_ok.mp htarget
      exact rootOf_of_validate hview hn
    · rw [hcommand] at htarget
      obtain ⟨n, hn, -⟩ := bind_eq_ok.mp htarget
      exact rootOf_of_validate hview hn

theorem checked_of_parse {request : BinaryRequest} {frame : List UInt8}
    (h : BinaryRequest.parse frame = ok request) : Checked request :=
  checked_of_validate (BinaryRequest.encode_eq_ok.mp (BinaryRequest.parse_eq_ok_iff.mp h)).1

/-! ## Queries -/

def commandOf : Wire.Command → Command
  | .solve => .solve
  | .simplify => .simplify
  | .minimize => .minimize
  | .maximize => .maximize

/-- The assertion stands for root `k`, and has its name if it has one. -/
def AssertionOf (request : BinaryRequest) (s : Arena) (root : NodeRef × Nat) (a : Assertion) : Prop :=
  TermOf (partsOf request) s root.1.idx a.root ∧ s.sortAt a.root = some .bool ∧
    a.name = request.namedAssertionRefs[root.2]?.bind (partsOf request).textAt

/-- The term stands for an assumption. -/
def AssumptionOf (request : BinaryRequest) (s : Arena) (root : NodeRef) (t : TermId) : Prop :=
  TermOf (partsOf request) s root.idx t ∧ s.sortAt t = some .bool

/-- The term stands for the node to optimise. -/
def TargetOf (request : BinaryRequest) (s : Arena) (t : TermId) : Prop :=
  TermOf (partsOf request) s (⟨request.envelope.targetNode⟩ : NodeRef).idx t ∧
    ∃ w, s.sortAt t = some (.bv w)

/-- **The query that a request asks for.** -/
structure OfRequest (request : BinaryRequest) (q : Query) : Prop where
  built : Built (WireVar (partsOf request)) q.arena
  bvVar : ∀ i n name, (partsOf request).Declares i n .bvVar name →
    ∃ t e, q.arena.kindAt t = some (.bvVar n.width.toNat name e)
  boolVar : ∀ i n name, (partsOf request).Declares i n .boolVar name →
    ∃ t e, q.arena.kindAt t = some (.boolVar name e)
  assertions : List.Forall₂ (AssertionOf request q.arena) request.assertionRoots.zipIdx q.assertions
  assumptions : List.Forall₂ (AssumptionOf request q.arena) request.assumptionRoots q.assumptions
  command : q.command = commandOf request.envelope.command
  target : ∀ t ∈ q.target, TargetOf request q.arena t
  target_iff : q.target.isSome ↔ q.command = .minimize ∨ q.command = .maximize
  signed : q.signed = decide (request.envelope.flags &&& Wire.RequestFlags.signed ≠ 0)
  wantModel : q.wantModel = decide (request.envelope.flags &&& Wire.RequestFlags.wantModel ≠ 0)
  wantCore : q.wantCore = decide (request.envelope.flags &&& Wire.RequestFlags.wantCore ≠ 0)

section Roots

variable {request : BinaryRequest} {b : Builder} {terms : List (Option TermId)} {r : NodeRef}

theorem termForRef_root (h : Visited p s p.nodes.length terms) (hr : RootOf p σ r) :
    ∃ t w, termForRef terms r = ok t ∧ TermOf p s r.idx t ∧ s.sortAt t = some (wireSort σ w) := by
  obtain ⟨n, tag, hn, ht, rfl⟩ := hr
  obtain ⟨t, hlook, hof⟩ := h.term r.idx (List.getElem?_eq_some_iff.mp hn).1
  exact ⟨t, _, termForRef_eq hlook, hof, hof.sort n tag hn ht⟩

theorem setWireCommand_answers (hc : Checked request)
    (h : Visited (partsOf request) b.arena (partsOf request).nodes.length terms)
    (htarget : b.target = none) (hsigned : b.signed = false) :
    Answers (setWireCommand request terms b) fun b' => ∃ target signed,
      b' = { b with command := commandOf request.envelope.command, target, signed } ∧
      (∀ t ∈ target, TargetOf request b.arena t) ∧
      (target.isSome ↔ request.envelope.command = .minimize ∨ request.envelope.command = .maximize) ∧
      signed = decide (request.envelope.flags &&& Wire.RequestFlags.signed ≠ 0) := by
  have hflags := hc.flags
  have hroot := hc.target
  rw [setWireCommand, BinaryRequest.targetRef]
  cases hcommand : request.envelope.command with
  | solve =>
    rw [hcommand] at hflags
    refine answers_ok ⟨none, false, ?_, nofun, by simp, ?_⟩
    · rw [Builder.setCommand, ← htarget, ← hsigned]
      rfl
    · exact (decide_eq_false (not_not.mpr (ensure_eq_ok.mp hflags))).symm
  | simplify =>
    rw [hcommand] at hflags
    refine answers_ok ⟨none, false, ?_, nofun, by simp, ?_⟩
    · rw [Builder.setCommand, ← htarget, ← hsigned]
      rfl
    · rw [ensure_eq_ok.mp hflags]
      rfl
  | minimize | maximize =>
    obtain ⟨t, w, ht, hof, hsort⟩ := termForRef_root h (hroot (by simp [hcommand]))
    dsimp only
    rw [show (Outcome.ofOption (some (⟨request.envelope.targetNode⟩ : NodeRef)) _ : Result _) = ok _
      from rfl, ok_bind, ht, ok_bind, Builder.setOptimization]
    have hsort : b.arena.sortAt t = some (.bv w) := hsort
    rw [Arena.expectBv_of_sort hsort]
    exact answers_ok ⟨some t, _, rfl, fun u hu => Option.some.inj hu ▸ ⟨hof, w, hsort⟩, by simp, rfl⟩

theorem assertRoot_answers (hview : Wire.IsViewOf expr (partsOf request)) (hc : Checked request)
    (h : Visited (partsOf request) b.arena (partsOf request).nodes.length terms)
    {root : NodeRef × Nat} (hroot : root ∈ request.assertionRoots.zipIdx) :
    Answers (assertRoot expr request terms b root) fun b' => ∃ a, AssertionOf request b.arena root a ∧
      b' = { b with assertions := b.assertions ++ [a] } := by
  obtain ⟨t, w, ht, hof, hsort⟩ :=
    termForRef_root h (hc.assertions root.1 (List.fst_mem_of_mem_zipIdx hroot))
  have hsort : b.arena.sortAt t = some .bool := hsort
  rw [assertRoot, ht, ok_bind]
  cases hname : request.namedAssertionRefs[root.2]? with
  | none =>
    dsimp only
    rw [Builder.assert, Arena.expectBool_of_sort hsort]
    exact answers_ok ⟨⟨t, none⟩, ⟨hof, hsort, by rw [hname]; rfl⟩, rfl⟩
  | some reference =>
    obtain ⟨name, hblob⟩ := hc.names reference (List.mem_of_getElem? hname)
    dsimp only
    rw [wireErr_ok (hview.blobStr.mpr hblob), ok_bind, Builder.assertNamed,
      Arena.expectBool_of_sort hsort]
    exact answers_ok ⟨⟨t, some name⟩, ⟨hof, hsort, by rw [hname, Option.bind_some, hblob]⟩, rfl⟩

theorem assumeRoot_answers (hc : Checked request)
    (h : Visited (partsOf request) b.arena (partsOf request).nodes.length terms)
    (hroot : r ∈ request.assumptionRoots) :
    Answers (assumeRoot terms b r) fun b' => ∃ t, AssumptionOf request b.arena r t ∧
      b' = { b with assumptions := b.assumptions ++ [t] } := by
  obtain ⟨t, w, ht, hof, hsort⟩ := termForRef_root h (hc.assumptions r hroot)
  have hsort : b.arena.sortAt t = some .bool := hsort
  rw [assumeRoot, ht, ok_bind, Builder.assume, Arena.expectBool_of_sort hsort]
  exact answers_ok ⟨t, ⟨hof, hsort⟩, rfl⟩

end Roots

theorem finish_eq {b : Builder} (h : b.target.isSome ↔ b.command = .minimize ∨ b.command = .maximize) :
    b.finish = ok ⟨b.arena, b.assertions, b.assumptions, b.command, b.target, b.signed, b.wantModel,
      b.wantCore, b.getValues⟩ := by
  have hcheck : (.ensure (b.command = .minimize ∨ b.command = .maximize → b.target.isSome = true)
      (.invalid "query target" "MINIMIZE/MAXIMIZE require a target") : Result Unit) = ok () :=
    ensure_eq_ok.mpr h.mpr
  rw [Builder.finish, hcheck]
  rfl

theorem commandOf_eq {c : Wire.Command} : (c = .minimize ∨ c = .maximize) ↔
    (commandOf c = .minimize ∨ commandOf c = .maximize) := by
  cases c <;> simp [commandOf]

/-- After the pass nothing can go wrong. -/
theorem wireRoots_answers {request : BinaryRequest} {st : WireTerms}
    (hview : Wire.IsViewOf expr (partsOf request)) (hc : Checked request)
    (hs : Built (WireVar (partsOf request)) s)
    (htranslated : Translated (partsOf request) (partsOf request).nodes.length st s) :
    Answers (wireRoots expr request st.terms { Builder.new with arena := s })
      (OfRequest request) := by
  have h := htranslated.visited
  have htables := htranslated.tables
  refine (setWireCommand_answers hc h rfl rfl).bind fun b hb => ?_
  obtain ⟨target, signed, rfl, htarget, hsome, hsigned⟩ := hb
  refine (answers_foldlM (fun done b' => ∃ as, b' = { Builder.new with
      arena := s, command := commandOf request.envelope.command, target, signed,
      wantModel := decide (request.envelope.flags &&& Wire.RequestFlags.wantModel ≠ 0),
      wantCore := decide (request.envelope.flags &&& Wire.RequestFlags.wantCore ≠ 0),
      assertions := as } ∧ List.Forall₂ (AssertionOf request s) done as) ⟨[], rfl, .nil⟩ ?_).bind ?_
  · rintro root hroot done _ ⟨as, rfl, has⟩
    refine (assertRoot_answers hview hc h hroot).mono fun b' hb' => ?_
    obtain ⟨a, ha, rfl⟩ := hb'
    exact ⟨as ++ [a], rfl, List.rel_append has (.cons ha .nil)⟩
  rintro _ ⟨as, rfl, has⟩
  refine (answers_foldlM (fun done b' => ∃ ts, b' = { Builder.new with
      arena := s, command := commandOf request.envelope.command, target, signed,
      wantModel := decide (request.envelope.flags &&& Wire.RequestFlags.wantModel ≠ 0),
      wantCore := decide (request.envelope.flags &&& Wire.RequestFlags.wantCore ≠ 0),
      assertions := as, assumptions := ts } ∧ List.Forall₂ (AssumptionOf request s) done ts)
      ⟨[], rfl, .nil⟩ ?_).bind ?_
  · rintro root hroot done _ ⟨ts, rfl, hts⟩
    refine (assumeRoot_answers hc h hroot).mono fun b' hb' => ?_
    obtain ⟨t, ht, rfl⟩ := hb'
    exact ⟨ts ++ [t], rfl, List.rel_append hts (.cons ht .nil)⟩
  rintro _ ⟨ts, rfl, hts⟩
  rw [finish_eq (hsome.trans commandOf_eq)]
  refine answers_ok ⟨hs, fun i n name hd => ?_, fun i n name hd => ?_, has, hts, rfl, htarget,
    hsome.trans commandOf_eq, hsigned, rfl, rfl⟩
  · obtain ⟨t, ht⟩ := htables.bvSeen i (List.getElem?_eq_some_iff.mp hd.1).1 n name hd
    exact ⟨t, htables.bvVar _ _ _ ht⟩
  · obtain ⟨t, ht⟩ := htables.boolSeen i (List.getElem?_eq_some_iff.mp hd.1).1 n name hd
    exact ⟨t, htables.boolVar _ _ ht⟩

theorem queryFromWire_cases {request : BinaryRequest} (hc : Checked request) :
    (queryFromWire request = err Arena.full ∧
      ((wireTerms (Wire.viewOf request.expression)).run .empty).2.nodes.length = 2 ^ 32) ∨
    ∃ q, queryFromWire request = ok q ∧ OfRequest request q := by
  have hview := Wire.isViewOf_viewOf hc.wellFormed.header
  have hparse : request.expressionView = ok (Wire.viewOf request.expression) :=
    Wire.parseAndValidate_eq_ok.mpr ⟨hc.wellFormed, rfl⟩
  have hcount : (partsOf request).nodes.length ≤ Wire.maxNodeCount :=
    (Parts.length_nodes_ofBytes _).trans_le hc.wellFormed.header.nodes
  rw [queryFromWire, wireErr_ok hparse, ok_bind]
  rcases (wireTerms_spec (s := .empty) hview hc.wellFormed.dag hcount).cases built_empty with
    ⟨st, s, hrun, -, hs, h⟩ | ⟨s, hrun, -, -, hlen⟩
  · rw [show Builder.new.arena = .empty from rfl, hrun]
    exact .inr (wireRoots_answers hview hc hs h)
  · rw [show Builder.new.arena = .empty from rfl, hrun]
    exact .inl ⟨rfl, hlen⟩

/-! ## The same question -/

/-- Every assertion and every assumption of the request is true. -/
def RequestHolds (request : BinaryRequest) (ω : Wire.Env) : Prop :=
  ∀ r ∈ request.assertionRoots ++ request.assumptionRoots,
    ((partsOf request).value ω r.idx).toBool = true

theorem forall_mem_iff_of_forall₂ {β : Type} {R : α → β → Prop} {P : α → Prop} {Q : β → Prop}
    {xs : List α} {ys : List β} (h : List.Forall₂ R xs ys) (hR : ∀ x y, R x y → (P x ↔ Q y)) :
    (∀ x ∈ xs, P x) ↔ ∀ y ∈ ys, Q y := by
  induction h with
  | nil => simp
  | cons hxy _ ih => rw [List.forall_mem_cons, List.forall_mem_cons, hR _ _ hxy, ih]

namespace OfRequest

variable {request : BinaryRequest} {q : Query}

theorem holds_iff (h : OfRequest request q) (hρω : ByName q.arena ρ ω) :
    q.Holds ρ ↔ RequestHolds request ω := by
  have hroots : (∀ r ∈ request.assertionRoots, ((partsOf request).value ω r.idx).toBool = true) ↔
      ∀ a ∈ q.assertions, (q.arena.value ρ a.root).toBool = true := by
    rw [← forall_mem_iff_of_forall₂ (P := fun r : NodeRef × Nat =>
      ((partsOf request).value ω r.1.idx).toBool = true) h.assertions fun r a ha => by
        rw [ha.1.value ρ ω hρω]]
    exact ⟨fun hall r hr => hall r.1 (List.fst_mem_of_mem_zipIdx hr), fun hall r hr => by
      obtain ⟨k, hk, rfl⟩ := List.getElem_of_mem hr
      exact hall (request.assertionRoots[k], k) (List.mem_zipIdx_iff_getElem?.mpr
        (List.getElem?_eq_getElem hk))⟩
  have hassumed : (∀ r ∈ request.assumptionRoots,
      ((partsOf request).value ω r.idx).toBool = true) ↔
      ∀ t ∈ q.assumptions, (q.arena.value ρ t).toBool = true :=
    forall_mem_iff_of_forall₂ h.assumptions fun r t ht => by rw [ht.1.value ρ ω hρω]
  rw [RequestHolds, List.forall_mem_append, hroots, hassumed, Query.Holds,
    Query.assertionsAndAssumptions, List.forall_mem_append, List.forall_mem_map]

theorem wellFormed (h : OfRequest request q) : q.WellFormed := by
  refine ⟨h.built.inv, fun t ht => ?_⟩
  have hroots : ∀ a ∈ q.assertions, q.arena.sortAt a.root = some .bool :=
    (forall_mem_iff_of_forall₂ (P := fun _ => True) h.assertions fun r a ha => by
      simp [ha.2.1]).mp fun _ _ => trivial
  have hassumed : ∀ t ∈ q.assumptions, q.arena.sortAt t = some .bool :=
    (forall_mem_iff_of_forall₂ (P := fun _ => True) h.assumptions fun r t ht => by
      simp [ht.2]).mp fun _ _ => trivial
  rcases Query.mem_roots.mp ht with ⟨a, ha, rfl⟩ | ht
  · exact hroots a ha
  · exact hassumed t ht

theorem satisfiable_iff (h : OfRequest request q) :
    q.Satisfiable ↔ ∃ ω, RequestHolds request ω := by
  constructor
  · rintro ⟨ρ, hρ⟩
    obtain ⟨ω, hρω⟩ := exists_wireEnv h.built ρ
    exact ⟨ω, (h.holds_iff hρω).mp hρ⟩
  · rintro ⟨ω, hω⟩
    obtain ⟨ρ, hρω⟩ := exists_env q.arena ω
    exact ⟨ρ, (h.holds_iff hρω).mpr hω⟩

end OfRequest

/-- **Requests are translated faithfully.** A request that passes its validation becomes a query,
unless the ids of terms run out on the way. The query is well formed, has the request's flags,
command and names, and asks the same: assignments to names and assignments to terms correspond, and
under corresponding ones every root has the value of the node that it stands for. -/
theorem query_from_wire_is_faithful {request : BinaryRequest} (h : request.validate = ok ()) :
    (queryFromWire request = err Arena.full ∧
      ((wireTerms (Wire.viewOf request.expression)).run .empty).2.nodes.length = 2 ^ 32) ∨
    ∃ q, queryFromWire request = ok q ∧ q.WellFormed ∧ OfRequest request q ∧
      (∀ ω, ∃ ρ, ByName q.arena ρ ω) ∧ (∀ ρ, ∃ ω, ByName q.arena ρ ω) ∧
      ∀ ρ ω, ByName q.arena ρ ω → (q.Holds ρ ↔ RequestHolds request ω) := by
  rcases queryFromWire_cases (checked_of_validate h) with hfull | ⟨q, hq, hof⟩
  · exact .inl hfull
  · exact .inr ⟨q, hq, hof.wellFormed, hof, exists_env q.arena, exists_wireEnv hof.built,
      fun ρ ω hρω => hof.holds_iff hρω⟩

/-- The request has a query, and the test says yes to it. -/
def queryPasses (request : BinaryRequest) (test : Query → Bool) : Bool :=
  match queryFromWire request with
  | .ok q => test q
  | _ => false

theorem queryPasses_eq {request : BinaryRequest} {test : Query → Bool} {q : Query}
    (h : queryFromWire request = ok q) : queryPasses request test = test q := by
  rw [queryPasses, h]

/-- `(assert (not (= x x)))`, where the two sides are two nodes that carry one name. -/
def twiceX : BinaryRequest where
  envelope := ⟨7, .solve, Wire.RequestFlags.wantModel, 0, 141, 1, 0, 0, 0⟩
  expression := Parts.encode (List.replicate 3 0) (List.replicate 12 0)
    ⟨[⟨Tag.bvVar.toByte, 0, 0, 8, 0, 0, BlobRef.toPayload ⟨0, 1⟩⟩,
      ⟨Tag.bvVar.toByte, 0, 0, 8, 0, 0, BlobRef.toPayload ⟨0, 1⟩⟩,
      ⟨Tag.bvEq.toByte, 2, 0, 0, 0, 0, 0⟩, ⟨Tag.boolNot.toByte, 1, 0, 0, 0, 2, 0⟩],
      [.mk' .bv 0, .mk' .bv 1, .mk' .bool 2], utf8 "x"⟩
  assertionRoots := [.mk' .bool 3]
  namedAssertionRefs := []
  assumptionRoots := []

theorem query_from_wire_of_twiceX : ∃ q, queryFromWire twiceX = ok q ∧ q.WellFormed ∧
    ∀ ρ ω, ByName q.arena ρ ω → (q.Holds ρ ↔ RequestHolds twiceX ω) := by
  have hlen : ((wireTerms (Wire.viewOf twiceX.expression)).run .empty).2.nodes.length = 3 := by
    decide +kernel
  obtain ⟨-, hfull⟩ | ⟨q, hq, hwell, -, -, -, hholds⟩ :=
    query_from_wire_is_faithful (show twiceX.validate = ok () by decide +kernel)
  · rw [hlen] at hfull
    cases hfull
  · exact ⟨q, hq, hwell, hholds⟩

end Qfbv
end SmtServer
