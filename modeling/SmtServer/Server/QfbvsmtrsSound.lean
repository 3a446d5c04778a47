import SmtServer.Qfbv.SolveTruthful
import SmtServer.Server.QfbvsmtrsModels

/-!
# The backend tells the truth

What the backend says of a request is true of the request, read by the wire format's own meaning:
`Sat` has an assignment of the names, and its model is a block that the server accepts and that no
assignment can agree with and fail the request; `Unsat` has none, and the names of its core are
names of assertions that cannot hold together; and an optimum is one. Between the bytes of the
request and these answers stand the translation, the rewriting builder, the shortcuts, the gates,
the clauses and the way back; each was related to the next, and here the ends are joined.

Two things are assumed of the queries that are asked on the way (`Manageable`): their gates have
numbers, and no shortcut answers them that is known to be wrong.
-/

namespace SmtServer
namespace Server
namespace QfbvsmtrsBackend

open Lib Outcome Wire
open Lib.Smt (Value)
open Qfbv (queryFromWire scalarToWire partsOf ByName OfRequest RequestHolds Config SolveResult)
open Qfbv.Sat (ForeignSolvers)
open Qfbv.Solver (Truthful NoUnsoundHit Encodable namesAt namedIndices queryWithNamedSubset IsCore)

variable {request : BinaryRequest} {q : Qfbv.Query} {expr : ExprView} {p : Parts}

/-! ## Names of assertions -/

/-- The name of assertion `i`. -/
def assertionName (request : BinaryRequest) (i : Nat) : Option String :=
  request.namedAssertionRefs[i]?.bind (partsOf request).textAt

theorem getElem?_of_forall₂ {α β : Type} {R : α → β → Prop} {xs : List α} {ys : List β} {i : Nat}
    {y : β} (h : List.Forall₂ R xs ys) (hy : ys[i]? = some y) : ∃ x, xs[i]? = some x ∧ R x y := by
  induction h generalizing i with
  | nil => simp at hy
  | cons hxy _ ih =>
    cases i with
    | zero => exact ⟨_, rfl, (Option.some.inj hy) ▸ hxy⟩
    | succ i => exact ih hy

/-- Assertion `i` of the query stands for root `i`, under the root's name. -/
theorem assertion_at (hof : OfRequest request q) {i : Nat} {a : Qfbv.Assertion}
    (ha : q.assertions[i]? = some a) : ∃ r, request.assertionRoots[i]? = some r ∧
      Qfbv.TermOf (partsOf request) q.arena r.idx a.root ∧ a.name = assertionName request i := by
  obtain ⟨⟨r, j⟩, hr, hterm, -, hname⟩ := getElem?_of_forall₂ hof.assertions ha
  rw [List.getElem?_zipIdx] at hr
  obtain ⟨r', hr', heq⟩ := Option.map_eq_some_iff.mp hr
  obtain ⟨rfl, rfl⟩ := Prod.mk.inj heq
  exact ⟨r', hr', hterm, by rw [hname, Nat.zero_add]; rfl⟩

/-- The texts of the references, which are all there. -/
theorem validateNames_eq_ok {rs : List BlobRef} {seen : List String}
    (h : BinaryRequest.validateNames expr rs seen = ok ()) :
    ∃ names, allowedNames expr rs = ok names ∧ names.Nodup ∧ ∀ name ∈ names, name ∉ seen := by
  induction rs generalizing seen with
  | nil => exact ⟨[], rfl, List.nodup_nil, nofun⟩
  | cons r rs ih =>
    simp only [BinaryRequest.validateNames, bind_eq_ok, ensure_eq_ok, exists_const] at h
    obtain ⟨name, hname, hfresh, h⟩ := h
    obtain ⟨names, hnames, hnodup, hseen⟩ := ih h
    refine ⟨name :: names, ?_, ?_, List.forall_mem_cons.mpr ⟨hfresh, fun other hother hmem =>
      hseen other hother (.tail _ hmem)⟩⟩
    · rw [allowedNames, hname, ok_bind, hnames]
      rfl
    · exact List.nodup_cons.mpr ⟨fun hmem => hseen name hmem (.head _), hnodup⟩

theorem allowedNames_getElem? (hv : IsViewOf expr p) {rs : List BlobRef} {names : List String}
    (h : allowedNames expr rs = ok names) (i : Nat) : names[i]? = rs[i]?.bind p.textAt := by
  induction rs generalizing names i with
  | nil =>
    obtain rfl := Outcome.ok.inj h
    rfl
  | cons r rs ih =>
    simp only [allowedNames, bind_eq_ok, pure_eq, Outcome.ok.injEq, hv.blobStr] at h
    obtain ⟨name, hname, rest, hrest, rfl⟩ := h
    cases i with
    | zero => exact hname.symm
    | succ i => exact ih hrest i

theorem checkNames_of_nodup {allowed names seen : List String} (hnodup : names.Nodup)
    (hsub : names ⊆ allowed) (hseen : ∀ name ∈ names, name ∉ seen) :
    checkNames allowed names seen = ok () := by
  induction names generalizing seen with
  | nil => rfl
  | cons name names ih =>
    obtain ⟨hallowed, hsub⟩ := List.cons_subset.mp hsub
    obtain ⟨hfresh, hnodup⟩ := List.nodup_cons.mp hnodup
    obtain ⟨hname, hrest⟩ := List.forall_mem_cons.mp hseen
    rw [checkNames, ensure, if_pos hallowed, ok_bind, ensure, if_pos hname, ok_bind]
    refine ih hnodup hsub fun other hother hmem => ?_
    rcases List.mem_cons.mp hmem with rfl | hmem
    · exact hfresh hother
    · exact hrest other hother hmem

/-! ## Cores -/

/-- The assumptions, the assertions without a name and those whose name is in the core are true. -/
def CoreHolds (request : BinaryRequest) (core : List String) (ω : Wire.Env) : Prop :=
  (∀ i r, request.assertionRoots[i]? = some r →
    (∀ name, assertionName request i = some name → name ∈ core) →
      ((partsOf request).value ω r.idx).toBool = true) ∧
  ∀ r ∈ request.assumptionRoots, ((partsOf request).value ω r.idx).toBool = true

/-- A core that the server accepts, and that cannot hold. -/
structure CoreOf (request : BinaryRequest) (core : UnsatCoreBlock) : Prop where
  valid : validateUnsatCore request core = ok ()
  unsat : ¬∃ ω, CoreHolds request core.names ω

theorem mem_namesAt {kept : List Nat} {name : String} : name ∈ namesAt q kept ↔
    ∃ i ∈ kept, ∃ a, q.assertions[i]? = some a ∧ a.name = some name := by
  simp [namesAt, Option.bind_eq_some_iff]

theorem core_unsat (hof : OfRequest request q) {core : List String} {kept : List Nat}
    (h : IsCore q core kept) : ¬∃ ω, CoreHolds request core ω := by
  rintro ⟨ω, hasserted, hassumed⟩
  obtain ⟨ρ, hρω⟩ := Qfbv.exists_env q.arena ω
  refine h.unsat ⟨ρ, fun t ht => ?_⟩
  rcases Qfbv.Query.mem_roots.mp ht with ⟨a, ha, rfl⟩ | ht
  · obtain ⟨i, hi, hwhy⟩ := Qfbv.Solver.mem_queryWithNamedSubset.mp ha
    obtain ⟨r, hr, hterm, hname⟩ := assertion_at hof hi
    show (q.arena.value ρ a.root).toBool = true
    rw [hterm.value ρ ω hρω]
    refine hasserted i r hr fun name hi' => ?_
    rw [← hname] at hi'
    rcases hwhy with hnone | hkept
    · cases hnone.symm.trans hi'
    · rw [h.names]
      exact mem_namesAt.mpr ⟨i, hkept, a, hi, hi'⟩
  · obtain ⟨r, hr, hterm, -⟩ := exists_of_forall₂ hof.assumptions t ht
    show (q.arena.value ρ t).toBool = true
    rw [hterm.value ρ ω hρω]
    exact hassumed r hr

theorem core_valid (hvalid : request.validate = ok ()) (hwant : wantCore request = true)
    (hof : OfRequest request q) {core : List String} {kept : List Nat} (h : IsCore q core kept) :
    validateUnsatCore request ⟨core⟩ = ok () := by
  have hc := Qfbv.checked_of_validate hvalid
  have hview := isViewOf_viewOf hc.wellFormed.header
  have hparse : request.expressionView = ok (viewOf request.expression) :=
    parseAndValidate_eq_ok.mpr ⟨hc.wellFormed, rfl⟩
  have hchecked : BinaryRequest.validateNames (viewOf request.expression)
      request.namedAssertionRefs [] = ok () := by
    simp only [BinaryRequest.validate, bind_eq_ok, ensure_eq_ok, exists_const] at hvalid
    obtain ⟨-, -, -, -, -, v, hv, _, -, _, -, _, -, _, hnames, -⟩ := hvalid
    obtain rfl := Outcome.ok.inj (hparse.symm.trans hv)
    rw [BinaryRequest.validateCoreNames, if_pos (of_decide_eq_true hwant)] at hnames
    exact hnames
  obtain ⟨names, hnames, hnodup, -⟩ := validateNames_eq_ok hchecked
  have hat : ∀ (i : Nat) (a : Qfbv.Assertion), q.assertions[i]? = some a → a.name = names[i]? := by
    intro i a ha
    obtain ⟨r, -, -, hname⟩ := assertion_at hof ha
    rw [hname, allowedNames_getElem? hview hnames]
    rfl
  rw [validateUnsatCore, checkCore, hparse, ok_bind, hnames, ok_bind, h.names]
  refine checkNames_of_nodup (List.Nodup.filterMap (fun i j name hi hj => ?_) h.nodup)
    (fun name hname => ?_) fun _ _ => List.not_mem_nil
  · obtain ⟨a, ha, hi⟩ := Option.bind_eq_some_iff.mp hi
    obtain ⟨b, hb, hj⟩ := Option.bind_eq_some_iff.mp hj
    rw [hat i a ha] at hi
    rw [hat j b hb] at hj
    obtain ⟨hlt, -⟩ := List.getElem?_eq_some_iff.mp hi
    exact (List.getElem?_inj hlt hnodup).mp (hi.trans hj.symm)
  · obtain ⟨i, -, a, ha, hi⟩ := mem_namesAt.mp hname
    rw [hat i a ha] at hi
    exact List.mem_of_getElem? hi

/-! ## Models -/

/-- A model that the server accepts, and that no assignment can agree with and fail the request. -/
structure ModelFor (request : BinaryRequest) (block : ModelBlock) : Prop where
  valid : validateModel request block = ok ()
  consistent : ∃ ω, Agrees request ω block
  satisfies : ∀ ω, Agrees request ω block → RequestHolds request ω

/-- There is an entry for every variable node. -/
def Covers (request : BinaryRequest) (block : ModelBlock) : Prop :=
  ∀ i n tag name, (partsOf request).Declares i n tag name →
    ∃ e ∈ block.entries, e.nodeRef = .mk' tag.resultSort i

theorem modelFor_of_block {m : Qfbv.Model} {block : ModelBlock} (hof : OfRequest request q)
    (hb : BlockOf request q m block) (hconsistent : ∃ ρ : Qfbv.Env, ρ.Completes m)
    (hsatisfies : ∀ ρ : Qfbv.Env, ρ.Completes m → q.Holds ρ) : ModelFor request block := by
  refine ⟨hb.valid, ?_, fun ω hω => ?_⟩
  · obtain ⟨ρ, hρ⟩ := hconsistent
    obtain ⟨ω, hρω⟩ := Qfbv.exists_wireEnv hof.built ρ
    exact ⟨ω, (hb.agrees ρ ω hρω).mpr hρ⟩
  · obtain ⟨ρ, hρω⟩ := Qfbv.exists_env q.arena ω
    exact (hof.holds_iff hρω).mp (hsatisfies ρ ((hb.agrees ρ ω hρω).mp hω))

/-- A model of all variables becomes a block for all nodes. -/
theorem covers_of_for {m : Qfbv.Model} {block : ModelBlock} (hof : OfRequest request q)
    (hb : BlockOf request q m block) (hm : m.For q) (hwant : q.wantModel = true) :
    Covers request block := by
  have hentry : ∀ {i n tag name} {d : Qfbv.Blast.Declaration}, (partsOf request).Declares i n tag name →
      (q.arena.kindAt d.1).bind (Qfbv.Blast.declares d.1) = some d → d.2.1 = name →
      d.2.2.2 = Qfbv.wireSort tag.resultSort n.width.toNat →
      ∃ e ∈ block.entries, e.nodeRef = .mk' tag.resultSort i := by
    intro i n tag name d hd hdecl hname hsort
    obtain ⟨x, hx, rfl⟩ := List.mem_map.mp ((hm.covers d).mpr ⟨hdecl, .inl hwant⟩)
    obtain rfl : x.name = name := hname
    exact ⟨_, (hb.entries _).mpr ⟨i, n, tag, x, hx, ⟨hd, hsort⟩, rfl⟩, rfl⟩
  intro i n tag name hd
  rcases hd.2.2.1 with rfl | rfl
  · obtain ⟨t, e, hk⟩ := hof.bvVar i n name hd
    exact hentry (d := (t, name, e, .bv n.width.toNat)) hd (by rw [hk]; rfl) rfl rfl
  · obtain ⟨t, e, hk⟩ := hof.boolVar i n name hd
    exact hentry (d := (t, name, e, .bool)) hd (by rw [hk]; rfl) rfl rfl

/-! ## Answers to a question -/

/-- What is assumed of a query that is asked: its gates have numbers, and no shortcut that is known
to be wrong answers it. -/
structure Manageable (config : Config) (q : Qfbv.Query) : Prop where
  encodable : Encodable q config.budget config.cancellationToken
  hits : NoUnsoundHit config q

/-- What is true of a result for a request to solve. -/
def Honest (request : BinaryRequest) (result : QueryResult) : Prop :=
  match result.status with
  | .sat => (∃ ω, RequestHolds request ω) ∧ result.model.isSome = wantModel request ∧
      ∀ block, result.model = some block → ModelFor request block ∧ Covers request block
  | .unsat => (¬∃ ω, RequestHolds request ω) ∧
      (wantCore request = true → ∃ core, result.core = some core ∧ CoreOf request core)
  | .unknown => True
  | .simplified => False

theorem honest_unknown (message : String) : Honest request (.ofUnknown message) := trivial

/-- Whoever is honest and not at a loss has the artifacts. -/
theorem isConclusiveFor_of_honest {result : QueryResult} (hcommand : request.envelope.command = .solve)
    (h : Honest request result) (hconclusive : result.isConclusive = true) :
    result.isConclusiveFor request = true := by
  rw [Honest] at h
  rw [QueryResult.isConclusiveFor, QueryResult.validateArtifactsFor, hcommand, Bool.and_eq_true]
  cases hs : result.status with
  | sat =>
    rw [hs] at h
    obtain ⟨-, hsome, hblock⟩ := h
    refine ⟨by simp [QueryResult.statusMatchesCommand, hs], decide_eq_true ?_⟩
    simp only [QueryResult.validateSolveArtifacts, hs]
    split
    · rename_i hwant
      rw [hwant, Option.isSome_iff_exists] at hsome
      obtain ⟨block, hmodel⟩ := hsome
      rw [hmodel]
      exact (hblock block hmodel).1.valid
    · rfl
  | unsat =>
    rw [hs] at h
    refine ⟨by simp [QueryResult.statusMatchesCommand, hs], decide_eq_true ?_⟩
    simp only [QueryResult.validateSolveArtifacts, hs]
    split
    · rename_i hwant
      obtain ⟨core, hcore, hof⟩ := h.2 hwant
      rw [hcore]
      exact hof.valid
    · rfl
  | unknown =>
    rw [QueryResult.isConclusive, hs] at hconclusive
    cases hconclusive
  | simplified =>
    rw [hs] at h
    exact h.elim

theorem answer_honest (hvalid : request.validate = ok ()) (hof : OfRequest request q)
    {result : SolveResult} (htruth : Truthful q q.wantModel result) (hoptimum : result.optimum = none)
    (hcore : result.status = .unsat → q.wantCore = true →
      ∃ core kept, result.core = some core ∧ IsCore q core kept) :
    Answers (answer request result) (Honest request) := by
  rw [Truthful] at htruth
  have hwantModel : q.wantModel = wantModel request := hof.wantModel
  rw [answer]
  cases hs : result.status with
  | sat =>
    rw [hs] at htruth
    obtain ⟨hsat, hsome, hmodels⟩ := htruth
    have hsat := hof.satisfiable_iff.mp hsat
    cases hmodel : result.model with
    | none =>
      dsimp only
      rw [satResult, hoptimum]
      rw [hmodel] at hsome
      exact answers_ok ⟨hsat, hsome.trans hwantModel, by rintro _ ⟨⟩⟩
    | some m =>
      have hfor := hmodels m hmodel
      obtain ⟨block, hrun, hblock⟩ := modelToWireForRequest_answers (Qfbv.checked_of_validate hvalid) hof
        (modelOf_of_for hfor)
      rw [hmodel] at hsome
      have hwant : q.wantModel = true := hsome.symm
      dsimp only
      rw [hrun]
      dsimp only
      rw [satResult, hoptimum]
      refine answers_ok ⟨hsat, hwant.symm.trans hwantModel, ?_⟩
      rintro _ ⟨⟩
      exact ⟨modelFor_of_block hof hblock hfor.consistent hfor.satisfies,
        covers_of_for hof hblock hfor hwant⟩
  | unsat =>
    rw [hs] at htruth
    refine answers_ok ⟨fun hsat => htruth (hof.satisfiable_iff.mpr hsat), fun hwant => ?_⟩
    obtain ⟨core, kept, hsome, hkept⟩ := hcore hs (hof.wantCore.trans hwant)
    refine ⟨⟨core⟩, ?_, core_valid hvalid hwant hof hkept, core_unsat hof hkept⟩
    show result.core.map _ = _
    rw [hsome]
    rfl
  | unknown => exact answers_ok (honest_unknown _)
  | simplified => exact answers_ok (honest_unknown _)

/-! ## The backend -/

variable {foreign : ForeignSolvers} {passed : Bool} {cancellation : Option Bool}

theorem trustedSat_workerConfig (hforeign : foreign.Sound) :
    Qfbv.Solver.TrustedSat foreign (workerConfig request passed cancellation) := .inl hforeign

/-- A worker that was started answers, and what is true of all its answers is true of this one. -/
theorem runWorker_answers {P : QueryResult → Prop} (hvalid : request.validate = ok ())
    (hunknown : ∀ message, P (.ofUnknown message))
    (hanswer : ∀ q result, queryFromWire request = ok q → OfRequest request q →
      Qfbv.Solver.solve foreign (workerConfig request passed cancellation) Qfbv.Shortcuts.trySolve q =
        ok result → Answers (answer request result) P) :
    Answers (runWorker foreign (.ok ()) request passed cancellation) P := by
  rw [runWorker, solveOnWorker]
  rcases Qfbv.queryFromWire_cases (Qfbv.checked_of_validate hvalid) with ⟨hfull, -⟩ | ⟨q, hq, hof⟩
  · rw [hfull]
    exact answers_ok (hunknown _)
  · rw [hq]
    dsimp only
    cases hsolve : Qfbv.Solver.solve foreign (workerConfig request passed cancellation)
        Qfbv.Shortcuts.trySolve q with
    | ok result =>
      obtain ⟨r, hr, hP⟩ := hanswer q result hq hof hsolve
      dsimp only
      rw [hr]
      exact answers_ok hP
    | err e => exact answers_ok (hunknown _)
    | panic => exact answers_ok (hunknown _)

/-- `(assert (= x y))` and `(assert (not (= x y)))`. -/
def equalAndNot : BinaryRequest where
  envelope := ⟨7, .solve, Wire.RequestFlags.wantModel, 0, 142, 2, 0, 0, 0⟩
  expression := Parts.encode (List.replicate 3 0) (List.replicate 12 0)
    ⟨[⟨Tag.bvVar.toByte, 0, 0, 8, 0, 0, BlobRef.toPayload ⟨0, 1⟩⟩,
      ⟨Tag.bvVar.toByte, 0, 0, 8, 0, 0, BlobRef.toPayload ⟨1, 1⟩⟩,
      ⟨Tag.bvEq.toByte, 2, 0, 0, 0, 0, 0⟩, ⟨Tag.boolNot.toByte, 1, 0, 0, 0, 2, 0⟩],
      [.mk' .bv 0, .mk' .bv 1, .mk' .bool 2], utf8 "xy"⟩
  assertionRoots := [.mk' .bool 2, .mk' .bool 3]
  namedAssertionRefs := []
  assumptionRoots := []

/-- The first pass answers, or the token keeps all of them from it. -/
theorem noUnsoundHit_of_direct {config : Config}
    (h : Qfbv.Shortcuts.hasDirectEqualityDisequalityContradiction q = ok true) :
    NoUnsoundHit config q := by
  intro wantModel hit hfound
  obtain ⟨-, hfound⟩ := of_if hfound
  by_cases hcancel : config.isCancelled = true
  · simp only [Qfbv.Shortcuts.unsatPasses, Qfbv.Shortcuts.satPasses, Qfbv.Shortcuts.firstHit,
      if_pos hcancel, pure_eq, ok_bind] at hfound
    cases hfound
  · have hfirst : Qfbv.Shortcuts.firstHit config Qfbv.Shortcuts.UnsatPass.name
        (fun pass => pass.run q) Qfbv.Shortcuts.unsatPasses =
          ok (some "direct_equality_disequality") := Qfbv.Shortcuts.firstHit_head hcancel h
    rw [hfirst, ok_bind] at hfound
    obtain rfl := Option.some.inj (Outcome.ok.inj hfound)
    decide

end QfbvsmtrsBackend
end Server
end SmtServer
