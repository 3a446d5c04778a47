import SmtServer.Wire.Encoded

/-!
# `backend.rs` — what a backend returns, and when that answers a request

A backend hands back a status and whatever blocks it has; nothing forces the two to fit. The
functions here decide whether a result is an answer to the request it was made for:
`is_conclusive_for` asks for a status the command can have and for the artifacts the request
wants, each checked against the request's expression.

`protocol.rs` carries its own copies of the block checks. The part the copies have in common is
written once (`checkModel`, `checkCore`, `checkSimplify`, `checkOptimum`), and each file's
functions are that part with their own texts.
-/

namespace SmtServer
namespace Server

open Lib Outcome Wire

/-- Solver-level status, independent of the wire response envelope. -/
inductive QueryStatus where
  | sat
  | unsat
  | unknown
  | simplified
  deriving Repr, DecidableEq

/-- A backend's result before it is encoded as a wire response. -/
structure QueryResult where
  status : QueryStatus
  model : Option ModelBlock
  core : Option UnsatCoreBlock
  simplify : Option SimplifyBlock
  optimization : Option OptimizationValueBlock
  message : Option String
  deriving Repr, DecidableEq

def wantModel (request : BinaryRequest) : Bool :=
  decide (request.envelope.flags &&& RequestFlags.wantModel ≠ 0)

def wantCore (request : BinaryRequest) : Bool :=
  decide (request.envelope.flags &&& RequestFlags.wantCore ≠ 0)

/-- The `Backend` trait, as the server and the text route use it. What `handle` does to the
thread it runs on is part of its outcome. -/
structure Backend where
  name : String
  supportsQfbvsmtrsTextFallback : Bool
  handle : BinaryRequest → Result QueryResult

/-! ## Block checks shared by `backend.rs` and `protocol.rs` -/

def checkModel (request : BinaryRequest) (model : ModelBlock) : Result Unit := do
  let expr ← request.expressionView
  model.validateAgainstExpr expr

/-- The names the request gives to its assertions. -/
def allowedNames (expr : ExprView) : List BlobRef → Result (List String)
  | [] => pure []
  | r :: rest => do
    let name ← expr.blobStr r "named assertion"
    let names ← allowedNames expr rest
    pure (name :: names)

/-- The loop over the names of a core; `seen` is the set it fills. -/
def checkNames (allowed : List String) : List String → List String → Result Unit
  | [], _ => pure ()
  | name :: rest, seen => do
    ensure (name ∈ allowed)
      (.invalid "unsat core" s!"backend returned unknown core name {debugStr name}")
    ensure (name ∉ seen)
      (.invalid "unsat core" s!"backend returned duplicate core name {debugStr name}")
    checkNames allowed rest (name :: seen)

def checkCore (request : BinaryRequest) (core : UnsatCoreBlock) : Result Unit := do
  let expr ← request.expressionView
  let allowed ← allowedNames expr request.namedAssertionRefs
  checkNames allowed core.names []

/-- The check of a simplified expression; the two files differ in the error for a request
without target. -/
def checkSimplify (missing : WireError) (request : BinaryRequest) (simplify : SimplifyBlock) :
    Result Unit := do
  simplify.validate
  let requestTarget ← ofOption request.targetRef missing
  let requestExpr ← request.expressionView
  let requestNode ← validateNodeRef requestExpr requestTarget requestTarget.sort
    "simplify request target"
  let responseExpr ← simplify.expressionBuffer
  let responseNode ← validateNodeRef responseExpr simplify.targetNode requestTarget.sort
    "simplify response target"
  ensure (responseNode.width = requestNode.width) (.invalid "simplify response target"
    s!"request target width {requestNode.width} but response target width {responseNode.width}")

/-- The check of an optimum, without its model: the view the model is then checked against. -/
def checkOptimum (request : BinaryRequest) (optimization : OptimizationValueBlock) :
    Result ExprView := do
  optimization.optimum.validate
  let expr ← request.expressionView
  let target ← ofOption request.targetRef
    (.invalid "optimization response" "missing target node")
  let targetNode ← validateNodeRef expr target .bv "optimization target"
  ensure (optimization.optimum.width = targetNode.width) (.invalid "optimization optimum"
    s!"target width {targetNode.width} but optimum width {optimization.optimum.width}")
  pure expr

/-! ## `QueryResult` -/

def validateModel (request : BinaryRequest) (model : ModelBlock) : Result Unit :=
  checkModel request model

def validateUnsatCore (request : BinaryRequest) (core : UnsatCoreBlock) : Result Unit :=
  checkCore request core

def validateSimplifyResult (request : BinaryRequest) (simplify : SimplifyBlock) : Result Unit :=
  checkSimplify (.invalid "simplify result" "request is missing target_node") request simplify

/-- Here the model is looked at only when the request wants one. -/
def validateOptimization (request : BinaryRequest) (optimization : OptimizationValueBlock) :
    Result Unit := do
  let expr ← checkOptimum request optimization
  match wantModel request, optimization.model with
  | true, some model => model.validateAgainstExpr expr
  | _, _ => pure ()

namespace QueryResult

def ofSat (model : Option ModelBlock) : QueryResult := ⟨.sat, model, none, none, none, none⟩

def ofUnsat (core : Option UnsatCoreBlock) : QueryResult := ⟨.unsat, none, core, none, none, none⟩

def ofUnknown (message : String) : QueryResult := ⟨.unknown, none, none, none, none, some message⟩

def ofSimplified (simplify : SimplifyBlock) : QueryResult :=
  ⟨.simplified, none, none, some simplify, none, none⟩

def ofSatOptimization (optimization : OptimizationValueBlock) : QueryResult :=
  ⟨.sat, optimization.model, none, none, some optimization, none⟩

def isConclusive (r : QueryResult) : Bool :=
  match r.status with
  | .sat | .unsat | .simplified => true
  | .unknown => false

def validateSolveArtifacts (r : QueryResult) (request : BinaryRequest) : Result Unit :=
  match r.status with
  | .sat =>
    if wantModel request then do
      let model ← ofOption r.model (.invalid "solve result" "SAT without requested model")
      validateModel request model
    else pure ()
  | .unsat =>
    if wantCore request then do
      let core ← ofOption r.core (.invalid "solve result" "UNSAT without requested core")
      validateUnsatCore request core
    else pure ()
  | .unknown => pure ()
  | .simplified => err (.invalid "solve result" "SOLVE returned SIMPLIFIED")

def validateSimplifyArtifacts (r : QueryResult) (request : BinaryRequest) : Result Unit :=
  match r.status with
  | .simplified => do
    let simplify ← ofOption r.simplify
      (.invalid "simplify result" "SIMPLIFIED without simplify block")
    validateSimplifyResult request simplify
  | .unknown => pure ()
  | .sat | .unsat => err (.invalid "simplify result" "SIMPLIFY returned SAT/UNSAT")

def validateOptimizationArtifacts (r : QueryResult) (request : BinaryRequest) : Result Unit :=
  match r.status with
  | .sat => do
    let optimization ← ofOption r.optimization
      (.invalid "optimization result" "SAT without optimum block")
    ensure (¬(wantModel request = true ∧ optimization.model = none))
      (.invalid "optimization result" "SAT without requested model")
    validateOptimization request optimization
  | .unsat | .unknown => pure ()
  | .simplified => err (.invalid "optimization result" "optimization returned SIMPLIFIED")

def validateArtifactsFor (r : QueryResult) (request : BinaryRequest) : Result Unit :=
  match request.envelope.command with
  | .solve => r.validateSolveArtifacts request
  | .simplify => r.validateSimplifyArtifacts request
  | .minimize | .maximize => r.validateOptimizationArtifacts request

def statusMatchesCommand (r : QueryResult) (command : Command) : Bool :=
  match command with
  | .solve | .minimize | .maximize => decide (r.status = .sat ∨ r.status = .unsat)
  | .simplify => decide (r.status = .simplified)

def isConclusiveFor (r : QueryResult) (request : BinaryRequest) : Bool :=
  r.statusMatchesCommand request.envelope.command &&
    decide (r.validateArtifactsFor request = ok ())

/-- An answer to a request has one of the three conclusive statuses. -/
theorem isConclusive_of_isConclusiveFor {r : QueryResult} {request : BinaryRequest}
    (h : r.isConclusiveFor request = true) : r.isConclusive = true := by
  simp only [isConclusiveFor, Bool.and_eq_true] at h
  unfold statusMatchesCommand at h
  unfold isConclusive
  cases hs : r.status with
  | sat => rfl
  | unsat => rfl
  | simplified => rfl
  | unknown =>
    obtain ⟨h, -⟩ := h
    simp only [hs] at h
    split at h <;> exact absurd h (by decide)

/-- A result that leaves the question open has nothing to be checked. -/
theorem validateArtifactsFor_of_not_isConclusive {r : QueryResult} (request : BinaryRequest)
    (h : r.isConclusive = false) : r.validateArtifactsFor request = ok () := by
  have hs : r.status = .unknown := by
    unfold isConclusive at h
    split at h
    all_goals first | assumption | cases h
  unfold validateArtifactsFor
  split
  · simp only [validateSolveArtifacts, hs, pure_eq]
  · simp only [validateSimplifyArtifacts, hs, pure_eq]
  · simp only [validateOptimizationArtifacts, hs, pure_eq]
  · simp only [validateOptimizationArtifacts, hs, pure_eq]

end QueryResult

/-! ## The checks never panic

`is_ok` would swallow an error but not a panic, so this is what makes `isConclusiveFor` the
whole story. -/

section Safe

variable {request : BinaryRequest} {v : ExprView} {p : Parts}

theorem safe_expressionView : Safe request.expressionView := safe_parseAndValidate _

/-- A view a request hands out is a view of its expression. -/
theorem isViewOf_expressionView (h : request.expressionView = ok v) : ∃ p, IsViewOf v p := by
  obtain ⟨hw, rfl⟩ := parseAndValidate_eq_ok.mp h
  exact ⟨_, isViewOf_viewOf hw.header⟩

theorem safe_validateEntry (hv : IsViewOf v p) {seen : List NodeRef}
    {symbols : List (ModelBlock.Symbol × ScalarValue)} {e : ModelEntry} :
    Safe (ModelBlock.validateEntry v seen symbols e) := by
  refine safe_ensure.bind fun _ _ => BinaryRequest.safe_validateNodeRef.bind fun node _ =>
    safe_ensure.bind fun _ _ => Safe.bind ?_ fun shape _ => hv.safe_blobStr.bind fun name _ => ?_
  · unfold ModelBlock.symbolShape
    split
    · exact safe_ensure.bind fun _ _ => safe_ok _
    · exact safe_ensure.bind fun _ _ => safe_ok _
  · dsimp only
    split
    · exact safe_ensure.bind fun _ _ => safe_ok _
    · exact safe_ok _

theorem safe_validateAgainstExpr (hv : IsViewOf v p) {m : ModelBlock} :
    Safe (m.validateAgainstExpr v) := by
  have key : ∀ (es : List ModelEntry) (seen : List NodeRef)
      (symbols : List (ModelBlock.Symbol × ScalarValue)),
      Safe (ModelBlock.validateEntries v es seen symbols) := by
    intro es
    induction es with
    | nil => exact fun _ _ => safe_ok _
    | cons e es ih => exact fun _ _ => (safe_validateEntry hv).bind fun _ _ => ih _ _
  exact key _ _ _

theorem safe_checkModel {m : ModelBlock} : Safe (checkModel request m) := by
  refine safe_expressionView.bind fun v h => ?_
  obtain ⟨p, hv⟩ := isViewOf_expressionView h
  exact safe_validateAgainstExpr hv

theorem safe_allowedNames (hv : IsViewOf v p) (rs : List BlobRef) : Safe (allowedNames v rs) := by
  induction rs with
  | nil => exact safe_ok _
  | cons r rs ih => exact hv.safe_blobStr.bind fun _ _ => ih.bind fun _ _ => safe_ok _

theorem safe_checkNames {allowed names seen : List String} :
    Safe (checkNames allowed names seen) := by
  induction names generalizing seen with
  | nil => exact safe_ok _
  | cons name names ih => exact safe_ensure.bind fun _ _ => safe_ensure.bind fun _ _ => ih

theorem safe_checkCore {c : UnsatCoreBlock} : Safe (checkCore request c) := by
  refine safe_expressionView.bind fun v h => ?_
  obtain ⟨p, hv⟩ := isViewOf_expressionView h
  exact (safe_allowedNames hv _).bind fun _ _ => safe_checkNames

theorem safe_simplifyBlock_validate {s : SimplifyBlock} : Safe s.validate :=
  (safe_parseAndValidate _).bind fun _ _ => BinaryRequest.safe_validateNodeRef.bind fun _ _ =>
    safe_ok _

theorem safe_checkSimplify {missing : WireError} {s : SimplifyBlock} :
    Safe (checkSimplify missing request s) :=
  safe_simplifyBlock_validate.bind fun _ _ => safe_ofOption.bind fun _ _ =>
    safe_expressionView.bind fun _ _ => BinaryRequest.safe_validateNodeRef.bind fun _ _ =>
    (safe_parse _).bind fun _ _ => BinaryRequest.safe_validateNodeRef.bind fun _ _ => safe_ensure

theorem safe_checkOptimum {o : OptimizationValueBlock} : Safe (checkOptimum request o) :=
  ScalarValue.safe_validate.bind fun _ _ => safe_expressionView.bind fun _ _ =>
    safe_ofOption.bind fun _ _ => BinaryRequest.safe_validateNodeRef.bind fun _ _ =>
    safe_ensure.bind fun _ _ => safe_ok _

/-- The view an optimum's model is checked against. -/
theorem isViewOf_checkOptimum {o : OptimizationValueBlock} (h : checkOptimum request o = ok v) :
    ∃ p, IsViewOf v p := by
  simp only [checkOptimum, bind_eq_ok, pure_eq, Outcome.ok.injEq] at h
  obtain ⟨_, -, v', hv, _, -, _, -, _, -, rfl⟩ := h
  exact isViewOf_expressionView hv

theorem safe_validateOptimization {o : OptimizationValueBlock} :
    Safe (validateOptimization request o) := by
  refine safe_checkOptimum.bind fun v hv => ?_
  obtain ⟨p, hp⟩ := isViewOf_checkOptimum hv
  split
  · exact safe_validateAgainstExpr hp
  · exact safe_ok _

theorem safe_validateArtifactsFor {r : QueryResult} : Safe (r.validateArtifactsFor request) := by
  unfold QueryResult.validateArtifactsFor
  have hopt : Safe (r.validateOptimizationArtifacts request) := by
    unfold QueryResult.validateOptimizationArtifacts
    split
    · exact safe_ofOption.bind fun _ _ => safe_ensure.bind fun _ _ => safe_validateOptimization
    all_goals first | exact safe_ok _ | exact safe_err _
  split
  · unfold QueryResult.validateSolveArtifacts
    split
    · split
      · exact safe_ofOption.bind fun _ _ => safe_checkModel
      · exact safe_ok _
    · split
      · exact safe_ofOption.bind fun _ _ => safe_checkCore
      · exact safe_ok _
    all_goals first | exact safe_ok _ | exact safe_err _
  · unfold QueryResult.validateSimplifyArtifacts
    split
    · exact safe_ofOption.bind fun _ _ => safe_checkSimplify
    all_goals first | exact safe_ok _ | exact safe_err _
  · exact hopt
  · exact hopt

end Safe

/-! ## Checked cores are small -/

section Cores

variable {request : BinaryRequest}

/-- A core that passes names assertions of the request, each at most once. -/
theorem checkNames_eq_ok {allowed names seen : List String} {u : Unit}
    (h : checkNames allowed names seen = ok u) :
    names.Nodup ∧ names ⊆ allowed ∧ ∀ n ∈ names, n ∉ seen := by
  induction names generalizing seen with
  | nil => simp
  | cons name names ih =>
    simp only [checkNames, bind_eq_ok, ensure_eq_ok, exists_const] at h
    obtain ⟨hallowed, hseen, h⟩ := h
    obtain ⟨hnodup, hsub, hnot⟩ := ih h
    refine ⟨List.nodup_cons.mpr ⟨fun hmem => hnot _ hmem (List.mem_cons_self ..), hnodup⟩,
      List.cons_subset.mpr ⟨hallowed, hsub⟩, ?_⟩
    intro n hn
    rcases List.mem_cons.mp hn with rfl | hn
    · exact hseen
    · exact fun hmem => hnot n hn (List.mem_cons_of_mem _ hmem)

/-- Names are texts of the blob, so none is longer than the blob's 32-bit lengths allow. -/
theorem allowedNames_eq_ok {v : ExprView} {p : Parts} (hv : IsViewOf v p) {rs : List BlobRef}
    {names : List String} (h : allowedNames v rs = ok names) :
    names.length = rs.length ∧ ∀ n ∈ names, (utf8 n).length < 2 ^ 32 := by
  induction rs generalizing names with
  | nil =>
    simp only [allowedNames, pure_eq, Outcome.ok.injEq] at h
    simp [← h]
  | cons r rs ih =>
    simp only [allowedNames, bind_eq_ok, pure_eq, Outcome.ok.injEq] at h
    obtain ⟨name, hname, rest, hrest, rfl⟩ := h
    obtain ⟨hlen, hall⟩ := ih hrest
    refine ⟨by simp [hlen], List.forall_mem_cons.mpr ⟨?_, hall⟩⟩
    rw [hv.blobStr, Parts.textAt, Option.bind_eq_some_iff] at hname
    obtain ⟨bytes, hb, hs⟩ := hname
    rw [← utf8?_eq_some.mp hs]
    unfold Parts.blobAt at hb
    split at hb
    · obtain rfl := Option.some.inj hb
      have := r.len.toNat_lt
      rw [List.length_take]
      omega
    · cases hb

theorem checkCore_size {c : UnsatCoreBlock} (hr : request.validate = ok ())
    (h : checkCore request c = ok ()) : c.size < 2 ^ usizeBits := by
  simp only [checkCore, bind_eq_ok] at h
  obtain ⟨v, hv, allowed, hallowed, h⟩ := h
  obtain ⟨p, hp⟩ := isViewOf_expressionView hv
  obtain ⟨hnodup, hsub, -⟩ := checkNames_eq_ok h
  obtain ⟨hlen, hshort⟩ := allowedNames_eq_ok hp hallowed
  have hcount : c.names.length ≤ 2 ^ 16 := by
    have h1 : c.names.length ≤ allowed.length := (hnodup.subperm hsub).length_le
    have h2 := (BinaryRequest.envelope_of_validate hr).2.2.1
    have h3 := request.envelope.namedCount.toNat_lt
    omega
  have hsum := List.sum_le_card_nsmul (c.names.map UnsatCoreBlock.nameSize) (2 ^ 33) fun n hn => by
    obtain ⟨name, hname, rfl⟩ := List.mem_map.mp hn
    have := hshort name (hsub hname)
    simp only [UnsatCoreBlock.nameSize]
    omega
  rw [List.length_map] at hsum
  change _ ≤ c.names.length * 2 ^ 33 at hsum
  simp only [UnsatCoreBlock.size, usize_eq]
  omega

end Cores
end Server
end SmtServer
