import SmtServer.Server.Protocol

/-!
# What is answered, in one table

The three handlers of `protocol.rs` differ in which statuses they accept and which block they
look at, not in what they do with it. `plan` is the table of the first, `Plan.run` is the
second, and `responseFromQueryResult_eq` says that the handlers are the two together. Both checkers
are then statements about the table: a result is conclusive for a request exactly when the plan is
to send a block that passes its check.
-/

namespace SmtServer
namespace Server

open Lib Outcome Wire

/-- What a response can carry. -/
inductive Artifact where
  | nothing
  | model (m : ModelBlock)
  | core (c : UnsatCoreBlock)
  | expr (s : SimplifyBlock)
  | value (o : OptimizationValueBlock)

namespace Artifact

/-- As error texts call it. -/
def what : Artifact → String
  | nothing => ""
  | model _ => "model"
  | core _ => "unsat core"
  | expr _ => "simplify block"
  | value _ => "optimization block"

def check (request : BinaryRequest) : Artifact → Result Unit
  | nothing => ok ()
  | model m => Protocol.validateModel request m
  | core c => Protocol.validateUnsatCore request c
  | expr s => Protocol.validateSimplify request s
  | value o => Protocol.validateOptimization request o

def encode : Artifact → Result (List UInt8)
  | nothing => ok []
  | model m => m.encode
  | core c => c.encode
  | expr s => s.encode
  | value o => o.encode

/-- The flags that announce it. -/
def flags : Artifact → UInt8
  | nothing => 0
  | model _ => ResponseFlags.hasModel
  | core _ => ResponseFlags.hasCore
  | expr _ => ResponseFlags.hasExpr
  | value o => Protocol.valueFlags o

/-- Decoding a payload gives it back. -/
def ReadFrom (payload : List UInt8) : Artifact → Prop
  | nothing => payload = []
  | model m => ModelBlock.decode payload = ok m
  | core c => UnsatCoreBlock.decode payload = ok c
  | expr s => SimplifyBlock.decode payload = ok s
  | value o => OptimizationValueBlock.decode payload o.model.isSome = ok o

def size : Artifact → Nat
  | nothing => 0
  | model m => m.size
  | core c => c.size
  | expr s => s.size
  | value o => o.size

/-- The scalars of its model, if it has one, are in normal form. -/
def Spelled : Artifact → Prop
  | model m => m.Spelled
  | value o => ∀ m, o.model = some m → m.Spelled
  | nothing | core _ | expr _ => True

/-- The statuses it can stand under. -/
def Under (status : Status) : Artifact → Prop
  | nothing => status = .sat ∨ status = .unsat
  | model _ | value _ => status = .sat
  | core _ => status = .unsat
  | expr _ => status = .simplified

variable {a : Artifact} {b : List UInt8} {request : BinaryRequest}

theorem readFrom_of_encode (h : a.encode = ok b) : a.ReadFrom b := by
  cases a with
  | nothing => exact (Outcome.ok.inj h).symm
  | model m => exact ModelBlock.decode_eq_ok_iff.mpr h
  | core c => exact UnsatCoreBlock.decode_eq_ok_iff.mpr h
  | expr s => exact SimplifyBlock.decode_eq_ok_iff.mpr h
  | value o => exact OptimizationValueBlock.decode_eq_ok_iff.mpr ⟨h, rfl⟩

theorem length_encode (h : a.encode = ok b) : b.length = a.size := by
  cases a with
  | nothing =>
    obtain rfl := Outcome.ok.inj h
    rfl
  | model m => exact ModelBlock.length_encode h
  | core c => exact UnsatCoreBlock.length_encode h
  | expr s => exact SimplifyBlock.length_encode h
  | value o => exact OptimizationValueBlock.length_encode h

theorem validate_flags (a : Artifact) : validateResponseFlags a.flags = ok () := by
  cases a with
  | value o =>
    simp only [flags, Protocol.valueFlags]
    split <;> decide
  | nothing => decide
  | model m => exact (by decide : validateResponseFlags ResponseFlags.hasModel = ok ())
  | core c => exact (by decide : validateResponseFlags ResponseFlags.hasCore = ok ())
  | expr s => exact (by decide : validateResponseFlags ResponseFlags.hasExpr = ok ())

/-- An encoded block passes the check of the response it is put into. -/
theorem validateStatus_of_encode {id : UInt32} {status : Status} (hs : a.Under status)
    (h : a.encode = ok b) : (BinaryResponse.mk' id status a.flags b).validateStatus = ok () := by
  have hr := readFrom_of_encode h
  cases a with
  | nothing =>
    obtain rfl : b = [] := hr
    rcases hs with rfl | rfl
    · exact BinaryResponse.validateSat_nothing
    · rfl
  | model m =>
    obtain rfl : status = .sat := hs
    exact BinaryResponse.validateSat_model hr
  | core c =>
    obtain rfl : status = .unsat := hs
    exact BinaryResponse.validateUnsat_core hr
  | expr s =>
    obtain rfl : status = .simplified := hs
    exact BinaryResponse.validateSimplified_expr hr
  | value o =>
    obtain rfl : status = .sat := hs
    exact BinaryResponse.validateSat_value hr

/-- What stands between a checked block and its bytes: its length, and scalars nobody looked
at. -/
theorem exists_encode (hc : a.check request = ok ()) (h : a.size < 2 ^ 32) :
    (∃ b, a.encode = ok b) ↔ a.Spelled := by
  cases a with
  | nothing => exact ⟨fun _ => trivial, fun _ => ⟨[], rfl⟩⟩
  | model m => exact ModelBlock.exists_encode_of_size h
  | core c => exact ⟨fun _ => trivial, fun _ => UnsatCoreBlock.exists_encode h⟩
  | expr s =>
    refine ⟨fun _ => trivial, fun _ => ?_⟩
    have hv : s.validate = ok () := by
      simp only [check, Protocol.validateSimplify, checkSimplify, bind_eq_ok] at hc
      obtain ⟨_, hv, -⟩ := hc
      exact hv
    simp only [size, SimplifyBlock.size] at h
    exact ⟨_, SimplifyBlock.encode_eq_ok.mpr ⟨hv, by omega, rfl⟩⟩
  | value o =>
    have hv : o.optimum.validate = ok () := by
      simp only [check, Protocol.validateOptimization, checkOptimum, bind_eq_ok] at hc
      obtain ⟨_, ⟨_, hv, -⟩, -⟩ := hc
      exact hv
    exact OptimizationValueBlock.exists_encode hv h

theorem safe_check : Safe (a.check request) := by
  cases a with
  | nothing => exact safe_ok _
  | model m => exact safe_checkModel
  | core c => exact safe_checkCore
  | expr s => exact safe_checkSimplify
  | value o =>
    refine safe_checkOptimum.bind fun v hv => ?_
    obtain ⟨p, hp⟩ := isViewOf_checkOptimum hv
    split
    · exact safe_validateAgainstExpr hp
    · exact safe_ok _

/-- A checked block is encoded or refused: no core that passes is too long for memory. -/
theorem safe_encode (hr : request.validate = ok ()) (hc : a.check request = ok ()) :
    Safe a.encode := by
  cases a with
  | nothing => exact safe_ok _
  | model m => exact ModelBlock.safe_encode
  | core c => exact UnsatCoreBlock.safe_encode (checkCore_size hr hc)
  | expr s => exact SimplifyBlock.safe_encode
  | value o => exact OptimizationValueBlock.safe_encode

end Artifact

/-! ## The table -/

/-- What is done with a result. -/
inductive Plan where
  | send (status : Status) (artifact : Artifact)
  | leaveOpen
  | complain (text : String)
  | fail (e : WireError)

/-- A block that has to be there. -/
def sendRequired {α : Type} (status : Status) (wrap : α → Artifact) (missing : Plan) :
    Option α → Plan
  | some block => .send status (wrap block)
  | none => missing

def planSolve (request : BinaryRequest) (result : QueryResult) : Plan :=
  match result.status with
  | .sat =>
    if wantModel request then
      sendRequired .sat .model (.complain "SAT backend omitted requested model") result.model
    else .send .sat .nothing
  | .unsat =>
    if wantCore request then
      sendRequired .unsat .core (.complain "UNSAT backend omitted requested core") result.core
    else .send .unsat .nothing
  | .unknown => .leaveOpen
  | .simplified => .complain "SOLVE backend returned SIMPLIFIED"

def planSimplify (result : QueryResult) : Plan :=
  match result.status with
  | .simplified => sendRequired .simplified .expr
    (.fail (.invalid "simplify response" "SIMPLIFIED result without simplify block"))
    result.simplify
  | .unknown => .leaveOpen
  | .sat | .unsat => .complain "SIMPLIFY backend returned SAT/UNSAT"

def planOptimize (request : BinaryRequest) (result : QueryResult) : Plan :=
  match result.status with
  | .sat =>
    match result.optimization with
    | some o =>
      if wantModel request = true ∧ o.model = none then
        .complain "optimization backend omitted requested model"
      else .send .sat (.value (Protocol.dropModel request o))
    | none => .fail (.invalid "optimization response" "SAT result without optimum block")
  | .unsat => .send .unsat .nothing
  | .unknown => .leaveOpen
  | .simplified => .complain "optimization backend returned SIMPLIFIED"

def plan (request : BinaryRequest) (result : QueryResult) : Plan :=
  match request.envelope.command with
  | .solve => planSolve request result
  | .simplify => planSimplify result
  | .minimize | .maximize => planOptimize request result

def Plan.run (request : BinaryRequest) (message : Option String) : Plan → Result BinaryResponse
  | .send status a =>
    Protocol.orErrorResponse request.envelope.requestId a.what (a.check request)
      (a.encode >>= BinaryResponse.new request.envelope.requestId status a.flags)
  | .leaveOpen => Protocol.unknownResponse request.envelope.requestId message
  | .complain text => BinaryResponse.error request.envelope.requestId text
  | .fail e => err e

variable {request : BinaryRequest} {result : QueryResult}

/-- The handlers follow the table. -/
theorem responseFromQueryResult_eq (request : BinaryRequest) (result : QueryResult) :
    Protocol.responseFromQueryResult request result =
      (plan request result).run request result.message := by
  unfold Protocol.responseFromQueryResult plan
  have hopt : Protocol.optimizeResponse request result =
      (planOptimize request result).run request result.message := by
    unfold Protocol.optimizeResponse planOptimize
    cases result.status with
    | sat =>
      cases result.optimization with
      | none => rfl
      | some o =>
        simp only [ofOption, ok_bind]
        split <;> rfl
    | unsat => rfl
    | unknown => rfl
    | simplified => rfl
  cases request.envelope.command with
  | solve =>
    show Protocol.solveResponse request result = (planSolve request result).run request _
    unfold Protocol.solveResponse planSolve
    cases result.status with
    | sat =>
      dsimp only
      split
      · cases result.model <;> rfl
      · rfl
    | unsat =>
      dsimp only
      split
      · cases result.core <;> rfl
      · rfl
    | unknown => rfl
    | simplified => rfl
  | simplify =>
    show Protocol.simplifyResponse request result = (planSimplify result).run request _
    unfold Protocol.simplifyResponse planSimplify
    cases result.status with
    | simplified => cases result.simplify <;> rfl
    | unknown => rfl
    | sat => rfl
    | unsat => rfl
  | minimize => exact hopt
  | maximize => exact hopt

/-- The response status a conclusive result is sent under. -/
def conclusiveStatus : QueryStatus → Option Status
  | .sat => some .sat
  | .unsat => some .unsat
  | .simplified => some .simplified
  | .unknown => none

/-- The rows of the table that send something. -/
inductive Sends (request : BinaryRequest) (result : QueryResult) : Status → Artifact → Prop
  | satModel {m : ModelBlock} : request.envelope.command = .solve → result.status = .sat →
    wantModel request = true → result.model = some m → Sends request result .sat (.model m)
  | sat : request.envelope.command = .solve → result.status = .sat →
    wantModel request = false → Sends request result .sat .nothing
  | unsatCore {c : UnsatCoreBlock} : request.envelope.command = .solve →
    result.status = .unsat → wantCore request = true → result.core = some c →
    Sends request result .unsat (.core c)
  | unsat : request.envelope.command = .solve → result.status = .unsat →
    wantCore request = false → Sends request result .unsat .nothing
  | simplified {s : SimplifyBlock} : request.envelope.command = .simplify →
    result.status = .simplified → result.simplify = some s →
    Sends request result .simplified (.expr s)
  | optimum {o : OptimizationValueBlock} :
    request.envelope.command = .minimize ∨ request.envelope.command = .maximize →
    result.status = .sat → result.optimization = some o →
    (wantModel request = true → o.model ≠ none) →
    Sends request result .sat (.value (Protocol.dropModel request o))
  | infeasible : request.envelope.command = .minimize ∨ request.envelope.command = .maximize →
    result.status = .unsat → Sends request result .unsat .nothing

/-- All rows of the table. -/
inductive Row (request : BinaryRequest) (result : QueryResult) : Plan → Prop
  | send {status : Status} {a : Artifact} : Sends request result status a →
    Row request result (.send status a)
  | leaveOpen : result.status = .unknown → Row request result .leaveOpen
  | complain {text : String} : result.status ≠ .unknown → (utf8 text).length < 2 ^ 32 →
    Row request result (.complain text)
  | failSimplify {e : WireError} : request.envelope.command = .simplify →
    result.status = .simplified → result.simplify = none → Row request result (.fail e)
  | failOptimum {e : WireError} :
    request.envelope.command = .minimize ∨ request.envelope.command = .maximize →
    result.status = .sat → result.optimization = none → Row request result (.fail e)

/-- A row that complains, with one of the fixed texts. -/
theorem Row.complaint {text : String} {status : QueryStatus} (hs : result.status = status)
    (hn : status ≠ .unknown) (ht : (utf8 text).length < 2 ^ 32) :
    Row request result (.complain text) :=
  .complain (by rwa [hs]) ht

/-- One of the rows applies. -/
theorem row_plan (request : BinaryRequest) (result : QueryResult) :
    Row request result (plan request result) := by
  have hopt : (request.envelope.command = .minimize ∨ request.envelope.command = .maximize) →
      Row request result (planOptimize request result) := by
    intro hcmd
    unfold planOptimize
    cases hs : result.status with
    | sat =>
      cases ho : result.optimization with
      | none => exact .failOptimum hcmd hs ho
      | some o =>
        dsimp only
        split
        · exact .complaint hs (by decide) (by decide)
        · rename_i hm
          exact .send (.optimum hcmd hs ho fun hw hn => hm ⟨hw, hn⟩)
    | unsat => exact .send (.infeasible hcmd hs)
    | unknown => exact .leaveOpen hs
    | simplified => exact .complaint hs (by decide) (by decide)
  unfold plan
  cases hcmd : request.envelope.command with
  | solve =>
    show Row request result (planSolve request result)
    unfold planSolve
    cases hs : result.status with
    | sat =>
      cases hw : wantModel request with
      | false => exact .send (.sat hcmd hs hw)
      | true =>
        cases hm : result.model with
        | some m => exact .send (.satModel hcmd hs hw hm)
        | none => exact .complaint hs (by decide) (by decide)
    | unsat =>
      cases hw : wantCore request with
      | false => exact .send (.unsat hcmd hs hw)
      | true =>
        cases hc : result.core with
        | some c => exact .send (.unsatCore hcmd hs hw hc)
        | none => exact .complaint hs (by decide) (by decide)
    | unknown => exact .leaveOpen hs
    | simplified => exact .complaint hs (by decide) (by decide)
  | simplify =>
    show Row request result (planSimplify result)
    unfold planSimplify
    cases hs : result.status with
    | simplified =>
      cases he : result.simplify with
      | some e => exact .send (.simplified hcmd hs he)
      | none => exact .failSimplify hcmd hs he
    | unknown => exact .leaveOpen hs
    | sat => exact .complaint hs (by decide) (by decide)
    | unsat => exact .complaint hs (by decide) (by decide)
  | minimize => exact hopt (.inl hcmd)
  | maximize => exact hopt (.inr hcmd)

theorem sends_of_plan {status : Status} {a : Artifact} (h : plan request result = .send status a) :
    Sends request result status a := by
  have hrow := row_plan request result
  rw [h] at hrow
  cases hrow with
  | send hs => exact hs

/-- A block is sent under the status of the result, and under a status it can stand under. -/
theorem Sends.status {status : Status} {a : Artifact} (h : Sends request result status a) :
    conclusiveStatus result.status = some status ∧ a.Under status := by
  cases h with
  | satModel _ hs => exact ⟨by rw [hs]; rfl, rfl⟩
  | sat _ hs => exact ⟨by rw [hs]; rfl, .inl rfl⟩
  | unsatCore _ hs => exact ⟨by rw [hs]; rfl, rfl⟩
  | unsat _ hs => exact ⟨by rw [hs]; rfl, .inr rfl⟩
  | simplified _ hs => exact ⟨by rw [hs]; rfl, rfl⟩
  | optimum _ hs => exact ⟨by rw [hs]; rfl, rfl⟩
  | infeasible _ hs => exact ⟨by rw [hs]; rfl, .inr rfl⟩

/-- The table answers `unknown` for nothing but an open result. -/
theorem plan_leaveOpen_iff : plan request result = .leaveOpen ↔ result.status = .unknown := by
  have hrow := row_plan request result
  generalize plan request result = p at hrow
  cases hrow with
  | leaveOpen hs => simp [hs]
  | send hs =>
    refine iff_of_false (by simp) fun hu => ?_
    have := hs.status.1
    rw [hu] at this
    cases this
  | complain hs _ => exact iff_of_false (by simp) hs
  | failSimplify _ hs _ => simp [hs]
  | failOptimum _ hs _ => simp [hs]

/-- The two rows that fail: a simplified expression or an optimum that is not there. -/
theorem plan_fail_iff : (∃ e, plan request result = .fail e) ↔
    (request.envelope.command = .simplify ∧ result.status = .simplified ∧
      result.simplify = none) ∨
    ((request.envelope.command = .minimize ∨ request.envelope.command = .maximize) ∧
      result.status = .sat ∧ result.optimization = none) := by
  constructor
  · rintro ⟨e, he⟩
    have hrow := row_plan request result
    rw [he] at hrow
    cases hrow with
    | failSimplify hcmd hs hn => exact .inl ⟨hcmd, hs, hn⟩
    | failOptimum hcmd hs hn => exact .inr ⟨hcmd, hs, hn⟩
  · rintro (⟨hcmd, hs, hn⟩ | ⟨hcmd | hcmd, hs, hn⟩)
    · exact ⟨_, by simp [plan, planSimplify, hcmd, hs, hn, sendRequired]; rfl⟩
    · exact ⟨_, by simp [plan, planOptimize, hcmd, hs, hn]; rfl⟩
    · exact ⟨_, by simp [plan, planOptimize, hcmd, hs, hn]; rfl⟩

theorem length_complain {text : String} (h : plan request result = .complain text) :
    (utf8 text).length < 2 ^ 32 := by
  have hrow := row_plan request result
  rw [h] at hrow
  cases hrow with
  | complain _ ht => exact ht

/-- Sends is the table read from the other side. -/
theorem plan_send_iff {status : Status} {a : Artifact} :
    plan request result = .send status a ↔ Sends request result status a := by
  refine ⟨sends_of_plan, fun h => ?_⟩
  cases h with
  | satModel hcmd hs hw hm => simp [plan, planSolve, hcmd, hs, hw, hm, sendRequired]
  | sat hcmd hs hw => simp [plan, planSolve, hcmd, hs, hw]
  | unsatCore hcmd hs hw hc => simp [plan, planSolve, hcmd, hs, hw, hc, sendRequired]
  | unsat hcmd hs hw => simp [plan, planSolve, hcmd, hs, hw]
  | simplified hcmd hs he => simp [plan, planSimplify, hcmd, hs, he, sendRequired]
  | optimum hcmd hs ho hm =>
    have hnot : ¬(wantModel request = true ∧ _ = none) := fun ⟨hw, hn⟩ => hm hw hn
    rcases hcmd with hcmd | hcmd <;> simp only [plan, planOptimize, hcmd, hs, ho, if_neg hnot]
  | infeasible hcmd hs =>
    rcases hcmd with hcmd | hcmd <;> simp [plan, planOptimize, hcmd, hs]

/-! ## The two checkers -/

theorem validateSimplify_eq_ok {s : SimplifyBlock} :
    Protocol.validateSimplify request s = ok () ↔ validateSimplifyResult request s = ok () := by
  simp only [Protocol.validateSimplify, validateSimplifyResult, checkSimplify, bind_eq_ok,
    ofOption_eq_ok]

/-- The copies differ in when they look at a model, which dropping it makes up for. -/
theorem validateOptimization_dropModel (request : BinaryRequest) (o : OptimizationValueBlock) :
    Protocol.validateOptimization request (Protocol.dropModel request o) =
      validateOptimization request o := by
  have hc : checkOptimum request (Protocol.dropModel request o) = checkOptimum request o := by
    unfold Protocol.dropModel
    split <;> rfl
  unfold Protocol.validateOptimization validateOptimization
  rw [hc]
  refine congrArg _ (funext fun v => ?_)
  cases hw : wantModel request with
  | true => cases hm : o.model <;> simp [Protocol.dropModel, hw, hm]
  | false => simp [Protocol.dropModel, hw]

/-- Conclusive for a request: the plan is to send, and the check passes. -/
theorem isConclusiveFor_iff : result.isConclusiveFor request = true ↔
    ∃ status a, plan request result = .send status a ∧ a.check request = ok () := by
  simp only [QueryResult.isConclusiveFor, Bool.and_eq_true, decide_eq_true_eq]
  have hopt : (decide (result.status = .sat ∨ result.status = .unsat) = true ∧
      result.validateOptimizationArtifacts request = ok ()) ↔
      ∃ status a, planOptimize request result = .send status a ∧ a.check request = ok () := by
    unfold QueryResult.validateOptimizationArtifacts planOptimize
    cases result.status with
    | sat =>
      cases result.optimization with
      | none => simp [ofOption]
      | some o =>
        by_cases hm : wantModel request = true ∧ o.model = none
        · simp [ofOption, hm, ensure]
        · simp only [ofOption, ok_bind, hm, not_false_eq_true, ensure, if_true, if_false]
          simp [Artifact.check, validateOptimization_dropModel]
    | unsat => simp [Artifact.check]
    | unknown => simp
    | simplified => simp
  unfold QueryResult.statusMatchesCommand QueryResult.validateArtifactsFor plan
  cases request.envelope.command with
  | solve =>
    dsimp only
    unfold QueryResult.validateSolveArtifacts planSolve
    cases result.status with
    | sat =>
      cases hw : wantModel request with
      | true => cases result.model <;>
          simp [sendRequired, ofOption, Artifact.check, Protocol.validateModel, validateModel]
      | false => simp [Artifact.check]
    | unsat =>
      cases hw : wantCore request with
      | true => cases result.core <;> simp [sendRequired, ofOption, Artifact.check,
          Protocol.validateUnsatCore, validateUnsatCore]
      | false => simp [Artifact.check]
    | unknown => simp
    | simplified => simp
  | simplify =>
    dsimp only
    unfold QueryResult.validateSimplifyArtifacts planSimplify
    cases result.status with
    | simplified =>
      cases result.simplify with
      | none => simp [sendRequired, ofOption]
      | some s => simp [sendRequired, ofOption, Artifact.check, validateSimplify_eq_ok]
    | sat => simp
    | unsat => simp
    | unknown => simp
  | minimize => exact hopt
  | maximize => exact hopt

/-! ## What the handlers return -/

/-- Sending a block: its bytes, or an `ERROR` response if the check fails. -/
theorem run_send_eq_ok {status : Status} {a : Artifact} {message : Option String}
    {response : BinaryResponse} (hs : a.Under status) :
    (Plan.send status a).run request message = ok response ↔
      (a.check request = ok () ∧ ∃ b, a.encode = ok b ∧ b.length < 2 ^ 32 ∧
        response = .mk' request.envelope.requestId status a.flags b) ∨
      ∃ e, a.check request = err e ∧
        (utf8 s!"invalid backend {a.what}: {e.display}").length < 2 ^ 32 ∧
        response = .mk' request.envelope.requestId .error ResponseFlags.hasMessage
          (utf8 s!"invalid backend {a.what}: {e.display}") := by
  simp only [Plan.run, Protocol.orErrorResponse]
  cases hc : a.check request with
  | ok u =>
    simp only [BinaryResponse.send_eq_ok a.validate_flags
      fun b hb => Artifact.validateStatus_of_encode hs hb]
    simp
  | err e => simp [BinaryResponse.error_eq_ok]
  | panic => simp

theorem unknownResponse_eq_ok {id : UInt32} {message : Option String} {response : BinaryResponse}
    (h : Protocol.unknownResponse id message = ok response) :
    ∃ flags payload, response = .mk' id .unknown flags payload := by
  unfold Protocol.unknownResponse at h
  split at h
  all_goals exact ⟨_, _, (BinaryResponse.new_eq_ok.mp h).2.2.2⟩

/-- What a response can be: the block of a plan, or no verdict at all. -/
theorem response_cases {response : BinaryResponse}
    (h : Protocol.responseFromQueryResult request result = ok response) :
    (∃ status a b, plan request result = .send status a ∧ a.check request = ok () ∧
      a.encode = ok b ∧ b.length < 2 ^ 32 ∧
      response = .mk' request.envelope.requestId status a.flags b) ∨
    response.envelope.status = .error ∨ response.envelope.status = .unknown := by
  rw [responseFromQueryResult_eq] at h
  cases hp : plan request result with
  | send status a =>
    rw [hp, run_send_eq_ok (sends_of_plan hp).status.2] at h
    rcases h with ⟨hc, b, hb, hlt, rfl⟩ | ⟨e, -, -, rfl⟩
    · exact .inl ⟨status, a, b, rfl, hc, hb, hlt, rfl⟩
    · exact .inr (.inl rfl)
  | leaveOpen =>
    rw [hp] at h
    obtain ⟨flags, payload, rfl⟩ := unknownResponse_eq_ok h
    exact .inr (.inr rfl)
  | complain text =>
    rw [hp] at h
    obtain ⟨-, rfl⟩ := BinaryResponse.error_eq_ok.mp h
    exact .inr (.inl rfl)
  | fail e =>
    rw [hp] at h
    cases h

/-- A block that is sent becomes a response. -/
theorem response_of_plan {status : Status} {a : Artifact} {b : List UInt8}
    (hp : plan request result = .send status a) (hc : a.check request = ok ())
    (hb : a.encode = ok b) (hlt : b.length < 2 ^ 32) :
    Protocol.responseFromQueryResult request result =
      ok (.mk' request.envelope.requestId status a.flags b) := by
  rw [responseFromQueryResult_eq, hp, run_send_eq_ok (sends_of_plan hp).status.2]
  exact .inl ⟨hc, b, hb, hlt, rfl⟩

/-- A response with the status of the result carries the block that was asked for. -/
theorem response_conclusive_iff {response : BinaryResponse} :
    (Protocol.responseFromQueryResult request result = ok response ∧
      conclusiveStatus result.status = some response.envelope.status) ↔
    ∃ status a b, plan request result = .send status a ∧ a.check request = ok () ∧
      a.encode = ok b ∧ b.length < 2 ^ 32 ∧
      response = .mk' request.envelope.requestId status a.flags b := by
  constructor
  · rintro ⟨hr, hst⟩
    rcases response_cases hr with h | h | h
    · exact h
    all_goals cases hs : result.status <;> simp [hs, h, conclusiveStatus] at hst
  · rintro ⟨status, a, b, hp, hc, hb, hlt, rfl⟩
    exact ⟨response_of_plan hp hc hb hlt, (sends_of_plan hp).status.1⟩

/-- A verdict is sent exactly when there is a block to send, which passes its check and fits. -/
theorem response_verdict_iff {status : Status}
    (hst : status = .sat ∨ status = .unsat ∨ status = .simplified) :
    (∃ response, Protocol.responseFromQueryResult request result = ok response ∧
      response.envelope.status = status) ↔
    ∃ a, plan request result = .send status a ∧ a.check request = ok () ∧ a.Spelled ∧
      a.size < 2 ^ 32 := by
  constructor
  · rintro ⟨response, hr, rfl⟩
    rcases response_cases hr with ⟨status, a, b, hp, hc, hb, hlt, rfl⟩ | h | h
    · rw [Artifact.length_encode hb] at hlt
      exact ⟨a, hp, hc, (Artifact.exists_encode hc hlt).mp ⟨b, hb⟩, hlt⟩
    · simp [h] at hst
    · simp [h] at hst
  · rintro ⟨a, hp, hc, hsp, hlt⟩
    obtain ⟨b, hb⟩ := (Artifact.exists_encode hc hlt).mpr hsp
    exact ⟨_, response_of_plan hp hc hb (by rwa [Artifact.length_encode hb]), rfl⟩

/-! ## Agreement of the two checkers -/

/-- Every block that is present has an encoding whose length fits a `u32`, as far as lengths
go. -/
structure QueryResult.Fits (result : QueryResult) : Prop where
  model : ∀ m, result.model = some m → m.size < 2 ^ 32
  core : ∀ c, result.core = some c → c.size < 2 ^ 32
  simplify : ∀ s, result.simplify = some s → s.size < 2 ^ 32
  optimization : ∀ o, result.optimization = some o → o.size < 2 ^ 32

/-- A model that was asked for and passes the checks has scalars in normal form only. -/
def UsedModelSpelled (request : BinaryRequest) (result : QueryResult) : Prop :=
  result.status = .sat → wantModel request = true →
    match request.envelope.command with
    | .solve => ∀ m, result.model = some m → validateModel request m = ok () → m.Spelled
    | .simplify => True
    | .minimize | .maximize => ∀ o m, result.optimization = some o → o.model = some m →
        validateOptimization request o = ok () → m.Spelled

/-- Flags that announce exactly what the request wants of the result, over a payload that
decodes to the result's own block. -/
def Announces (request : BinaryRequest) (result : QueryResult) (flags : UInt8)
    (payload : List UInt8) : Prop :=
  match request.envelope.command, result.status with
  | .solve, .sat =>
    if wantModel request then flags = ResponseFlags.hasModel ∧
      ∃ m, result.model = some m ∧ ModelBlock.decode payload = ok m
    else flags = 0 ∧ payload = []
  | .solve, .unsat =>
    if wantCore request then flags = ResponseFlags.hasCore ∧
      ∃ c, result.core = some c ∧ UnsatCoreBlock.decode payload = ok c
    else flags = 0 ∧ payload = []
  | .simplify, .simplified => flags = ResponseFlags.hasExpr ∧
      ∃ s, result.simplify = some s ∧ SimplifyBlock.decode payload = ok s
  | .minimize, .sat | .maximize, .sat =>
    if wantModel request then flags = ResponseFlags.hasValue ||| ResponseFlags.hasModel ∧
      ∃ o, result.optimization = some o ∧ OptimizationValueBlock.decode payload true = ok o
    else flags = ResponseFlags.hasValue ∧
      ∃ o, result.optimization = some o ∧
        OptimizationValueBlock.decode payload false = ok { o with model := none }
  | .minimize, .unsat | .maximize, .unsat => flags = 0 ∧ payload = []
  | _, _ => False

/-- What the racing layer accepts is what the protocol layer answers, and the answer says what
was asked for. -/
def CheckersAgree (request : BinaryRequest) (result : QueryResult) : Prop :=
  (result.isConclusiveFor request = true ↔
    ∃ response, Protocol.responseFromQueryResult request result = ok response ∧
      conclusiveStatus result.status = some response.envelope.status) ∧
  (result.isConclusiveFor request = true →
    ∃ response bytes, Protocol.responseFromQueryResult request result = ok response ∧
      response.encode = ok bytes ∧ BinaryResponse.parse bytes = ok response ∧
      Announces request result response.envelope.flags response.payload)

theorem Sends.size_lt {status : Status} {a : Artifact} (h : Sends request result status a)
    (hf : result.Fits) : a.size < 2 ^ 32 := by
  cases h with
  | satModel _ _ _ hm => exact hf.model _ hm
  | unsatCore _ _ _ hc => exact hf.core _ hc
  | simplified _ _ hs => exact hf.simplify _ hs
  | @optimum o _ _ ho _ =>
    have := hf.optimization _ ho
    simp only [Artifact.size, Protocol.dropModel]
    split
    · exact this
    · simp only [OptimizationValueBlock.size, Option.map_none, Option.getD_none] at this ⊢
      omega
  | sat | unsat | infeasible => exact Nat.two_pow_pos 32

/-- The scalars of what is sent are those of the model that was asked for. -/
theorem Sends.spelled {status : Status} {a : Artifact} (h : Sends request result status a)
    (hc : a.check request = ok ()) (hu : UsedModelSpelled request result) : a.Spelled := by
  cases h with
  | satModel hcmd hs hw hm =>
    have := hu hs hw
    rw [hcmd] at this
    exact this _ hm hc
  | @optimum o hcmd hs ho _ =>
    intro m hm
    cases hw : wantModel request with
    | false => simp [Protocol.dropModel, hw] at hm
    | true =>
      have hd : Protocol.dropModel request o = o := by simp [Protocol.dropModel, hw]
      rw [hd] at hm
      have hv : validateOptimization request o = ok () := by
        rw [← validateOptimization_dropModel]
        exact hc
      have := hu hs hw
      rcases hcmd with hcmd | hcmd
      · rw [hcmd] at this
        exact this _ _ ho hm hv
      · rw [hcmd] at this
        exact this _ _ ho hm hv
  | sat | unsatCore | unsat | simplified | infeasible => trivial

/-- A used model is part of what is sent. -/
theorem usedModelSpelled_of_plan
    (h : ∀ status a, plan request result = .send status a → a.check request = ok () → a.Spelled) :
    UsedModelSpelled request result := by
  intro hs hw
  have hopt : plan request result = planOptimize request result →
      ∀ o m, result.optimization = some o → o.model = some m →
        validateOptimization request o = ok () → m.Spelled := by
    intro hp o m ho hm hv
    have hsend : plan request result = .send .sat (.value (Protocol.dropModel request o)) := by
      simp [hp, planOptimize, hs, ho, hm]
    have hd : Protocol.dropModel request o = o := by simp [Protocol.dropModel, hw]
    refine h _ _ hsend ?_ m (by rw [hd]; exact hm)
    exact (validateOptimization_dropModel request o).trans hv
  cases hcmd : request.envelope.command with
  | solve =>
    intro m hm hv
    exact h .sat (.model m) (by simp [plan, hcmd, planSolve, hs, hw, hm, sendRequired]) hv
  | simplify => trivial
  | minimize => exact hopt (by simp [plan, hcmd])
  | maximize => exact hopt (by simp [plan, hcmd])

theorem Sends.announces {status : Status} {a : Artifact} {payload : List UInt8}
    (h : Sends request result status a) (hr : a.ReadFrom payload) :
    Announces request result a.flags payload := by
  have hopt : ∀ o : OptimizationValueBlock, result.optimization = some o →
      (wantModel request = true → o.model ≠ none) →
      (Artifact.value (Protocol.dropModel request o)).ReadFrom payload →
      if wantModel request then
        (Artifact.value (Protocol.dropModel request o)).flags =
          ResponseFlags.hasValue ||| ResponseFlags.hasModel ∧
        ∃ o, result.optimization = some o ∧ OptimizationValueBlock.decode payload true = ok o
      else (Artifact.value (Protocol.dropModel request o)).flags = ResponseFlags.hasValue ∧
        ∃ o, result.optimization = some o ∧
          OptimizationValueBlock.decode payload false = ok { o with model := none } := by
    intro o ho hm hr
    cases hw : wantModel request with
    | true =>
      have hd : Protocol.dropModel request o = o := by simp [Protocol.dropModel, hw]
      have hsome : o.model.isSome = true := Option.isSome_iff_ne_none.mpr (hm hw)
      rw [hd, Artifact.ReadFrom, hsome] at hr
      rw [hd, if_pos rfl, Artifact.flags, Protocol.valueFlags, if_pos hsome]
      exact ⟨rfl, o, ho, hr⟩
    | false =>
      have hd : Protocol.dropModel request o = { o with model := none } := by
        simp [Protocol.dropModel, hw]
      rw [hd] at hr ⊢
      rw [if_neg (by simp)]
      exact ⟨rfl, o, ho, hr⟩
  unfold Announces
  cases h with
  | satModel hcmd hs hw hm =>
    rw [hcmd, hs]
    simp only [hw, if_true]
    exact ⟨rfl, _, hm, hr⟩
  | sat hcmd hs hw =>
    rw [hcmd, hs]
    simp only [hw, Bool.false_eq_true, if_false]
    exact ⟨rfl, hr⟩
  | unsatCore hcmd hs hw hc =>
    rw [hcmd, hs]
    simp only [hw, if_true]
    exact ⟨rfl, _, hc, hr⟩
  | unsat hcmd hs hw =>
    rw [hcmd, hs]
    simp only [hw, Bool.false_eq_true, if_false]
    exact ⟨rfl, hr⟩
  | simplified hcmd hs he =>
    rw [hcmd, hs]
    exact ⟨rfl, _, he, hr⟩
  | optimum hcmd hs ho hm =>
    rcases hcmd with hcmd | hcmd
    · rw [hcmd, hs]
      exact hopt _ ho hm hr
    · rw [hcmd, hs]
      exact hopt _ ho hm hr
  | infeasible hcmd hs =>
    rcases hcmd with hcmd | hcmd
    · rw [hcmd, hs]
      exact ⟨rfl, hr⟩
    · rw [hcmd, hs]
      exact ⟨rfl, hr⟩

/-- **When the two artifact checkers agree.** For results whose blocks are short enough to be
sent, exactly when no model that was asked for, and that passes the checks, has a scalar with
the wrong bytes: neither checker looks at the bytes of a model's values, the encoder does. -/
theorem checkersAgree_iff (request : BinaryRequest) (result : QueryResult) (hf : result.Fits) :
    CheckersAgree request result ↔ UsedModelSpelled request result := by
  constructor
  · rintro ⟨hiff, -⟩
    refine usedModelSpelled_of_plan fun status a hp hc => ?_
    obtain ⟨response, hr⟩ := hiff.mp (isConclusiveFor_iff.mpr ⟨status, a, hp, hc⟩)
    obtain ⟨_, _, b, hp', -, hb, -, -⟩ := response_conclusive_iff.mp hr
    obtain ⟨rfl, rfl⟩ := Plan.send.inj (hp.symm.trans hp')
    exact (Artifact.exists_encode hc ((sends_of_plan hp).size_lt hf)).mp ⟨b, hb⟩
  · intro hu
    have answered : ∀ status a, plan request result = .send status a → a.check request = ok () →
        ∃ b, a.encode = ok b ∧ b.length < 2 ^ 32 := by
      intro status a hp hc
      have hlt := (sends_of_plan hp).size_lt hf
      obtain ⟨b, hb⟩ := (Artifact.exists_encode hc hlt).mpr ((sends_of_plan hp).spelled hc hu)
      exact ⟨b, hb, by rwa [Artifact.length_encode hb]⟩
    refine ⟨⟨fun hcon => ?_, ?_⟩, fun hcon => ?_⟩
    · obtain ⟨status, a, hp, hc⟩ := isConclusiveFor_iff.mp hcon
      obtain ⟨b, hb, hlt⟩ := answered status a hp hc
      exact ⟨_, response_conclusive_iff.mpr ⟨status, a, b, hp, hc, hb, hlt, rfl⟩⟩
    · rintro ⟨response, hr⟩
      obtain ⟨status, a, -, hp, hc, -⟩ := response_conclusive_iff.mp hr
      exact isConclusiveFor_iff.mpr ⟨status, a, hp, hc⟩
    · obtain ⟨status, a, hp, hc⟩ := isConclusiveFor_iff.mp hcon
      obtain ⟨b, hb, hlt⟩ := answered status a hp hc
      obtain ⟨hr, -⟩ := response_conclusive_iff.mpr ⟨status, a, b, hp, hc, hb, hlt, rfl⟩
      obtain ⟨hst, hunder⟩ := (sends_of_plan hp).status
      have hstatus : (BinaryResponse.mk' request.envelope.requestId status a.flags
        b).validateStatus = ok () := Artifact.validateStatus_of_encode hunder hb
      have hnew := BinaryResponse.new_eq_ok.mpr ⟨a.validate_flags, hlt, hstatus, rfl⟩
      obtain ⟨bytes, henc, hparse⟩ := BinaryResponse.parse_of_new hnew
      exact ⟨_, bytes, hr, henc, hparse,
        (sends_of_plan hp).announces (Artifact.readFrom_of_encode hb)⟩

/-- `(assert p)` for a Boolean variable `p`, and a model is wanted. -/
def assertP : BinaryRequest where
  envelope := ⟨7, .solve, RequestFlags.wantModel, 0, 57, 1, 0, 0, 0⟩
  expression := Parts.encode (List.replicate 3 0) (List.replicate 12 0)
    ⟨[⟨Tag.boolVar.toByte, 0, 0, 0, 0, 0, BlobRef.toPayload ⟨0, 1⟩⟩], [], utf8 "p"⟩
  assertionRoots := [.mk' .bool 0]
  namedAssertionRefs := []
  assumptionRoots := []

/-- `SAT`, with the given bytes as the value of `p`. -/
def satP (bytes : List UInt8) : QueryResult := .ofSat (some ⟨[⟨.mk' .bool 0, ⟨0, bytes⟩⟩]⟩)

theorem fits_satP {bytes : List UInt8} (h : bytes.length ≤ 1) : (satP bytes).Fits where
  model := by
    rintro m ⟨⟩
    simp [ModelBlock.size, ModelEntry.size, ScalarValue.size]
    omega
  core := by rintro c ⟨⟩
  simplify := by rintro s ⟨⟩
  optimization := by rintro o ⟨⟩

theorem checkersAgree_satP : CheckersAgree assertP (satP [1]) ∧
    (satP [1]).isConclusiveFor assertP = true := by
  refine ⟨(checkersAgree_iff _ _ (fits_satP (by decide))).mpr ?_, by decide⟩
  intro _ _
  rintro m ⟨⟩ -
  simp only [ModelBlock.Spelled, List.mem_singleton, forall_eq]
  decide

/-- A value with no bytes passes both checkers, and the response is then refused by the
encoder. -/
theorem not_checkersAgree_satP : assertP.validate = ok () ∧ (satP []).Fits ∧
    (satP []).isConclusiveFor assertP = true ∧
    Protocol.responseFromQueryResult assertP (satP []) = err (.invalid "Bool scalar value"
      "expected value_len=1 and byte 0 or 1") ∧
    ¬ CheckersAgree assertP (satP []) := by
  have hcon : (satP []).isConclusiveFor assertP = true := by decide
  have herr : Protocol.responseFromQueryResult assertP (satP []) = err (.invalid
      "Bool scalar value" "expected value_len=1 and byte 0 or 1") := by decide
  refine ⟨by decide, fits_satP (by decide), hcon, herr, ?_⟩
  rintro ⟨hiff, -⟩
  obtain ⟨response, hr, -⟩ := hiff.mp hcon
  rw [herr] at hr
  cases hr

end Server
end SmtServer
