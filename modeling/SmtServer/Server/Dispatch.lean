import SmtServer.Server.Answer

/-!
# `server.rs` — from payload bytes to response bytes

`dispatch_payload` never fails: whatever goes wrong while a binary request is handled is turned
into a response by `binary_error_response`, which no longer knows the request and answers under
id `0`. The main result says when that happens to a request that was parsed.

The text route does not depend on anything here and is a parameter.
-/

namespace SmtServer
namespace Server

open Lib Outcome Wire

/-- `handle_text_frame_recording`. -/
abbrev TextRoute := List UInt8 → Backend → Result (List UInt8)

/-- `b"SMTR\0\0\0\0\x03\0\0\0\0\0\0\0"`. -/
def lastResort : List UInt8 :=
  [0x53, 0x4d, 0x54, 0x52, 0, 0, 0, 0, 3, 0, 0, 0, 0, 0, 0, 0]

/-- `or_else`; a panic is not an error value. -/
def orElse {α : Type} (x : Result α) (f : WireError → Result α) : Result α :=
  match x with
  | .ok a => .ok a
  | .err e => f e
  | .panic => .panic

def binaryErrorResponse (message : String) : Result (List UInt8) :=
  orElse
    (orElse (BinaryResponse.error 0 message >>= BinaryResponse.encode) fun _ =>
      BinaryResponse.new 0 .unknown 0 [] >>= BinaryResponse.encode)
    fun _ => ok lastResort

def isCacheableBinaryResponse (response : List UInt8) : Bool :=
  match BinaryResponse.parse response with
  | .ok r => decide (r.envelope.status = .sat ∨ r.envelope.status = .unsat ∨
      r.envelope.status = .simplified)
  | _ => false

def dispatchPayload (text : TextRoute) (payload : List UInt8) (backend : Backend) :
    Result (List UInt8) :=
  if isBinaryRequestPayload payload then
    orElse (Protocol.handleBinaryFrame payload backend >>= BinaryResponse.encode) fun e =>
      binaryErrorResponse e.display
  else
    orElse (text payload backend) fun e =>
      ok (utf8 s!"(error {debugStr e.display})\n")

/-! ## Responses that can be sent -/

/-- A response `new` let through, under the given id. -/
def Sendable (id : UInt32) (r : BinaryResponse) : Prop :=
  ∃ status flags payload, BinaryResponse.new id status flags payload = ok r

variable {request : BinaryRequest} {result : QueryResult}

theorem Sendable.parse {id : UInt32} {r : BinaryResponse} (h : Sendable id r) :
    r.envelope.requestId = id ∧ ∃ b, r.encode = ok b ∧ BinaryResponse.parse b = ok r := by
  obtain ⟨status, flags, payload, h⟩ := h
  obtain ⟨-, -, -, rfl⟩ := BinaryResponse.new_eq_ok.mp h
  exact ⟨rfl, BinaryResponse.parse_of_new h⟩

theorem sendable_run {p : Plan} {message : Option String} {r : BinaryResponse}
    (h : p.run request message = ok r) : Sendable request.envelope.requestId r := by
  cases p with
  | send status a =>
    simp only [Plan.run, Protocol.orErrorResponse] at h
    split at h
    · obtain ⟨b, -, h⟩ := bind_eq_ok.mp h
      exact ⟨_, _, _, h⟩
    · exact ⟨_, _, _, h⟩
    · cases h
  | leaveOpen =>
    simp only [Plan.run, Protocol.unknownResponse] at h
    split at h
    · exact ⟨_, _, _, h⟩
    · exact ⟨_, _, _, h⟩
  | complain text => exact ⟨_, _, _, h⟩
  | fail e => cases h

theorem sendable_handleBinaryRequest {backend : Backend} {r : BinaryResponse}
    (h : Protocol.handleBinaryRequest request backend = ok r) :
    Sendable request.envelope.requestId r := by
  unfold Protocol.handleBinaryRequest at h
  split at h
  · rw [responseFromQueryResult_eq] at h
    exact sendable_run h
  · exact ⟨_, _, _, h⟩
  · cases h

/-- The response of the outermost layer: under id `0`, and never a verdict. -/
theorem binaryErrorResponse_spec (message : String) : ∃ b r,
    binaryErrorResponse message = ok b ∧ BinaryResponse.parse b = ok r ∧
    r.envelope.requestId = 0 ∧ (r.envelope.status = .error ∨ r.envelope.status = .unknown) := by
  unfold binaryErrorResponse
  cases he : BinaryResponse.error 0 message with
  | ok r =>
    have hs : Sendable 0 r := ⟨_, _, _, he⟩
    obtain ⟨hid, b, henc, hparse⟩ := hs.parse
    obtain ⟨-, rfl⟩ := BinaryResponse.error_eq_ok.mp he
    exact ⟨b, _, by simp [orElse, henc], hparse, hid, .inl rfl⟩
  | err e =>
    have hu : (BinaryResponse.new 0 .unknown 0 [] >>= BinaryResponse.encode) = ok lastResort := by
      decide
    have hp : BinaryResponse.parse lastResort = ok (.mk' 0 .unknown 0 []) := by decide
    exact ⟨lastResort, _, by simp [orElse, hu], hp, rfl, .inr rfl⟩
  | panic => exact absurd he BinaryResponse.safe_new

/-! ## When an answer can be built -/

/-- What a result has to satisfy for its answer to be built: no block is missing whose absence
is not reported under the request's id; and the texts and blocks that are sent fit. -/
structure AnswerFits (request : BinaryRequest) (result : QueryResult) : Prop where
  simplify : request.envelope.command = .simplify → result.status = .simplified →
    result.simplify ≠ none
  optimum : request.envelope.command = .minimize ∨ request.envelope.command = .maximize →
    result.status = .sat → result.optimization ≠ none
  message : result.status = .unknown → ∀ m, result.message = some m → (utf8 m).length < 2 ^ 32
  /-- A block that passes its check has a model of proper scalars, and is short enough. -/
  accepted : ∀ status a, Sends request result status a → a.check request = ok () →
    a.Spelled ∧ a.size < 2 ^ 32
  /-- The complaint about a block that does not pass is short enough. -/
  rejected : ∀ status a e, Sends request result status a → a.check request = err e →
    (utf8 s!"invalid backend {a.what}: {e.display}").length < 2 ^ 32

/-- The same of whatever the backend returned. -/
def OutcomeFits (request : BinaryRequest) : Result QueryResult → Prop
  | .ok result => AnswerFits request result
  | .err e => (utf8 e.display).length < 2 ^ 32
  | .panic => False

theorem unknownResponse_ok_iff {id : UInt32} {message : Option String} :
    (∃ r, Protocol.unknownResponse id message = ok r) ↔
      ∀ m, message = some m → (utf8 m).length < 2 ^ 32 := by
  have hempty : ∃ r, BinaryResponse.new id .unknown 0 [] = ok r :=
    ⟨_, BinaryResponse.new_eq_ok.mpr ⟨by decide, by decide, rfl, rfl⟩⟩
  unfold Protocol.unknownResponse
  cases message with
  | none => simpa using hempty
  | some m =>
    by_cases hm : m = ""
    · subst hm
      refine iff_of_true hempty ?_
      rintro m ⟨⟩
      decide
    · have hv : (BinaryResponse.mk' id .unknown ResponseFlags.hasMessage
          (utf8 m)).validateStatus = ok () := by
        have hs : utf8? (utf8 m) = some m := utf8?_eq_some.mpr rfl
        simp [BinaryResponse.validateStatus, BinaryResponse.validateUnknown, BinaryResponse.mk',
          hs, ofOption, ResponseFlags.hasMessage]
      simp only [Option.filter, ne_eq, hm, not_false_eq_true, decide_true, if_true,
        Option.some.injEq, forall_eq']
      constructor
      · rintro ⟨r, hr⟩
        exact (BinaryResponse.new_eq_ok.mp hr).2.1
      · intro hlt
        exact ⟨_, BinaryResponse.new_eq_ok.mpr ⟨by decide, hlt, hv, rfl⟩⟩

theorem error_ok_iff {id : UInt32} {text : String} :
    (∃ r, BinaryResponse.error id text = ok r) ↔ (utf8 text).length < 2 ^ 32 := by
  simp [BinaryResponse.error_eq_ok]

/-- Sending a block works exactly when the block, or the complaint about it, fits. -/
theorem run_send_ok_iff {status : Status} {a : Artifact} {message : Option String}
    (hu : a.Under status) :
    (∃ r, (Plan.send status a).run request message = ok r) ↔
      (a.check request = ok () ∧ a.Spelled ∧ a.size < 2 ^ 32) ∨
      ∃ e, a.check request = err e ∧
        (utf8 s!"invalid backend {a.what}: {e.display}").length < 2 ^ 32 := by
  simp only [run_send_eq_ok hu]
  constructor
  · rintro ⟨r, ⟨hc, b, hb, hlt, -⟩ | ⟨e, he, hlt, -⟩⟩
    · rw [Artifact.length_encode hb] at hlt
      exact .inl ⟨hc, (Artifact.exists_encode hc hlt).mp ⟨b, hb⟩, hlt⟩
    · exact .inr ⟨e, he, hlt⟩
  · rintro (⟨hc, hsp, hlt⟩ | ⟨e, he, hlt⟩)
    · obtain ⟨b, hb⟩ := (Artifact.exists_encode hc hlt).mpr hsp
      exact ⟨_, .inl ⟨hc, b, hb, by rwa [Artifact.length_encode hb], rfl⟩⟩
    · exact ⟨_, .inr ⟨e, he, hlt, rfl⟩⟩

/-- The handlers return a response exactly when the answer fits. -/
theorem responseFromQueryResult_ok_iff :
    (∃ r, Protocol.responseFromQueryResult request result = ok r) ↔
      AnswerFits request result := by
  rw [responseFromQueryResult_eq]
  constructor
  · rintro ⟨r, hr⟩
    refine ⟨fun hcmd hs hn => ?_, fun hcmd hs hn => ?_, fun hs => ?_, fun status a hsend hc => ?_,
      fun status a e hsend he => ?_⟩
    · obtain ⟨e, he⟩ := plan_fail_iff.mpr (.inl ⟨hcmd, hs, hn⟩)
      rw [he] at hr
      cases hr
    · obtain ⟨e, he⟩ := plan_fail_iff.mpr (.inr ⟨hcmd, hs, hn⟩)
      rw [he] at hr
      cases hr
    · rw [plan_leaveOpen_iff.mpr hs] at hr
      exact unknownResponse_ok_iff.mp ⟨r, hr⟩
    · rw [plan_send_iff.mpr hsend] at hr
      rcases (run_send_ok_iff hsend.status.2).mp ⟨r, hr⟩ with ⟨-, h⟩ | ⟨e, he, -⟩
      · exact h
      · rw [hc] at he
        cases he
    · rw [plan_send_iff.mpr hsend] at hr
      rcases (run_send_ok_iff hsend.status.2).mp ⟨r, hr⟩ with ⟨hc, -⟩ | ⟨e', he', h⟩
      · rw [hc] at he
        cases he
      · rw [he] at he'
        cases he'
        exact h
  · intro hfit
    cases hp : plan request result with
    | send status a =>
      have hsend := sends_of_plan hp
      refine (run_send_ok_iff hsend.status.2).mpr ?_
      cases hc : a.check request with
      | ok u => exact .inl ⟨rfl, hfit.accepted status a hsend hc⟩
      | err e => exact .inr ⟨e, rfl, hfit.rejected status a e hsend hc⟩
      | panic => exact absurd hc Artifact.safe_check
    | leaveOpen => exact unknownResponse_ok_iff.mpr (hfit.message (plan_leaveOpen_iff.mp hp))
    | complain text => exact error_ok_iff.mpr (length_complain hp)
    | fail e =>
      rcases plan_fail_iff.mp ⟨e, hp⟩ with ⟨hcmd, hs, hn⟩ | ⟨hcmd, hs, hn⟩
      · exact absurd hn (hfit.simplify hcmd hs)
      · exact absurd hn (hfit.optimum hcmd hs)

/-- On a request that was parsed the handlers return, with a response or an error value. -/
theorem safe_responseFromQueryResult (hr : request.validate = ok ()) :
    Safe (Protocol.responseFromQueryResult request result) := by
  rw [responseFromQueryResult_eq]
  cases plan request result with
  | send status a =>
    simp only [Plan.run, Protocol.orErrorResponse]
    cases hc : a.check request with
    | ok u => exact (Artifact.safe_encode hr hc).bind fun _ _ => BinaryResponse.safe_new
    | err e => exact BinaryResponse.safe_new
    | panic => exact absurd hc Artifact.safe_check
  | leaveOpen =>
    simp only [Plan.run, Protocol.unknownResponse]
    split
    · exact BinaryResponse.safe_new
    · exact BinaryResponse.safe_new
  | complain text => exact BinaryResponse.safe_new
  | fail e => exact safe_err _

variable {backend : Backend}

theorem handleBinaryRequest_ok_iff :
    (∃ r, Protocol.handleBinaryRequest request backend = ok r) ↔
      OutcomeFits request (backend.handle request) := by
  unfold Protocol.handleBinaryRequest
  cases backend.handle request with
  | ok result => exact responseFromQueryResult_ok_iff
  | err e => exact error_ok_iff
  | panic => simp [OutcomeFits]

theorem safe_handleBinaryRequest (hr : request.validate = ok ())
    (hb : Safe (backend.handle request)) : Safe (Protocol.handleBinaryRequest request backend) := by
  unfold Protocol.handleBinaryRequest
  split
  · exact safe_responseFromQueryResult hr
  · exact BinaryResponse.safe_new
  · contradiction

/-- The binary route of a payload that parses. -/
theorem dispatchPayload_of_parse (text : TextRoute) {payload : List UInt8}
    (hp : BinaryRequest.parse payload = ok request) :
    dispatchPayload text payload backend =
      orElse (Protocol.handleBinaryRequest request backend >>= BinaryResponse.encode) fun e =>
        binaryErrorResponse e.display := by
  have hbin := BinaryRequest.isBinaryRequestPayload_of_parse hp
  simp only [dispatchPayload, Protocol.handleBinaryFrame, hbin, if_true, hp]

/-- **Answers under the request's own id**: exactly when the request's id is `0` or the answer
fits. Otherwise the handlers return an error value, and the outermost layer answers under `0`. -/
theorem dispatchPayload_own_id_iff (text : TextRoute) (backend : Backend) (payload : List UInt8)
    (request : BinaryRequest) (hp : BinaryRequest.parse payload = ok request)
    (hb : Safe (backend.handle request)) :
    (∃ bytes response, dispatchPayload text payload backend = ok bytes ∧
      BinaryResponse.parse bytes = ok response ∧
      response.envelope.requestId = request.envelope.requestId) ↔
    request.envelope.requestId = 0 ∨ OutcomeFits request (backend.handle request) := by
  rw [dispatchPayload_of_parse text hp]
  have hr : request.validate = ok () :=
    (BinaryRequest.encode_eq_ok.mp (BinaryRequest.parse_eq_ok_iff.mp hp)).1
  cases hh : Protocol.handleBinaryRequest request backend with
  | ok r =>
    obtain ⟨hid, b, henc, hparse⟩ := (sendable_handleBinaryRequest hh).parse
    refine iff_of_true ⟨b, r, ?_, hparse, hid⟩ (.inr (handleBinaryRequest_ok_iff.mp ⟨r, hh⟩))
    simp [orElse, henc]
  | err e =>
    have hnot : ¬ OutcomeFits request (backend.handle request) := by
      intro hfit
      obtain ⟨r, hr⟩ := handleBinaryRequest_ok_iff.mpr hfit
      rw [hh] at hr
      cases hr
    obtain ⟨b, r, hb, hparse, hid, -⟩ := binaryErrorResponse_spec e.display
    rw [or_iff_left hnot]
    simp only [err_bind, orElse, hb, Outcome.ok.injEq, exists_and_left, exists_eq_left', hparse,
      hid]
    exact eq_comm
  | panic => exact absurd hh (safe_handleBinaryRequest hr hb)

/-- The payload of a request. -/
def framed (request : BinaryRequest) : List UInt8 := request.envelope.bytes ++ request.body

theorem parse_framed (hv : request.validate = ok ())
    (hf : validateRequestFlags request.envelope.flags = ok ()) :
    BinaryRequest.parse (framed request) = ok request :=
  BinaryRequest.parse_eq_ok_iff.mpr (BinaryRequest.encode_eq_ok.mpr ⟨hv, hf, rfl⟩)

/-- A backend that always ends the same way. -/
def constantBackend (outcome : Result QueryResult) : Backend := ⟨"constant", false, fun _ => outcome⟩

theorem dispatchPayload_own_id_err :
    ∃ bytes response, dispatchPayload (fun _ _ => ok []) (framed assertP)
        (constantBackend (err (.invalid "backend" "out of memory"))) = ok bytes ∧
      BinaryResponse.parse bytes = ok response ∧ response.envelope.requestId = 7 := by
  have hp : BinaryRequest.parse (framed assertP) = ok assertP :=
    parse_framed (by decide) (by decide)
  refine (dispatchPayload_own_id_iff (fun _ _ => ok []) _ _ _ hp (safe_err _)).mpr (.inr ?_)
  show (utf8 _).length < 2 ^ 32
  decide

/-- `SIMPLIFY p`, under id 7. -/
def simplifyP : BinaryRequest :=
  { assertP with
    envelope := ⟨7, .simplify, 0, 0, 57, 0, 0, 0, 0x80000000⟩
    assertionRoots := [] }

/-- A backend that says `SIMPLIFIED` and sends no expression: the request with id 7 is answered
under id 0. -/
theorem dispatchPayload_other_id :
    BinaryRequest.parse (framed simplifyP) = ok simplifyP ∧
    simplifyP.envelope.requestId = 7 ∧
    ¬ ∃ bytes response, dispatchPayload (fun _ _ => ok []) (framed simplifyP)
        (constantBackend (ok ⟨.simplified, none, none, none, none, none⟩)) = ok bytes ∧
      BinaryResponse.parse bytes = ok response ∧
      response.envelope.requestId = simplifyP.envelope.requestId := by
  have hp : BinaryRequest.parse (framed simplifyP) = ok simplifyP :=
    parse_framed (by decide) (by decide)
  refine ⟨hp, rfl, ?_⟩
  rw [dispatchPayload_of_parse _ hp]
  have hfail : Protocol.handleBinaryRequest simplifyP
      (constantBackend (ok ⟨.simplified, none, none, none, none, none⟩)) =
      err (.invalid "simplify response" "SIMPLIFIED result without simplify block") := rfl
  obtain ⟨b, r, hb, hparse, hid, -⟩ := binaryErrorResponse_spec
    (WireError.invalid "simplify response" "SIMPLIFIED result without simplify block").display
  rw [hfail, err_bind, orElse, hb]
  rintro ⟨bytes, response, hbytes, hresponse, hsame⟩
  cases hbytes
  rw [hparse] at hresponse
  cases hresponse
  rw [hid] at hsame
  exact absurd hsame (by decide)

end Server
end SmtServer
