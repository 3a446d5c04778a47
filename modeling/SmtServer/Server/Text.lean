import SmtServer.Server.Dispatch
import SmtServer.Wire.BuildRequest

/-!
# `smtlib.rs` — the text route

A script is lowered into a builder, the builder makes a `SOLVE` request, and the backend's result
for that request is printed. Nothing is checked against the request on the way out: a model or a
core is printed as it comes. The main result says when the printed verdict is the one the binary
route would send for the same result.

The lowering of the script and the second frontend that is tried when it fails are parameters:
what is printed depends on the query alone.
-/

namespace SmtServer
namespace Server

open Lib Outcome Wire

/-- What lowering finds out about a script besides its assertions. -/
structure LoweredScript where
  wantModel : Bool
  wantCore : Bool
  getValues : List String
  deriving Repr, DecidableEq

structure TextQuery where
  request : BinaryRequest
  wantModel : Bool
  wantCore : Bool
  getValues : List String
  deriving DecidableEq

/-- `lower_script` over a `WireSmtLibSink` of a new builder, with `frontend_error` applied to its
errors. -/
abbrev Lowering := String → Result (ExprBuilder × LoweredScript)

def parseSmtlibScript (lower : Lowering) (script : String) : Result TextQuery := do
  let (builder, lowered) ← lower script
  let requestBytes ← builder.buildSolveRequest 0 0 lowered.wantModel lowered.wantCore
  let request ← BinaryRequest.parse requestBytes
  pure ⟨request, lowered.wantModel, lowered.wantCore, lowered.getValues⟩

/-! ## Printing -/

/-- The characters a simple symbol is made of. -/
def isSymbolChar (c : Char) : Bool :=
  c.isAlphanum || "_-.$/:+*=<>?!~&^%@".toList.contains c

/-- Words that are not symbols. -/
def reservedWords : List String := ["true", "false", "Bool", "let", "assert", "check-sat"]

def isSimpleSymbol (symbol : String) : Bool :=
  match symbol.toList with
  | [] => false
  | c :: cs => (c :: cs).all isSymbolChar && !c.isDigit && !reservedWords.contains symbol

/-- Backslashes first, then bars. -/
def escapeSymbol (symbol : String) : String :=
  let backslashes := symbol.toList.flatMap fun c => if c = '\\' then ['\\', '\\'] else [c]
  String.ofList (backslashes.flatMap fun c => if c = '|' then ['\\', '|'] else [c])

def quoteSymbol (symbol : String) : String :=
  if isSimpleSymbol symbol then symbol else "|" ++ escapeSymbol symbol ++ "|"

/-- `bytes[0] == 0`; indexing panics. -/
def boolText (value : ScalarValue) : Result String := do
  let first ← expect value.bytes[0]?
  pure (if first = 0 then "false" else "true")

/-- The bits from `bit - 1` down. -/
def bitChars (value : ScalarValue) : Nat → Result (List Char)
  | 0 => pure []
  | bit + 1 => do
    let byte ← expect value.bytes[bit / 8]?
    let rest ← bitChars value bit
    pure ((if byte.toNat.testBit (bit % 8) then '1' else '0') :: rest)

def scalarToBvLiteral (value : ScalarValue) : Result String := do
  let bits ← bitChars value value.width.toNat
  pure ("#b" ++ String.ofList bits)

def scalarToSmtValue (value : ScalarValue) : Result String :=
  if value.width = 0 then boolText value else scalarToBvLiteral value

def variableName (expr : ExprView) (entry : ModelEntry) : Result String := do
  let node ← expr.node entry.nodeRef.idx
  expr.blobStr node.blobRef "model variable"

def formatEntry (expr : ExprView) (entry : ModelEntry) : Result String := do
  let name ← variableName expr entry
  let value ← scalarToSmtValue entry.value
  let sort := if entry.value.width = 0 then "Bool" else s!"(_ BitVec {entry.value.width})"
  pure s!"  (define-fun {quoteSymbol name} () {sort} {value})\n"

def formatEntries (expr : ExprView) : List ModelEntry → Result String
  | [] => pure ""
  | entry :: rest => do
    let line ← formatEntry expr entry
    let lines ← formatEntries expr rest
    pure (line ++ lines)

def formatModel (request : BinaryRequest) (model : ModelBlock) : Result String := do
  let expr ← request.expressionView
  let lines ← formatEntries expr model.entries
  pure ("(model\n" ++ lines ++ ")\n")

/-- The map from names to values, newest entry first. -/
def collectValues (expr : ExprView) :
    List ModelEntry → List (String × String) → Result (List (String × String))
  | [], values => pure values
  | entry :: rest, values => do
    let name ← variableName expr entry
    let value ← scalarToSmtValue entry.value
    collectValues expr rest ((name, value) :: values)

def valuePairs (values : List (String × String)) (names : List String) : List String :=
  names.filterMap fun name =>
    (values.lookup name).map fun value => s!"({quoteSymbol name} {value})"

def formatGetValues (request : BinaryRequest) (model : ModelBlock) (names : List String) :
    Result String := do
  let expr ← request.expressionView
  let values ← collectValues expr model.entries []
  pure ("(" ++ " ".intercalate (valuePairs values names) ++ ")\n")

def formatCore (core : UnsatCoreBlock) : String :=
  "(" ++ " ".intercalate (core.names.map quoteSymbol) ++ ")\n"

def formatUnknown (message : Option String) : String :=
  match message.filter (· ≠ "") with
  | some message => "unknown\n" ++ ("; " ++ message ++ "\n")
  | none => "unknown\n"

/-- `unwrap_or_else(|err| ..)`: a formatting error is printed as a comment. -/
def orComment (what : String) (text : Result String) : Result String :=
  orElse text fun e => ok s!"; {what} formatting error: {e.display}\n"

def formatWanted (query : TextQuery) (model : ModelBlock) : Result String :=
  if query.getValues = [] then orComment "model" (formatModel query.request model)
  else orComment "get-value" (formatGetValues query.request model query.getValues)

def textResponse (query : TextQuery) (result : QueryResult) : Result String :=
  match result.status with
  | .sat =>
    if query.wantModel then
      match result.model with
      | some model => do
        let text ← formatWanted query model
        pure ("sat\n" ++ text)
      | none => pure (formatUnknown (some "backend omitted requested model"))
    else pure "sat\n"
  | .unsat =>
    if query.wantCore then
      match result.core with
      | some core => pure ("unsat\n" ++ formatCore core)
      | none => pure (formatUnknown (some "backend omitted requested unsat core"))
    else pure "unsat\n"
  | .unknown => pure (formatUnknown result.message)
  | .simplified => pure "success\n"

def errorText (e : WireError) : List UInt8 := utf8 s!"(error {debugStr e.display})\n"

/-- `handle_qfbvsmtrs_text_fallback`. -/
abbrev Fallback := String → WireError → String

def handleTextFrame (lower : Lowering) (fallback : Fallback) (framePayload : List UInt8)
    (backend : Backend) : Result (List UInt8) := do
  let script ← ofOption (utf8? framePayload)
    (.invalid "SMT-LIB frontend" "text request is not UTF-8")
  match parseSmtlibScript lower script with
  | .ok query =>
    match backend.handle query.request with
    | .ok result => do
      let text ← textResponse query result
      pure (utf8 text)
    | .err e => pure (errorText e)
    | .panic => .panic
  | .err e =>
    if backend.supportsQfbvsmtrsTextFallback then pure (utf8 (fallback script e))
    else pure (errorText e)
  | .panic => .panic

/-! ## Printing a model whose scalars are in normal form -/

theorem safe_boolText {value : ScalarValue} (h : value.bytes = [0] ∨ value.bytes = [1]) :
    Safe (boolText value) := by
  rcases h with h | h <;> simp [boolText, h]

theorem safe_bitChars {value : ScalarValue} {n : Nat} (h : n ≤ 8 * value.bytes.length) :
    Safe (bitChars value n) := by
  induction n with
  | zero => exact safe_ok _
  | succ bit ih =>
    have hlt : bit / 8 < value.bytes.length := by omega
    rw [bitChars, List.getElem?_eq_getElem hlt, expect_some, ok_bind]
    exact (ih (by omega)).bind fun _ _ => safe_ok _

theorem safe_scalarToSmtValue {value : ScalarValue} (h : value.validate = ok ()) :
    Safe (scalarToSmtValue value) := by
  unfold ScalarValue.validate at h
  unfold scalarToSmtValue
  split at h
  · rename_i hw
    rw [if_pos hw]
    exact safe_boolText (ensure_eq_ok.mp h)
  · rename_i hw
    rw [if_neg hw]
    simp only [bytesForWidth, bind_eq_ok, ensure_eq_ok, exists_const, pure_eq,
      Outcome.ok.injEq] at h
    obtain ⟨_, ⟨_, -, rfl⟩, hlen, -⟩ := h
    exact (safe_bitChars (by omega)).bind fun _ _ => safe_ok _

section Formatting

variable {expr : ExprView} {p : Parts} {request : BinaryRequest}

theorem safe_variableName (hv : IsViewOf expr p) {entry : ModelEntry} :
    Safe (variableName expr entry) :=
  ExprView.safe_node.bind fun _ _ => hv.safe_blobStr

theorem safe_formatEntries (hv : IsViewOf expr p) {entries : List ModelEntry}
    (h : ∀ e ∈ entries, e.value.validate = ok ()) : Safe (formatEntries expr entries) := by
  induction entries with
  | nil => exact safe_ok _
  | cons e entries ih =>
    obtain ⟨he, hrest⟩ := List.forall_mem_cons.mp h
    exact ((safe_variableName hv).bind fun _ _ => (safe_scalarToSmtValue he).bind fun _ _ =>
      safe_ok _).bind fun _ _ => (ih hrest).bind fun _ _ => safe_ok _

theorem safe_collectValues (hv : IsViewOf expr p) {entries : List ModelEntry}
    (h : ∀ e ∈ entries, e.value.validate = ok ()) (values : List (String × String)) :
    Safe (collectValues expr entries values) := by
  induction entries generalizing values with
  | nil => exact safe_ok _
  | cons e entries ih =>
    obtain ⟨he, hrest⟩ := List.forall_mem_cons.mp h
    exact (safe_variableName hv).bind fun _ _ => (safe_scalarToSmtValue he).bind fun _ _ =>
      ih hrest _

theorem orComment_of_safe {what : String} {text : Result String} (h : Safe text) :
    ∃ t, orComment what text = ok t := by
  cases text with
  | ok t => exact ⟨t, rfl⟩
  | err e => exact ⟨_, rfl⟩
  | panic => exact absurd rfl h

/-- A model of proper scalars is printed, or a comment instead of it. -/
theorem exists_formatWanted (query : TextQuery) {model : ModelBlock} (h : model.Spelled) :
    ∃ t, formatWanted query model = ok t := by
  unfold formatWanted
  split
  · refine orComment_of_safe (safe_expressionView.bind fun v hv => ?_)
    obtain ⟨p, hp⟩ := isViewOf_expressionView hv
    exact (safe_formatEntries hp h).bind fun _ _ => safe_ok _
  · refine orComment_of_safe (safe_expressionView.bind fun v hv => ?_)
    obtain ⟨p, hp⟩ := isViewOf_expressionView hv
    exact (safe_collectValues hp h _).bind fun _ _ => safe_ok _

end Formatting

/-! ## The query of a script -/

theorem solveFlags_wantModel : ∀ m c : Bool,
    decide (((if m then RequestFlags.wantModel else 0) |||
      (if c then RequestFlags.wantCore else 0)) &&& RequestFlags.wantModel ≠ 0) = m := by
  decide

theorem solveFlags_wantCore : ∀ m c : Bool,
    decide (((if m then RequestFlags.wantModel else 0) |||
      (if c then RequestFlags.wantCore else 0)) &&& RequestFlags.wantCore ≠ 0) = c := by
  decide

/-- A script becomes a valid `SOLVE` request whose flags are what the script wants. -/
theorem parseSmtlibScript_request {lower : Lowering} {script : String} {query : TextQuery}
    (h : parseSmtlibScript lower script = ok query) :
    query.request.validate = ok () ∧ query.request.envelope.command = .solve ∧
      wantModel query.request = query.wantModel ∧ wantCore query.request = query.wantCore := by
  simp only [parseSmtlibScript, bind_eq_ok, Prod.exists, pure_eq, Outcome.ok.injEq] at h
  obtain ⟨builder, lowered, -, bytes, hb, request, hr, rfl⟩ := h
  simp only [ExprBuilder.buildSolveRequest, ExprBuilder.buildRequest, bind_eq_ok] at hb
  obtain ⟨c, -, roots, -, assumptions, -, target, -, request', hnew, henc⟩ := hb
  obtain rfl : request' = request := by
    have := BinaryRequest.parse_eq_ok_iff.mpr henc
    rw [hr] at this
    exact (Outcome.ok.inj this).symm
  refine ⟨(BinaryRequest.encode_eq_ok.mp henc).1, ?_⟩
  simp only [BinaryRequest.new, bind_eq_ok, ensure_eq_ok, exists_const, pure_eq,
    Outcome.ok.injEq] at hnew
  obtain ⟨_, -, -, -, -, -, -, -, _, -, rfl⟩ := hnew
  exact ⟨rfl, solveFlags_wantModel _ _, solveFlags_wantCore _ _⟩

/-! ## Verdicts -/

/-- A text that starts like `word` does not start like anything else. -/
theorem prefix_utf8_append {word first rest : String} (hlen : (utf8 word).length ≤ (utf8 first).length) :
    utf8 word <+: utf8 (first ++ rest) ↔ utf8 word <+: utf8 first := by
  rw [utf8_append]
  constructor
  · intro h
    exact List.prefix_of_prefix_length_le h (List.prefix_append _ _) hlen
  · intro h
    exact h.trans (List.prefix_append _ _)

/-- The verdicts a text starts with. -/
structure Says (text : String) (sat unsat : Prop) : Prop where
  sat : utf8 "sat" <+: utf8 text ↔ sat
  unsat : utf8 "unsat" <+: utf8 text ↔ unsat

theorem says_sat (rest : String) : Says ("sat\n" ++ rest) True False := by
  refine ⟨?_, ?_⟩
  · rw [prefix_utf8_append (by decide)]
    decide
  · rw [utf8_append]
    refine iff_of_false (fun h => ?_) id
    have : utf8 "un" <+: utf8 "sat\n" ++ utf8 rest :=
      (by decide : utf8 "un" <+: utf8 "unsat").trans h
    rw [← utf8_append, prefix_utf8_append (by decide)] at this
    exact absurd this (by decide)

theorem says_unsat (rest : String) : Says ("unsat\n" ++ rest) False True := by
  refine ⟨?_, ?_⟩
  · rw [prefix_utf8_append (by decide)]
    decide
  · rw [prefix_utf8_append (by decide)]
    decide

theorem says_unknown (message : Option String) : Says (formatUnknown message) False False := by
  have h : ∃ rest, formatUnknown message = "unknown\n" ++ rest := by
    unfold formatUnknown
    split
    · exact ⟨_, rfl⟩
    · exact ⟨"", rfl⟩
  obtain ⟨rest, h⟩ := h
  rw [h]
  refine ⟨?_, ?_⟩
  · rw [prefix_utf8_append (by decide)]
    decide
  · rw [prefix_utf8_append (by decide)]
    decide

variable {lower : Lowering} {script : String} {query : TextQuery} {result : QueryResult}

/-- The response of the binary route to the same request and the same result has a status. -/
def Responds (query : TextQuery) (result : QueryResult) (status : Status) : Prop :=
  ∃ response, Protocol.responseFromQueryResult query.request result = ok response ∧
    response.envelope.status = status

/-- What is printed without being checked would pass the checks of the binary route, and would
fit a response. -/
structure Reportable (query : TextQuery) (result : QueryResult) : Prop where
  model : result.status = .sat → query.wantModel = true → ∀ m, result.model = some m →
    Protocol.validateModel query.request m = ok () ∧ m.Spelled ∧ m.size < 2 ^ 32
  core : result.status = .unsat → query.wantCore = true → ∀ c, result.core = some c →
    Protocol.validateUnsatCore query.request c = ok () ∧ c.size < 2 ^ 32

/-- The verdict of the binary route for a `SOLVE` request. -/
theorem responds_iff (hq : parseSmtlibScript lower script = ok query) (result : QueryResult) :
    (Responds query result .sat ↔ result.status = .sat ∧
      (query.wantModel = true → ∃ m, result.model = some m ∧
        Protocol.validateModel query.request m = ok () ∧ m.Spelled ∧ m.size < 2 ^ 32)) ∧
    (Responds query result .unsat ↔ result.status = .unsat ∧
      (query.wantCore = true → ∃ c, result.core = some c ∧
        Protocol.validateUnsatCore query.request c = ok () ∧ c.size < 2 ^ 32)) := by
  obtain ⟨-, hcmd, hwm, hwc⟩ := parseSmtlibScript_request hq
  simp only [Responds, response_verdict_iff (.inl rfl), response_verdict_iff (.inr (.inl rfl)),
    plan_send_iff]
  constructor
  · constructor
    · rintro ⟨a, hs, hc, hsp, hlt⟩
      cases hs with
      | satModel _ hs _ hm => exact ⟨hs, fun _ => ⟨_, hm, hc, hsp, hlt⟩⟩
      | sat _ hs hw =>
        refine ⟨hs, fun h => ?_⟩
        rw [hwm, h] at hw
        cases hw
      | optimum h => simp [hcmd] at h
    · rintro ⟨hs, h⟩
      cases hw : query.wantModel with
      | false => exact ⟨_, .sat hcmd hs (hwm.trans hw), rfl, trivial, Nat.two_pow_pos 32⟩
      | true =>
        obtain ⟨m, hm, hc, hsp, hlt⟩ := h hw
        exact ⟨_, .satModel hcmd hs (hwm.trans hw) hm, hc, hsp, hlt⟩
  · constructor
    · rintro ⟨a, hs, hc, -, hlt⟩
      cases hs with
      | unsatCore _ hs _ hm => exact ⟨hs, fun _ => ⟨_, hm, hc, hlt⟩⟩
      | unsat _ hs hw =>
        refine ⟨hs, fun h => ?_⟩
        rw [hwc, h] at hw
        cases hw
      | infeasible h => simp [hcmd] at h
    · rintro ⟨hs, h⟩
      cases hw : query.wantCore with
      | false => exact ⟨_, .unsat hcmd hs (hwc.trans hw), rfl, trivial, Nat.two_pow_pos 32⟩
      | true =>
        obtain ⟨c, hc, hcheck, hlt⟩ := h hw
        exact ⟨_, .unsatCore hcmd hs (hwc.trans hw) hc, hcheck, trivial, hlt⟩

/-- Both routes give the same verdict on the text. -/
def Agree (query : TextQuery) (result : QueryResult) (text : Result String) : Prop :=
  ∃ t, text = ok t ∧ Says t (Responds query result .sat) (Responds query result .unsat)

theorem agree_of_verdicts {t : String} {sat unsat : Prop} (h : Says t sat unsat) :
    Agree query result (ok t) ↔
      ((sat ↔ Responds query result .sat) ∧ (unsat ↔ Responds query result .unsat)) := by
  constructor
  · rintro ⟨t', ht, hs, hu⟩
    cases ht
    exact ⟨h.sat.symm.trans hs, h.unsat.symm.trans hu⟩
  · rintro ⟨hs, hu⟩
    exact ⟨t, rfl, h.sat.trans hs, h.unsat.trans hu⟩

/-- A text without verdict agrees with a response without one. -/
theorem agree_silent {t : String} (ht : Says t False False) (hsat : ¬ Responds query result .sat)
    (hunsat : ¬ Responds query result .unsat) : Agree query result (ok t) := by
  rw [agree_of_verdicts ht]
  exact ⟨(iff_false_intro hsat).symm, (iff_false_intro hunsat).symm⟩

/-- The printed verdict of a satisfiable script. -/
theorem agree_sat_iff (hq : parseSmtlibScript lower script = ok query)
    (hs : result.status = .sat) :
    Agree query result (textResponse query result) ↔ Reportable query result := by
  obtain ⟨hsat, hunsat⟩ := responds_iff hq result
  have hnot : ¬ Responds query result .unsat := by simp [hunsat, hs]
  have hcore : result.status = .unsat → query.wantCore = true → ∀ c, result.core = some c →
      Protocol.validateUnsatCore query.request c = ok () ∧ c.size < 2 ^ 32 := by simp [hs]
  unfold textResponse
  rw [hs]
  dsimp only
  cases hw : query.wantModel with
  | false =>
    rw [if_neg (by simp), pure_eq, show "sat\n" = "sat\n" ++ "" from rfl,
      agree_of_verdicts (says_sat "")]
    refine iff_of_true ⟨?_, (iff_false_intro hnot).symm⟩ ⟨by simp [hw], hcore⟩
    simp [hsat, hs, hw]
  | true =>
    rw [if_pos rfl]
    cases hm : result.model with
    | none =>
      exact iff_of_true (agree_silent (says_unknown _) (by simp [hsat, hw, hm]) hnot)
        ⟨by simp [hm], hcore⟩
    | some m =>
      have hiff : Responds query result .sat ↔ Reportable query result := by
        rw [hsat]
        constructor
        · rintro ⟨-, h⟩
          refine ⟨fun _ _ m' hm' => ?_, hcore⟩
          obtain ⟨m'', hm'', hgood⟩ := h hw
          rw [hm'] at hm''
          cases hm''
          exact hgood
        · intro h
          exact ⟨hs, fun _ => ⟨m, hm, h.model hs hw m hm⟩⟩
      constructor
      · rintro ⟨t, ht, hsay, -⟩
        simp only [bind_eq_ok, pure_eq, Outcome.ok.injEq] at ht
        obtain ⟨rest, -, rfl⟩ := ht
        exact hiff.mp (hsay.mp ((says_sat rest).sat.mpr trivial))
      · intro h
        obtain ⟨rest, hrest⟩ := exists_formatWanted query (h.model hs hw m hm).2.1
        dsimp only
        rw [hrest, ok_bind, pure_eq, agree_of_verdicts (says_sat rest)]
        exact ⟨(iff_true_intro (hiff.mpr h)).symm, (iff_false_intro hnot).symm⟩

/-- The printed verdict of an unsatisfiable script; printing a core cannot fail. -/
theorem agree_unsat_iff (hq : parseSmtlibScript lower script = ok query)
    (hs : result.status = .unsat) :
    Agree query result (textResponse query result) ↔ Reportable query result := by
  obtain ⟨hsat, hunsat⟩ := responds_iff hq result
  have hnot : ¬ Responds query result .sat := by simp [hsat, hs]
  have hmodel : result.status = .sat → query.wantModel = true → ∀ m, result.model = some m →
      Protocol.validateModel query.request m = ok () ∧ m.Spelled ∧ m.size < 2 ^ 32 := by simp [hs]
  unfold textResponse
  rw [hs]
  dsimp only
  cases hw : query.wantCore with
  | false =>
    rw [if_neg (by simp), pure_eq, show "unsat\n" = "unsat\n" ++ "" from rfl,
      agree_of_verdicts (says_unsat "")]
    refine iff_of_true ⟨(iff_false_intro hnot).symm, ?_⟩ ⟨hmodel, by simp [hw]⟩
    simp [hunsat, hs, hw]
  | true =>
    rw [if_pos rfl]
    cases hc : result.core with
    | none =>
      exact iff_of_true (agree_silent (says_unknown _) hnot (by simp [hunsat, hw, hc]))
        ⟨hmodel, by simp [hc]⟩
    | some c =>
      have hiff : Responds query result .unsat ↔ Reportable query result := by
        rw [hunsat]
        constructor
        · rintro ⟨-, h⟩
          refine ⟨hmodel, fun _ _ c' hc' => ?_⟩
          obtain ⟨c'', hc'', hgood⟩ := h hw
          rw [hc'] at hc''
          cases hc''
          exact hgood
        · intro h
          exact ⟨hs, fun _ => ⟨c, hc, h.core hs hw c hc⟩⟩
      simp only [pure_eq]
      rw [agree_of_verdicts (says_unsat _), ← hiff]
      simp [hnot]

/-- The printed verdict, result by result. -/
theorem agree_textResponse_iff (hq : parseSmtlibScript lower script = ok query) :
    Agree query result (textResponse query result) ↔ Reportable query result := by
  obtain ⟨hsat, hunsat⟩ := responds_iff hq result
  cases hs : result.status with
  | sat => exact agree_sat_iff hq hs
  | unsat => exact agree_unsat_iff hq hs
  | unknown =>
    refine iff_of_true ?_ ⟨by simp [hs], by simp [hs]⟩
    unfold textResponse
    rw [hs]
    exact agree_silent (says_unknown _) (by simp [hsat, hs]) (by simp [hunsat, hs])
  | simplified =>
    refine iff_of_true ?_ ⟨by simp [hs], by simp [hs]⟩
    unfold textResponse
    rw [hs]
    refine agree_silent ⟨?_, ?_⟩ (by simp [hsat, hs]) (by simp [hunsat, hs])
    · decide
    · decide

/-- **When the text and the binary route report the same verdict**: for a script that was
accepted, exactly when the model or core that is printed would have passed the checks of the
binary route. -/
theorem handleTextFrame_agrees_iff (lower : Lowering) (fallback : Fallback) (backend : Backend)
    (script : String) (query : TextQuery) (result : QueryResult)
    (hq : parseSmtlibScript lower script = ok query)
    (hr : backend.handle query.request = ok result) :
    (∃ text, handleTextFrame lower fallback (utf8 script) backend = ok text ∧
      (utf8 "sat" <+: text ↔ ∃ response,
        Protocol.responseFromQueryResult query.request result = ok response ∧
          response.envelope.status = .sat) ∧
      (utf8 "unsat" <+: text ↔ ∃ response,
        Protocol.responseFromQueryResult query.request result = ok response ∧
          response.envelope.status = .unsat)) ↔
    Reportable query result := by
  rw [← agree_textResponse_iff hq]
  have hutf : utf8? (utf8 script) = some script := utf8?_eq_some.mpr rfl
  simp only [handleTextFrame, hutf, ofOption, ok_bind, hq, hr, bind_eq_ok, pure_eq,
    Outcome.ok.injEq]
  constructor
  · rintro ⟨_, ⟨t, ht, rfl⟩, hs, hu⟩
    exact ⟨t, ht, hs, hu⟩
  · rintro ⟨t, ht, hs, hu⟩
    exact ⟨_, ⟨t, ht, rfl⟩, hs, hu⟩

def scriptP : String := "(declare-const p Bool)(assert p)(check-sat)(get-model)"

/-- What lowering makes of `scriptP`. -/
def lowerP : Lowering := fun _ =>
  ok (runOps [.boolVar "p", .assert (.mk' .bool 0)], ⟨true, false, []⟩)

def queryP : TextQuery where
  request := { assertP with envelope := { assertP.envelope with requestId := 0 } }
  wantModel := true
  wantCore := false
  getValues := []

theorem handleTextFrame_agrees_satP :
    ∃ text, handleTextFrame lowerP (fun _ _ => "") (utf8 scriptP)
        (constantBackend (ok (satP [1]))) = ok text ∧
      (utf8 "sat" <+: text ↔ ∃ response,
        Protocol.responseFromQueryResult queryP.request (satP [1]) = ok response ∧
          response.envelope.status = .sat) := by
  have hq : parseSmtlibScript lowerP scriptP = ok queryP := by decide
  obtain ⟨text, htext, hsat, -⟩ := (handleTextFrame_agrees_iff lowerP (fun _ _ => "")
    (constantBackend (ok (satP [1]))) scriptP queryP (satP [1]) hq rfl).mpr
    { model := by
        rintro - - m ⟨⟩
        refine ⟨by decide, ?_, by decide⟩
        simp only [ModelBlock.Spelled, List.mem_singleton, forall_eq]
        decide
      core := by rintro ⟨⟩ }
  exact ⟨text, htext, hsat⟩

/-- A model that lists `p` twice: the text route says `sat`, the binary route `ERROR`. -/
theorem handleTextFrame_disagrees :
    let twice : QueryResult := .ofSat (some ⟨[⟨.mk' .bool 0, ⟨0, [1]⟩⟩, ⟨.mk' .bool 0, ⟨0, [1]⟩⟩]⟩)
    parseSmtlibScript lowerP scriptP = ok queryP ∧
    ∃ text response, handleTextFrame lowerP (fun _ _ => "") (utf8 scriptP)
        (constantBackend (ok twice)) = ok text ∧ utf8 "sat" <+: text ∧
      Protocol.responseFromQueryResult queryP.request twice = ok response ∧
      response.envelope.status = .error ∧
      ¬ (utf8 "sat" <+: text ↔ ∃ response,
        Protocol.responseFromQueryResult queryP.request twice = ok response ∧
          response.envelope.status = .sat) := by
  intro twice
  have htext : (handleTextFrame lowerP (fun _ _ => "") (utf8 scriptP)
      (constantBackend (ok twice)) >>= fun t => ok (decide (utf8 "sat" <+: t))) = ok true := by
    decide
  have hresponse : (Protocol.responseFromQueryResult queryP.request twice >>=
      fun r => ok r.envelope.status) = ok .error := by decide
  obtain ⟨text, ht, hsat⟩ := bind_eq_ok.mp htext
  obtain ⟨response, hr, hst⟩ := bind_eq_ok.mp hresponse
  have hsat : utf8 "sat" <+: text := by simpa using hsat
  have hst : response.envelope.status = .error := Outcome.ok.inj hst
  refine ⟨by decide, text, response, ht, hsat, hr, hst, fun hiff => ?_⟩
  obtain ⟨r, hr', hst'⟩ := hiff.mp hsat
  rw [hr] at hr'
  cases hr'
  rw [hst] at hst'
  cases hst'

end Server
end SmtServer
