import SmtServer.Wire.Request

/-!
# `response.rs` — response frames and their blocks

A response is a 16-byte envelope and a payload; status and flags select which block decoder
has to accept the payload. Blocks nest: an optimisation value is a scalar and perhaps a model,
a model is a counted list of scalars, and all of them are read behind one cursor.

Every codec here is proved in the same form: the decoder returns `x` exactly when the encoder
returns bytes for `x` and those bytes are what it was given. The allocation guards
(`entry_count > remaining / 12`, `name_count > remaining / 4`) disappear in that statement,
because an entry is never shorter than the size the guard assumes.
-/

namespace SmtServer
namespace Wire

open Lib Outcome

/-! ## Scalars -/

structure ScalarValue where
  width : UInt32
  bytes : List UInt8
  deriving Repr, DecidableEq

def ensureUnusedHighBitsZero (width : Nat) (bytes : List UInt8) (context : String) :
    Result Unit :=
  let validBits := width % 8
  if validBits = 0 ∨ bytes = [] then pure ()
  else do
    let mask : UInt8 := UInt8.ofNat (2 ^ validBits - 1)
    let last ← expect bytes[bytes.length - 1]?
    ensure (last &&& ~~~mask = 0)
      (.invalid context s!"unused high bits in final byte are not zero: {hex 2 last.toNat}")

namespace ScalarValue

def bool (value : Bool) : ScalarValue := ⟨0, [if value then 1 else 0]⟩

def bv (width : UInt32) (bytes : List UInt8) : Result ScalarValue := do
  let expected ← bytesForWidth width.toNat
  ensure (bytes.length = expected) (.invalid "scalar BV value"
    s!"got {bytes.length} bytes, expected {expected} for width {width}")
  ensureUnusedHighBitsZero width.toNat bytes "scalar BV value"
  pure ⟨width, bytes⟩

def validate (s : ScalarValue) : Result Unit :=
  if s.width = 0 then
    ensure (s.bytes = [0] ∨ s.bytes = [1])
      (.invalid "Bool scalar value" "expected value_len=1 and byte 0 or 1")
  else do
    let expected ← bytesForWidth s.width.toNat
    ensure (s.bytes.length = expected) (.invalid "BV scalar value"
      s!"got {s.bytes.length} bytes, expected {expected} for width {s.width}")
    ensureUnusedHighBitsZero s.width.toNat s.bytes "BV scalar value"

/-- The bytes appended to the output. -/
def encode (s : ScalarValue) : Result (List UInt8) := do
  s.validate
  ensure (s.bytes.length < 2 ^ 32) (.invalid "scalar value" "value length exceeds u32::MAX")
  pure (u32Bytes s.width ++ u32Bytes (UInt32.ofNat s.bytes.length) ++ s.bytes)

/-- The value, and the offset behind it. -/
def decode (bytes : List UInt8) (offset : Nat) : Result (ScalarValue × Nat) := do
  let width ← readU32 bytes offset "scalar width"
  let valueLen ← readU32 bytes (← addU usizeBits offset 4) "scalar value_len"
  let offset ← checkedAdd offset 8 "scalar offset"
  let value ← exactSlice bytes offset valueLen.toNat "scalar value bytes"
  let offset ← checkedAdd offset valueLen.toNat "scalar offset"
  let scalar : ScalarValue := ⟨width, value⟩
  scalar.validate
  pure (scalar, offset)

end ScalarValue

/-! ## Models -/

structure ModelEntry where
  nodeRef : NodeRef
  value : ScalarValue
  deriving Repr, DecidableEq

structure ModelBlock where
  entries : List ModelEntry
  deriving Repr, DecidableEq

namespace ModelEntry

def encode (e : ModelEntry) : Result (List UInt8) := do
  let value ← e.value.encode
  pure (u32Bytes e.nodeRef.raw ++ value)

/-- One round of the loop of `decode_from`. -/
def decode (bytes : List UInt8) (offset : Nat) : Result (ModelEntry × Nat) := do
  let raw ← readU32 bytes offset "model node_ref"
  let offset ← checkedAdd offset 4 "model offset"
  let (value, offset) ← ScalarValue.decode bytes offset
  pure (⟨⟨raw⟩, value⟩, offset)

end ModelEntry

/-- `checked_sub`. -/
def checkedSub (a b : Nat) (e : WireError) : Result Nat := if b ≤ a then ok (a - b) else err e

namespace ModelBlock

def encode (m : ModelBlock) : Result (List UInt8) := do
  ensure (m.entries.length < 2 ^ 32) (.invalid "model block" "entry count exceeds u32::MAX")
  let entries ← Cursor.encodeAll ModelEntry.encode m.entries
  pure (u32Bytes (UInt32.ofNat m.entries.length) ++ entries)

def decodeFrom (bytes : List UInt8) (offset : Nat) : Result (ModelBlock × Nat) := do
  let entryCount ← readU32 bytes offset "model entry_count"
  let offset ← checkedAdd offset 4 "model offset"
  let remaining ← checkedSub bytes.length offset
    (.invalid "model block" "entry offset is past end of payload")
  ensure (entryCount.toNat ≤ remaining / 12) (.invalid "model block"
    s!"entry_count {entryCount} cannot fit in remaining {remaining} payload bytes")
  let (entries, offset) ← Cursor.many (ModelEntry.decode bytes) entryCount.toNat offset
  pure (⟨entries⟩, offset)

def decode (payload : List UInt8) : Result ModelBlock := do
  let (block, offset) ← decodeFrom payload 0
  ensure (offset = payload.length) (.lengthMismatch "model block" offset payload.length)
  pure block

/-- The key under which a model value is remembered: name, sort and width of the variable. -/
abbrev Symbol := String × WireSort × UInt32

/-- What the value of an entry has to look like for its variable: the key of the variable
without its name, and the context its name is read in. -/
def symbolShape (e : ModelEntry) (node : RawNode) : Result (WireSort × UInt32 × String) :=
  match e.nodeRef.sort with
  | .bool => do
    ensure (e.value.width = 0)
      (.invalid "model value" "Bool variable has non-Bool scalar value")
    pure (.bool, 0, "Bool variable")
  | .bv => do
    ensure (e.value.width = node.width) (.invalid "model value"
      s!"BV variable width {node.width} but scalar width {e.value.width}")
    pure (.bv, node.width, "BV variable")

/-- One round of `validate_against_expr`; `seen` and `symbols` are the set and the map it
fills. -/
def validateEntry (expr : ExprView) (seen : List NodeRef) (symbols : List (Symbol × ScalarValue))
    (e : ModelEntry) : Result Symbol := do
  ensure (e.nodeRef ∉ seen)
    (.invalid "model node_ref" s!"duplicate model entry for node {e.nodeRef.index}")
  let expectedSort : WireSort := if e.nodeRef.isBool then .bool else .bv
  let node ← validateNodeRef expr e.nodeRef expectedSort "model node_ref"
  ensure (isVariableNode node)
    (.invalid "model node_ref" s!"node {e.nodeRef.index} is not a variable")
  let (sort, width, nameContext) ← symbolShape e node
  let name ← expr.blobStr node.blobRef nameContext
  let key : Symbol := (name, sort, width)
  match symbols.lookup key with
  | some existing =>
    ensure (existing = e.value)
      (.invalid "model value" "same symbol appears with inconsistent values")
  | none => pure ()
  pure key

def validateEntries (expr : ExprView) :
    List ModelEntry → List NodeRef → List (Symbol × ScalarValue) → Result Unit
  | [], _, _ => pure ()
  | e :: rest, seen, symbols => do
    let key ← validateEntry expr seen symbols e
    validateEntries expr rest (e.nodeRef :: seen) ((key, e.value) :: symbols)

def validateAgainstExpr (m : ModelBlock) (expr : ExprView) : Result Unit :=
  validateEntries expr m.entries [] []

end ModelBlock

/-! ## Unsat cores -/

structure UnsatCoreBlock where
  names : List String
  deriving Repr, DecidableEq

/-- A finished `Vec<u8>`: its length is a `usize`, and growing it further panics. The other
encoders are bounded by their own length checks and never come near it. -/
def vec (out : List UInt8) : Result (List UInt8) :=
  if out.length < 2 ^ usizeBits then ok out else Outcome.panic

namespace UnsatCoreBlock

def encodeName (name : String) : Result (List UInt8) := do
  ensure ((utf8 name).length < 2 ^ 32)
    (.invalid "unsat core block" "name length exceeds u32::MAX")
  pure (u32Bytes (UInt32.ofNat (utf8 name).length) ++ utf8 name)

def encode (c : UnsatCoreBlock) : Result (List UInt8) := do
  ensure (c.names.length < 2 ^ 32) (.invalid "unsat core block" "name count exceeds u32::MAX")
  let names ← Cursor.encodeAll encodeName c.names
  vec (u32Bytes (UInt32.ofNat c.names.length) ++ names)

/-- One round of the loop of `decode`. -/
def decodeName (payload : List UInt8) (offset : Nat) : Result (String × Nat) := do
  let len ← readU32 payload offset "unsat core name_len"
  let offset ← addU usizeBits offset 4
  let bytes ← exactSlice payload offset len.toNat "unsat core name"
  let name ← ofOption (utf8? bytes) (.invalid "unsat core block" "name is not UTF-8")
  let offset ← addU usizeBits offset len.toNat
  pure (name, offset)

def decode (payload : List UInt8) : Result UnsatCoreBlock := do
  let nameCount ← readU32 payload 0 "unsat core name_count"
  let remaining ← checkedSub payload.length 4
    (.invalid "unsat core block" "name offset is past end of payload")
  ensure (nameCount.toNat ≤ remaining / 4) (.invalid "unsat core block"
    s!"name_count {nameCount} cannot fit in remaining {remaining} payload bytes")
  let (names, offset) ← Cursor.many (decodeName payload) nameCount.toNat 4
  ensure (offset = payload.length) (.lengthMismatch "unsat core block" offset payload.length)
  pure ⟨names⟩

end UnsatCoreBlock

/-! ## Simplified expressions and optima -/

structure SimplifyBlock where
  expression : List UInt8
  targetNode : NodeRef
  deriving Repr, DecidableEq

namespace SimplifyBlock

def validate (s : SimplifyBlock) : Result Unit := do
  let expr ← ExprView.parseAndValidate s.expression
  let _ ← validateNodeRef expr s.targetNode s.targetNode.sort "simplify target_node"
  pure ()

def encode (s : SimplifyBlock) : Result (List UInt8) := do
  s.validate
  ensure (s.expression.length < 2 ^ 32)
    (.invalid "simplify block" "expression length exceeds u32::MAX")
  pure (u32Bytes (UInt32.ofNat s.expression.length) ++ s.targetNode.bytes ++ s.expression)

def decode (payload : List UInt8) : Result SimplifyBlock := do
  ensure (8 ≤ payload.length) (.unexpectedEof "simplify block header" 8 payload.length)
  let exprLen ← readU32 payload 0 "simplify expr_len"
  let target ← readU32 payload 4 "simplify target_node"
  let expected ← checkedAdd 8 exprLen.toNat "simplify block length"
  ensure (payload.length = expected)
    (.lengthMismatch "simplify block" expected payload.length)
  let expression ← slice payload 8 (← addU usizeBits 8 exprLen.toNat)
  let block : SimplifyBlock := ⟨expression, ⟨target⟩⟩
  block.validate
  pure block

/-- `expression_buffer`, and the view of it. -/
def expressionBuffer (s : SimplifyBlock) : Result ExprView := ExprView.parse s.expression

end SimplifyBlock

structure OptimizationValueBlock where
  optimum : ScalarValue
  model : Option ModelBlock
  deriving Repr, DecidableEq

namespace OptimizationValueBlock

def encodeModel : Option ModelBlock → Result (List UInt8)
  | some model => model.encode
  | none => pure []

def encode (o : OptimizationValueBlock) : Result (List UInt8) := do
  let optimum ← o.optimum.encode
  let model ← encodeModel o.model
  pure (optimum ++ model)

def decodeModel (payload : List UInt8) (offset : Nat) : Bool → Result (Option ModelBlock × Nat)
  | true => do
    let (model, offset) ← ModelBlock.decodeFrom payload offset
    pure (some model, offset)
  | false => pure (none, offset)

def decode (payload : List UInt8) (hasModel : Bool) : Result OptimizationValueBlock := do
  let (optimum, offset) ← ScalarValue.decode payload 0
  let (model, offset) ← decodeModel payload offset hasModel
  ensure (offset = payload.length)
    (.lengthMismatch "optimization value block" offset payload.length)
  pure ⟨optimum, model⟩

end OptimizationValueBlock

/-! ## Frames -/

structure ResponseEnvelope where
  requestId : UInt32
  status : Status
  flags : UInt8
  payloadLen : UInt32
  deriving Repr, DecidableEq

def validateResponseFlags (flags : UInt8) : Result Unit :=
  let unknown := flags &&& ~~~ResponseFlags.all
  ensure (unknown = 0)
    (.invalid "response flags" s!"unknown flag bits {hex 2 unknown.toNat}")

namespace ResponseEnvelope

def bytes (e : ResponseEnvelope) : List UInt8 :=
  responseMagic ++ u32Bytes e.requestId ++ [e.status.toByte] ++ [e.flags] ++
    u32Bytes e.payloadLen ++ u16Bytes 0

def encode (e : ResponseEnvelope) : Result (List UInt8) := do
  validateResponseFlags e.flags
  pure e.bytes

def parse (bytes : List UInt8) : Result ResponseEnvelope := do
  ensure (responseEnvelopeLen ≤ bytes.length)
    (.unexpectedEof "response envelope" responseEnvelopeLen bytes.length)
  let magic ← exactSlice bytes 0 4 "response magic"
  ensure (magic = responseMagic) (.badMagic "response envelope" responseMagic magic)
  let statusRaw ← readU8 bytes 8 "response status"
  let status ← ofOption (Status.tryFrom statusRaw)
    (.invalid "response status" s!"unknown status {statusRaw}")
  let flags ← readU8 bytes 9 "response flags"
  validateResponseFlags flags
  let reserved ← readU16 bytes 14 "response reserved"
  ensure (reserved = 0) (.invalid "response reserved" s!"expected 0, got {reserved}")
  let requestId ← readU32 bytes 4 "response request_id"
  let payloadLen ← readU32 bytes 10 "response payload_len"
  pure ⟨requestId, status, flags, payloadLen⟩

def encodedLen (e : ResponseEnvelope) : Result Nat :=
  checkedAdd responseEnvelopeLen e.payloadLen.toNat "response length"

end ResponseEnvelope

structure BinaryResponse where
  envelope : ResponseEnvelope
  payload : List UInt8
  deriving Repr, DecidableEq

namespace BinaryResponse

def validateError (r : BinaryResponse) : Result Unit := do
  ensure (r.envelope.flags = ResponseFlags.hasMessage)
    (.invalid "error response" "ERROR status must use exactly HAS_MESSAGE")
  let _ ← ofOption (utf8? r.payload) (.invalid "error response" "message is not UTF-8")
  pure ()

def validateUnknown (r : BinaryResponse) : Result Unit :=
  if r.envelope.flags = 0 then
    ensure (r.payload = []) (.invalid "unknown response" "payload requires HAS_MESSAGE")
  else if r.envelope.flags = ResponseFlags.hasMessage then do
    let _ ← ofOption (utf8? r.payload) (.invalid "unknown response" "message is not UTF-8")
    pure ()
  else err (.invalid "unknown response" "UNKNOWN status may only use HAS_MESSAGE")

def validateSat (r : BinaryResponse) : Result Unit := do
  let allowed := ResponseFlags.hasModel ||| ResponseFlags.hasValue
  ensure (r.envelope.flags &&& ~~~allowed = 0)
    (.invalid "sat response" "SAT status may only use HAS_MODEL/HAS_VALUE")
  let hasValue := decide (r.envelope.flags &&& ResponseFlags.hasValue ≠ 0)
  let hasModel := decide (r.envelope.flags &&& ResponseFlags.hasModel ≠ 0)
  match hasValue, hasModel with
  | false, false =>
    ensure (r.payload = []) (.invalid "sat response" "payload without flags")
  | false, true => do
    let _ ← ModelBlock.decode r.payload
    pure ()
  | true, hasModel => do
    let _ ← OptimizationValueBlock.decode r.payload hasModel
    pure ()

def validateUnsat (r : BinaryResponse) : Result Unit :=
  if r.envelope.flags = 0 then
    ensure (r.payload = []) (.invalid "unsat response" "payload without HAS_CORE")
  else if r.envelope.flags = ResponseFlags.hasCore then do
    let _ ← UnsatCoreBlock.decode r.payload
    pure ()
  else err (.invalid "unsat response" "UNSAT status may only use HAS_CORE")

def validateSimplified (r : BinaryResponse) : Result Unit := do
  ensure (r.envelope.flags = ResponseFlags.hasExpr)
    (.invalid "simplified response" "SIMPLIFIED status must use exactly HAS_EXPR")
  let _ ← SimplifyBlock.decode r.payload
  pure ()

def validateStatus (r : BinaryResponse) : Result Unit :=
  match r.envelope.status with
  | .error => r.validateError
  | .unknown => r.validateUnknown
  | .sat => r.validateSat
  | .unsat => r.validateUnsat
  | .simplified => r.validateSimplified

def validate (r : BinaryResponse) : Result Unit := do
  ensure (r.envelope.payloadLen.toNat = r.payload.length)
    (.lengthMismatch "response payload length" r.envelope.payloadLen.toNat r.payload.length)
  r.validateStatus

def encode (r : BinaryResponse) : Result (List UInt8) := do
  r.validate
  let _ ← r.envelope.encodedLen
  let head ← r.envelope.encode
  pure (head ++ r.payload)

def new (requestId : UInt32) (status : Status) (flags : UInt8) (payload : List UInt8) :
    Result BinaryResponse := do
  validateResponseFlags flags
  ensure (payload.length < 2 ^ 32) (.invalid "response payload"
    s!"payload length {payload.length} exceeds u32::MAX")
  let response : BinaryResponse :=
    ⟨⟨requestId, status, flags, UInt32.ofNat payload.length⟩, payload⟩
  response.validate
  pure response

def error (requestId : UInt32) (message : String) : Result BinaryResponse :=
  new requestId .error ResponseFlags.hasMessage (utf8 message)

def parse (framePayload : List UInt8) : Result BinaryResponse := do
  let envelope ← ResponseEnvelope.parse framePayload
  let expected ← envelope.encodedLen
  ensure (framePayload.length = expected)
    (.lengthMismatch "response frame payload" expected framePayload.length)
  let payload ← slice framePayload responseEnvelopeLen framePayload.length
  let response : BinaryResponse := ⟨envelope, payload⟩
  response.validate
  pure response

end BinaryResponse
/-! ## Round trips of the blocks -/

@[simp] theorem checkedSub_eq_ok {a b c : Nat} {e : WireError} :
    checkedSub a b e = ok c ↔ b ≤ a ∧ c = a - b := by
  by_cases h : b ≤ a <;> simp [checkedSub, h, eq_comm]

@[simp] theorem safe_checkedSub {a b : Nat} {e : WireError} : Safe (checkedSub a b e) := by
  unfold checkedSub
  split <;> simp

namespace ScalarValue

theorem length_of_validate {s : ScalarValue} {u : Unit} (h : s.validate = ok u) :
    1 ≤ s.bytes.length ∧ s.bytes.length ≤ 8192 := by
  unfold validate at h
  split at h
  · rcases ensure_eq_ok.mp h with h | h <;> simp [h]
  · simp only [bytesForWidth, validateBvWidthValue, bind_eq_ok, ensure_eq_ok, exists_const,
      pure_eq, Outcome.ok.injEq] at h
    obtain ⟨_, ⟨hw, rfl⟩, hl, -⟩ := h
    simp only [maxBvWidth] at hw
    omega

theorem encode_eq_ok {s : ScalarValue} {b : List UInt8} : s.encode = ok b ↔
    s.validate = ok () ∧
      b = u32Bytes s.width ++ u32Bytes (UInt32.ofNat s.bytes.length) ++ s.bytes := by
  simp only [encode, bind_eq_ok, ensure_eq_ok, exists_const, pure_eq, Outcome.ok.injEq]
  constructor
  · rintro ⟨_, hv, -, rfl⟩
    exact ⟨hv, rfl⟩
  · rintro ⟨hv, rfl⟩
    have := length_of_validate hv
    exact ⟨(), hv, by omega, rfl⟩

theorem length_encode {s : ScalarValue} {b : List UInt8} (h : s.encode = ok b) :
    9 ≤ b.length ∧ b.length ≤ 8200 := by
  obtain ⟨hv, rfl⟩ := encode_eq_ok.mp h
  have := length_of_validate hv
  simp
  omega

theorem inverts : Cursor.Inverts (2 ^ usizeBits) encode decode := by
  intro b off s off'
  simp only [encode_eq_ok, decode, bind_eq_ok, readU32_eq_ok, addU_eq_ok, checkedAdd_eq_ok,
    exactSlice_eq_ok, pure_eq, Outcome.ok.injEq, Prod.mk.injEq]
  constructor
  · rintro ⟨w, ⟨-, hw⟩, _, ⟨-, rfl⟩, l, ⟨-, hl⟩, _, ⟨-, rfl⟩, value, ⟨-, hvl, hv⟩, _, ⟨hlt, rfl⟩,
      _, hval, rfl, rfl⟩
    refine ⟨_, ⟨hval, rfl⟩, ?_, ?_, hlt⟩
    · simp only [stands_append, List.length_append, length_u32Bytes, hvl, UInt32.ofNat_toNat]
      exact ⟨⟨hw, hl⟩, hv⟩
    · simp only [List.length_append, length_u32Bytes, hvl]
      omega
  · rintro ⟨_, ⟨hval, rfl⟩, hs, rfl, hlt⟩
    have hlen := length_of_validate hval
    have hl : (UInt32.ofNat s.bytes.length).toNat = s.bytes.length := by
      rw [UInt32.toNat_ofNat']
      exact Nat.mod_eq_of_lt (by omega)
    simp only [stands_append, List.length_append, length_u32Bytes, Nat.reduceAdd] at hs hlt ⊢
    exact ⟨_, ⟨by omega, hs.1.1⟩, _, ⟨by omega, rfl⟩, _, ⟨by omega, hs.1.2⟩, _,
      ⟨by omega, rfl⟩, _, ⟨by rw [hl]; omega, hl.symm, hs.2⟩, _, ⟨by rw [hl]; omega, rfl⟩, (), hval,
      rfl, by rw [hl]; omega⟩

theorem decode_eq_ok_iff {b : List UInt8} {s : ScalarValue} :
    decode b 0 = ok (s, b.length) ↔ s.encode = ok b := by
  rw [inverts b 0 s b.length]
  constructor
  · rintro ⟨t, he, hs, hlen, -⟩
    rw [he, stands_zero_and_length.mp ⟨hs, by omega⟩]
  · intro he
    have := (length_encode he).2
    exact ⟨b, he, stands_self, by simp, by rw [usize_eq]; omega⟩

theorem safe_validate {s : ScalarValue} : Safe s.validate := by
  unfold validate
  split
  · exact safe_ensure
  · refine (safe_ensure.bind fun _ _ => safe_ok _).bind fun _ _ => safe_ensure.bind fun _ _ => ?_
    unfold ensureUnusedHighBitsZero
    simp only
    split
    · exact safe_ok _
    · rename_i h
      have hpos : 0 < s.bytes.length := List.length_pos_iff.mpr fun h0 => h (.inr h0)
      rw [List.getElem?_eq_getElem (by omega), expect_some, ok_bind]
      exact safe_ensure

theorem safe_decode {b : List UInt8} {off : Nat} : Safe (decode b off) := by
  refine safe_readU32.bind fun _ h => ?_
  rw [addU_of_lt (readU32_eq_ok.mp h).1, ok_bind]
  exact safe_readU32.bind fun _ _ => safe_checkedAdd.bind fun _ _ =>
    safe_exactSlice.bind fun _ _ => safe_checkedAdd.bind fun _ _ =>
    safe_validate.bind fun _ _ => safe_ok _

end ScalarValue

namespace ModelEntry

theorem encode_eq_ok {e : ModelEntry} {b : List UInt8} : e.encode = ok b ↔
    ∃ s, e.value.encode = ok s ∧ u32Bytes e.nodeRef.raw ++ s = b := by
  simp only [encode, bind_eq_ok, pure_eq, Outcome.ok.injEq]

theorem length_encode {e : ModelEntry} {b : List UInt8} (h : e.encode = ok b) :
    12 ≤ b.length ∧ b.length ≤ 8204 := by
  obtain ⟨s, hs, rfl⟩ := encode_eq_ok.mp h
  have := ScalarValue.length_encode hs
  simp
  omega

theorem inverts : Cursor.Inverts (2 ^ usizeBits) encode decode := by
  intro b off e off'
  simp only [encode_eq_ok, decode, bind_eq_ok, readU32_eq_ok, checkedAdd_eq_ok, pure_eq,
    Outcome.ok.injEq, Prod.mk.injEq, Prod.exists, ScalarValue.inverts _ _ _ _]
  constructor
  · rintro ⟨raw, ⟨-, hr⟩, _, ⟨-, rfl⟩, v, _, ⟨s, he, hs, rfl, hlt⟩, rfl, rfl⟩
    refine ⟨_, ⟨s, he, rfl⟩, stands_append.mpr ⟨hr, by simpa using hs⟩, ?_, hlt⟩
    simp [Nat.add_assoc]
  · rintro ⟨_, ⟨s, he, rfl⟩, hs, rfl, hlt⟩
    obtain ⟨hr, hs⟩ := stands_append.mp hs
    simp only [List.length_append, length_u32Bytes] at hs hlt ⊢
    exact ⟨_, ⟨by omega, hr⟩, _, ⟨by omega, rfl⟩, _, _, ⟨s, he, hs, rfl, by omega⟩, rfl,
      by omega⟩

theorem safe_decode {b : List UInt8} {off : Nat} : Safe (decode b off) :=
  safe_readU32.bind fun _ _ => safe_checkedAdd.bind fun _ _ =>
    ScalarValue.safe_decode.bind fun _ _ => safe_ok _

end ModelEntry

namespace ModelBlock

theorem encode_eq_ok {m : ModelBlock} {b : List UInt8} : m.encode = ok b ↔
    m.entries.length < 2 ^ 32 ∧ ∃ s, Cursor.encodeAll ModelEntry.encode m.entries = ok s ∧
      u32Bytes (UInt32.ofNat m.entries.length) ++ s = b := by
  simp only [encode, bind_eq_ok, ensure_eq_ok, exists_const, pure_eq, Outcome.ok.injEq]

theorem length_entries {m : ModelBlock} {s : List UInt8}
    (h : Cursor.encodeAll ModelEntry.encode m.entries = ok s) :
    12 * m.entries.length ≤ s.length ∧ s.length ≤ 8204 * m.entries.length :=
  Cursor.length_encodeAll_mem h fun _ _ _ ht => ModelEntry.length_encode ht

/-- The guard on `entry_count` rejects nothing an encoder writes: an entry has at least the
twelve bytes it assumes. -/
theorem inverts : Cursor.Inverts (2 ^ usizeBits) encode decodeFrom := by
  intro b off m off'
  simp only [encode_eq_ok, decodeFrom, bind_eq_ok, readU32_eq_ok, checkedAdd_eq_ok,
    checkedSub_eq_ok, ensure_eq_ok, exists_const, pure_eq, Outcome.ok.injEq, Prod.mk.injEq,
    Prod.exists]
  constructor
  · rintro ⟨n, ⟨-, hn⟩, _, ⟨hlt, rfl⟩, _, ⟨hle, rfl⟩, -, entries, _, hm, rfl, rfl⟩
    obtain ⟨hl, s, he, hs, rfl, hlt'⟩ := (ModelEntry.inverts.many hle hlt).mp hm
    have hcount : UInt32.ofNat entries.length = n := by rw [hl, UInt32.ofNat_toNat]
    refine ⟨_, ⟨by rw [hl]; exact n.toNat_lt, s, he, rfl⟩, ?_, ?_, hlt'⟩
    · rw [hcount]
      exact stands_append.mpr ⟨hn, by simpa using hs⟩
    · simp [Nat.add_assoc]
  · rintro ⟨_, ⟨hcount, s, he, rfl⟩, hs, rfl, hlt⟩
    obtain ⟨hn, hs⟩ := stands_append.mp hs
    simp only [List.length_append, length_u32Bytes] at hs hlt ⊢
    have hl : (UInt32.ofNat m.entries.length).toNat = m.entries.length := by
      rw [UInt32.toNat_ofNat']
      exact Nat.mod_eq_of_lt hcount
    have hle := hs.le_length
    have hmin := (length_entries he).1
    refine ⟨_, ⟨by omega, hn⟩, _, ⟨by omega, rfl⟩, _, ⟨by omega, rfl⟩, ?_, m.entries, _,
      (ModelEntry.inverts.many (by omega) (by omega)).mpr
        ⟨hl.symm, s, he, hs, rfl, by omega⟩, rfl, by omega⟩
    rw [hl, Nat.le_div_iff_mul_le (by decide)]
    omega

theorem safe_decodeFrom {b : List UInt8} {off : Nat} : Safe (decodeFrom b off) :=
  safe_readU32.bind fun _ _ => safe_checkedAdd.bind fun _ _ => safe_checkedSub.bind fun _ _ =>
    safe_ensure.bind fun _ _ => (Cursor.safe_many fun _ => ModelEntry.safe_decode).bind
      fun _ _ => safe_ok _

theorem decode_eq_ok_iff {b : List UInt8} {m : ModelBlock} : decode b = ok m ↔ m.encode = ok b := by
  simp only [decode, bind_eq_ok, ensure_eq_ok, exists_const, pure_eq, Outcome.ok.injEq,
    Prod.exists, inverts _ _ _ _]
  constructor
  · rintro ⟨_, _, ⟨s, he, hs, rfl, -⟩, hlen, rfl⟩
    rw [he, stands_zero_and_length.mp ⟨hs, by omega⟩]
  · intro he
    obtain ⟨hcount, s, hs, hb⟩ := encode_eq_ok.mp he
    have hmax := (length_entries hs).2
    have hlen : b.length = 4 + s.length := by simp [← hb]
    exact ⟨m, _, ⟨b, he, stands_self, rfl, by rw [usize_eq]; omega⟩, by omega, rfl⟩

theorem safe_decode {b : List UInt8} : Safe (decode b) :=
  safe_decodeFrom.bind fun _ _ => safe_ensure.bind fun _ _ => safe_ok _

end ModelBlock

namespace UnsatCoreBlock

theorem encodeName_eq_ok {name : String} {b : List UInt8} : encodeName name = ok b ↔
    (utf8 name).length < 2 ^ 32 ∧
      u32Bytes (UInt32.ofNat (utf8 name).length) ++ utf8 name = b := by
  simp only [encodeName, bind_eq_ok, ensure_eq_ok, exists_const, pure_eq, Outcome.ok.injEq]

theorem inverts_name : Cursor.Inverts (2 ^ usizeBits) encodeName decodeName := by
  intro b off name off'
  simp only [encodeName_eq_ok, decodeName, bind_eq_ok, readU32_eq_ok, addU_eq_ok,
    exactSlice_eq_ok, ofOption_eq_ok, utf8?_eq_some, pure_eq, Outcome.ok.injEq, Prod.mk.injEq]
  constructor
  · rintro ⟨l, ⟨-, hl⟩, _, ⟨-, rfl⟩, _, ⟨-, hlen, hs⟩, s, rfl, _, ⟨hlt, rfl⟩, rfl, rfl⟩
    refine ⟨_, ⟨by rw [hlen]; exact l.toNat_lt, rfl⟩, ?_, ?_, hlt⟩
    · rw [hlen, UInt32.ofNat_toNat]
      exact stands_append.mpr ⟨hl, by simpa using hs⟩
    · simp only [List.length_append, length_u32Bytes, hlen]
      omega
  · rintro ⟨_, ⟨hlen, rfl⟩, hs, rfl, hlt⟩
    have hl : (UInt32.ofNat (utf8 name).length).toNat = (utf8 name).length := by
      rw [UInt32.toNat_ofNat']
      exact Nat.mod_eq_of_lt hlen
    obtain ⟨hn, hs⟩ := stands_append.mp hs
    simp only [List.length_append, length_u32Bytes] at hs hlt ⊢
    exact ⟨_, ⟨by omega, hn⟩, _, ⟨by omega, rfl⟩, _, ⟨by rw [hl]; omega, hl.symm, hs⟩, name, rfl,
      _, ⟨by rw [hl]; omega, rfl⟩, rfl, by rw [hl]; omega⟩

theorem safe_decodeName {b : List UInt8} {off : Nat} : Safe (decodeName b off) := by
  refine safe_readU32.bind fun _ h => ?_
  rw [addU_of_lt (readU32_eq_ok.mp h).1, ok_bind]
  refine safe_exactSlice.bind fun _ h => safe_ofOption.bind fun _ _ => ?_
  rw [addU_of_lt (exactSlice_eq_ok.mp h).1, ok_bind]
  exact safe_ok _

theorem encode_eq_ok {c : UnsatCoreBlock} {b : List UInt8} : c.encode = ok b ↔
    c.names.length < 2 ^ 32 ∧ ∃ s, Cursor.encodeAll encodeName c.names = ok s ∧
      u32Bytes (UInt32.ofNat c.names.length) ++ s = b ∧ b.length < 2 ^ usizeBits := by
  simp only [encode, bind_eq_ok, ensure_eq_ok, exists_const, vec]
  refine and_congr_right fun _ => exists_congr fun s => and_congr_right fun _ => ?_
  split
  · rename_i h
    constructor
    · intro hb
      obtain rfl := Outcome.ok.inj hb
      exact ⟨rfl, h⟩
    · rintro ⟨rfl, -⟩
      rfl
  · rename_i h
    constructor
    · intro hb
      cases hb
    · rintro ⟨rfl, hb⟩
      exact absurd hb h

/-- The bytes of the names, for the count that `decode` compares with them. -/
theorem length_names {c : UnsatCoreBlock} {s : List UInt8}
    (h : Cursor.encodeAll encodeName c.names = ok s) : 4 * c.names.length ≤ s.length := by
  have hname : ∀ name ∈ c.names, ∀ t, encodeName name = ok t →
      4 ≤ t.length ∧ t.length ≤ 4 + 2 ^ 32 := by
    intro name _ t ht
    obtain ⟨hlt, rfl⟩ := encodeName_eq_ok.mp ht
    simp
    omega
  exact (Cursor.length_encodeAll_mem h hname).1

theorem decode_eq_ok_iff {b : List UInt8} {c : UnsatCoreBlock} :
    decode b = ok c ↔ c.encode = ok b := by
  simp only [encode_eq_ok, decode, bind_eq_ok, readU32_eq_ok, checkedSub_eq_ok, ensure_eq_ok,
    exists_const, pure_eq, Outcome.ok.injEq, Prod.exists]
  constructor
  · rintro ⟨n, ⟨-, hn⟩, _, ⟨hle, rfl⟩, -, names, _, hm, hend, rfl⟩
    obtain ⟨hl, s, he, hs, rfl, hlt⟩ := (inverts_name.many hle (by decide)).mp hm
    have hcount : UInt32.ofNat names.length = n := by rw [hl, UInt32.ofNat_toNat]
    refine ⟨by rw [hl]; exact n.toNat_lt, s, he, ?_, hend ▸ hlt⟩
    rw [hcount]
    refine (stands_zero_and_length.mp ⟨stands_append.mpr ⟨hn, by simpa using hs⟩, ?_⟩).symm
    simp [hend]
  · rintro ⟨hcount, s, he, rfl, hb⟩
    have hl : (UInt32.ofNat c.names.length).toNat = c.names.length := by
      rw [UInt32.toNat_ofNat']
      exact Nat.mod_eq_of_lt hcount
    have hmin := length_names he
    obtain ⟨hn, hs⟩ := stands_append.mp
      (stands_self (s := u32Bytes (UInt32.ofNat c.names.length) ++ s))
    simp only [List.length_append, length_u32Bytes, Nat.zero_add] at hs hb ⊢
    refine ⟨_, ⟨by decide, hn⟩, _, ⟨by omega, rfl⟩, ?_, c.names, _,
      (inverts_name.many (by simp) (by decide)).mpr
        ⟨hl.symm, s, he, hs, rfl, hb⟩, rfl, rfl⟩
    rw [hl, Nat.le_div_iff_mul_le (by decide)]
    omega

theorem safe_decode {b : List UInt8} : Safe (decode b) :=
  safe_readU32.bind fun _ _ => safe_checkedSub.bind fun _ _ => safe_ensure.bind fun _ _ =>
    (Cursor.safe_many fun _ => safe_decodeName).bind fun _ _ => safe_ensure.bind fun _ _ =>
    safe_ok _

end UnsatCoreBlock

theorem SimplifyBlock.decode_eq_ok_iff {b : List UInt8} {s : SimplifyBlock} :
    decode b = ok s ↔ s.encode = ok b := by
  simp only [encode, decode, bind_eq_ok, readU32_eq_ok, checkedAdd_eq_ok, addU_eq_ok,
    ensure_eq_ok, exists_const, pure_eq, Outcome.ok.injEq]
  constructor
  · rintro ⟨h8, l, ⟨-, hl⟩, target, ⟨-, ht⟩, _, ⟨-, rfl⟩, hlen, _, ⟨-, rfl⟩, expr, hexpr, _, hval,
      rfl⟩
    rw [slice_of_le (by omega) (by omega), Nat.add_sub_cancel_left] at hexpr
    obtain rfl := Outcome.ok.inj hexpr
    have hexprLen : ((b.drop 8).take l.toNat).length = l.toNat := by
      simp
      omega
    refine ⟨(), hval, by rw [hexprLen]; exact l.toNat_lt, Eq.symm ?_⟩
    refine stands_zero_and_length.mp ⟨?_, ?_⟩
    · simp only [hexprLen, UInt32.ofNat_toNat, stands_append, List.length_append,
        length_u32Bytes, NodeRef.length_bytes]
      exact ⟨⟨hl, ht⟩, stands_take_drop (by omega)⟩
    · simp only [List.length_append, length_u32Bytes, NodeRef.length_bytes, hexprLen]
      omega
  · rintro ⟨_, hval, hlt, rfl⟩
    have hl : (UInt32.ofNat s.expression.length).toNat = s.expression.length := by
      rw [UInt32.toNat_ofNat']
      exact Nat.mod_eq_of_lt hlt
    obtain ⟨hs, hx⟩ := stands_append.mp (stands_self
      (s := u32Bytes (UInt32.ofNat s.expression.length) ++ s.targetNode.bytes ++ s.expression))
    obtain ⟨h1, h2⟩ := stands_append.mp hs
    simp only [List.length_append, length_u32Bytes, NodeRef.length_bytes, Nat.zero_add] at h2 hx ⊢
    refine ⟨by omega, _, ⟨by decide, h1⟩, _, ⟨by decide, h2⟩, _, ⟨?_, rfl⟩, ?_, _, ⟨?_, rfl⟩,
      s.expression, ?_, (), hval, rfl⟩
    · rw [hl, usize_eq]
      omega
    · rw [hl]
    · rw [hl, usize_eq]
      omega
    · rw [hl, slice_of_le (by omega) hx.le_length, Nat.add_sub_cancel_left]
      exact congrArg ok hx.2

theorem SimplifyBlock.safe_decode {b : List UInt8} : Safe (SimplifyBlock.decode b) := by
  refine safe_ensure.bind fun _ _ => safe_readU32.bind fun l _ => safe_readU32.bind fun _ _ =>
    safe_checkedAdd.bind fun n hn => safe_ensure.bind fun _ hb => ?_
  obtain ⟨hlt, rfl⟩ := checkedAdd_eq_ok.mp hn
  rw [addU_of_lt hlt, ok_bind, slice_of_le (by omega) (ensure_eq_ok.mp hb).ge, ok_bind]
  exact ((safe_parseAndValidate _).bind fun _ _ => BinaryRequest.safe_validateNodeRef.bind
    fun _ _ => safe_ok _).bind fun _ _ => safe_ok _

namespace OptimizationValueBlock

/-- The block with or without a model, as the flag of the response says. -/
theorem decode_eq_ok_iff {b : List UInt8} {hasModel : Bool} {o : OptimizationValueBlock} :
    decode b hasModel = ok o ↔ o.encode = ok b ∧ o.model.isSome = hasModel := by
  simp only [decode, encode, bind_eq_ok, ensure_eq_ok, exists_const, pure_eq, Outcome.ok.injEq,
    Prod.exists, ScalarValue.inverts _ _ _ _]
  cases hasModel with
  | false =>
    simp only [decodeModel, pure_eq, Outcome.ok.injEq, Prod.mk.injEq]
    constructor
    · rintro ⟨v, _, ⟨s, he, hs, rfl, -⟩, _, _, ⟨rfl, rfl⟩, hlen, rfl⟩
      refine ⟨⟨s, he, [], rfl, ?_⟩, rfl⟩
      rw [List.append_nil]
      exact (stands_zero_and_length.mp ⟨hs, by omega⟩).symm
    · rintro ⟨⟨s, he, t, ht, rfl⟩, hm⟩
      rw [Option.isSome_eq_false_iff, Option.isNone_iff_eq_none] at hm
      rw [hm, encodeModel, pure_eq, Outcome.ok.injEq] at ht
      subst ht
      have := (ScalarValue.length_encode he).2
      refine ⟨_, _, ⟨s, he, by simpa using stands_self, rfl, ?_⟩, _, _, ⟨rfl, rfl⟩, by simp, ?_⟩
      · rw [usize_eq]
        omega
      · rw [← hm]
  | true =>
    simp only [decodeModel, bind_eq_ok, pure_eq, Outcome.ok.injEq, Prod.mk.injEq, Prod.exists,
      ModelBlock.inverts _ _ _ _]
    constructor
    · rintro ⟨v, _, ⟨s, he, hs, rfl, -⟩, _, _, ⟨m, _, ⟨t, ht, hst, rfl, -⟩, rfl, rfl⟩, hlen, rfl⟩
      refine ⟨⟨s, he, t, ht, ?_⟩, rfl⟩
      refine (stands_zero_and_length.mp ⟨stands_append.mpr ⟨hs, hst⟩, ?_⟩).symm
      rw [← hlen, List.length_append, Nat.zero_add]
    · rintro ⟨⟨s, he, t, ht, rfl⟩, hm⟩
      obtain ⟨m, hm⟩ := Option.isSome_iff_exists.mp hm
      rw [hm, encodeModel] at ht
      obtain ⟨hcount, u, hu, rfl⟩ := ModelBlock.encode_eq_ok.mp ht
      have hmax := (ModelBlock.length_entries hu).2
      have hmax' := (ScalarValue.length_encode he).2
      obtain ⟨h1, h2⟩ := stands_append.mp (stands_self (s := s ++ (_ ++ u)))
      refine ⟨o.optimum, _, ⟨s, he, h1, rfl, by rw [usize_eq]; omega⟩, some m, _,
        ⟨m, _, ⟨_, ht, h2, rfl, ?_⟩, rfl, rfl⟩, ?_, ?_⟩
      · simp only [List.length_append, length_u32Bytes, usize_eq]
        omega
      · simp only [List.length_append, Nat.zero_add]
      · rw [← hm]

theorem safe_decode {b : List UInt8} {hasModel : Bool} : Safe (decode b hasModel) := by
  refine ScalarValue.safe_decode.bind fun _ _ => Safe.bind ?_ fun _ _ =>
    safe_ensure.bind fun _ _ => safe_ok _
  cases hasModel with
  | false => exact safe_ok _
  | true => exact ModelBlock.safe_decodeFrom.bind fun _ _ => safe_ok _

end OptimizationValueBlock

/-! ## Round trip of the frame -/

namespace ResponseEnvelope

variable {b : List UInt8} {e : ResponseEnvelope}

@[simp] theorem length_bytes (e : ResponseEnvelope) : e.bytes.length = 16 := by
  simp [bytes, responseMagic]

theorem parse_eq_ok : parse b = ok e ↔
    Stands b 0 e.bytes ∧ validateResponseFlags e.flags = ok () := by
  have hm : responseMagic.length = 4 := rfl
  simp only [parse, bytes, bind_eq_ok, ensure_eq_ok, exists_const, exactSlice_eq_ok,
    readU8_eq_ok, readU16_eq_ok, readU32_eq_ok, ofOption_eq_ok, Status.tryFrom_eq_some, pure_eq,
    Outcome.ok.injEq, stands_append, List.length_append, List.length_singleton,
    length_u32Bytes, hm, Nat.reduceAdd, and_assoc]
  simp only [responseEnvelopeLen]
  constructor
  · rintro ⟨-, _, -, -, hm, rfl, _, -, hs, status, rfl, flags, -, hf, _, hrf, _, -, hr, rfl, id, -,
      hid, l, -, hl, rfl⟩
    exact ⟨hm, hid, hs, hf, hl, hr, hrf⟩
  · rintro ⟨hm, hid, hs, hf, hl, hr, hrf⟩
    have hlen := hr.le_length
    rw [length_u16Bytes] at hlen
    exact ⟨hlen, _, by decide, rfl, hm, rfl, _, by decide, hs, _, rfl, _, by decide, hf, (), hrf,
      _, by decide, hr, rfl, _, by decide, hid, _, by decide, hl, rfl⟩

theorem safe_parse : Safe (parse b) :=
  safe_ensure.bind fun _ _ => safe_exactSlice.bind fun _ _ => safe_ensure.bind fun _ _ =>
    safe_readU8.bind fun _ _ => safe_ofOption.bind fun _ _ => safe_readU8.bind fun _ _ =>
    safe_ensure.bind fun _ _ => safe_readU16.bind fun _ _ => safe_ensure.bind fun _ _ =>
    safe_readU32.bind fun _ _ => safe_readU32.bind fun _ _ => safe_ok _

theorem encodedLen_eq_ok {n : Nat} : e.encodedLen = ok n ↔ n = 16 + e.payloadLen.toNat := by
  have := e.payloadLen.toNat_lt
  simp only [encodedLen, checkedAdd_eq_ok, responseEnvelopeLen, usize_eq]
  omega

end ResponseEnvelope

namespace BinaryResponse

variable {b : List UInt8} {r : BinaryResponse}

theorem parse_eq_ok_iff : parse b = ok r ↔ r.encode = ok b := by
  simp only [parse, encode, ResponseEnvelope.encode, bind_eq_ok, ResponseEnvelope.parse_eq_ok,
    ResponseEnvelope.encodedLen_eq_ok, ensure_eq_ok, exists_const, pure_eq, Outcome.ok.injEq]
  constructor
  · rintro ⟨e, ⟨he, hf⟩, _, rfl, hlen, payload, hp, _, hval, rfl⟩
    rw [responseEnvelopeLen, slice_of_le (by omega) (le_refl _),
      List.take_of_length_le (by simp)] at hp
    obtain rfl := Outcome.ok.inj hp
    refine ⟨(), hval, _, rfl, _, ⟨(), hf, rfl⟩, Eq.symm ?_⟩
    refine stands_zero_and_length.mp ⟨stands_append.mpr ⟨he, ?_⟩, ?_⟩
    · have hs : Stands b 16 ((b.drop 16).take (b.length - 16)) := stands_take_drop (by omega)
      rwa [List.take_of_length_le (by simp)] at hs
    · simp
      omega
  · rintro ⟨_, hval, _, -, _, ⟨_, hf, rfl⟩, rfl⟩
    have hpay : r.envelope.payloadLen.toNat = r.payload.length := by
      simp only [validate, bind_eq_ok, ensure_eq_ok, exists_const] at hval
      exact hval.1
    refine ⟨r.envelope, ⟨(stands_append.mp stands_self).1, hf⟩, _, rfl, ?_, r.payload, ?_, (),
      hval, rfl⟩
    · simp [hpay]
    · rw [slice_of_le (by simp [responseEnvelopeLen]) (le_refl _),
        List.take_of_length_le (by simp)]
      simp [responseEnvelopeLen]

theorem safe_validate : Safe r.validate := by
  refine safe_ensure.bind fun _ _ => ?_
  unfold validateStatus
  split
  · exact safe_ensure.bind fun _ _ => safe_ofOption.bind fun _ _ => safe_ok _
  · unfold validateUnknown
    split
    · exact safe_ensure
    · split
      · exact safe_ofOption.bind fun _ _ => safe_ok _
      · exact safe_err _
  · refine safe_ensure.bind fun _ _ => ?_
    dsimp only
    split
    · exact safe_ensure
    · exact ModelBlock.safe_decode.bind fun _ _ => safe_ok _
    · exact OptimizationValueBlock.safe_decode.bind fun _ _ => safe_ok _
  · unfold validateUnsat
    split
    · exact safe_ensure
    · split
      · exact UnsatCoreBlock.safe_decode.bind fun _ _ => safe_ok _
      · exact safe_err _
  · exact safe_ensure.bind fun _ _ => SimplifyBlock.safe_decode.bind fun _ _ => safe_ok _

theorem safe_parse : Safe (parse b) := by
  refine ResponseEnvelope.safe_parse.bind fun e _ => safe_checkedAdd.bind fun n hn =>
    safe_ensure.bind fun _ hb => ?_
  obtain rfl := ResponseEnvelope.encodedLen_eq_ok.mp hn
  rw [slice_of_le (by rw [ensure_eq_ok.mp hb, responseEnvelopeLen]; omega) (le_refl _), ok_bind]
  exact safe_validate.bind fun _ _ => safe_ok _

end BinaryResponse

/-- **The response codecs round trip.** A frame parses to a response exactly when the response
encodes to the frame, the same holds of each block, a scalar behind a cursor is read exactly
where its encoding stands, and no decoder panics on any input. -/
theorem response_round_trip (b : List UInt8) :
    (∀ r, BinaryResponse.parse b = ok r ↔ r.encode = ok b) ∧
    (∀ off v off', ScalarValue.decode b off = ok (v, off') ↔
      ∃ s, v.encode = ok s ∧ Stands b off s ∧ off' = off + s.length ∧ off' < 2 ^ usizeBits) ∧
    (∀ v, ScalarValue.decode b 0 = ok (v, b.length) ↔ v.encode = ok b) ∧
    (∀ m, ModelBlock.decode b = ok m ↔ m.encode = ok b) ∧
    (∀ c, UnsatCoreBlock.decode b = ok c ↔ c.encode = ok b) ∧
    (∀ s, SimplifyBlock.decode b = ok s ↔ s.encode = ok b) ∧
    (∀ hasModel o, OptimizationValueBlock.decode b hasModel = ok o ↔
      o.encode = ok b ∧ o.model.isSome = hasModel) ∧
    Safe (BinaryResponse.parse b) ∧ (∀ off, Safe (ScalarValue.decode b off)) ∧
    Safe (ModelBlock.decode b) ∧ Safe (UnsatCoreBlock.decode b) ∧ Safe (SimplifyBlock.decode b) ∧
    (∀ hasModel, Safe (OptimizationValueBlock.decode b hasModel)) :=
  ⟨fun _ => BinaryResponse.parse_eq_ok_iff, fun _ _ _ => ScalarValue.inverts _ _ _ _,
    fun _ => ScalarValue.decode_eq_ok_iff, fun _ => ModelBlock.decode_eq_ok_iff,
    fun _ => UnsatCoreBlock.decode_eq_ok_iff,
    fun _ => SimplifyBlock.decode_eq_ok_iff, fun _ _ => OptimizationValueBlock.decode_eq_ok_iff,
    BinaryResponse.safe_parse, fun _ => ScalarValue.safe_decode, ModelBlock.safe_decode,
    UnsatCoreBlock.safe_decode, SimplifyBlock.safe_decode,
    fun _ => OptimizationValueBlock.safe_decode⟩

end Wire
end SmtServer
