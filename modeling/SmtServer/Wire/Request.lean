import SmtServer.Lib.Cursor
import SmtServer.Wire.Validate

/-!
# `request.rs` — request frames

A frame is a 32-byte envelope, the expression buffer and three arrays whose lengths stand in
the envelope. The flag and target rules are checked in different functions on the two
directions, so the round trip is not a consequence of the layout alone: what `parse` checks in
the envelope, `encode` has to have checked in `validate`.

The main result is `request_round_trip`: a frame parses to a request exactly when the request
encodes to the frame.
-/

namespace SmtServer
namespace Wire

open Lib Outcome

structure RequestEnvelope where
  requestId : UInt32
  command : Command
  flags : UInt8
  budgetMs : UInt32
  exprLen : UInt32
  assertionCount : UInt16
  namedCount : UInt16
  assumptionCount : UInt16
  targetNode : UInt32
  deriving Repr, DecidableEq

def validateRequestFlags (flags : UInt8) : Result Unit :=
  let unknown := flags &&& ~~~RequestFlags.all
  ensure (unknown = 0)
    (.invalid "request flags" s!"unknown flag bits {hex 2 unknown.toNat}")

def validateCommandFlags (command : Command) (flags : UInt8) : Result Unit :=
  match command with
  | .solve => ensure (flags &&& RequestFlags.signed = 0)
      (.invalid "request flags" "SIGNED is only valid for optimization commands")
  | .simplify => ensure (flags = 0)
      (.invalid "request flags" "SIMPLIFY does not accept request flags")
  | .minimize | .maximize => ensure (flags &&& RequestFlags.wantCore = 0)
      (.invalid "request flags" "WANT_CORE is not valid for optimization commands")

def requestLen (exprLen assertionCount namedCount assumptionCount : Nat) : Result Nat := do
  let total ← checkedAdd requestEnvelopeLen exprLen "request length"
  let total ← checkedAdd total (← checkedMul assertionCount 4 "request assertion roots length")
    "request length"
  let total ← checkedAdd total (← checkedMul namedCount 8 "request named refs length")
    "request length"
  checkedAdd total (← checkedMul assumptionCount 4 "request assumption roots length")
    "request length"

namespace RequestEnvelope

def bytes (e : RequestEnvelope) : List UInt8 :=
  requestMagic ++ u32Bytes e.requestId ++ [e.command.toByte] ++ [e.flags] ++
    u32Bytes e.budgetMs ++ u32Bytes e.exprLen ++ u16Bytes e.assertionCount ++
    u16Bytes e.namedCount ++ u16Bytes e.assumptionCount ++ u32Bytes e.targetNode ++ u32Bytes 0

def encode (e : RequestEnvelope) : Result (List UInt8) := do
  validateRequestFlags e.flags
  pure e.bytes

def parse (bytes : List UInt8) : Result RequestEnvelope := do
  ensure (requestEnvelopeLen ≤ bytes.length)
    (.unexpectedEof "request envelope" requestEnvelopeLen bytes.length)
  let magic ← exactSlice bytes 0 4 "request magic"
  ensure (magic = requestMagic) (.badMagic "request envelope" requestMagic magic)
  let commandRaw ← readU8 bytes 8 "request command"
  let command ← ofOption (Command.tryFrom commandRaw)
    (.invalid "request command" s!"unknown command {commandRaw}")
  let flags ← readU8 bytes 9 "request flags"
  validateRequestFlags flags
  validateCommandFlags command flags
  let reserved ← readU32 bytes 28 "request reserved"
  ensure (reserved = 0) (.invalid "request reserved" s!"expected 0, got {reserved}")
  let requestId ← readU32 bytes 4 "request id"
  let budgetMs ← readU32 bytes 10 "request budget"
  let exprLen ← readU32 bytes 14 "request expr_len"
  let assertionCount ← readU16 bytes 18 "request assertion_count"
  let namedCount ← readU16 bytes 20 "request named_count"
  let assumptionCount ← readU16 bytes 22 "request assumption_count"
  let targetNode ← readU32 bytes 24 "request target_node"
  pure ⟨requestId, command, flags, budgetMs, exprLen, assertionCount, namedCount,
    assumptionCount, targetNode⟩

def encodedLen (e : RequestEnvelope) : Result Nat :=
  requestLen e.exprLen.toNat e.assertionCount.toNat e.namedCount.toNat e.assumptionCount.toNat

end RequestEnvelope

structure BinaryRequest where
  envelope : RequestEnvelope
  expression : List UInt8
  assertionRoots : List NodeRef
  namedAssertionRefs : List BlobRef
  assumptionRoots : List NodeRef
  deriving DecidableEq

/-- One round of a loop that reads node references. -/
def readRef (bytes : List UInt8) (context : String) (offset : Nat) : Result (NodeRef × Nat) := do
  let raw ← readU32 bytes offset context
  let offset ← addU usizeBits offset 4
  pure (⟨raw⟩, offset)

/-- One round of the loop that reads assertion names. -/
def readName (bytes : List UInt8) (offset : Nat) : Result (BlobRef × Nat) := do
  let blobOffset ← readU32 bytes offset "named assertion offset"
  let blobLen ← readU32 bytes (← addU usizeBits offset 4) "named assertion length"
  let offset ← addU usizeBits offset 8
  pure (⟨blobOffset, blobLen⟩, offset)

namespace BinaryRequest

/-- Names are pairwise different when a core is wanted. -/
def validateNames (expr : ExprView) : List BlobRef → List String → Result Unit
  | [], _ => pure ()
  | r :: rest, seen => do
    let name ← expr.blobStr r "named assertion"
    ensure (name ∉ seen)
      (.invalid "named assertions" s!"duplicate assertion name {debugStr name}")
    validateNames expr rest (name :: seen)

def validateCoreNames (r : BinaryRequest) (expr : ExprView) : Result Unit :=
  if r.envelope.flags &&& RequestFlags.wantCore ≠ 0 then
    validateNames expr r.namedAssertionRefs []
  else pure ()

def validateTarget (r : BinaryRequest) (expr : ExprView) : Result Unit :=
  match r.envelope.command with
  | .simplify => do
    ensure (r.assertionRoots = [] ∧ r.namedAssertionRefs = [] ∧ r.assumptionRoots = [])
      (.invalid "simplify request"
        "SIMPLIFY accepts a single target expression, not assertions or assumptions")
    let target : NodeRef := ⟨r.envelope.targetNode⟩
    let _ ← validateNodeRef expr target target.sort "target_node"
    pure ()
  | .minimize | .maximize => do
    let _ ← validateNodeRef expr ⟨r.envelope.targetNode⟩ .bv "target_node"
    pure ()
  | .solve =>
    ensure (r.envelope.targetNode = 0)
      (.invalid "request target_node"
        "target_node is only valid for SIMPLIFY/MINIMIZE/MAXIMIZE commands")

def validate (r : BinaryRequest) : Result Unit := do
  let e := r.envelope
  ensure (e.exprLen.toNat = r.expression.length)
    (.lengthMismatch "request expression length" e.exprLen.toNat r.expression.length)
  ensure (e.assertionCount.toNat = r.assertionRoots.length)
    (.lengthMismatch "request assertion_count" e.assertionCount.toNat r.assertionRoots.length)
  ensure (e.namedCount.toNat = r.namedAssertionRefs.length)
    (.lengthMismatch "request named_count" e.namedCount.toNat r.namedAssertionRefs.length)
  ensure (e.assumptionCount.toNat = r.assumptionRoots.length)
    (.lengthMismatch "request assumption_count" e.assumptionCount.toNat r.assumptionRoots.length)
  ensure (r.namedAssertionRefs.length ≤ r.assertionRoots.length)
    (.invalid "request named assertions" "named_count exceeds assertion_count")
  let expr ← ExprView.parseAndValidate r.expression
  forM r.assertionRoots fun root => do
    let _ ← validateNodeRef expr root .bool "assertion root"
    pure ()
  forM r.assumptionRoots fun root => do
    let _ ← validateNodeRef expr root .bool "assumption root"
    pure ()
  forM r.namedAssertionRefs fun name => do
    let _ ← expr.blobStr name "named assertion"
    pure ()
  r.validateCoreNames expr
  validateCommandFlags e.command e.flags
  r.validateTarget expr

/-- Everything behind the envelope. -/
def body (r : BinaryRequest) : List UInt8 :=
  r.expression ++ r.assertionRoots.flatMap NodeRef.bytes ++
    r.namedAssertionRefs.flatMap BlobRef.bytes ++
    r.assumptionRoots.flatMap NodeRef.bytes

def encode (r : BinaryRequest) : Result (List UInt8) := do
  r.validate
  let _ ← r.envelope.encodedLen
  let head ← r.envelope.encode
  pure (head ++ r.body)

def parse (framePayload : List UInt8) : Result BinaryRequest := do
  let envelope ← RequestEnvelope.parse framePayload
  ensure (envelope.namedCount ≤ envelope.assertionCount)
    (.invalid "request named_count"
      s!"{envelope.namedCount} exceeds assertion_count {envelope.assertionCount}")
  let expectedLen ← envelope.encodedLen
  ensure (framePayload.length = expectedLen)
    (.lengthMismatch "request frame payload" expectedLen framePayload.length)
  let exprEnd ← addU usizeBits requestEnvelopeLen envelope.exprLen.toNat
  let expression ← slice framePayload requestEnvelopeLen exprEnd
  let (assertionRoots, offset) ← Cursor.many (readRef framePayload "assertion root")
    envelope.assertionCount.toNat exprEnd
  let (namedAssertionRefs, offset) ← Cursor.many (readName framePayload)
    envelope.namedCount.toNat offset
  let (assumptionRoots, _) ← Cursor.many (readRef framePayload "assumption root")
    envelope.assumptionCount.toNat offset
  let request : BinaryRequest :=
    ⟨envelope, expression, assertionRoots, namedAssertionRefs, assumptionRoots⟩
  request.validate
  pure request

def expressionView (r : BinaryRequest) : Result ExprView := ExprView.parseAndValidate r.expression

def targetRef (r : BinaryRequest) : Option NodeRef :=
  match r.envelope.command with
  | .simplify | .minimize | .maximize => some ⟨r.envelope.targetNode⟩
  | .solve => none

end BinaryRequest

def isBinaryRequestPayload (payload : List UInt8) : Bool :=
  decide (4 ≤ payload.length ∧ payload.take 4 = requestMagic)

/-! ## The envelope -/

namespace RequestEnvelope

variable {b : List UInt8} {e : RequestEnvelope}

@[simp] theorem length_bytes (e : RequestEnvelope) : e.bytes.length = 32 := by
  simp [bytes, requestMagic]

theorem stands_bytes : Stands b 0 e.bytes ↔
    Stands b 0 requestMagic ∧ Stands b 4 (u32Bytes e.requestId) ∧
    Stands b 8 [e.command.toByte] ∧ Stands b 9 [e.flags] ∧ Stands b 10 (u32Bytes e.budgetMs) ∧
    Stands b 14 (u32Bytes e.exprLen) ∧ Stands b 18 (u16Bytes e.assertionCount) ∧
    Stands b 20 (u16Bytes e.namedCount) ∧ Stands b 22 (u16Bytes e.assumptionCount) ∧
    Stands b 24 (u32Bytes e.targetNode) ∧ Stands b 28 (u32Bytes 0) := by
  have hm : requestMagic.length = 4 := rfl
  simp only [bytes, stands_append, List.length_append, List.length_singleton, length_u16Bytes,
    length_u32Bytes, hm, and_assoc, Nat.reduceAdd]

/-- The envelope parser reads each field where the encoder puts it. -/
theorem parse_eq_ok : parse b = ok e ↔ Stands b 0 e.bytes ∧
    validateRequestFlags e.flags = ok () ∧ validateCommandFlags e.command e.flags = ok () := by
  simp only [parse, bind_eq_ok, ensure_eq_ok, exists_const, exactSlice_eq_ok, readU8_eq_ok,
    readU16_eq_ok, readU32_eq_ok, ofOption_eq_ok, Command.tryFrom_eq_some, pure_eq,
    Outcome.ok.injEq, stands_bytes]
  simp only [usize_eq, requestEnvelopeLen]
  constructor
  · rintro ⟨hlen, _, ⟨-, -, hm⟩, rfl, _, ⟨-, hc⟩, command, rfl, flags, ⟨-, hf⟩, _, hrf, _, hcf, _,
      ⟨-, hr⟩, rfl, id, ⟨-, hid⟩, budget, ⟨-, hbu⟩, el, ⟨-, hel⟩, ac, ⟨-, hac⟩, nc, ⟨-, hnc⟩,
      sc, ⟨-, hsc⟩, tn, ⟨-, htn⟩, rfl⟩
    exact ⟨⟨hm, hid, hc, hf, hbu, hel, hac, hnc, hsc, htn, hr⟩, hrf, hcf⟩
  · rintro ⟨⟨hm, hid, hc, hf, hbu, hel, hac, hnc, hsc, htn, hr⟩, hrf, hcf⟩
    have hlen := hr.le_length
    rw [length_u32Bytes] at hlen
    exact ⟨hlen, _, ⟨by omega, rfl, hm⟩, rfl, _, ⟨by omega, hc⟩, _, rfl, _, ⟨by omega, hf⟩, (),
      hrf, (), hcf, _, ⟨by omega, hr⟩, rfl, _, ⟨by omega, hid⟩, _, ⟨by omega, hbu⟩, _,
      ⟨by omega, hel⟩, _, ⟨by omega, hac⟩, _, ⟨by omega, hnc⟩, _, ⟨by omega, hsc⟩, _,
      ⟨by omega, htn⟩, rfl⟩

theorem safe_parse : Safe (parse b) := by
  refine safe_ensure.bind fun _ _ => safe_exactSlice.bind fun _ _ => safe_ensure.bind fun _ _ =>
    safe_readU8.bind fun _ _ => safe_ofOption.bind fun command _ => safe_readU8.bind fun _ _ =>
    safe_ensure.bind fun _ _ => Safe.bind ?_ fun _ _ => safe_readU32.bind fun _ _ =>
    safe_ensure.bind fun _ _ => safe_readU32.bind fun _ _ => safe_readU32.bind fun _ _ =>
    safe_readU32.bind fun _ _ => safe_readU16.bind fun _ _ => safe_readU16.bind fun _ _ =>
    safe_readU16.bind fun _ _ => safe_readU32.bind fun _ _ => safe_ok _
  cases command <;> exact safe_ensure

theorem lengths_lt (e : RequestEnvelope) : e.exprLen.toNat < 2 ^ 32 ∧
    e.assertionCount.toNat < 2 ^ 16 ∧ e.namedCount.toNat < 2 ^ 16 ∧
    e.assumptionCount.toNat < 2 ^ 16 :=
  ⟨e.exprLen.toNat_lt, e.assertionCount.toNat_lt, e.namedCount.toNat_lt,
    e.assumptionCount.toNat_lt⟩

/-- The length an envelope announces fits a machine word. -/
theorem encodedLen_eq_ok {n : Nat} : e.encodedLen = ok n ↔
    n = 32 + e.exprLen.toNat + 4 * e.assertionCount.toNat + 8 * e.namedCount.toNat +
      4 * e.assumptionCount.toNat := by
  obtain ⟨h1, h2, h3, h4⟩ := e.lengths_lt
  simp only [encodedLen, requestLen, bind_eq_ok, checkedAdd_eq_ok, checkedMul_eq_ok,
    requestEnvelopeLen, usize_eq]
  constructor
  · rintro ⟨_, ⟨-, rfl⟩, _, ⟨-, rfl⟩, _, ⟨-, rfl⟩, _, ⟨-, rfl⟩, _, ⟨-, rfl⟩, _, ⟨-, rfl⟩, -, rfl⟩
    ring
  · rintro rfl
    exact ⟨_, ⟨by omega, rfl⟩, _, ⟨by omega, rfl⟩, _, ⟨by omega, rfl⟩, _, ⟨by omega, rfl⟩, _,
      ⟨by omega, rfl⟩, _, ⟨by omega, rfl⟩, by omega, by omega⟩

end RequestEnvelope

/-! ## The arrays -/

theorem inverts_readRef (ctx : String) : Cursor.Inverts (2 ^ usizeBits)
    (fun r : NodeRef => ok r.bytes) (fun b => readRef b ctx) := by
  intro b off r off'
  simp only [readRef, bind_eq_ok, readU32_eq_ok, addU_eq_ok, pure_eq, Outcome.ok.injEq,
    Prod.mk.injEq, exists_eq_left', NodeRef.length_bytes]
  constructor
  · rintro ⟨raw, ⟨hlt, hs⟩, _, ⟨-, rfl⟩, rfl, rfl⟩
    exact ⟨hs, rfl, hlt⟩
  · rintro ⟨hs, rfl, hlt⟩
    exact ⟨_, ⟨hlt, hs⟩, _, ⟨hlt, rfl⟩, rfl, rfl⟩

theorem inverts_readName : Cursor.Inverts (2 ^ usizeBits)
    (fun r : BlobRef => ok r.bytes) readName := by
  intro b off r off'
  simp only [readName, bind_eq_ok, readU32_eq_ok, addU_eq_ok, pure_eq, Outcome.ok.injEq,
    Prod.mk.injEq, exists_eq_left', BlobRef.length_bytes]
  simp only [BlobRef.bytes, stands_append, length_u32Bytes]
  constructor
  · rintro ⟨o, ⟨-, ho⟩, _, ⟨-, rfl⟩, l, ⟨-, hl⟩, _, ⟨hlt, rfl⟩, rfl, rfl⟩
    exact ⟨⟨ho, hl⟩, rfl, hlt⟩
  · rintro ⟨⟨ho, hl⟩, rfl, hlt⟩
    exact ⟨_, ⟨by omega, ho⟩, _, ⟨by omega, rfl⟩, _, ⟨by omega, hl⟩, _, ⟨hlt, rfl⟩, rfl, rfl⟩

theorem safe_readRef {b : List UInt8} {ctx : String} {off : Nat} : Safe (readRef b ctx off) := by
  refine safe_readU32.bind fun _ h => ?_
  rw [addU_of_lt (readU32_eq_ok.mp h).1, ok_bind]
  exact safe_ok _

theorem safe_readName {b : List UInt8} {off : Nat} : Safe (readName b off) := by
  refine safe_readU32.bind fun _ h => ?_
  rw [addU_of_lt (readU32_eq_ok.mp h).1, ok_bind]
  refine safe_readU32.bind fun _ h => ?_
  have hlt := (readU32_eq_ok.mp h).1
  rw [addU_of_lt (by omega), ok_bind]
  exact safe_ok _

/-! ## Requests -/

namespace BinaryRequest

variable {b : List UInt8} {r : BinaryRequest}

/-- What `validate` says about the envelope of a request. -/
theorem envelope_of_validate (h : r.validate = ok ()) :
    r.envelope.exprLen.toNat = r.expression.length ∧
    r.envelope.assertionCount.toNat = r.assertionRoots.length ∧
    r.envelope.namedCount.toNat = r.namedAssertionRefs.length ∧
    r.envelope.assumptionCount.toNat = r.assumptionRoots.length ∧
    r.namedAssertionRefs.length ≤ r.assertionRoots.length ∧
    validateCommandFlags r.envelope.command r.envelope.flags = ok () := by
  simp only [validate, bind_eq_ok, ensure_eq_ok, exists_const] at h
  obtain ⟨h1, h2, h3, h4, h5, _, -, _, -, _, -, _, -, _, -, _, hf, -⟩ := h
  exact ⟨h1, h2, h3, h4, h5, hf⟩

theorem encode_eq_ok : r.encode = ok b ↔ r.validate = ok () ∧
    validateRequestFlags r.envelope.flags = ok () ∧ b = r.envelope.bytes ++ r.body := by
  simp only [encode, RequestEnvelope.encode, bind_eq_ok, RequestEnvelope.encodedLen_eq_ok,
    pure_eq, Outcome.ok.injEq]
  constructor
  · rintro ⟨_, hv, _, -, _, ⟨_, hf, rfl⟩, rfl⟩
    exact ⟨hv, hf, rfl⟩
  · rintro ⟨hv, hf, rfl⟩
    exact ⟨(), hv, _, rfl, _, ⟨(), hf, rfl⟩, rfl⟩

theorem length_body (r : BinaryRequest) : r.body.length =
    r.expression.length + 4 * r.assertionRoots.length + 8 * r.namedAssertionRefs.length +
      4 * r.assumptionRoots.length := by
  simp only [body, List.length_append, NodeRef.length_flatMap_bytes, BlobRef.length_flatMap_bytes]

theorem stands_body {off : Nat} : Stands b off r.body ↔
    Stands b off r.expression ∧
    Stands b (off + r.expression.length) (r.assertionRoots.flatMap NodeRef.bytes) ∧
    Stands b (off + r.expression.length + 4 * r.assertionRoots.length)
      (r.namedAssertionRefs.flatMap BlobRef.bytes) ∧
    Stands b (off + r.expression.length + 4 * r.assertionRoots.length +
      8 * r.namedAssertionRefs.length) (r.assumptionRoots.flatMap NodeRef.bytes) := by
  simp only [body, stands_append, List.length_append, NodeRef.length_flatMap_bytes,
    BlobRef.length_flatMap_bytes, and_assoc, Nat.add_assoc]

/-- The three loops of `parse` read the three arrays of a body, and only those. -/
theorem many_arrays_iff {ctx₁ ctx₂ : String} {na nn ns off : Nat} {roots : List NodeRef}
    {names : List BlobRef} {assumed : List NodeRef} (hoff : off ≤ b.length)
    (hb : off + 4 * na + 8 * nn + 4 * ns < 2 ^ usizeBits) :
    (∃ o₁, Cursor.many (readRef b ctx₁) na off = ok (roots, o₁) ∧
      ∃ o₂, Cursor.many (readName b) nn o₁ = ok (names, o₂) ∧
        ∃ o₃, Cursor.many (readRef b ctx₂) ns o₂ = ok (assumed, o₃)) ↔
    (roots.length = na ∧ names.length = nn ∧ assumed.length = ns) ∧
      Stands b off (roots.flatMap NodeRef.bytes) ∧
      Stands b (off + 4 * na) (names.flatMap BlobRef.bytes) ∧
      Stands b (off + 4 * na + 8 * nn) (assumed.flatMap NodeRef.bytes) := by
  constructor
  · rintro ⟨o₁, h₁, o₂, h₂, o₃, h₃⟩
    obtain ⟨rfl, _, e₁, s₁, rfl, lt₁⟩ :=
      ((inverts_readRef ctx₁).many hoff (by omega)).mp h₁
    rw [Cursor.encodeAll_ok, Outcome.ok.injEq] at e₁
    subst e₁
    obtain ⟨rfl, _, e₂, s₂, rfl, lt₂⟩ := (inverts_readName.many s₁.le_length lt₁).mp h₂
    rw [Cursor.encodeAll_ok, Outcome.ok.injEq] at e₂
    subst e₂
    obtain ⟨rfl, _, e₃, s₃, rfl, -⟩ := ((inverts_readRef ctx₂).many s₂.le_length lt₂).mp h₃
    rw [Cursor.encodeAll_ok, Outcome.ok.injEq] at e₃
    subst e₃
    rw [NodeRef.length_flatMap_bytes] at s₂ s₃
    rw [BlobRef.length_flatMap_bytes] at s₃
    exact ⟨⟨rfl, rfl, rfl⟩, s₁, s₂, s₃⟩
  · rintro ⟨⟨rfl, rfl, rfl⟩, s₁, s₂, s₃⟩
    have l₁ := NodeRef.length_flatMap_bytes roots
    have l₂ := BlobRef.length_flatMap_bytes names
    have l₃ := NodeRef.length_flatMap_bytes assumed
    refine ⟨_, ((inverts_readRef ctx₁).many hoff (by omega)).mpr
        ⟨rfl, _, Cursor.encodeAll_ok _ _, s₁, rfl, by omega⟩,
      _, (inverts_readName.many s₁.le_length (by omega)).mpr
        ⟨rfl, _, Cursor.encodeAll_ok _ _, l₁ ▸ s₂, rfl, by omega⟩,
      _, ((inverts_readRef ctx₂).many (by rw [l₁]; exact s₂.le_length) (by omega)).mpr
        ⟨rfl, _, Cursor.encodeAll_ok _ _, ?_, rfl, by omega⟩⟩
    rw [l₁, l₂]
    exact s₃

/-- A frame parses to a request exactly when the request encodes to the frame. -/
theorem parse_eq_ok_iff : parse b = ok r ↔ r.encode = ok b := by
  rw [encode_eq_ok]
  simp only [parse, bind_eq_ok, RequestEnvelope.parse_eq_ok, ensure_eq_ok, exists_const,
    RequestEnvelope.encodedLen_eq_ok, addU_eq_ok, pure_eq, Outcome.ok.injEq, Prod.exists]
  constructor
  · rintro ⟨e, ⟨he, hf, -⟩, -, _, rfl, hlen, _, ⟨-, rfl⟩, expr, hexpr, roots, o₁, h₁, names, o₂,
      h₂, assumed, o₃, h₃, _, hval, rfl⟩
    obtain ⟨l1, l2, l3, l4⟩ := e.lengths_lt
    rw [slice_of_le (by omega) (by simp only [requestEnvelopeLen]; omega)] at hexpr
    obtain rfl := Outcome.ok.inj hexpr
    simp only [requestEnvelopeLen, Nat.add_sub_cancel_left] at h₁ hval ⊢
    obtain ⟨⟨hr, hn, ha⟩, s₁, s₂, s₃⟩ :=
      (many_arrays_iff (by omega) (by rw [usize_eq]; omega)).mp ⟨o₁, h₁, o₂, h₂, o₃, h₃⟩
    have hexprLen : ((b.drop 32).take e.exprLen.toNat).length = e.exprLen.toNat := by
      simp
      omega
    refine ⟨hval, hf, stands_zero_and_length.mp ⟨?_, ?_⟩⟩
    · rw [stands_append, RequestEnvelope.length_bytes, stands_body]
      simp only [hexprLen, hr, hn]
      exact ⟨he, stands_take_drop (by omega), s₁, s₂, s₃⟩
    · rw [List.length_append, RequestEnvelope.length_bytes, length_body]
      simp only [hexprLen, hr, hn, ha]
      omega
  · rintro ⟨hval, hf, rfl⟩
    obtain ⟨h1, h2, h3, h4, h5, hcf⟩ := envelope_of_validate hval
    obtain ⟨l1, l2, l3, l4⟩ := r.envelope.lengths_lt
    have hs := stands_self (s := r.envelope.bytes ++ r.body)
    rw [stands_append, RequestEnvelope.length_bytes, stands_body] at hs
    obtain ⟨he, hx, s₁, s₂, s₃⟩ := hs
    have hlen := length_body r
    rw [← h1] at s₁ s₂ s₃
    rw [← h2] at s₂ s₃
    rw [← h3] at s₃
    obtain ⟨o₁, m₁, o₂, m₂, o₃, m₃⟩ := (@many_arrays_iff (r.envelope.bytes ++ r.body)
      "assertion root" "assumption root" _ _ _ _ _ _ _ (hx.le_length.trans_eq' (by rw [h1]))
      (by rw [usize_eq]; omega)).mpr ⟨⟨h2.symm, h3.symm, h4.symm⟩, s₁, s₂, s₃⟩
    refine ⟨r.envelope, ⟨he, hf, hcf⟩, ?_, _, rfl, ?_, _,
      ⟨by simp only [requestEnvelopeLen, usize_eq]; omega, rfl⟩, r.expression, ?_,
      r.assertionRoots, o₁, m₁, r.namedAssertionRefs, o₂, m₂, r.assumptionRoots, o₃, m₃, (), hval,
      rfl⟩
    · rw [UInt16.le_iff_toNat_le, h2, h3]
      exact h5
    · rw [List.length_append, RequestEnvelope.length_bytes]
      omega
    · rw [slice_of_le (by omega) (by
        rw [List.length_append, RequestEnvelope.length_bytes, requestEnvelopeLen]
        omega)]
      simp only [requestEnvelopeLen, Nat.add_sub_cancel_left, h1]
      rw [hx.2]

theorem isBinaryRequestPayload_of_parse (h : parse b = ok r) : isBinaryRequestPayload b = true := by
  obtain ⟨-, -, rfl⟩ := encode_eq_ok.mp (parse_eq_ok_iff.mp h)
  simp [isBinaryRequestPayload, RequestEnvelope.bytes, requestMagic]

/-! ## No frame makes `parse` read outside it -/

theorem safe_validateNodeRef {v : ExprView} {x : NodeRef} {σ : WireSort} {ctx : String} :
    Safe (validateNodeRef v x σ ctx) :=
  safe_ensure.bind fun _ _ => safe_ensure.bind fun _ _ => ExprView.safe_node.bind fun _ _ =>
    safe_ofOption.bind fun _ _ => safe_ensure.bind fun _ _ => safe_ok _

theorem safe_validateNames {v : ExprView} {p : Parts} (hv : IsViewOf v p) {rs : List BlobRef}
    {seen : List String} : Safe (validateNames v rs seen) := by
  induction rs generalizing seen with
  | nil => exact safe_ok _
  | cons x rs ih => exact hv.safe_blobStr.bind fun _ _ => safe_ensure.bind fun _ _ => ih

theorem safe_validate : Safe r.validate := by
  refine safe_ensure.bind fun _ _ => safe_ensure.bind fun _ _ => safe_ensure.bind fun _ _ =>
    safe_ensure.bind fun _ _ => safe_ensure.bind fun _ _ =>
    (safe_parseAndValidate _).bind fun v hv => ?_
  obtain ⟨hw, rfl⟩ := parseAndValidate_eq_ok.mp hv
  have hview := isViewOf_viewOf hw.header
  refine Safe.bind (safe_forM fun _ _ => safe_validateNodeRef.bind fun _ _ => safe_ok _)
    fun _ _ => Safe.bind (safe_forM fun _ _ => safe_validateNodeRef.bind fun _ _ => safe_ok _)
    fun _ _ => Safe.bind (safe_forM fun _ _ => hview.safe_blobStr.bind fun _ _ => safe_ok _)
    fun _ _ => Safe.bind ?_ fun _ _ => Safe.bind ?_ fun _ _ => ?_
  · unfold validateCoreNames
    split
    · exact safe_validateNames hview
    · exact safe_ok _
  · cases r.envelope.command <;> exact safe_ensure
  · unfold validateTarget
    split
    · exact safe_ensure.bind fun _ _ => safe_validateNodeRef.bind fun _ _ => safe_ok _
    · exact safe_validateNodeRef.bind fun _ _ => safe_ok _
    · exact safe_validateNodeRef.bind fun _ _ => safe_ok _
    · exact safe_ensure

theorem safe_encodedLen {e : RequestEnvelope} : Safe e.encodedLen := by
  rw [RequestEnvelope.encodedLen_eq_ok.mpr rfl]
  exact safe_ok _

theorem safe_parse (b : List UInt8) : Safe (parse b) := by
  refine RequestEnvelope.safe_parse.bind fun e _ => safe_ensure.bind fun _ _ =>
    safe_encodedLen.bind fun n hn => safe_ensure.bind fun _ hb => ?_
  obtain rfl := RequestEnvelope.encodedLen_eq_ok.mp hn
  have hlen := ensure_eq_ok.mp hb
  have h1 := e.exprLen.toNat_lt
  rw [addU_of_lt (by simp only [requestEnvelopeLen, usize_eq]; omega), ok_bind,
    slice_of_le (by omega) (by simp only [requestEnvelopeLen]; omega), ok_bind]
  exact (Cursor.safe_many fun _ => safe_readRef).bind fun _ _ =>
    (Cursor.safe_many fun _ => safe_readName).bind fun _ _ =>
    (Cursor.safe_many fun _ => safe_readRef).bind fun _ _ => safe_validate.bind fun _ _ => safe_ok _

/-- **The request codec round trips**: a frame parses to a request exactly when the request
encodes to the frame, and no byte string makes the parser read outside it. -/
theorem request_round_trip (b : List UInt8) (r : BinaryRequest) :
    (parse b = ok r ↔ r.encode = ok b) ∧ Safe (parse b) :=
  ⟨parse_eq_ok_iff, safe_parse b⟩

end BinaryRequest
end Wire
end SmtServer
