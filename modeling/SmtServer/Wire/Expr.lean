import SmtServer.Wire.Constants

/-!
# `expr.rs` — expression buffers and their validation

An expression buffer is a header, an array of 24-byte node records, an array of child
references and a blob of names and wide constants. `ExprView::parse` checks the header and
the total length, `ExprView::validate` makes two passes over the nodes: the first reads tags,
arities, widths and names and collects what it learns in `meta`, the second looks the children
of each node up in that table.

Loops over `0..count` are folds over `List.range`, and `symbols`, a hash map that is only
inserted into and asked for what it held, is an association list with the newest entry first.
Indices of nodes and children are natural numbers; the `u32` sums that can overflow are
checked where the source checks them.
-/

namespace SmtServer
namespace Wire

open Lib Outcome

/-! ## Message formatting -/

/-- `{:#0Nx}` with `digits` digits. -/
def hex (digits n : Nat) : String :=
  let ds := Nat.toDigits 16 n
  "0x" ++ String.ofList (List.replicate (digits - ds.length) '0' ++ ds)

/-- `{:?}` of a string, for the characters that print as themselves or have a short escape. -/
def debugStr (s : String) : String :=
  let escape (c : Char) : List Char :=
    match c with
    | '"' => ['\\', '"']
    | '\\' => ['\\', '\\']
    | '\n' => ['\\', 'n']
    | '\r' => ['\\', 'r']
    | '\t' => ['\\', 't']
    | '\x00' => ['\\', '0']
    | c => [c]
  "\"" ++ String.ofList (s.toList.flatMap escape) ++ "\""

/-! ## Headers and node records -/

/-- `MAX_BV_WIDTH`. -/
def maxBvWidth : Nat := 65536
/-- `MAX_NODE_COUNT`. -/
def maxNodeCount : Nat := 2 ^ 31

structure ExprHeader where
  nodeCount : UInt32
  childCount : UInt32
  blobLen : UInt32
  deriving Repr, DecidableEq

def expressionLen (nodeCount childCount blobLen : Nat) : Result Nat := do
  let nodeBytes ← checkedMul nodeCount nodeRecordLen "expression node array length"
  let afterNodes ← checkedAdd exprHeaderLen nodeBytes "expression length"
  let childBytes ← checkedMul childCount 4 "expression child array length"
  let afterChildren ← checkedAdd afterNodes childBytes "expression length"
  checkedAdd afterChildren blobLen "expression length"

def ExprHeader.totalLen (h : ExprHeader) : Result Nat :=
  expressionLen h.nodeCount.toNat h.childCount.toNat h.blobLen.toNat

structure RawNode where
  tag : UInt8
  arity : UInt8
  auxHi : UInt16
  width : UInt32
  auxLo : UInt32
  children : UInt32
  payload : UInt64
  deriving Repr, DecidableEq

namespace RawNode

def decode (bytes : List UInt8) (offset : Nat) : Result RawNode := do
  let tag ← readU8 bytes offset "node tag"
  let arity ← readU8 bytes (← addU usizeBits offset 1) "node arity"
  let auxHi ← readU16 bytes (← addU usizeBits offset 2) "node aux_hi"
  let width ← readU32 bytes (← addU usizeBits offset 4) "node width"
  let auxLo ← readU32 bytes (← addU usizeBits offset 8) "node aux_lo"
  let children ← readU32 bytes (← addU usizeBits offset 12) "node children"
  let payload ← readU64 bytes (← addU usizeBits offset 16) "node payload"
  pure ⟨tag, arity, auxHi, width, auxLo, children, payload⟩

def encode (n : RawNode) : List UInt8 :=
  [n.tag] ++ [n.arity] ++ u16Bytes n.auxHi ++ u32Bytes n.width ++ u32Bytes n.auxLo ++
    u32Bytes n.children ++ u64Bytes n.payload

def blobRef (n : RawNode) : BlobRef := BlobRef.fromPayload n.payload

end RawNode

/-! ## Building a buffer -/

/-- What an expression buffer holds. -/
structure Parts where
  nodes : List RawNode
  children : List NodeRef
  blob : List UInt8
  deriving DecidableEq

/-- The bytes `from_parts` writes, with the given reserved bytes in the two gaps of the
header. -/
def Parts.encode (reserved₁ reserved₂ : List UInt8) (p : Parts) : List UInt8 :=
  exprMagic ++ [version] ++ reserved₁ ++ u32Bytes (UInt32.ofNat p.nodes.length) ++
    u32Bytes (UInt32.ofNat p.children.length) ++ u32Bytes (UInt32.ofNat p.blob.length) ++
    reserved₂ ++ p.nodes.flatMap RawNode.encode ++
    p.children.flatMap NodeRef.bytes ++ p.blob

/-- `ExpressionBuffer::from_parts`; the buffer is its bytes. -/
def fromParts (p : Parts) : Result (List UInt8) := do
  ensure (p.nodes.length < 2 ^ 32)
    (.invalid "expression buffer" s!"node count {p.nodes.length} exceeds u32::MAX")
  ensure (p.nodes.length ≤ maxNodeCount)
    (.invalid "expression buffer" s!"node count {p.nodes.length} exceeds 2^31")
  ensure (p.children.length < 2 ^ 32)
    (.invalid "expression buffer" s!"child count {p.children.length} exceeds u32::MAX")
  ensure (p.blob.length < 2 ^ 32)
    (.invalid "expression buffer" s!"blob length {p.blob.length} exceeds u32::MAX")
  let _ ← expressionLen p.nodes.length p.children.length p.blob.length
  pure (p.encode (List.replicate 3 0) (List.replicate 12 0))

/-! ## Views -/

structure ExprView where
  bytes : List UInt8
  header : ExprHeader
  nodeOffset : Nat
  childOffset : Nat
  blobOffset : Nat
  deriving DecidableEq

/-- What the first pass records of a node. -/
structure NodeInfo where
  tag : Tag
  sort : WireSort
  width : UInt32
  deriving Repr, DecidableEq

namespace ExprView

def parse (bytes : List UInt8) : Result ExprView := do
  ensure (exprHeaderLen ≤ bytes.length)
    (.unexpectedEof "expression header" exprHeaderLen bytes.length)
  let magic ← exactSlice bytes 0 4 "expression magic"
  ensure (magic = exprMagic) (.badMagic "expression buffer" exprMagic magic)
  let v ← readU8 bytes 4 "expression version"
  ensure (v = version) (.unsupportedVersion v)
  let nodeCount ← readU32 bytes 8 "expression node_count"
  let childCount ← readU32 bytes 12 "expression child_count"
  let blobLen ← readU32 bytes 16 "expression blob_len"
  let header : ExprHeader := ⟨nodeCount, childCount, blobLen⟩
  ensure (nodeCount.toNat ≤ maxNodeCount)
    (.invalid "expression node_count" s!"{nodeCount} exceeds 2^31")
  let expected ← header.totalLen
  ensure (bytes.length = expected) (.lengthMismatch "expression buffer" expected bytes.length)
  let nodeBytes ← checkedMul nodeCount.toNat nodeRecordLen "expression node array length"
  let childOffset ← checkedAdd exprHeaderLen nodeBytes "expression child offset"
  let childBytes ← checkedMul childCount.toNat 4 "expression child array length"
  let blobOffset ← checkedAdd childOffset childBytes "expression blob offset"
  pure ⟨bytes, header, exprHeaderLen, childOffset, blobOffset⟩

variable (v : ExprView)

def node (index : Nat) : Result RawNode := do
  ensure (index < v.header.nodeCount.toNat)
    (.invalid "node index" s!"{index} is out of bounds for {v.header.nodeCount} nodes")
  let indexBytes ← checkedMul index nodeRecordLen "node offset"
  let offset ← checkedAdd v.nodeOffset indexBytes "node offset"
  RawNode.decode v.bytes offset

def childRef (index : Nat) : Result NodeRef := do
  ensure (index < v.header.childCount.toNat)
    (.invalid "child index" s!"{index} is out of bounds for {v.header.childCount} children")
  let indexBytes ← checkedMul index 4 "child offset"
  let offset ← checkedAdd v.childOffset indexBytes "child offset"
  let raw ← readU32 v.bytes offset "child reference"
  pure ⟨raw⟩

def blob : Result (List UInt8) := slice v.bytes v.blobOffset v.bytes.length

def blobRef (reference : BlobRef) : Result (List UInt8) := do
  let start := reference.offset.toNat
  let stop ← checkedAdd start reference.len.toNat "blob reference"
  let blob ← v.blob
  if stop > blob.length then
    err (.invalid "blob reference"
      s!"offset {reference.offset} plus length {reference.len} exceeds blob length {blob.length}")
  else slice blob start stop

def blobStr (reference : BlobRef) (context : String) : Result String := do
  let bytes ← v.blobRef reference
  ofOption (utf8? bytes) (.invalidUtf8 context reference.offset reference.len)

end ExprView

/-! ## Checks of a single node -/

def parseTag (raw : UInt8) (nodeIndex : Nat) : Result Tag :=
  ofOption (Tag.tryFrom raw)
    (.invalid "node tag" s!"node {nodeIndex} uses unknown v1 tag {raw}")

def validateSelectArity (index : Nat) (arity : UInt8) : Result Unit :=
  ensure (¬(arity = 0 ∨ arity % 2 = 0))
    (.invalid "BV_SELECT arity" s!"node {index} has arity {arity}, expected odd 2N+1")

def validateArity (index : Nat) (tag : Tag) (arity : UInt8) : Result Unit :=
  match tag.fixedArity with
  | some expected =>
    ensure (arity = expected) (.invalid "node arity"
      s!"node {index} ({tag.name}) has arity {arity}, expected {expected}")
  | none => validateSelectArity index arity

def validateBvWidthValue (width : Nat) (context : String) : Result Unit :=
  ensure (1 ≤ width ∧ width ≤ maxBvWidth)
    (.invalid context s!"width {width} is outside 1..={maxBvWidth}")

def validateNodeWidth (index : Nat) (tag : Tag) (width : UInt32) : Result Unit :=
  match tag.resultSort with
  | .bool =>
    ensure (width = 0) (.invalid "Bool node width"
      s!"node {index} ({tag.name}) has width {width}, expected 0")
  | .bv =>
    -- `map_err` replaces the message of the width check
    ensure (1 ≤ width.toNat ∧ width.toNat ≤ maxBvWidth) (.invalid "BV node width"
      s!"node {index} ({tag.name}) has width {width}, expected 1..={maxBvWidth}")

def bytesForWidth (width : Nat) : Result Nat := do
  validateBvWidthValue width "scalar width"
  pure ((width + 7) / 8)

def validateSelectShape (index : Nat) (node : RawNode) : Result Unit := do
  validateSelectArity index node.arity
  let expectedPairs := (← subU node.arity.toNat 1) / 2
  ensure (node.auxHi.toNat = expectedPairs) (.invalid "BV_SELECT aux_hi"
    s!"node {index} has aux_hi {node.auxHi}, expected {expectedPairs}")

/-- `checked_add` on `u32`. -/
def checkedAdd32 (a b : Nat) (context : String) : Result Nat :=
  if a + b < 2 ^ 32 then ok (a + b) else err (.integerOverflow context)

def validateChildrenRange (childCount : Nat) (index : Nat) (node : RawNode) : Result Unit :=
  if node.arity = 0 then pure ()
  else do
    let stop ← checkedAdd32 node.children.toNat node.arity.toNat "node child range"
    ensure (stop ≤ childCount) (.invalid "node child range"
      s!"node {index} children [{node.children}..{stop}) exceeds child_count {childCount}")

def validateEarlier (index : Nat) (parentIndex : Option Nat) (context : String) : Result Unit :=
  match parentIndex with
  | some parent =>
    ensure (index < parent) (.invalid context
      s!"parent node {parent} references non-earlier child node {index}")
  | none => pure ()

def validateRef (infos : List NodeInfo) (reference : NodeRef) (expectedSort : WireSort)
    (parentIndex : Option Nat) (context : String) : Result NodeInfo := do
  let index := reference.idx
  ensure (index < infos.length) (.invalid context
    s!"reference {hex 8 reference.raw.toNat} points outside {infos.length} nodes")
  ensure (reference.sort = expectedSort) (.invalid context
    s!"reference {hex 8 reference.raw.toNat} has sort {reference.sort.debug}, expected {expectedSort.debug}")
  let info ← expect infos[index]?
  ensure (info.sort = reference.sort) (.invalid context
    s!"reference {hex 8 reference.raw.toNat} sort {reference.sort.debug} does not match node tag sort {info.sort.debug}")
  validateEarlier index parentIndex context
  pure info

def expectWidth (index : Nat) (tag : Tag) (actual expected : Nat) (context : String) :
    Result Unit :=
  ensure (actual = expected) (.invalid context
    s!"node {index} ({tag.name}) has width {actual}, expected {expected}")

def expectSameChildWidth (index : Nat) (tag : Tag) (lhs rhs : Nat) : Result Unit :=
  ensure (lhs = rhs) (.invalid "child widths"
    s!"node {index} ({tag.name}) has child widths {lhs} and {rhs}")

/-! ## The two passes -/

namespace ExprView

variable (v : ExprView)

def expectChild (infos : List NodeInfo) (parentIndex : Nat) (parent : RawNode)
    (childOffset : Nat) (expectedSort : WireSort) : Result NodeInfo := do
  let childArrayIndex ←
    checkedAdd32 parent.children.toNat (childOffset % 2 ^ 32) "child array index"
  let reference ← v.childRef childArrayIndex
  validateRef infos reference expectedSort (some parentIndex) "child reference"

/-- A name keeps its sort and width. -/
def checkSignature (name : String) (existing : Option NodeInfo) (signature : NodeInfo) :
    Result Unit :=
  match existing with
  | some existing =>
    ensure (existing.sort = signature.sort ∧ existing.width = signature.width)
      (.invalid "symbol declaration"
        s!"symbol {debugStr name} is used with both {existing.sort.debug}/{existing.width} and {signature.sort.debug}/{signature.width}")
  | none => pure ()

/-- The symbol table after a node. -/
def scanSymbol (symbols : List (String × NodeInfo)) (node : RawNode) (signature : NodeInfo) :
    Result (List (String × NodeInfo)) :=
  if signature.tag = .bvVar ∨ signature.tag = .boolVar then do
    let name ← v.blobStr node.blobRef "symbol name"
    checkSignature name (symbols.lookup name) signature
    pure ((name, signature) :: symbols)
  else pure symbols

/-- A constant too wide for the payload stands in the blob. -/
def scanWideConst (index : Nat) (node : RawNode) (tag : Tag) : Result Unit :=
  if tag = .bvConst ∧ 64 < node.width.toNat then do
    let reference := node.blobRef
    let expectedLen ← bytesForWidth node.width.toNat
    ensure (reference.len.toNat = expectedLen) (.invalid "wide BV_CONST"
      s!"node {index} has blob length {reference.len}, expected {expectedLen} for width {node.width}")
    let _ ← v.blobRef reference
    pure ()
  else pure ()

/-- One round of the first pass. -/
def scanNode (state : List NodeInfo × List (String × NodeInfo)) (index : Nat) :
    Result (List NodeInfo × List (String × NodeInfo)) := do
  let node ← v.node index
  let tag ← parseTag node.tag index
  validateArity index tag node.arity
  validateNodeWidth index tag node.width
  let info : NodeInfo := ⟨tag, tag.resultSort, node.width⟩
  let symbols ← v.scanSymbol state.2 node info
  v.scanWideConst index node tag
  pure (state.1 ++ [info], symbols)

def checkSelectPair (infos : List NodeInfo) (index : Nat) (node : RawNode) (tag : Tag)
    (default : NodeInfo) (pair : Nat) : Result Unit := do
  let _ ← v.expectChild infos index node (pair * 2) .bool
  let value ← v.expectChild infos index node (pair * 2 + 1) .bv
  expectSameChildWidth index tag value.width.toNat default.width.toNat

/-- The operand rule of each operator. -/
def checkOperands (infos : List NodeInfo) (index : Nat) (node : RawNode) (tag : Tag) :
    Result Unit :=
  match tag with
  | .bvVar | .bvConst | .boolTrue | .boolFalse | .boolVar => pure ()
  | .bvNot | .bvNeg => do
    let child ← v.expectChild infos index node 0 .bv
    expectWidth index tag node.width.toNat child.width.toNat "unary BV result"
  | .bvAnd | .bvOr | .bvXor | .bvAdd | .bvSub | .bvMul | .bvUdiv | .bvUrem | .bvSdiv
  | .bvSrem | .bvSmod | .bvShl | .bvLshr | .bvAshr => do
    let lhs ← v.expectChild infos index node 0 .bv
    let rhs ← v.expectChild infos index node 1 .bv
    expectSameChildWidth index tag lhs.width.toNat rhs.width.toNat
    expectWidth index tag node.width.toNat lhs.width.toNat "binary BV result"
  | .bvExtract => do
    let child ← v.expectChild infos index node 0 .bv
    let lo := node.auxLo.toNat
    let hi := node.auxHi.toNat
    ensure (¬(hi < lo ∨ child.width.toNat ≤ hi)) (.invalid "BV_EXTRACT bounds"
      s!"node {index} has lo={lo}, hi={hi}, child width {child.width}")
    let expected ← addU 32 (← subU hi lo) 1
    expectWidth index tag node.width.toNat expected "extract result"
  | .bvConcat => do
    let hi ← v.expectChild infos index node 0 .bv
    let lo ← v.expectChild infos index node 1 .bv
    let expected ← checkedAdd32 hi.width.toNat lo.width.toNat "BV_CONCAT width"
    validateBvWidthValue expected "BV_CONCAT result"
    expectWidth index tag node.width.toNat expected "concat result"
  | .bvZext | .bvSext => do
    let child ← v.expectChild infos index node 0 .bv
    let expected ← checkedAdd32 child.width.toNat node.auxHi.toNat "BV_EXT width"
    validateBvWidthValue expected "BV_EXT result"
    expectWidth index tag node.width.toNat expected "extension result"
  | .bvIte => do
    let _ ← v.expectChild infos index node 0 .bool
    let thenChild ← v.expectChild infos index node 1 .bv
    let elseChild ← v.expectChild infos index node 2 .bv
    expectSameChildWidth index tag thenChild.width.toNat elseChild.width.toNat
    expectWidth index tag node.width.toNat thenChild.width.toNat "BV_ITE result"
  | .bvSelect => do
    validateSelectShape index node
    let pairs := node.auxHi.toNat
    let default ← v.expectChild infos index node (pairs * 2) .bv
    forM (List.range pairs) (v.checkSelectPair infos index node tag default)
    expectWidth index tag node.width.toNat default.width.toNat "BV_SELECT result"
  | .boolNot => do
    let _ ← v.expectChild infos index node 0 .bool
  | .boolAnd | .boolOr | .boolImplies => do
    let _ ← v.expectChild infos index node 0 .bool
    let _ ← v.expectChild infos index node 1 .bool
  | .bvEq | .bvUlt | .bvUle | .bvSlt | .bvSle | .uaddOvf | .saddOvf | .usubOvf | .ssubOvf
  | .umulOvf | .smulOvf | .sdivOvf => do
    let lhs ← v.expectChild infos index node 0 .bv
    let rhs ← v.expectChild infos index node 1 .bv
    expectSameChildWidth index tag lhs.width.toNat rhs.width.toNat
  | .negOvf => do
    let _ ← v.expectChild infos index node 0 .bv

/-- One round of the second pass. -/
def checkNode (infos : List NodeInfo) (index : Nat) : Result Unit := do
  let node ← v.node index
  let info ← expect infos[index]?
  validateChildrenRange v.header.childCount.toNat index node
  v.checkOperands infos index node info.tag

def validate : Result Unit := do
  let (infos, _) ← (List.range v.header.nodeCount.toNat).foldlM v.scanNode ([], [])
  forM (List.range v.header.nodeCount.toNat) (v.checkNode infos)

end ExprView

def ExprView.parseAndValidate (bytes : List UInt8) : Result ExprView := do
  let view ← parse bytes
  view.validate
  pure view

def isVariableNode (node : RawNode) : Bool :=
  node.tag == Tag.bvVar.toByte || node.tag == Tag.boolVar.toByte

/-- `validate_node_ref`: a typed reference from outside into a validated buffer. -/
def validateNodeRef (view : ExprView) (reference : NodeRef) (expectedSort : WireSort)
    (context : String) : Result RawNode := do
  let index := reference.idx
  ensure (index < view.header.nodeCount.toNat) (.invalid context
    s!"reference {hex 8 reference.raw.toNat} points outside {view.header.nodeCount} nodes")
  ensure (reference.sort = expectedSort) (.invalid context
    s!"reference {hex 8 reference.raw.toNat} has sort {reference.sort.debug}, expected {expectedSort.debug}")
  let node ← view.node index
  let tag ← parseTag node.tag index
  ensure (tag.resultSort = reference.sort) (.invalid context
    s!"reference {hex 8 reference.raw.toNat} sort {reference.sort.debug} does not match node tag {tag.name}")
  pure node

end Wire
end SmtServer
