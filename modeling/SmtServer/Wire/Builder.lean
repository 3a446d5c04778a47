import SmtServer.Lib.Grow
import SmtServer.Wire.Request

/-!
# `builder.rs` — building expressions and requests

`ExprBuilder` is an append-only store of nodes, child references and blob bytes, with the
current assertions, assumptions and scopes beside it. Construction methods check sorts and
widths before they append, and an operation that fails in the middle leaves what it had
appended so far; `BuilderM` keeps the state on every exit and carries the fact that nodes,
children, blob and `meta` are only appended to.

Hash maps that are only inserted into and looked up are association lists, newest entry
first. `compact` is a read-only function of the builder; its depth-first marking recurses from
a node to its children, whose indices are smaller, so the length of the node array bounds the
recursion.
-/

namespace SmtServer
namespace Wire

open Lib Outcome

/-- `pub(crate) struct NodeMeta`. -/
structure NodeMeta where
  sort : WireSort
  width : UInt32
  deriving Repr, DecidableEq

structure Assertion where
  root : NodeRef
  name : Option BlobRef
  deriving Repr, DecidableEq

structure ExprBuilder where
  nodes : List RawNode
  children : List NodeRef
  blob : List UInt8
  metas : List NodeMeta
  assertions : List Assertion
  assumptions : List NodeRef
  scopes : List Nat
  bvVars : List ((String × UInt32) × NodeRef)
  boolVars : List (String × NodeRef)
  symbols : List (String × NodeMeta)
  deriving DecidableEq

namespace ExprBuilder

def new : ExprBuilder := ⟨[], [], [], [], [], [], [], [], [], []⟩

/-- What the builder would write as an expression buffer. -/
def parts (s : ExprBuilder) : Parts := ⟨s.nodes, s.children, s.blob⟩

/-- Extending a builder: everything references can point into is appended to. -/
instance : Preorder ExprBuilder where
  le s t := s.nodes <+: t.nodes ∧ s.children <+: t.children ∧ s.blob <+: t.blob ∧ s.metas <+: t.metas
  le_refl s := ⟨List.prefix_refl _, List.prefix_refl _, List.prefix_refl _, List.prefix_refl _⟩
  le_trans _ _ _ h k :=
    ⟨h.1.trans k.1, h.2.1.trans k.2.1, h.2.2.1.trans k.2.2.1, h.2.2.2.trans k.2.2.2⟩

end ExprBuilder

/-- A method that takes `&mut self`. -/
abbrev BuilderM := Grow ExprBuilder WireError

namespace ExprBuilder

/-! ## Reading -/

def metaFor (reference : NodeRef) (s : ExprBuilder) : Result NodeMeta := do
  let m ← ofOption s.metas[reference.idx]? (.invalid "node reference"
    s!"reference {hex 8 reference.raw.toNat} points outside builder")
  ensure (m.sort = reference.sort) (.invalid "node reference"
    s!"reference {hex 8 reference.raw.toNat} has sort {reference.sort.debug}, node has {m.sort.debug}")
  pure m

def expectBv (reference : NodeRef) (s : ExprBuilder) : Result UInt32 := do
  let m ← s.metaFor reference
  ensure (m.sort = .bv) (.invalid "sort"
    s!"expected BV reference, got NodeRef({reference.raw})")
  pure m.width

def expectBool (reference : NodeRef) (s : ExprBuilder) : Result Unit := do
  let m ← s.metaFor reference
  ensure (m.sort = .bool) (.invalid "sort"
    s!"expected Bool reference, got NodeRef({reference.raw})")

def expectSameBvWidth (a b : NodeRef) (context : String) (s : ExprBuilder) : Result UInt32 := do
  let lhs ← s.expectBv a
  let rhs ← s.expectBv b
  ensure (lhs = rhs) (.invalid context s!"width mismatch: {lhs} vs {rhs}")
  pure lhs

def toBytes (s : ExprBuilder) : Result (List UInt8) := fromParts s.parts

/-! ## Appending -/

def pushBlob (bytes : List UInt8) : BuilderM BlobRef := do
  let offset ← Grow.read fun s => ok s.blob.length
  Grow.lift (ensure (offset < 2 ^ 32)
    (.invalid "blob table" "current blob length exceeds u32::MAX"))
  Grow.lift (ensure (bytes.length < 2 ^ 32)
    (.invalid "blob table" "blob entry exceeds u32::MAX"))
  let _ ← Grow.lift (checkedAdd32 offset bytes.length "blob table append")
  Grow.modify (fun s => { s with blob := s.blob ++ bytes })
    fun _ => ⟨List.prefix_refl _, List.prefix_refl _, List.prefix_append _ _, List.prefix_refl _⟩
  pure ⟨UInt32.ofNat offset, UInt32.ofNat bytes.length⟩

def pushNode (tag : Tag) (width : UInt32) (children : List NodeRef) (auxHi : UInt16)
    (auxLo : UInt32) (payload : UInt64) : BuilderM NodeRef := do
  Grow.lift (ensure (children.length < 2 ^ 8)
    (.invalid "node arity" s!"{children.length} children exceeds u8::MAX"))
  Grow.read fun s => forM children fun child => do
    let _ ← s.metaFor child
    pure ()
  let childStart ← Grow.read fun s => ok s.children.length
  Grow.lift (ensure (childStart < 2 ^ 32)
    (.invalid "child array" "child array length exceeds u32::MAX"))
  Grow.modify (fun s => { s with children := s.children ++ children })
    fun _ => ⟨List.prefix_refl _, List.prefix_append _ _, List.prefix_refl _, List.prefix_refl _⟩
  let index ← Grow.read fun s => ok s.nodes.length
  Grow.lift (ensure (index < 2 ^ 32) (.invalid "node array" "node count exceeds u32::MAX"))
  let id ← Grow.lift (NodeRef.new tag.resultSort (UInt32.ofNat index))
  let arity := UInt8.ofNat children.length
  let node : RawNode := ⟨tag.toByte, arity, auxHi, width, auxLo,
    if arity = 0 then 0 else UInt32.ofNat childStart, payload⟩
  Grow.modify (fun s => { s with
      nodes := s.nodes ++ [node]
      metas := s.metas ++ [⟨tag.resultSort, width⟩] })
    fun _ => ⟨List.prefix_append _ _, List.prefix_refl _, List.prefix_refl _, List.prefix_append _ _⟩
  pure id

/-- Add to the tables that references do not point into. -/
def remember (f : ExprBuilder → ExprBuilder)
    (h : ∀ s, (f s).nodes = s.nodes ∧ (f s).children = s.children ∧ (f s).blob = s.blob ∧
      (f s).metas = s.metas) : BuilderM Unit :=
  Grow.modify f fun s => by
    obtain ⟨h1, h2, h3, h4⟩ := h s
    exact ⟨h1 ▸ List.prefix_refl _, h2 ▸ List.prefix_refl _, h3 ▸ List.prefix_refl _,
      h4 ▸ List.prefix_refl _⟩

def checkSymbol (name : String) (signature : NodeMeta) (s : ExprBuilder) : Result Unit :=
  match s.symbols.lookup name with
  | some existing =>
    ensure (existing = signature) (.invalid "symbol declaration"
      s!"symbol {debugStr name} is used with both {existing.sort.debug}/{existing.width} and {signature.sort.debug}/{signature.width}")
  | none => pure ()

/-- A name is entered with its first signature and keeps it. -/
def expectSymbolSignature (name : String) (signature : NodeMeta) : BuilderM Unit := do
  Grow.read (checkSymbol name signature)
  remember (fun s => { s with symbols :=
      if (s.symbols.lookup name).isSome then s.symbols else (name, signature) :: s.symbols })
    fun _ => ⟨rfl, rfl, rfl, rfl⟩

/-! ## Variables and constants -/

def newBvVar (name : String) (width : UInt32) : BuilderM NodeRef := do
  let blob ← pushBlob (utf8 name)
  let reference ← pushNode .bvVar width [] 0 0 blob.toPayload
  remember (fun s => { s with bvVars := ((name, width), reference) :: s.bvVars })
    fun _ => ⟨rfl, rfl, rfl, rfl⟩
  pure reference

def bvVar (name : String) (width : UInt32) : BuilderM NodeRef := do
  Grow.lift (validateBvWidthValue width.toNat "BV variable width")
  expectSymbolSignature name ⟨.bv, width⟩
  match ← Grow.read fun s => ok (s.bvVars.lookup (name, width)) with
  | some reference => pure reference
  | none => newBvVar name width

def newBoolVar (name : String) : BuilderM NodeRef := do
  let blob ← pushBlob (utf8 name)
  let reference ← pushNode .boolVar 0 [] 0 0 blob.toPayload
  remember (fun s => { s with boolVars := (name, reference) :: s.boolVars })
    fun _ => ⟨rfl, rfl, rfl, rfl⟩
  pure reference

def boolVar (name : String) : BuilderM NodeRef := do
  expectSymbolSignature name ⟨.bool, 0⟩
  match ← Grow.read fun s => ok (s.boolVars.lookup name) with
  | some reference => pure reference
  | none => newBoolVar name

/-- `value & ((1 << width) - 1)`, all of `value` from 64 bits on. -/
def maskU64 (value : UInt64) (width : Nat) : UInt64 :=
  if 64 ≤ width then value else value &&& UInt64.ofNat (2 ^ width - 1)

def maskUnusedHighBits (bytes : List UInt8) (width : Nat) : List UInt8 :=
  let validBits := width % 8
  if validBits = 0 ∨ bytes = [] then bytes
  else bytes.modify (bytes.length - 1) (· &&& UInt8.ofNat (2 ^ validBits - 1))

/-- A constant whose bytes go to the blob. -/
def bvConstBlob (bytes : List UInt8) (width : UInt32) : BuilderM NodeRef := do
  let blob ← pushBlob bytes
  pushNode .bvConst width [] 0 0 blob.toPayload

def bvConst (value : UInt64) (width : UInt32) : BuilderM NodeRef := do
  Grow.lift (validateBvWidthValue width.toNat "BV constant width")
  if width.toNat ≤ 64 then
    pushNode .bvConst width [] 0 0 (maskU64 value width.toNat)
  else do
    let len ← Grow.lift (bytesForWidth width.toNat)
    -- more than 64 bits take at least nine bytes, so `bytes[..8]` is in range
    let bytes := u64Bytes value ++ List.replicate (len - 8) 0
    bvConstBlob (maskUnusedHighBits bytes width.toNat) width

def bvConstWide (bytes : List UInt8) (width : UInt32) : BuilderM NodeRef := do
  Grow.lift (validateBvWidthValue width.toNat "wide BV constant width")
  let expected ← Grow.lift (bytesForWidth width.toNat)
  Grow.lift (ensure (bytes.length = expected) (.invalid "wide BV constant"
    s!"got {bytes.length} bytes, expected {expected} for width {width}"))
  let normalized := maskUnusedHighBits bytes width.toNat
  if width.toNat ≤ 64 then bvConst (UInt64.ofNat (leNat normalized)) width
  else bvConstBlob normalized width

/-! ## Operators -/

def bvUnary (tag : Tag) (x : NodeRef) : BuilderM NodeRef := do
  let width ← Grow.read (expectBv x)
  pushNode tag width [x] 0 0 0

def bvBinary (tag : Tag) (a b : NodeRef) : BuilderM NodeRef := do
  let width ← Grow.read (expectSameBvWidth a b tag.name)
  pushNode tag width [a, b] 0 0 0

def bvExtend (tag : Tag) (x : NodeRef) (amount : UInt16) : BuilderM NodeRef := do
  let childWidth ← Grow.read (expectBv x)
  let width ← Grow.lift (checkedAdd32 childWidth.toNat amount.toNat "BV extension width")
  Grow.lift (validateBvWidthValue width "BV extension width")
  pushNode tag (UInt32.ofNat width) [x] amount 0 0

def boolBinary (tag : Tag) (a b : NodeRef) : BuilderM NodeRef := do
  Grow.read (expectBool a)
  Grow.read (expectBool b)
  pushNode tag 0 [a, b] 0 0 0

/-- `bv_comparison` and `overflow_binary`, which are the same function. -/
def bvComparison (tag : Tag) (a b : NodeRef) : BuilderM NodeRef := do
  let _ ← Grow.read (expectSameBvWidth a b tag.name)
  pushNode tag 0 [a, b] 0 0 0

def bvNot (x : NodeRef) : BuilderM NodeRef := bvUnary .bvNot x
def bvNeg (x : NodeRef) : BuilderM NodeRef := bvUnary .bvNeg x
def bvAnd (a b : NodeRef) : BuilderM NodeRef := bvBinary .bvAnd a b
def bvOr (a b : NodeRef) : BuilderM NodeRef := bvBinary .bvOr a b
def bvXor (a b : NodeRef) : BuilderM NodeRef := bvBinary .bvXor a b
def bvAdd (a b : NodeRef) : BuilderM NodeRef := bvBinary .bvAdd a b
def bvSub (a b : NodeRef) : BuilderM NodeRef := bvBinary .bvSub a b
def bvMul (a b : NodeRef) : BuilderM NodeRef := bvBinary .bvMul a b
def bvUdiv (a b : NodeRef) : BuilderM NodeRef := bvBinary .bvUdiv a b
def bvUrem (a b : NodeRef) : BuilderM NodeRef := bvBinary .bvUrem a b
def bvSdiv (a b : NodeRef) : BuilderM NodeRef := bvBinary .bvSdiv a b
def bvSrem (a b : NodeRef) : BuilderM NodeRef := bvBinary .bvSrem a b
def bvSmod (a b : NodeRef) : BuilderM NodeRef := bvBinary .bvSmod a b
def bvShl (a b : NodeRef) : BuilderM NodeRef := bvBinary .bvShl a b
def bvLshr (a b : NodeRef) : BuilderM NodeRef := bvBinary .bvLshr a b
def bvAshr (a b : NodeRef) : BuilderM NodeRef := bvBinary .bvAshr a b

def bvExtract (x : NodeRef) (hi lo : UInt32) : BuilderM NodeRef := do
  let width ← Grow.read (expectBv x)
  Grow.lift (ensure (hi.toNat ≤ 65535) (.invalid "BV_EXTRACT" s!"hi {hi} exceeds u16::MAX"))
  Grow.lift (ensure (¬(lo.toNat > hi.toNat ∨ hi.toNat ≥ width.toNat)) (.invalid "BV_EXTRACT"
    s!"invalid bounds lo={lo}, hi={hi}, child width {width}"))
  let difference ← Grow.lift (subU hi.toNat lo.toNat)
  let result ← Grow.lift (addU 32 difference 1)
  pushNode .bvExtract (UInt32.ofNat result) [x] (UInt16.ofNat hi.toNat) lo 0

def bvConcat (high low : NodeRef) : BuilderM NodeRef := do
  let highWidth ← Grow.read (expectBv high)
  let lowWidth ← Grow.read (expectBv low)
  let width ← Grow.lift (checkedAdd32 highWidth.toNat lowWidth.toNat "BV_CONCAT width")
  Grow.lift (validateBvWidthValue width "BV_CONCAT width")
  pushNode .bvConcat (UInt32.ofNat width) [high, low] 0 0 0

def bvZext (x : NodeRef) (amount : UInt16) : BuilderM NodeRef := bvExtend .bvZext x amount
def bvSext (x : NodeRef) (amount : UInt16) : BuilderM NodeRef := bvExtend .bvSext x amount

def bvIte (cond thenValue elseValue : NodeRef) : BuilderM NodeRef := do
  Grow.read (expectBool cond)
  let width ← Grow.read (expectSameBvWidth thenValue elseValue "BV_ITE")
  pushNode .bvIte width [cond, thenValue, elseValue] 0 0 0

/-- One selector and its value. -/
def checkPair (width : UInt32) (pair : NodeRef × NodeRef) (s : ExprBuilder) : Result Unit := do
  s.expectBool pair.1
  let valueWidth ← s.expectBv pair.2
  ensure (valueWidth = width) (.invalid "BV_SELECT"
    s!"value width {valueWidth} does not match default width {width}")

def bvSelect (selectors values : List NodeRef) (default : NodeRef) : BuilderM NodeRef := do
  Grow.lift (ensure (selectors.length = values.length) (.invalid "BV_SELECT"
    s!"{selectors.length} selectors but {values.length} values"))
  Grow.lift (ensure (selectors.length ≤ 127) (.invalid "BV_SELECT"
    s!"{selectors.length} pairs exceeds v1 limit of 127"))
  let width ← Grow.read (expectBv default)
  Grow.read fun s => forM (selectors.zip values) fun pair => s.checkPair width pair
  let children := (selectors.zip values).flatMap (fun pair => [pair.1, pair.2]) ++ [default]
  pushNode .bvSelect width children (UInt16.ofNat selectors.length) 0 0

def boolTrue : BuilderM NodeRef := pushNode .boolTrue 0 [] 0 0 0
def boolFalse : BuilderM NodeRef := pushNode .boolFalse 0 [] 0 0 0

def boolNot (x : NodeRef) : BuilderM NodeRef := do
  Grow.read (expectBool x)
  pushNode .boolNot 0 [x] 0 0 0

def boolAnd (a b : NodeRef) : BuilderM NodeRef := boolBinary .boolAnd a b
def boolOr (a b : NodeRef) : BuilderM NodeRef := boolBinary .boolOr a b
def boolImplies (a b : NodeRef) : BuilderM NodeRef := boolBinary .boolImplies a b
def bvEq (a b : NodeRef) : BuilderM NodeRef := bvComparison .bvEq a b
def bvUlt (a b : NodeRef) : BuilderM NodeRef := bvComparison .bvUlt a b
def bvUle (a b : NodeRef) : BuilderM NodeRef := bvComparison .bvUle a b
def bvSlt (a b : NodeRef) : BuilderM NodeRef := bvComparison .bvSlt a b
def bvSle (a b : NodeRef) : BuilderM NodeRef := bvComparison .bvSle a b
def uaddOvf (a b : NodeRef) : BuilderM NodeRef := bvComparison .uaddOvf a b
def saddOvf (a b : NodeRef) : BuilderM NodeRef := bvComparison .saddOvf a b
def usubOvf (a b : NodeRef) : BuilderM NodeRef := bvComparison .usubOvf a b
def ssubOvf (a b : NodeRef) : BuilderM NodeRef := bvComparison .ssubOvf a b
def umulOvf (a b : NodeRef) : BuilderM NodeRef := bvComparison .umulOvf a b
def smulOvf (a b : NodeRef) : BuilderM NodeRef := bvComparison .smulOvf a b
def sdivOvf (a b : NodeRef) : BuilderM NodeRef := bvComparison .sdivOvf a b

def negOvf (x : NodeRef) : BuilderM NodeRef := do
  let _ ← Grow.read (expectBv x)
  pushNode .negOvf 0 [x] 0 0 0

/-! ## Derived operators -/

def bvNe (a b : NodeRef) : BuilderM NodeRef := do
  let eq ← bvEq a b
  boolNot eq

def bvUgt (a b : NodeRef) : BuilderM NodeRef := bvUlt b a
def bvUge (a b : NodeRef) : BuilderM NodeRef := bvUle b a
def bvSgt (a b : NodeRef) : BuilderM NodeRef := bvSlt b a
def bvSge (a b : NodeRef) : BuilderM NodeRef := bvSle b a

def boolEq (a b : NodeRef) : BuilderM NodeRef := do
  Grow.read (expectBool a)
  Grow.read (expectBool b)
  let notB ← boolNot b
  let left ← boolOr a notB
  let notA ← boolNot a
  let right ← boolOr notA b
  boolAnd left right

def boolXor (a b : NodeRef) : BuilderM NodeRef := do
  let eq ← boolEq a b
  boolNot eq

def boolIte (cond thenValue elseValue : NodeRef) : BuilderM NodeRef := do
  Grow.read (expectBool cond)
  Grow.read (expectBool thenValue)
  Grow.read (expectBool elseValue)
  let condThen ← boolAnd cond thenValue
  let notCond ← boolNot cond
  let elseBranch ← boolAnd notCond elseValue
  boolOr condThen elseBranch

/-- `a % b`, which panics on a zero divisor. -/
def remU (a b : Nat) : Result Nat := if b = 0 then Outcome.panic else ok (a % b)

def bvRotateLeft (x : NodeRef) (amount : UInt64) : BuilderM NodeRef := do
  let width ← Grow.read (expectBv x)
  let amount ← Grow.lift (remU amount.toNat width.toNat)
  if amount = 0 then pure x
  else do
    let leftAmount ← bvConst (UInt64.ofNat amount) width
    let rightAmount ← bvConst (UInt64.ofNat (width.toNat - amount)) width
    let left ← bvShl x leftAmount
    let right ← bvLshr x rightAmount
    bvOr left right

def bvRotateRight (x : NodeRef) (amount : UInt64) : BuilderM NodeRef := do
  let width ← Grow.read (expectBv x)
  let amount ← Grow.lift (remU amount.toNat width.toNat)
  if amount = 0 then pure x
  else do
    let rightAmount ← bvConst (UInt64.ofNat amount) width
    let leftAmount ← bvConst (UInt64.ofNat (width.toNat - amount)) width
    let right ← bvLshr x rightAmount
    let left ← bvShl x leftAmount
    bvOr right left

/-! ## Assertions, assumptions, scopes -/

def assert (root : NodeRef) : BuilderM Unit := do
  Grow.read (expectBool root)
  remember (fun s => { s with assertions := s.assertions ++ [⟨root, none⟩] })
    fun _ => ⟨rfl, rfl, rfl, rfl⟩

def assertNamed (name : String) (root : NodeRef) : BuilderM Unit := do
  Grow.read (expectBool root)
  let nameRef ← pushBlob (utf8 name)
  remember (fun s => { s with assertions := s.assertions ++ [⟨root, some nameRef⟩] })
    fun _ => ⟨rfl, rfl, rfl, rfl⟩

def assume (root : NodeRef) : BuilderM Unit := do
  Grow.read (expectBool root)
  remember (fun s => { s with assumptions := s.assumptions ++ [root] })
    fun _ => ⟨rfl, rfl, rfl, rfl⟩

def clearAssumptions : BuilderM Unit :=
  remember (fun s => { s with assumptions := [] }) fun _ => ⟨rfl, rfl, rfl, rfl⟩

def push : BuilderM Unit :=
  remember (fun s => { s with scopes := s.scopes ++ [s.assertions.length] })
    fun _ => ⟨rfl, rfl, rfl, rfl⟩

def pop : BuilderM Unit := do
  let len ← Grow.read fun s =>
    ofOption s.scopes.getLast? (.invalid "scope" "pop without matching push")
  remember (fun s => { s with
      scopes := s.scopes.dropLast
      assertions := s.assertions.take len })
    fun _ => ⟨rfl, rfl, rfl, rfl⟩

/-- The inner loop of `assert_mutex`. -/
def assertMutexWith (x : NodeRef) : List NodeRef → BuilderM Unit
  | [] => pure ()
  | y :: rest => do
    let both ← boolAnd x y
    let notBoth ← boolNot both
    assert notBoth
    assertMutexWith x rest

/-- The outer loop of `assert_mutex`: pairs in the order of their positions. -/
def assertMutexPairs : List NodeRef → BuilderM Unit
  | [] => pure ()
  | x :: rest => do
    assertMutexWith x rest
    assertMutexPairs rest

def assertMutex (selectors : List NodeRef) : BuilderM Unit := do
  Grow.read fun s => forM selectors fun selector => s.expectBool selector
  assertMutexPairs selectors

/-! ## Compaction -/

end ExprBuilder

structure CompactedExpression where
  bytes : List UInt8
  oldToNew : List (Option NodeRef)
  newToOld : List (NodeRef × NodeRef)
  deriving DecidableEq

namespace CompactedExpression

def remapRef (c : CompactedExpression) (old : NodeRef) : Result NodeRef := do
  let mapped ← ofOption (c.oldToNew[old.idx]?.bind id) (.invalid "compacted node reference"
    s!"old reference {hex 8 old.raw.toNat} is not live")
  ensure (mapped.sort = old.sort) (.invalid "compacted node reference"
    s!"old reference {hex 8 old.raw.toNat} has sort {old.sort.debug}, remapped reference has {mapped.sort.debug}")
  pure mapped

def originalRef (c : CompactedExpression) (new : NodeRef) : Result NodeRef :=
  ofOption (c.newToOld.lookup new) (.invalid "compacted node reference"
    s!"new reference {hex 8 new.raw.toNat} is not present in compaction map")

end CompactedExpression

namespace ExprBuilder

variable (s : ExprBuilder)

/-- The child at a position of the child array, which the code indexes. -/
def childAt (node : RawNode) (offset : Nat) : Result NodeRef := do
  let position ← addU usizeBits node.children.toNat offset
  expect s.children[position]?

/-- `mark_ref`; `fuel` bounds the depth of the recursion. -/
def markRef : (fuel : Nat) → List Bool → NodeRef → Result (List Bool)
  | 0, _, _ => Outcome.panic
  | fuel + 1, marked, reference => do
    let _ ← s.metaFor reference
    let isMarked ← expect marked[reference.idx]?
    if isMarked then pure marked
    else do
      let node ← expect s.nodes[reference.idx]?
      (List.range node.arity.toNat).foldlM (fun marked childOffset => do
        let child ← s.childAt node childOffset
        markRef fuel marked child) (marked.set reference.idx true)

def markRoots (roots : List NodeRef) : Result (List Bool) :=
  roots.foldlM (fun marked root => s.markRef (s.nodes.length + 1) marked root)
    (List.replicate s.nodes.length false)

/-- What the renumbering loop has built before a round. -/
structure Numbering where
  oldToNew : List (Option NodeRef)
  newToOld : List (NodeRef × NodeRef)
  nextIndex : Nat

/-- One round of the renumbering loop. -/
def numberNode (marked : List Bool) (st : Numbering) (oldIndex : Nat) : Result Numbering := do
  let isLive ← expect marked[oldIndex]?
  if isLive then do
    let m ← expect s.metas[oldIndex]?
    let newRef ← NodeRef.new m.sort (UInt32.ofNat st.nextIndex)
    let oldRef ← NodeRef.new m.sort (UInt32.ofNat oldIndex)
    let nextIndex ← checkedAdd32 st.nextIndex 1 "compacted node index"
    pure ⟨st.oldToNew.set oldIndex (some newRef), (newRef, oldRef) :: st.newToOld, nextIndex⟩
  else pure st

/-- The children of a live node, renumbered. -/
def compactChildren (oldToNew : List (Option NodeRef)) (oldIndex : Nat) (node : RawNode)
    (newChildren : List NodeRef) : Result (List NodeRef) :=
  (List.range node.arity.toNat).foldlM (fun newChildren childOffset => do
    let oldChild ← s.childAt node childOffset
    let newChild ← ofOption (oldToNew[oldChild.idx]?.bind id) (.invalid "compaction"
      s!"live node {oldIndex} references non-live child NodeRef({oldChild.raw})")
    pure (newChildren ++ [newChild])) newChildren

/-- `new_node.children`. -/
def compactStart (node : RawNode) (childStart : Nat) : Result UInt32 :=
  if node.arity = 0 then pure 0
  else do
    ensure (childStart < 2 ^ 32) (.invalid "compaction" "child array exceeds u32::MAX")
    pure (UInt32.ofNat childStart)

/-- One round of the copying loop. -/
def compactNode (marked : List Bool) (oldToNew : List (Option NodeRef))
    (st : List RawNode × List NodeRef) (oldIndex : Nat) :
    Result (List RawNode × List NodeRef) := do
  let isLive ← expect marked[oldIndex]?
  if isLive then do
    let oldNode ← expect s.nodes[oldIndex]?
    let newChildren ← s.compactChildren oldToNew oldIndex oldNode st.2
    let children ← compactStart oldNode st.2.length
    pure (st.1 ++ [{ oldNode with children }], newChildren)
  else pure st

def compact (roots : List NodeRef) : Result CompactedExpression := do
  let marked ← s.markRoots roots
  let numbering ← (List.range marked.length).foldlM (s.numberNode marked)
    ⟨List.replicate s.nodes.length none, [], 0⟩
  let (newNodes, newChildren) ← (List.range marked.length).foldlM
    (s.compactNode marked numbering.oldToNew) ([], [])
  let bytes ← fromParts ⟨newNodes, newChildren, s.blob⟩
  pure ⟨bytes, numbering.oldToNew, numbering.newToOld⟩

/-! ## Requests -/

end ExprBuilder

/-- `BinaryRequest::new`. -/
def BinaryRequest.new (requestId : UInt32) (command : Command) (flags : UInt8) (budgetMs : UInt32)
    (expression : List UInt8) (assertionRoots : List NodeRef)
    (namedAssertionRefs : List BlobRef) (assumptionRoots : List NodeRef)
    (targetNode : Option NodeRef) : Result BinaryRequest := do
  validateRequestFlags flags
  ensure (namedAssertionRefs.length ≤ assertionRoots.length) (.invalid "request named assertions"
    s!"named_count {namedAssertionRefs.length} exceeds assertion_count {assertionRoots.length}")
  ensure (expression.length < 2 ^ 32) (.invalid "request expression"
    s!"expression length {expression.length} exceeds u32::MAX")
  ensure (assertionRoots.length < 2 ^ 16)
    (.invalid "request assertions" "assertion count exceeds u16::MAX")
  ensure (namedAssertionRefs.length < 2 ^ 16)
    (.invalid "request named assertions" "named count exceeds u16::MAX")
  ensure (assumptionRoots.length < 2 ^ 16)
    (.invalid "request assumptions" "assumption count exceeds u16::MAX")
  ensure (¬(command ≠ .solve ∧ targetNode = none)) (.invalid "request target_node"
    "SIMPLIFY/MINIMIZE/MAXIMIZE require a target node")
  let request : BinaryRequest := {
    envelope := {
      requestId, command, flags, budgetMs
      exprLen := UInt32.ofNat expression.length
      assertionCount := UInt16.ofNat assertionRoots.length
      namedCount := UInt16.ofNat namedAssertionRefs.length
      assumptionCount := UInt16.ofNat assumptionRoots.length
      targetNode := (targetNode.map (·.raw)).getD 0 }
    expression, assertionRoots, namedAssertionRefs, assumptionRoots }
  request.validate
  pure request

namespace ExprBuilder

variable (s : ExprBuilder)

/-- The assertions of a request: named ones first. -/
def orderedAssertions (command : Command) : List Assertion :=
  if command = .simplify then []
  else s.assertions.filter (·.name.isSome) ++ s.assertions.filter (!·.name.isSome)

def sourceAssumptions (command : Command) : List NodeRef :=
  if command = .simplify then [] else s.assumptions

/-- `iter().map(..).collect::<Result<Vec<_>>>()`. -/
def remapAll (c : CompactedExpression) : List NodeRef → Result (List NodeRef)
  | [] => pure []
  | r :: rest => do
    let new ← c.remapRef r
    let news ← remapAll c rest
    pure (new :: news)

def remapTarget (c : CompactedExpression) : Option NodeRef → Result (Option NodeRef)
  | none => pure none
  | some r => do
    let new ← c.remapRef r
    pure (some new)

def buildRequest (requestId : UInt32) (command : Command) (flags : UInt8) (budgetMs : UInt32)
    (target : Option NodeRef) : Result (List UInt8) := do
  let ordered := s.orderedAssertions command
  let namedRefs := ordered.filterMap (·.name)
  let assumptions := s.sourceAssumptions command
  let compacted ← s.compact (ordered.map (·.root) ++ assumptions ++ target.toList)
  let assertionRoots ← remapAll compacted (ordered.map (·.root))
  let assumptionRoots ← remapAll compacted assumptions
  let target ← remapTarget compacted target
  let request ← BinaryRequest.new requestId command flags budgetMs compacted.bytes
    assertionRoots namedRefs assumptionRoots target
  request.encode

def buildSolveRequest (requestId budgetMs : UInt32) (wantModel wantCore : Bool) :
    Result (List UInt8) :=
  let flags := (if wantModel then RequestFlags.wantModel else 0) |||
    (if wantCore then RequestFlags.wantCore else 0)
  s.buildRequest requestId .solve flags budgetMs none

def buildSimplifyRequest (requestId : UInt32) (target : NodeRef) : Result (List UInt8) := do
  let _ ← s.metaFor target
  s.buildRequest requestId .simplify 0 0 (some target)

/-- `build_minimize_request` and `build_maximize_request`. -/
def buildOptimizeRequest (command : Command) (requestId : UInt32) (target : NodeRef)
    (signed : Bool) (budgetMs : UInt32) (wantModel : Bool) : Result (List UInt8) := do
  let _ ← s.expectBv target
  let flags := (if signed then RequestFlags.signed else 0) |||
    (if wantModel then RequestFlags.wantModel else 0)
  s.buildRequest requestId command flags budgetMs (some target)

end ExprBuilder
end Wire
end SmtServer
