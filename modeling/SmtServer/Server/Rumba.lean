import SmtServer.Server.Backend
import SmtServer.Wire.Builder

/-!
# `rumba_backend.rs` — simplification island by island

The backend walks the expression from its target. Every maximal subtree of arithmetic and
bitwise operators of one width (an *island*) is turned into an expression of the `rumba_core`
crate, with whatever is not such an operator abstracted as a variable; the crate simplifies it,
and the result is built again, variables and all. Everything outside the islands is copied.

`rumba_core` is not part of the repository: its operations are the fields of `RumbaCore`. Its
expression type is known from the exhaustive match in `lower`.

The recursion of the walk and of the conversion goes from a node to its operands, which have
smaller indices, so an index bounds its depth; the explicit stack of `nary` unfolds a binary
tree of that depth. Both bounds are `fuel`, and running out of it is a panic.
-/

namespace SmtServer
namespace Server

open Lib Outcome Wire

def maxRumbaWidth : Nat := 64
def maxRumbaVariables : Nat := 20

/-- `rumba_core::expr::Expr`. -/
inductive RumbaExpr (V : Type) where
  | var (id : Nat)
  | const (value : V)
  | not (child : RumbaExpr V)
  | scale (coeff : V) (child : RumbaExpr V)
  | and (children : List (RumbaExpr V))
  | or (children : List (RumbaExpr V))
  | xor (children : List (RumbaExpr V))
  | add (children : List (RumbaExpr V))
  | mul (children : List (RumbaExpr V))

/-- What the backend uses of `rumba_core`: `VarInt` with its conversions, `make_mask`, the
operators `!x`, `-x` and `a - b` on expressions, and `simplify_mba`, where a panic is `none`. -/
structure RumbaCore where
  VarInt : Type
  fromU64 : UInt64 → VarInt
  get : VarInt → UInt64 → UInt64
  makeMask : UInt8 → UInt64
  not : RumbaExpr VarInt → RumbaExpr VarInt
  neg : RumbaExpr VarInt → RumbaExpr VarInt
  sub : RumbaExpr VarInt → RumbaExpr VarInt → RumbaExpr VarInt
  simplifyMba : RumbaExpr VarInt → UInt8 → Option (RumbaExpr VarInt)

/-- `mask_for_width`, with its debug assertion. -/
def maskForWidth (R : RumbaCore) (width : UInt32) : Result UInt64 :=
  if 1 ≤ width.toNat ∧ width.toNat ≤ maxRumbaWidth then
    ok (R.makeMask (UInt8.ofNat width.toNat))
  else Outcome.panic

/-- `simplify_mba_catching_panic`: a poisoned lock and a panic of the crate are both `None`. -/
def simplifyMbaCatchingPanic (R : RumbaCore) (expr : RumbaExpr R.VarInt) (bits : UInt8) :
    Option (RumbaExpr R.VarInt) :=
  R.simplifyMba expr bits

def isMbaOp (tag : UInt8) : Bool :=
  tag == Tag.bvNot.toByte || tag == Tag.bvNeg.toByte || tag == Tag.bvAnd.toByte ||
    tag == Tag.bvOr.toByte || tag == Tag.bvXor.toByte || tag == Tag.bvAdd.toByte ||
    tag == Tag.bvSub.toByte || tag == Tag.bvMul.toByte

/-- `src_child`, which both structures have. -/
def srcChild (view : ExprView) (node : RawNode) (offset : Nat) : Result NodeRef := do
  let index ← checkedAdd32 node.children.toNat offset "child array index"
  view.childRef index

/-! ## Islands -/

/-- A leaf of an island: a variable, or a subtree that is not part of it. -/
inductive IslandVar where
  | named (name : String)
  | boundary (reference : NodeRef)
  deriving DecidableEq

/-- The state of an `IslandConversion`; its view and width are parameters. -/
structure IslandConversion where
  vars : List IslandVar
  byName : List (String × Nat)
  byRef : List (NodeRef × Nat)

namespace IslandConversion

def new : IslandConversion := ⟨[], [], []⟩

/-- Variables are only added. -/
instance : Preorder IslandConversion where
  le s t := s.vars <+: t.vars
  le_refl s := List.prefix_refl s.vars
  le_trans _ _ _ h k := h.trans k

abbrev ConvertM := Grow IslandConversion WireError

variable (R : RumbaCore) (view : ExprView) (width : UInt32)

def rememberRef (reference : NodeRef) (id : Nat) : ConvertM Unit :=
  Grow.modify (fun s => { s with byRef := (reference, id) :: s.byRef }) fun _ => List.prefix_refl _

/-- A new variable, within the cap. -/
def pushVar (var : IslandVar) (reference : NodeRef) : ConvertM (Option Nat) := do
  let id ← Grow.read fun s => ok s.vars.length
  if maxRumbaVariables ≤ id then pure none
  else do
    Grow.modify (fun s => { s with vars := s.vars ++ [var] }) fun _ => List.prefix_append _ _
    rememberRef reference id
    pure (some id)

def named (reference : NodeRef) (node : RawNode) : ConvertM (Option (RumbaExpr R.VarInt)) := do
  match ← Grow.read fun s => ok (s.byRef.lookup reference) with
  | some id => pure (some (.var id))
  | none => do
    let name ← Grow.lift (view.blobStr node.blobRef "BV variable")
    match ← Grow.read fun s => ok (s.byName.lookup name) with
    | some id => do
      rememberRef reference id
      pure (some (.var id))
    | none => do
      match ← pushVar (.named name) reference with
      | none => pure none
      | some id => do
        Grow.modify (fun s => { s with byName := (name, id) :: s.byName }) fun _ => List.prefix_refl _
        pure (some (.var id))

def boundary (reference : NodeRef) : ConvertM (Option (RumbaExpr R.VarInt)) := do
  match ← Grow.read fun s => ok (s.byRef.lookup reference) with
  | some id => pure (some (.var id))
  | none => do
    let id ← pushVar (.boundary reference) reference
    pure (id.map .var)

/-- The inner loop of `nary`: the children of a node go on the stack, the last one first. -/
def pushChildren (node : RawNode) : Nat → List NodeRef → Result (List NodeRef)
  | 0, stack => pure stack
  | offset + 1, stack => do
    let child ← srcChild view node offset
    pushChildren node offset (child :: stack)

/-- The loop of `nary`; the head of the list is the top of the stack. -/
def naryLoop (convert : NodeRef → ConvertM (Option (RumbaExpr R.VarInt))) (tag : UInt8) :
    (fuel : Nat) → List NodeRef → List (RumbaExpr R.VarInt) →
      ConvertM (Option (List (RumbaExpr R.VarInt)))
  | 0, _, _ => Grow.lift Outcome.panic
  | _ + 1, [], terms => pure (some terms)
  | fuel + 1, reference :: stack, terms => do
    let node ← Grow.lift (view.node reference.idx)
    if reference.sort = .bv ∧ node.tag = tag ∧ node.width = width then do
      let stack ← Grow.lift (pushChildren view node node.arity.toNat stack)
      naryLoop convert tag fuel stack terms
    else do
      match ← convert reference with
      | some term => naryLoop convert tag fuel stack (terms ++ [term])
      | none => pure none

def nary (convert : NodeRef → ConvertM (Option (RumbaExpr R.VarInt))) (root : NodeRef) (tag : Tag) :
    ConvertM (Option (List (RumbaExpr R.VarInt))) :=
  naryLoop R view width convert tag.toByte (2 ^ (root.idx + 1)) [root] []

def convertChild (convert : NodeRef → ConvertM (Option (RumbaExpr R.VarInt))) (node : RawNode)
    (offset : Nat) : ConvertM (Option (RumbaExpr R.VarInt)) := do
  let child ← Grow.lift (srcChild view node offset)
  convert child

def children2 (convert : NodeRef → ConvertM (Option (RumbaExpr R.VarInt))) (node : RawNode) :
    ConvertM (Option (RumbaExpr R.VarInt × RumbaExpr R.VarInt)) := do
  match ← convertChild R view convert node 0 with
  | none => pure none
  | some a => do
    match ← convertChild R view convert node 1 with
    | none => pure none
    | some b => pure (some (a, b))

/-- The arms of `convert` for a node of the island's width. -/
def convertNode (convert : NodeRef → ConvertM (Option (RumbaExpr R.VarInt)))
    (reference : NodeRef) (node : RawNode) : ConvertM (Option (RumbaExpr R.VarInt)) :=
  match Tag.tryFrom node.tag with
  | some .bvVar => named R view reference node
  | some .bvConst =>
    if node.width.toNat ≤ maxRumbaWidth then do
      let mask ← Grow.lift (maskForWidth R width)
      pure (some (.const (R.fromU64 (node.payload &&& mask))))
    else boundary R reference
  | some .bvNot => do
    let child ← convertChild R view convert node 0
    pure (child.map R.not)
  | some .bvNeg => do
    let child ← convertChild R view convert node 0
    pure (child.map R.neg)
  | some .bvAnd => do
    let terms ← nary R view width convert reference .bvAnd
    pure (terms.map .and)
  | some .bvOr => do
    let terms ← nary R view width convert reference .bvOr
    pure (terms.map .or)
  | some .bvXor => do
    let terms ← nary R view width convert reference .bvXor
    pure (terms.map .xor)
  | some .bvAdd => do
    let terms ← nary R view width convert reference .bvAdd
    pure (terms.map .add)
  | some .bvMul => do
    let terms ← nary R view width convert reference .bvMul
    pure (terms.map .mul)
  | some .bvSub => do
    let pair ← children2 R view convert node
    pure (pair.map fun (a, b) => R.sub a b)
  | _ => boundary R reference

def convert : (fuel : Nat) → NodeRef → ConvertM (Option (RumbaExpr R.VarInt))
  | 0, _ => Grow.lift Outcome.panic
  | fuel + 1, reference =>
    if reference.sort ≠ .bv then boundary R reference
    else do
      let node ← Grow.lift (view.node reference.idx)
      if node.width ≠ width then boundary R reference
      else convertNode R view width (convert fuel) reference node

end IslandConversion

/-! ## The walk -/

/-- The state of an `IslandSimplifier`; its view is a parameter. -/
structure IslandSimplifier where
  builder : ExprBuilder
  memo : List (NodeRef × NodeRef)

namespace IslandSimplifier

def new : IslandSimplifier := ⟨ExprBuilder.new, []⟩

instance : Preorder IslandSimplifier where
  le s t := s.builder ≤ t.builder
  le_refl s := le_refl s.builder
  le_trans _ _ _ h k := le_trans h k

abbrev SimplifyM := Grow IslandSimplifier WireError

/-- A method of the builder. -/
def onBuilder {α : Type} (m : BuilderM α) : SimplifyM α where
  run s := ((m.run s.builder).1, { s with builder := (m.run s.builder).2 })
  grows s := m.grows s.builder

variable (R : RumbaCore) (view : ExprView)

/-- The last loop of `lower_nary`. -/
def foldRefs (op : NodeRef → NodeRef → BuilderM NodeRef) : NodeRef → List NodeRef →
    SimplifyM NodeRef
  | acc, [] => pure acc
  | acc, child :: rest => do
    let acc ← onBuilder (op acc child)
    foldRefs op acc rest

/-- `lower_nary`, given the loop that lowers the children. -/
def lowerNary (width : UInt32) (identity : UInt64) (op : NodeRef → NodeRef → BuilderM NodeRef)
    (isEmpty : Bool) (lowerAll : SimplifyM (List NodeRef)) : SimplifyM NodeRef :=
  if isEmpty then onBuilder (ExprBuilder.bvConst identity width)
  else do
    let refs ← lowerAll
    match refs with
    | [] => Grow.lift Outcome.panic
    | acc :: rest => foldRefs op acc rest

def lowerVar (process : NodeRef → SimplifyM NodeRef) (width : UInt32) (vars : List IslandVar)
    (id : Nat) : SimplifyM NodeRef :=
  match vars[id]? with
  | some (.named name) => onBuilder (ExprBuilder.bvVar name width)
  | some (.boundary reference) => process reference
  | none => Grow.fail (.invalid "rumba expression" s!"unknown Rumba variable v{id}")

mutual

def lower (process : NodeRef → SimplifyM NodeRef) (width : UInt32) (vars : List IslandVar) :
    RumbaExpr R.VarInt → SimplifyM NodeRef
  | .var id => do
    let _ ← Grow.lift (maskForWidth R width)
    lowerVar process width vars id
  | .const value => do
    let mask ← Grow.lift (maskForWidth R width)
    onBuilder (ExprBuilder.bvConst (R.get value mask) width)
  | .not child => do
    let _ ← Grow.lift (maskForWidth R width)
    let child ← lower process width vars child
    onBuilder (ExprBuilder.bvNot child)
  | .scale coeff child => do
    let mask ← Grow.lift (maskForWidth R width)
    let child ← lower process width vars child
    let coeff ← onBuilder (ExprBuilder.bvConst (R.get coeff mask) width)
    onBuilder (ExprBuilder.bvMul coeff child)
  | .and children => do
    let mask ← Grow.lift (maskForWidth R width)
    lowerNary width mask ExprBuilder.bvAnd children.isEmpty (lowerAll process width vars children)
  | .or children => do
    let _ ← Grow.lift (maskForWidth R width)
    lowerNary width 0 ExprBuilder.bvOr children.isEmpty (lowerAll process width vars children)
  | .xor children => do
    let _ ← Grow.lift (maskForWidth R width)
    lowerNary width 0 ExprBuilder.bvXor children.isEmpty (lowerAll process width vars children)
  | .add children => do
    let _ ← Grow.lift (maskForWidth R width)
    lowerNary width 0 ExprBuilder.bvAdd children.isEmpty (lowerAll process width vars children)
  | .mul children => do
    let _ ← Grow.lift (maskForWidth R width)
    lowerNary width 1 ExprBuilder.bvMul children.isEmpty (lowerAll process width vars children)

/-- The first loop of `lower_nary`. -/
def lowerAll (process : NodeRef → SimplifyM NodeRef) (width : UInt32) (vars : List IslandVar) :
    List (RumbaExpr R.VarInt) → SimplifyM (List NodeRef)
  | [] => pure []
  | child :: rest => do
    let ref ← lower process width vars child
    let refs ← lowerAll process width vars rest
    pure (ref :: refs)

end

def tryIsland (process : NodeRef → SimplifyM NodeRef) (reference : NodeRef) (node : RawNode) :
    SimplifyM (Option NodeRef) :=
  let width := node.width
  let bits := UInt8.ofNat width.toNat
  match (IslandConversion.convert R view width (reference.idx + 1) reference).run .new with
  | (.panic, _) => Grow.lift Outcome.panic
  | (.err e, _) => Grow.fail e
  | (.ok none, _) => pure none
  | (.ok (some expr), conversion) =>
    match simplifyMbaCatchingPanic R expr bits with
    | none => pure none
    | some simplified => do
      let root ← lower R process width conversion.vars simplified
      pure (some root)

def processedChild (process : NodeRef → SimplifyM NodeRef) (node : RawNode) (offset : Nat) :
    SimplifyM NodeRef := do
  let child ← Grow.lift (srcChild view node offset)
  process child

/-- The loop of `copy_nary`. -/
def copyNaryFrom (process : NodeRef → SimplifyM NodeRef) (node : RawNode)
    (op : NodeRef → NodeRef → BuilderM NodeRef) : NodeRef → List Nat → SimplifyM NodeRef
  | acc, [] => pure acc
  | acc, offset :: rest => do
    let child ← processedChild view process node offset
    let acc ← onBuilder (op acc child)
    copyNaryFrom process node op acc rest

def copyNary (process : NodeRef → SimplifyM NodeRef) (node : RawNode)
    (op : NodeRef → NodeRef → BuilderM NodeRef) : SimplifyM NodeRef := do
  let arity := node.arity.toNat
  if arity = 0 then Grow.fail (.invalid "simplify" "n-ary node with no children")
  else do
    let acc ← processedChild view process node 0
    copyNaryFrom view process node op acc (List.range' 1 (arity - 1))

def copyUnary (process : NodeRef → SimplifyM NodeRef) (node : RawNode)
    (op : NodeRef → BuilderM NodeRef) : SimplifyM NodeRef := do
  let child ← processedChild view process node 0
  onBuilder (op child)

def copyBinary (process : NodeRef → SimplifyM NodeRef) (node : RawNode)
    (op : NodeRef → NodeRef → BuilderM NodeRef) : SimplifyM NodeRef := do
  let a ← processedChild view process node 0
  let b ← processedChild view process node 1
  onBuilder (op a b)

/-- The loop of `copy_select`: the selectors and the values of the pairs. -/
def copyPairs (process : NodeRef → SimplifyM NodeRef) (node : RawNode) :
    List Nat → SimplifyM (List NodeRef × List NodeRef)
  | [] => pure ([], [])
  | pair :: rest => do
    let selector ← processedChild view process node (2 * pair)
    let value ← processedChild view process node (2 * pair + 1)
    let (selectors, values) ← copyPairs process node rest
    pure (selector :: selectors, value :: values)

def copySelect (process : NodeRef → SimplifyM NodeRef) (node : RawNode) : SimplifyM NodeRef := do
  let pairs := node.auxHi.toNat
  let (selectors, values) ← copyPairs view process node (List.range pairs)
  let default ← processedChild view process node (2 * pairs)
  onBuilder (ExprBuilder.bvSelect selectors values default)

def copyConst (node : RawNode) : SimplifyM NodeRef :=
  if node.width.toNat ≤ maxRumbaWidth then do
    let mask ← Grow.lift (maskForWidth R node.width)
    onBuilder (ExprBuilder.bvConst (node.payload &&& mask) node.width)
  else do
    let bytes ← Grow.lift (view.blobRef node.blobRef)
    onBuilder (ExprBuilder.bvConstWide bytes node.width)

/-- Rebuild a node with its children processed. -/
def copyNode (process : NodeRef → SimplifyM NodeRef) (node : RawNode) : SimplifyM NodeRef :=
  match Tag.tryFrom node.tag with
  | some .bvVar => do
    let name ← Grow.lift (view.blobStr node.blobRef "BV variable")
    onBuilder (ExprBuilder.bvVar name node.width)
  | some .bvConst => copyConst R view node
  | some .bvNot => copyUnary view process node ExprBuilder.bvNot
  | some .bvNeg => copyUnary view process node ExprBuilder.bvNeg
  | some .bvAnd => copyNary view process node ExprBuilder.bvAnd
  | some .bvOr => copyNary view process node ExprBuilder.bvOr
  | some .bvXor => copyNary view process node ExprBuilder.bvXor
  | some .bvAdd => copyNary view process node ExprBuilder.bvAdd
  | some .bvMul => copyNary view process node ExprBuilder.bvMul
  | some .bvSub => copyBinary view process node ExprBuilder.bvSub
  | some .bvUdiv => copyBinary view process node ExprBuilder.bvUdiv
  | some .bvUrem => copyBinary view process node ExprBuilder.bvUrem
  | some .bvSdiv => copyBinary view process node ExprBuilder.bvSdiv
  | some .bvSrem => copyBinary view process node ExprBuilder.bvSrem
  | some .bvSmod => copyBinary view process node ExprBuilder.bvSmod
  | some .bvShl => copyBinary view process node ExprBuilder.bvShl
  | some .bvLshr => copyBinary view process node ExprBuilder.bvLshr
  | some .bvAshr => copyBinary view process node ExprBuilder.bvAshr
  | some .bvExtract => copyUnary view process node fun child =>
      ExprBuilder.bvExtract child node.auxHi.toUInt32 node.auxLo
  | some .bvConcat => copyBinary view process node ExprBuilder.bvConcat
  | some .bvZext => copyUnary view process node fun child => ExprBuilder.bvZext child node.auxHi
  | some .bvSext => copyUnary view process node fun child => ExprBuilder.bvSext child node.auxHi
  | some .bvIte => do
    let cond ← processedChild view process node 0
    let thenValue ← processedChild view process node 1
    let elseValue ← processedChild view process node 2
    onBuilder (ExprBuilder.bvIte cond thenValue elseValue)
  | some .bvSelect => copySelect view process node
  | some .boolTrue => onBuilder ExprBuilder.boolTrue
  | some .boolFalse => onBuilder ExprBuilder.boolFalse
  | some .boolVar => do
    let name ← Grow.lift (view.blobStr node.blobRef "Bool variable")
    onBuilder (ExprBuilder.boolVar name)
  | some .boolNot => copyUnary view process node ExprBuilder.boolNot
  | some .boolAnd => copyBinary view process node ExprBuilder.boolAnd
  | some .boolOr => copyBinary view process node ExprBuilder.boolOr
  | some .boolImplies => copyBinary view process node ExprBuilder.boolImplies
  | some .bvEq => copyBinary view process node ExprBuilder.bvEq
  | some .bvUlt => copyBinary view process node ExprBuilder.bvUlt
  | some .bvUle => copyBinary view process node ExprBuilder.bvUle
  | some .bvSlt => copyBinary view process node ExprBuilder.bvSlt
  | some .bvSle => copyBinary view process node ExprBuilder.bvSle
  | some .uaddOvf => copyBinary view process node ExprBuilder.uaddOvf
  | some .saddOvf => copyBinary view process node ExprBuilder.saddOvf
  | some .usubOvf => copyBinary view process node ExprBuilder.usubOvf
  | some .ssubOvf => copyBinary view process node ExprBuilder.ssubOvf
  | some .umulOvf => copyBinary view process node ExprBuilder.umulOvf
  | some .smulOvf => copyBinary view process node ExprBuilder.smulOvf
  | some .negOvf => copyUnary view process node ExprBuilder.negOvf
  | some .sdivOvf => copyBinary view process node ExprBuilder.sdivOvf
  | none => Grow.fail (.invalid "simplify" s!"unsupported node tag {node.tag}")

def processUncached (process : NodeRef → SimplifyM NodeRef) (reference : NodeRef) :
    SimplifyM NodeRef := do
  let node ← Grow.lift (view.node reference.idx)
  if reference.sort = .bv ∧ isMbaOp node.tag ∧ 1 ≤ node.width.toNat ∧
      node.width.toNat ≤ maxRumbaWidth then do
    match ← tryIsland R view process reference node with
    | some simplified => pure simplified
    | none => copyNode R view process node
  else copyNode R view process node

def process : (fuel : Nat) → NodeRef → SimplifyM NodeRef
  | 0, _ => Grow.lift Outcome.panic
  | fuel + 1, reference => do
    match ← Grow.read fun s => ok (s.memo.lookup reference) with
    | some cached => pure cached
    | none => do
      let result ← processUncached R view (process fuel) reference
      Grow.modify (fun s => { s with memo := (reference, result) :: s.memo })
        fun s => le_refl s.builder
      pure result

end IslandSimplifier

/-! ## The backend -/

def identitySimplify (request : BinaryRequest) (targetNode : NodeRef) : SimplifyBlock :=
  ⟨request.expression, targetNode⟩

def simplifyRequest (R : RumbaCore) (request : BinaryRequest) : Result SimplifyBlock := do
  let target ← ofOption request.targetRef (.invalid "simplify request" "missing target_node")
  let view ← request.expressionView
  match (IslandSimplifier.process R view (target.idx + 1) target).run .new with
  | (.ok root, simplifier) => do
    let expression ← simplifier.builder.toBytes
    pure ⟨expression, root⟩
  | (.err _, _) => pure (identitySimplify request target)
  | (.panic, _) => Outcome.panic

def rumbaHandle (R : RumbaCore) (request : BinaryRequest) : Result QueryResult :=
  match request.envelope.command with
  | .simplify => do
    let block ← simplifyRequest R request
    pure (.ofSimplified block)
  | .solve | .minimize | .maximize => ok (.ofUnknown "rumba only supports SIMPLIFY")

/-- `RumbaBackend`. -/
def rumbaBackend (R : RumbaCore) : Backend := ⟨"rumba", false, rumbaHandle R⟩

end Server
end SmtServer
