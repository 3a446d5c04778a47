import SmtServer.Wire.BuilderOps

/-!
# `api.rs` — contexts and term handles

A `Context` is a shared, mutable `ExprBuilder`; a term is a *handle*: a pointer to the context it
was obtained from and the reference of its node. No handle holds the node itself, so every method
that is given one first asks whether it belongs to this context (`Rc::ptr_eq`) and whether a node
of its sort stands at its index (`meta_for_ref`).

Every `Context::new` allocates and takes the next number of a process-wide counter, so the number
stands for the allocation. Methods are those of `BuilderM` with the number of the context as their
first argument; only `reset`, which empties the builder, is not one of these.

Rendering (`to_smt2`), `walk` and `visit` change nothing and are left out; they read nodes through
the functions that are here.
-/

namespace SmtServer
namespace Wire

open Lib Outcome

/-! ## Handles -/

structure BvTerm where
  ctx : Nat
  reference : NodeRef
  deriving DecidableEq

structure BoolTerm where
  ctx : Nat
  reference : NodeRef
  deriving DecidableEq

inductive Term where
  | bv (term : BvTerm)
  | bool (term : BoolTerm)
  deriving DecidableEq

namespace Term

def ctx : Term → Nat
  | .bv t => t.ctx
  | .bool t => t.ctx

def reference : Term → NodeRef
  | .bv t => t.reference
  | .bool t => t.reference

end Term

/-- `BvOperand`; an owned term is a term. -/
inductive BvOperand where
  | term (t : BvTerm)
  | unsigned (value : UInt64)
  | signed (value : Int64)

structure Context where
  id : Nat
  builder : ExprBuilder
  deriving DecidableEq

namespace Context

def new (id : Nat) : Context := ⟨id, ExprBuilder.new⟩

variable (ctx : Nat)

/-- `Display`. -/
def display : String := s!"Context#{ctx}"

/-! ## From references to handles and back -/

def metaForRef (reference : NodeRef) (s : ExprBuilder) : Result NodeMeta := do
  let m ← ofOption s.metas[reference.idx]? (.invalid "node reference"
    s!"reference {hex 8 reference.raw.toNat} points outside {s.metas.length} nodes")
  ensure (m.sort = reference.sort) (.invalid "node reference"
    s!"reference sort {reference.sort.debug} does not match node sort {m.sort.debug}")
  pure m

def bvTerm (reference : NodeRef) (s : ExprBuilder) : Result BvTerm := do
  let m ← metaForRef reference s
  ensure (m.sort = .bv) (.invalid "term reference" "expected BV term")
  pure ⟨ctx, reference⟩

def boolTerm (reference : NodeRef) (s : ExprBuilder) : Result BoolTerm := do
  let m ← metaForRef reference s
  ensure (m.sort = .bool) (.invalid "term reference" "expected Bool term")
  pure ⟨ctx, reference⟩

def term (reference : NodeRef) (s : ExprBuilder) : Result Term := do
  let m ← metaForRef reference s
  if m.sort = .bool then do
    let t ← boolTerm ctx reference s
    pure (.bool t)
  else do
    let t ← bvTerm ctx reference s
    pure (.bv t)

/-- `Rc::ptr_eq` on the context of a handle. -/
def expectOwn (owner : Nat) (op : String) : Result Unit :=
  ensure (ctx = owner) (.invalid op s!"term from {display owner}, expected {display ctx}")

def expectBv (t : BvTerm) (op : String) (s : ExprBuilder) : Result (NodeRef × UInt32) := do
  expectOwn ctx t.ctx op
  let m ← metaForRef t.reference s
  ensure (m.sort = .bv) (.invalid op "expected BV term")
  pure (t.reference, m.width)

def expectBool (t : BoolTerm) (op : String) (s : ExprBuilder) : Result Unit := do
  expectOwn ctx t.ctx op
  let m ← metaForRef t.reference s
  ensure (m.sort = .bool) (.invalid op "expected Bool term")

def expectTerm (t : Term) (op : String) (s : ExprBuilder) : Result Unit :=
  match t with
  | .bv t => do
    let _ ← expectBv ctx t op s
    pure ()
  | .bool t => expectBool ctx t op s

/-- A Bool handle of this context, as the reference it holds. -/
def boolRef (op : String) (s : ExprBuilder) (t : BoolTerm) : Result NodeRef := do
  expectBool ctx t op s
  pure t.reference

/-- A bit-vector handle of this context, as the reference it holds. -/
def bvRef (op : String) (s : ExprBuilder) (t : BvTerm) : Result NodeRef := do
  let x ← expectBv ctx t op s
  pure x.1

/-- The last line of a construction method: a handle for what was built. -/
def bvHandle (build : BuilderM NodeRef) : BuilderM BvTerm := do
  let reference ← build
  Grow.read (bvTerm ctx reference)

def boolHandle (build : BuilderM NodeRef) : BuilderM BoolTerm := do
  let reference ← build
  Grow.read (boolTerm ctx reference)

/-! ## Variables and constants -/

def bvVar (name : String) (width : UInt32) : BuilderM BvTerm :=
  bvHandle ctx (ExprBuilder.bvVar name width)

def boolVar (name : String) : BuilderM BoolTerm := boolHandle ctx (ExprBuilder.boolVar name)

def bvConst (value : UInt64) (width : UInt32) : BuilderM BvTerm :=
  bvHandle ctx (ExprBuilder.bvConst value width)

def bvConstI64 (value : Int64) (width : UInt32) : BuilderM BvTerm :=
  bvConst ctx value.toUInt64 width

def bvConstWide (bytes : List UInt8) (width : UInt32) : BuilderM BvTerm :=
  bvHandle ctx (ExprBuilder.bvConstWide bytes width)

def trueTerm : BuilderM BoolTerm := boolHandle ctx ExprBuilder.boolTrue
def falseTerm : BuilderM BoolTerm := boolHandle ctx ExprBuilder.boolFalse

def boolConst (value : Bool) : BuilderM BoolTerm :=
  if value then trueTerm ctx else falseTerm ctx

/-! ## Families of operators -/

def coerceBvOperand (value : BvOperand) (width : UInt32) (op : String) : BuilderM BvTerm :=
  match value with
  | .term t => do
    let actual ← Grow.read (expectBv ctx t op)
    Grow.lift (ensure (actual.2 = width)
      (.invalid op s!"BV width mismatch ({width} vs {actual.2})"))
    pure t
  | .unsigned value => bvConst ctx value width
  | .signed value => bvConst ctx value.toUInt64 width

/-- The operator `bv_unary` builds for a tag. -/
def pushUnary (tag : Tag) (x : NodeRef) : BuilderM NodeRef :=
  match tag with
  | .bvNot => ExprBuilder.bvNot x
  | .bvNeg => ExprBuilder.bvNeg x
  | _ => Grow.fail (.invalid "BV unary" s!"unsupported tag {tag.name}")

def bvUnary (tag : Tag) (x : BvTerm) : BuilderM BvTerm := do
  let x ← Grow.read (expectBv ctx x tag.smtSymbol)
  bvHandle ctx (pushUnary tag x.1)

/-- The operator `bv_binary` builds for a tag. -/
def pushBinary (tag : Tag) (a b : NodeRef) : BuilderM NodeRef :=
  match tag with
  | .bvAnd => ExprBuilder.bvAnd a b
  | .bvOr => ExprBuilder.bvOr a b
  | .bvXor => ExprBuilder.bvXor a b
  | .bvAdd => ExprBuilder.bvAdd a b
  | .bvSub => ExprBuilder.bvSub a b
  | .bvMul => ExprBuilder.bvMul a b
  | .bvUdiv => ExprBuilder.bvUdiv a b
  | .bvUrem => ExprBuilder.bvUrem a b
  | .bvSdiv => ExprBuilder.bvSdiv a b
  | .bvSrem => ExprBuilder.bvSrem a b
  | .bvSmod => ExprBuilder.bvSmod a b
  | .bvShl => ExprBuilder.bvShl a b
  | .bvLshr => ExprBuilder.bvLshr a b
  | .bvAshr => ExprBuilder.bvAshr a b
  | _ => Grow.fail (.invalid "BV binary" s!"unsupported tag {tag.name}")

def bvBinary (tag : Tag) (a : BvTerm) (b : BvOperand) : BuilderM BvTerm := do
  let a ← Grow.read (expectBv ctx a tag.smtSymbol)
  let b ← coerceBvOperand ctx b a.2 tag.smtSymbol
  bvHandle ctx (pushBinary tag a.1 b.reference)

def pushBvCmp (tag : Tag) (a b : NodeRef) : BuilderM NodeRef :=
  match tag with
  | .bvEq => ExprBuilder.bvEq a b
  | .bvUlt => ExprBuilder.bvUlt a b
  | .bvUle => ExprBuilder.bvUle a b
  | .bvSlt => ExprBuilder.bvSlt a b
  | .bvSle => ExprBuilder.bvSle a b
  | .uaddOvf => ExprBuilder.uaddOvf a b
  | .saddOvf => ExprBuilder.saddOvf a b
  | .usubOvf => ExprBuilder.usubOvf a b
  | .ssubOvf => ExprBuilder.ssubOvf a b
  | .umulOvf => ExprBuilder.umulOvf a b
  | .smulOvf => ExprBuilder.smulOvf a b
  | .sdivOvf => ExprBuilder.sdivOvf a b
  | _ => Grow.fail (.invalid "BV comparison" s!"unsupported tag {tag.name}")

def bvCmp (tag : Tag) (a : BvTerm) (b : BvOperand) : BuilderM BoolTerm := do
  let a ← Grow.read (expectBv ctx a tag.smtSymbol)
  let b ← coerceBvOperand ctx b a.2 tag.smtSymbol
  boolHandle ctx (pushBvCmp tag a.1 b.reference)

def bvCmpReverse (tag : Tag) (a : BvTerm) (b : BvOperand) : BuilderM BoolTerm := do
  let x ← Grow.read (expectBv ctx a tag.smtSymbol)
  let b ← coerceBvOperand ctx b x.2 tag.smtSymbol
  boolHandle ctx (pushBvCmp tag b.reference a.reference)

/-- The connective `bool_binary` builds for a tag. -/
def pushBool (tag : Tag) (a b : NodeRef) : BuilderM NodeRef :=
  match tag with
  | .boolAnd => ExprBuilder.boolAnd a b
  | .boolOr => ExprBuilder.boolOr a b
  | .boolImplies => ExprBuilder.boolImplies a b
  | _ => Grow.fail (.invalid "Bool binary" s!"unsupported tag {tag.name}")

def boolBinary (tag : Tag) (a b : BoolTerm) : BuilderM BoolTerm := do
  Grow.read (expectBool ctx a tag.smtSymbol)
  Grow.read (expectBool ctx b tag.smtSymbol)
  boolHandle ctx (pushBool tag a.reference b.reference)

/-! ## Operators -/

def bvNot (x : BvTerm) : BuilderM BvTerm := bvUnary ctx .bvNot x
def bvNeg (x : BvTerm) : BuilderM BvTerm := bvUnary ctx .bvNeg x
def bvAnd (a : BvTerm) (b : BvOperand) : BuilderM BvTerm := bvBinary ctx .bvAnd a b
def bvOr (a : BvTerm) (b : BvOperand) : BuilderM BvTerm := bvBinary ctx .bvOr a b
def bvXor (a : BvTerm) (b : BvOperand) : BuilderM BvTerm := bvBinary ctx .bvXor a b
def bvAdd (a : BvTerm) (b : BvOperand) : BuilderM BvTerm := bvBinary ctx .bvAdd a b
def bvSub (a : BvTerm) (b : BvOperand) : BuilderM BvTerm := bvBinary ctx .bvSub a b
def bvMul (a : BvTerm) (b : BvOperand) : BuilderM BvTerm := bvBinary ctx .bvMul a b
def bvUdiv (a : BvTerm) (b : BvOperand) : BuilderM BvTerm := bvBinary ctx .bvUdiv a b
def bvUrem (a : BvTerm) (b : BvOperand) : BuilderM BvTerm := bvBinary ctx .bvUrem a b
def bvSdiv (a : BvTerm) (b : BvOperand) : BuilderM BvTerm := bvBinary ctx .bvSdiv a b
def bvSrem (a : BvTerm) (b : BvOperand) : BuilderM BvTerm := bvBinary ctx .bvSrem a b
def bvSmod (a : BvTerm) (b : BvOperand) : BuilderM BvTerm := bvBinary ctx .bvSmod a b
def bvShl (a : BvTerm) (b : BvOperand) : BuilderM BvTerm := bvBinary ctx .bvShl a b
def bvLshr (a : BvTerm) (b : BvOperand) : BuilderM BvTerm := bvBinary ctx .bvLshr a b
def bvAshr (a : BvTerm) (b : BvOperand) : BuilderM BvTerm := bvBinary ctx .bvAshr a b
def bvEq (a : BvTerm) (b : BvOperand) : BuilderM BoolTerm := bvCmp ctx .bvEq a b
def bvUlt (a : BvTerm) (b : BvOperand) : BuilderM BoolTerm := bvCmp ctx .bvUlt a b
def bvUle (a : BvTerm) (b : BvOperand) : BuilderM BoolTerm := bvCmp ctx .bvUle a b
def bvUgt (a : BvTerm) (b : BvOperand) : BuilderM BoolTerm := bvCmpReverse ctx .bvUlt a b
def bvUge (a : BvTerm) (b : BvOperand) : BuilderM BoolTerm := bvCmpReverse ctx .bvUle a b
def bvSlt (a : BvTerm) (b : BvOperand) : BuilderM BoolTerm := bvCmp ctx .bvSlt a b
def bvSle (a : BvTerm) (b : BvOperand) : BuilderM BoolTerm := bvCmp ctx .bvSle a b
def bvSgt (a : BvTerm) (b : BvOperand) : BuilderM BoolTerm := bvCmpReverse ctx .bvSlt a b
def bvSge (a : BvTerm) (b : BvOperand) : BuilderM BoolTerm := bvCmpReverse ctx .bvSle a b
def bvUaddOverflows (a : BvTerm) (b : BvOperand) : BuilderM BoolTerm := bvCmp ctx .uaddOvf a b
def bvSaddOverflows (a : BvTerm) (b : BvOperand) : BuilderM BoolTerm := bvCmp ctx .saddOvf a b
def bvUsubOverflows (a : BvTerm) (b : BvOperand) : BuilderM BoolTerm := bvCmp ctx .usubOvf a b
def bvSsubOverflows (a : BvTerm) (b : BvOperand) : BuilderM BoolTerm := bvCmp ctx .ssubOvf a b
def bvUmulOverflows (a : BvTerm) (b : BvOperand) : BuilderM BoolTerm := bvCmp ctx .umulOvf a b
def bvSmulOverflows (a : BvTerm) (b : BvOperand) : BuilderM BoolTerm := bvCmp ctx .smulOvf a b
def bvSdivOverflows (a : BvTerm) (b : BvOperand) : BuilderM BoolTerm := bvCmp ctx .sdivOvf a b
def boolAnd (a b : BoolTerm) : BuilderM BoolTerm := boolBinary ctx .boolAnd a b
def boolOr (a b : BoolTerm) : BuilderM BoolTerm := boolBinary ctx .boolOr a b
def boolImplies (a b : BoolTerm) : BuilderM BoolTerm := boolBinary ctx .boolImplies a b

def boolNot (x : BoolTerm) : BuilderM BoolTerm := do
  Grow.read (expectBool ctx x "not")
  boolHandle ctx (ExprBuilder.boolNot x.reference)

def bvNegOverflows (x : BvTerm) : BuilderM BoolTerm := do
  let _ ← Grow.read (expectBv ctx x Tag.negOvf.smtSymbol)
  boolHandle ctx (ExprBuilder.negOvf x.reference)

def bvNe (a : BvTerm) (b : BvOperand) : BuilderM BoolTerm := do
  let eq ← bvEq ctx a b
  boolNot ctx eq

def bvExtract (x : BvTerm) (hi lo : UInt32) : BuilderM BvTerm := do
  let x ← Grow.read (expectBv ctx x "extract")
  bvHandle ctx (ExprBuilder.bvExtract x.1 hi lo)

def bvConcat (high low : BvTerm) : BuilderM BvTerm := do
  let h ← Grow.read (expectBv ctx high "concat")
  let l ← Grow.read (expectBv ctx low "concat")
  bvHandle ctx (ExprBuilder.bvConcat h.1 l.1)

def bvZext (x : BvTerm) (amount : UInt16) : BuilderM BvTerm := do
  let x ← Grow.read (expectBv ctx x "zero_extend")
  bvHandle ctx (ExprBuilder.bvZext x.1 amount)

def bvSext (x : BvTerm) (amount : UInt16) : BuilderM BvTerm := do
  let x ← Grow.read (expectBv ctx x "sign_extend")
  bvHandle ctx (ExprBuilder.bvSext x.1 amount)

/-- Both true or both false, by four nodes of its own. -/
def boolEq (a b : BoolTerm) : BuilderM BoolTerm := do
  Grow.read (expectBool ctx a "=")
  Grow.read (expectBool ctx b "=")
  let bothTrue ← boolAnd ctx a b
  let notA ← boolNot ctx a
  let notB ← boolNot ctx b
  let bothFalse ← boolAnd ctx notA notB
  boolOr ctx bothTrue bothFalse

def bvIte (cond : BoolTerm) (thenValue elseValue : BvTerm) : BuilderM BvTerm := do
  Grow.read (expectBool ctx cond "ite")
  let t ← Grow.read (expectBv ctx thenValue "ite")
  let e ← Grow.read (expectBv ctx elseValue "ite")
  bvHandle ctx (ExprBuilder.bvIte cond.reference t.1 e.1)

def boolIte (cond thenValue elseValue : BoolTerm) : BuilderM BoolTerm := do
  Grow.read (expectBool ctx cond "ite")
  Grow.read (expectBool ctx thenValue "ite")
  Grow.read (expectBool ctx elseValue "ite")
  let condThen ← boolAnd ctx cond thenValue
  let notCond ← boolNot ctx cond
  let elseBranch ← boolAnd ctx notCond elseValue
  boolOr ctx condThen elseBranch

/-- The `match` of `ite` on the sorts of its branches. -/
def iteBranches (cond : BoolTerm) : Term → Term → BuilderM Term
  | .bv t, .bv e => do
    let x ← bvIte ctx cond t e
    pure (.bv x)
  | .bool t, .bool e => do
    let x ← boolIte ctx cond t e
    pure (.bool x)
  | _, _ => Grow.fail (.invalid "ite"
    "branch sort mismatch; expected both branches to be BV or both Bool")

def ite (cond : BoolTerm) (thenTerm elseTerm : Term) : BuilderM Term := do
  Grow.read (expectBool ctx cond "ite")
  Grow.read (expectTerm ctx thenTerm "ite")
  Grow.read (expectTerm ctx elseTerm "ite")
  iteBranches ctx cond thenTerm elseTerm

def bvSelect (selectors : List BoolTerm) (values : List BvTerm) (default : BvTerm) :
    BuilderM BvTerm := do
  let defaultRef ← Grow.read (expectBv ctx default "select")
  let selectorRefs ← Grow.read fun s => selectors.mapM (boolRef ctx "select" s)
  let valueRefs ← Grow.read fun s => values.mapM (bvRef ctx "select" s)
  bvHandle ctx (ExprBuilder.bvSelect selectorRefs valueRefs defaultRef.1)

def bvRotateLeft (x : BvTerm) (amount : UInt64) : BuilderM BvTerm := do
  let x ← Grow.read (expectBv ctx x "rotate_left")
  bvHandle ctx (ExprBuilder.bvRotateLeft x.1 amount)

def bvRotateRight (x : BvTerm) (amount : UInt64) : BuilderM BvTerm := do
  let x ← Grow.read (expectBv ctx x "rotate_right")
  bvHandle ctx (ExprBuilder.bvRotateRight x.1 amount)

/-! ## Assertions, assumptions, scopes -/

def assert (root : BoolTerm) : BuilderM Unit := do
  Grow.read (expectBool ctx root "assert")
  ExprBuilder.assert root.reference

def assertNamed (name : String) (root : BoolTerm) : BuilderM Unit := do
  Grow.read (expectBool ctx root "assert_named")
  ExprBuilder.assertNamed name root.reference

def assume (root : BoolTerm) : BuilderM Unit := do
  Grow.read (expectBool ctx root "assume")
  ExprBuilder.assume root.reference

def assertMutex (selectors : List BoolTerm) : BuilderM Unit := do
  let refs ← Grow.read fun s => selectors.mapM (boolRef ctx "assert_mutex" s)
  ExprBuilder.assertMutex refs

/-! ## Reading -/

def assertions (s : ExprBuilder) : Result (List BoolTerm) :=
  s.assertions.mapM fun a => boolTerm ctx a.root s

def assumptions (s : ExprBuilder) : Result (List BoolTerm) :=
  s.assumptions.mapM fun r => boolTerm ctx r s

/-- `blob_ref` of `BuilderBlobExt`. -/
def blobRef (reference : BlobRef) (s : ExprBuilder) : Result (List UInt8) := do
  let start := reference.offset.toNat
  let stop ← checkedAdd start reference.len.toNat "blob reference"
  ensure (stop ≤ s.blob.length)
    (.invalid "blob reference" "offset plus length exceeds blob length")
  slice s.blob start stop

/-- `blob_str` and `blob_str_from_builder`. -/
def blobStr (reference : BlobRef) (s : ExprBuilder) : Result String := do
  let bytes ← blobRef reference s
  ofOption (utf8? bytes) (.invalidUtf8 "blob string" reference.offset reference.len)

/-- An assertion with a name, as `named_assertions` returns it. -/
def namedAssertion (s : ExprBuilder) (assertion : Assertion) :
    Result (Option (String × BoolTerm)) :=
  match assertion.name with
  | some nameRef => do
    let name ← blobStr nameRef s
    let root ← boolTerm ctx assertion.root s
    pure (some (name, root))
  | none => pure none

def namedAssertions (s : ExprBuilder) : Result (List (String × BoolTerm)) := do
  let named ← s.assertions.mapM (namedAssertion ctx s)
  pure (named.filterMap fun entry => entry)

def nodeForRef (reference : NodeRef) (s : ExprBuilder) : Result RawNode := do
  let _ ← metaForRef reference s
  expect s.nodes[reference.idx]?

def parseTag (raw : UInt8) : Result Tag :=
  ofOption (Tag.tryFrom raw) (.invalid "node tag" s!"unknown tag {raw}")

end Context

namespace Term

open Context

variable (t : Term) (s : ExprBuilder)

def width : Result UInt32 := do
  let m ← metaForRef t.reference s
  pure m.width

def op : Result Tag := do
  let node ← nodeForRef t.reference s
  Context.parseTag node.tag

def children : Result (List Term) := do
  let node ← nodeForRef t.reference s
  let start := node.children.toNat
  let refs ← slice s.children start (start + node.arity.toNat)
  refs.mapM fun r => term t.ctx r s

def name : Result String := do
  let node ← nodeForRef t.reference s
  let tag ← Context.parseTag node.tag
  ensure (tag = .bvVar ∨ tag = .boolVar)
    (.invalid "term name" s!"term #{t.reference.idx} is not a variable")
  blobStr node.blobRef s

def valueBytesLe : Result (List UInt8) := do
  let node ← nodeForRef t.reference s
  let tag ← Context.parseTag node.tag
  ensure (tag = .bvConst) (.invalid "BV constant" s!"term #{t.reference.idx} is not a BV constant")
  let len ← bytesForWidth node.width.toNat
  if node.width.toNat ≤ 64 then
    pure ((u64Bytes (ExprBuilder.maskU64 node.payload node.width.toNat)).take len)
  else blobRef node.blobRef s

def boolValue : Result Bool := do
  let tag ← op t s
  match tag with
  | .boolTrue => pure true
  | .boolFalse => pure false
  | _ => err (.invalid "Bool constant" s!"term #{t.reference.idx} is not a Bool constant")

def params : Result (List UInt32) := do
  let node ← nodeForRef t.reference s
  let tag ← Context.parseTag node.tag
  match tag with
  | .bvExtract => pure [UInt32.ofNat node.auxHi.toNat, node.auxLo]
  | .bvZext | .bvSext | .bvSelect => pure [UInt32.ofNat node.auxHi.toNat]
  | _ => pure []

end Term

namespace Context

variable (ctx : Nat)

def buildSimplifyRequest (requestId : UInt32) (target : Term) (s : ExprBuilder) :
    Result (List UInt8) := do
  expectTerm ctx target "simplify" s
  s.buildRequest requestId .simplify 0 0 (some target.reference)

/-- `build_minimize_request` and `build_maximize_request`, with the word of each. -/
def buildOptimizeRequest (command : Command) (op : String) (requestId : UInt32) (target : BvTerm)
    (signed : Bool) (budgetMs : UInt32) (wantModel : Bool) (s : ExprBuilder) :
    Result (List UInt8) := do
  let _ ← expectBv ctx target op s
  let flags := (if signed then RequestFlags.signed else 0) |||
    (if wantModel then RequestFlags.wantModel else 0)
  s.buildRequest requestId command flags budgetMs (some target.reference)

def buildMinimizeRequest (requestId : UInt32) (target : BvTerm) (signed : Bool)
    (budgetMs : UInt32) (wantModel : Bool) (s : ExprBuilder) : Result (List UInt8) :=
  buildOptimizeRequest ctx .minimize "minimize" requestId target signed budgetMs wantModel s

def buildMaximizeRequest (requestId : UInt32) (target : BvTerm) (signed : Bool)
    (budgetMs : UInt32) (wantModel : Bool) (s : ExprBuilder) : Result (List UInt8) :=
  buildOptimizeRequest ctx .maximize "maximize" requestId target signed budgetMs wantModel s

/-! ## Importing -/

/-- A round of the loop over the nodes of the buffer. -/
def importNode (view : ExprView) (s : ExprBuilder) (i : Nat) : Result ExprBuilder := do
  let node ← view.node i
  let tag ← Context.parseTag node.tag
  pure { s with
    nodes := s.nodes ++ [node]
    metas := s.metas ++ [⟨tag.resultSort, node.width⟩] }

def importChild (view : ExprView) (s : ExprBuilder) (i : Nat) : Result ExprBuilder := do
  let r ← view.childRef i
  pure { s with children := s.children ++ [r] }

/-- Entering a variable node into the three tables of symbols; a later node of the same name takes
the place of an earlier one. -/
def importSymbol (s : ExprBuilder) (i : Nat) : Result ExprBuilder := do
  let node ← expect s.nodes[i]?
  let tag ← Context.parseTag node.tag
  if tag = .bvVar ∨ tag = .boolVar then do
    let name ← blobStr node.blobRef s
    let signature : NodeMeta := ⟨tag.resultSort, node.width⟩
    let reference ← NodeRef.new signature.sort (UInt32.ofNat i)
    if signature.sort = .bv then
      pure { s with
        symbols := (name, signature) :: s.symbols
        bvVars := ((name, signature.width), reference) :: s.bvVars }
    else
      pure { s with
        symbols := (name, signature) :: s.symbols
        boolVars := (name, reference) :: s.boolVars }
  else pure s

/-- `from_expression_bytes`, which makes the context with the next number. -/
def fromExpressionBytes (id : Nat) (bytes : List UInt8) : Result Context := do
  let view ← ExprView.parseAndValidate bytes
  let s ← (List.range view.header.nodeCount.toNat).foldlM (importNode view) ExprBuilder.new
  let s ← (List.range view.header.childCount.toNat).foldlM (importChild view) s
  let blob ← view.blob
  let s := { s with blob := s.blob ++ blob }
  let s ← (List.range s.nodes.length).foldlM importSymbol s
  pure ⟨id, s⟩

end Context
end Wire
end SmtServer
