import SmtServer.Lib.Grow
import SmtServer.Lib.LittleEndian

/-!
# `ir.rs`, `error.rs`, `query.rs` — terms, arenas and queries

The term language of the solver and the hash-consed arena it lives in. `Arena::ids` is the
inverse index of `Arena::nodes` and is private, so `add`'s look-up is modelled on the vector
itself: the map holds a key exactly when the vector holds that node, and then the position.

`TermId` is a `u32` in the source. Ids are only made by `Arena::add`, which refuses to grow
past `u32::MAX` nodes, so a natural number is exact here and the refusal is the one place
where the width of the type is seen.
-/

namespace SmtServer
namespace Qfbv

open Lib

/-- `Error`. -/
inductive Error where
  | invalid (context message : String)
  | unsupported (message : String)
  | parse (message : String)
  | timeout
  | internal (message : String)
  deriving Repr, DecidableEq

/-- `Display`. -/
def Error.display : Error → String
  | .invalid context message => s!"invalid {context}: {message}"
  | .unsupported message => s!"unsupported feature: {message}"
  | .parse message => s!"parse error: {message}"
  | .timeout => "timeout"
  | .internal message => s!"internal error: {message}"

abbrev Result := Outcome Error

def maxBvWidth : Nat := 65536

abbrev TermId := Nat

/-- `Sort`, a keyword in Lean. -/
inductive TermSort where
  | bool
  | bv (width : Nat)
  deriving Repr, DecidableEq

/-- `{sort:?}`. -/
def TermSort.debug : TermSort → String
  | .bool => "Bool"
  | .bv width => s!"Bv({width})"

inductive NodeKind where
  | bvConst (width : Nat) (bytes : List UInt8)
  | bvVar (width : Nat) (name : String) (external : Option Nat)
  | boolConst (value : Bool)
  | boolVar (name : String) (external : Option Nat)
  | bvNot (x : TermId)
  | bvNeg (x : TermId)
  | bvAnd (a b : TermId)
  | bvOr (a b : TermId)
  | bvXor (a b : TermId)
  | bvAdd (a b : TermId)
  | bvSub (a b : TermId)
  | bvMul (a b : TermId)
  | bvUDiv (a b : TermId)
  | bvURem (a b : TermId)
  | bvSDiv (a b : TermId)
  | bvSRem (a b : TermId)
  | bvSMod (a b : TermId)
  | bvShl (a b : TermId)
  | bvLShr (a b : TermId)
  | bvAShr (a b : TermId)
  | bvExtract (child : TermId) (high low : Nat)
  | bvConcat (high low : TermId)
  | bvZeroExtend (child : TermId) (extra : Nat)
  | bvSignExtend (child : TermId) (extra : Nat)
  | bvRepeat (child : TermId) (count : Nat)
  | bvRotateLeft (child : TermId) (amount : Nat)
  | bvRotateRight (child : TermId) (amount : Nat)
  | bvIte (cond thenValue elseValue : TermId)
  | bvSelect (cases : List (TermId × TermId)) (default : TermId)
  | boolNot (x : TermId)
  | boolAnd (a b : TermId)
  | boolOr (a b : TermId)
  | boolImplies (a b : TermId)
  | boolEq (a b : TermId)
  | boolIte (cond thenValue elseValue : TermId)
  | bvEq (a b : TermId)
  | bvUlt (a b : TermId)
  | bvUle (a b : TermId)
  | bvSlt (a b : TermId)
  | bvSle (a b : TermId)
  | uAddOverflow (a b : TermId)
  | sAddOverflow (a b : TermId)
  | uSubOverflow (a b : TermId)
  | sSubOverflow (a b : TermId)
  | uMulOverflow (a b : TermId)
  | sMulOverflow (a b : TermId)
  | negOverflow (x : TermId)
  | sDivOverflow (a b : TermId)
  deriving DecidableEq

structure Node where
  kind : NodeKind
  sort : TermSort
  deriving DecidableEq

structure Arena where
  nodes : List Node

/-- An arena is extended by appending nodes. -/
instance : Preorder Arena where
  le s t := s.nodes <+: t.nodes
  le_refl s := List.prefix_refl s.nodes
  le_trans _ _ _ h₁ h₂ := h₁.trans h₂

/-- A computation that may add terms. -/
abbrev ArenaM := Grow Arena Error

/-! ## Widths and byte strings -/

def validateBvWidth (width : Nat) (context : String) : Result Unit :=
  .ensure (1 ≤ width ∧ width ≤ maxBvWidth)
    (.invalid context s!"width {width} is outside 1..={maxBvWidth}")

def validateSort : TermSort → Result Unit
  | .bool => .ok ()
  | .bv width => validateBvWidth width "BV sort width"

/-- `(width as usize).div_ceil(8)`. -/
def divCeil8 (width : Nat) : Nat := (width + 7) / 8

def bytesForWidth (width : Nat) : Result Nat := do
  validateBvWidth width "BV width"
  pure (divCeil8 width)

def maskUnusedHighBits (bytes : List UInt8) (width : Nat) : List UInt8 :=
  let validBits := width % 8
  if validBits = 0 ∨ bytes = [] then bytes
  else
    let mask : UInt8 := UInt8.ofNat (2 ^ validBits - 1)
    bytes.modify (bytes.length - 1) (· &&& mask)

def normalizedBytes (bytes : List UInt8) (width : Nat) : Result (List UInt8) := do
  let expected ← bytesForWidth width
  .ensure (bytes.length = expected)
    (.invalid "BV bytes"
      s!"got {bytes.length} bytes, expected {expected} for width {width}")
  pure (maskUnusedHighBits bytes width)

/-! ## The arena -/

namespace Arena

def empty : Arena := ⟨[]⟩

/-- The error of an arena that has used up its ids. -/
def full : Error := .invalid "arena" "node count exceeds u32::MAX"

def node (s : Arena) (id : TermId) : Result Node :=
  .ofOption s.nodes[id]? (.invalid "term id"
    s!"term {id} is out of bounds for {s.nodes.length} nodes")

def sort (s : Arena) (id : TermId) : Result TermSort := do
  let n ← s.node id
  pure n.sort

def add (kind : NodeKind) (sort : TermSort) : ArenaM TermId where
  run s :=
    match validateSort sort with
    | .err e => (.err e, s)
    | .panic => (.panic, s)
    | .ok () =>
      match s.nodes.findIdx? (· = ⟨kind, sort⟩) with
      | some existing => (.ok existing, s)
      | none =>
        if s.nodes.length < 2 ^ 32 then
          (.ok s.nodes.length, ⟨s.nodes ++ [⟨kind, sort⟩]⟩)
        else (.err full, s)
  grows s := by
    split
    · exact le_refl s
    · exact le_refl s
    · split
      · exact le_refl s
      · split
        · exact List.prefix_append _ _
        · exact le_refl s

def expectBool (s : Arena) (id : TermId) (context : String) : Result Unit := do
  let sort ← s.sort id
  .ensure (sort = .bool) (.invalid context s!"expected Bool term, got {sort.debug}")

def expectBv (s : Arena) (id : TermId) (context : String) : Result Nat := do
  match ← s.sort id with
  | .bv width => pure width
  | .bool => .err (.invalid context "expected BV term, got Bool")

def expectSameBv (s : Arena) (a b : TermId) (context : String) : Result Nat := do
  let aw ← s.expectBv a context
  let bw ← s.expectBv b context
  .ensure (aw = bw) (.invalid context s!"BV width mismatch: {aw} vs {bw}")
  pure aw

end Arena

/-! ## Queries -/

/-- `Command`. -/
inductive Command where
  | solve
  | simplify
  | minimize
  | maximize
  deriving Repr, DecidableEq

structure Assertion where
  root : TermId
  name : Option String
  deriving DecidableEq

structure Query where
  arena : Arena
  assertions : List Assertion
  assumptions : List TermId
  command : Command
  target : Option TermId
  signed : Bool
  wantModel : Bool
  wantCore : Bool
  getValues : List String

/-- The roots of all assertions, then all assumptions. -/
def Query.assertionsAndAssumptions (q : Query) : List TermId :=
  q.assertions.map (·.root) ++ q.assumptions

end Qfbv
end SmtServer
