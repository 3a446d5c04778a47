import SmtServer.Wire.Le

/-!
# `constants.rs` — tags, commands, statuses and flags
-/

namespace SmtServer
namespace Wire

open Lib Outcome

/-- `EXPR_MAGIC`, the bytes `SMT` and a zero. -/
def exprMagic : List UInt8 := [0x53, 0x4d, 0x54, 0x00]
/-- `REQUEST_MAGIC`, `SMTQ`. -/
def requestMagic : List UInt8 := [0x53, 0x4d, 0x54, 0x51]
/-- `RESPONSE_MAGIC`, `SMTR`. -/
def responseMagic : List UInt8 := [0x53, 0x4d, 0x54, 0x52]
def version : UInt8 := 1

def exprHeaderLen : Nat := 32
def nodeRecordLen : Nat := 24
def requestEnvelopeLen : Nat := 32
def responseEnvelopeLen : Nat := 16

/-- Operators, in the order of their codes. -/
inductive Tag where
  | bvVar
  | bvConst
  | bvNot
  | bvNeg
  | bvAnd
  | bvOr
  | bvXor
  | bvAdd
  | bvSub
  | bvMul
  | bvUdiv
  | bvUrem
  | bvSdiv
  | bvSrem
  | bvSmod
  | bvShl
  | bvLshr
  | bvAshr
  | bvExtract
  | bvConcat
  | bvZext
  | bvSext
  | bvIte
  | bvSelect
  | boolTrue
  | boolFalse
  | boolVar
  | boolNot
  | boolAnd
  | boolOr
  | boolImplies
  | bvEq
  | bvUlt
  | bvUle
  | bvSlt
  | bvSle
  | uaddOvf
  | saddOvf
  | usubOvf
  | ssubOvf
  | umulOvf
  | smulOvf
  | negOvf
  | sdivOvf
  deriving Repr, DecidableEq

namespace Tag

/-- `u8::from`. -/
def toByte : Tag → UInt8
  | .bvVar => 0
  | .bvConst => 1
  | .bvNot => 2
  | .bvNeg => 3
  | .bvAnd => 4
  | .bvOr => 5
  | .bvXor => 6
  | .bvAdd => 7
  | .bvSub => 8
  | .bvMul => 9
  | .bvUdiv => 10
  | .bvUrem => 11
  | .bvSdiv => 12
  | .bvSrem => 13
  | .bvSmod => 14
  | .bvShl => 15
  | .bvLshr => 16
  | .bvAshr => 17
  | .bvExtract => 18
  | .bvConcat => 19
  | .bvZext => 20
  | .bvSext => 21
  | .bvIte => 22
  | .bvSelect => 23
  | .boolTrue => 24
  | .boolFalse => 25
  | .boolVar => 26
  | .boolNot => 27
  | .boolAnd => 28
  | .boolOr => 29
  | .boolImplies => 30
  | .bvEq => 31
  | .bvUlt => 32
  | .bvUle => 33
  | .bvSlt => 34
  | .bvSle => 35
  | .uaddOvf => 36
  | .saddOvf => 37
  | .usubOvf => 38
  | .ssubOvf => 39
  | .umulOvf => 40
  | .smulOvf => 41
  | .negOvf => 42
  | .sdivOvf => 43

def tryFrom (value : UInt8) : Option Tag :=
  match value.toNat with
  | 0 => some .bvVar
  | 1 => some .bvConst
  | 2 => some .bvNot
  | 3 => some .bvNeg
  | 4 => some .bvAnd
  | 5 => some .bvOr
  | 6 => some .bvXor
  | 7 => some .bvAdd
  | 8 => some .bvSub
  | 9 => some .bvMul
  | 10 => some .bvUdiv
  | 11 => some .bvUrem
  | 12 => some .bvSdiv
  | 13 => some .bvSrem
  | 14 => some .bvSmod
  | 15 => some .bvShl
  | 16 => some .bvLshr
  | 17 => some .bvAshr
  | 18 => some .bvExtract
  | 19 => some .bvConcat
  | 20 => some .bvZext
  | 21 => some .bvSext
  | 22 => some .bvIte
  | 23 => some .bvSelect
  | 24 => some .boolTrue
  | 25 => some .boolFalse
  | 26 => some .boolVar
  | 27 => some .boolNot
  | 28 => some .boolAnd
  | 29 => some .boolOr
  | 30 => some .boolImplies
  | 31 => some .bvEq
  | 32 => some .bvUlt
  | 33 => some .bvUle
  | 34 => some .bvSlt
  | 35 => some .bvSle
  | 36 => some .uaddOvf
  | 37 => some .saddOvf
  | 38 => some .usubOvf
  | 39 => some .ssubOvf
  | 40 => some .umulOvf
  | 41 => some .smulOvf
  | 42 => some .negOvf
  | 43 => some .sdivOvf
  | _ => none

def name : Tag → String
  | .bvVar => "BV_VAR"
  | .bvConst => "BV_CONST"
  | .bvNot => "BV_NOT"
  | .bvNeg => "BV_NEG"
  | .bvAnd => "BV_AND"
  | .bvOr => "BV_OR"
  | .bvXor => "BV_XOR"
  | .bvAdd => "BV_ADD"
  | .bvSub => "BV_SUB"
  | .bvMul => "BV_MUL"
  | .bvUdiv => "BV_UDIV"
  | .bvUrem => "BV_UREM"
  | .bvSdiv => "BV_SDIV"
  | .bvSrem => "BV_SREM"
  | .bvSmod => "BV_SMOD"
  | .bvShl => "BV_SHL"
  | .bvLshr => "BV_LSHR"
  | .bvAshr => "BV_ASHR"
  | .bvExtract => "BV_EXTRACT"
  | .bvConcat => "BV_CONCAT"
  | .bvZext => "BV_ZEXT"
  | .bvSext => "BV_SEXT"
  | .bvIte => "BV_ITE"
  | .bvSelect => "BV_SELECT"
  | .boolTrue => "BOOL_TRUE"
  | .boolFalse => "BOOL_FALSE"
  | .boolVar => "BOOL_VAR"
  | .boolNot => "BOOL_NOT"
  | .boolAnd => "BOOL_AND"
  | .boolOr => "BOOL_OR"
  | .boolImplies => "BOOL_IMPLIES"
  | .bvEq => "BV_EQ"
  | .bvUlt => "BV_ULT"
  | .bvUle => "BV_ULE"
  | .bvSlt => "BV_SLT"
  | .bvSle => "BV_SLE"
  | .uaddOvf => "UADD_OVF"
  | .saddOvf => "SADD_OVF"
  | .usubOvf => "USUB_OVF"
  | .ssubOvf => "SSUB_OVF"
  | .umulOvf => "UMUL_OVF"
  | .smulOvf => "SMUL_OVF"
  | .negOvf => "NEG_OVF"
  | .sdivOvf => "SDIV_OVF"

def smtSymbol : Tag → String
  | .bvVar => "var"
  | .bvConst => "const"
  | .bvNot => "bvnot"
  | .bvNeg => "bvneg"
  | .bvAnd => "bvand"
  | .bvOr => "bvor"
  | .bvXor => "bvxor"
  | .bvAdd => "bvadd"
  | .bvSub => "bvsub"
  | .bvMul => "bvmul"
  | .bvUdiv => "bvudiv"
  | .bvUrem => "bvurem"
  | .bvSdiv => "bvsdiv"
  | .bvSrem => "bvsrem"
  | .bvSmod => "bvsmod"
  | .bvShl => "bvshl"
  | .bvLshr => "bvlshr"
  | .bvAshr => "bvashr"
  | .bvExtract => "extract"
  | .bvConcat => "concat"
  | .bvZext => "zero_extend"
  | .bvSext => "sign_extend"
  | .bvIte => "ite"
  | .bvSelect => "select"
  | .boolTrue => "true"
  | .boolFalse => "false"
  | .boolVar => "var"
  | .boolNot => "not"
  | .boolAnd => "and"
  | .boolOr => "or"
  | .boolImplies => "=>"
  | .bvEq => "="
  | .bvUlt => "bvult"
  | .bvUle => "bvule"
  | .bvSlt => "bvslt"
  | .bvSle => "bvsle"
  | .uaddOvf => "bvuaddo"
  | .saddOvf => "bvsaddo"
  | .usubOvf => "bvusubo"
  | .ssubOvf => "bvssubo"
  | .umulOvf => "bvumulo"
  | .smulOvf => "bvsmulo"
  | .negOvf => "bvnego"
  | .sdivOvf => "bvsdivo"

def resultSort : Tag → WireSort
  | .bvVar | .bvConst | .bvNot | .bvNeg | .bvAnd | .bvOr | .bvXor | .bvAdd | .bvSub | .bvMul
  | .bvUdiv | .bvUrem | .bvSdiv | .bvSrem | .bvSmod | .bvShl | .bvLshr | .bvAshr
  | .bvExtract | .bvConcat | .bvZext | .bvSext | .bvIte | .bvSelect => .bv
  | _ => .bool

def fixedArity : Tag → Option UInt8
  | .bvVar | .bvConst | .boolTrue | .boolFalse | .boolVar => some 0
  | .bvNot | .bvNeg | .bvExtract | .bvZext | .bvSext | .boolNot | .negOvf => some 1
  | .bvIte => some 3
  | .bvSelect => none
  | _ => some 2

@[simp] theorem tryFrom_toByte (t : Tag) : tryFrom t.toByte = some t := by
  cases t <;> rfl

theorem tryFrom_eq_some {value : UInt8} {t : Tag} : tryFrom value = some t ↔ value = t.toByte := by
  constructor
  · intro h
    have key : ∀ n : Fin 256, ∀ s, tryFrom (UInt8.ofNat n) = some s →
        UInt8.ofNat n = s.toByte := by
      decide +kernel
    have := key ⟨value.toNat, value.toNat_lt⟩ t
    simpa [h] using this
  · rintro rfl
    exact tryFrom_toByte t

end Tag

/-- `Command`. -/
inductive Command where
  | solve
  | simplify
  | minimize
  | maximize
  deriving Repr, DecidableEq

namespace Command

def toByte : Command → UInt8
  | .solve => 0
  | .simplify => 1
  | .minimize => 2
  | .maximize => 3

def tryFrom (value : UInt8) : Option Command :=
  match value.toNat with
  | 0 => some .solve
  | 1 => some .simplify
  | 2 => some .minimize
  | 3 => some .maximize
  | _ => none

theorem tryFrom_eq_some {value : UInt8} {c : Command} :
    tryFrom value = some c ↔ value = c.toByte := by
  constructor
  · intro h
    have key : ∀ n : Fin 256, ∀ s, tryFrom (UInt8.ofNat n) = some s →
        UInt8.ofNat n = s.toByte := by
      decide +kernel
    have := key ⟨value.toNat, value.toNat_lt⟩ c
    simpa [h] using this
  · rintro rfl
    cases c <;> rfl

end Command

namespace RequestFlags

def wantModel : UInt8 := 1
def wantCore : UInt8 := 2
def signed : UInt8 := 4
def all : UInt8 := wantModel ||| wantCore ||| signed

end RequestFlags

/-- `Status`. -/
inductive Status where
  | simplified
  | sat
  | unsat
  | unknown
  | error
  deriving Repr, DecidableEq

namespace Status

def toByte : Status → UInt8
  | .simplified => 0
  | .sat => 1
  | .unsat => 2
  | .unknown => 3
  | .error => 4

def tryFrom (value : UInt8) : Option Status :=
  match value.toNat with
  | 0 => some .simplified
  | 1 => some .sat
  | 2 => some .unsat
  | 3 => some .unknown
  | 4 => some .error
  | _ => none

theorem tryFrom_eq_some {value : UInt8} {c : Status} :
    tryFrom value = some c ↔ value = c.toByte := by
  constructor
  · intro h
    have key : ∀ n : Fin 256, ∀ s, tryFrom (UInt8.ofNat n) = some s →
        UInt8.ofNat n = s.toByte := by
      decide +kernel
    have := key ⟨value.toNat, value.toNat_lt⟩ c
    simpa [h] using this
  · rintro rfl
    cases c <;> rfl

end Status

namespace ResponseFlags

def hasModel : UInt8 := 1
def hasCore : UInt8 := 2
def hasExpr : UInt8 := 4
def hasValue : UInt8 := 8
def hasMessage : UInt8 := 16
def all : UInt8 := hasModel ||| hasCore ||| hasExpr ||| hasValue ||| hasMessage

end ResponseFlags
end Wire
end SmtServer
