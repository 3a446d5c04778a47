import SmtServer.Smtlib.Syntax
import SmtServer.Wire.Response

/-!
# `z3_backend.rs` — reading a value that Z3 printed

Z3 gives a vector as text: binary, hexadecimal or, without a prefix, decimal. Bits above the width
are not looked at, nibbles above the last byte are dropped, and a decimal number is taken modulo the
bytes there are; what is left must fit the width.
-/

namespace SmtServer
namespace Server

open Lib Outcome
open Wire (Result ScalarValue)
open Smtlib (decimalLoop stripText toDigit)
open Qfbv (divCeil8)
open Qfbv.Bytes (setBit zeros)

def decimalToLeBytes (text : String) (len : Nat) : Result (List UInt8) := do
  let digits ← ofOption (text.toList.mapM (toDigit 10))
    (.invalid "Z3 model" "bad decimal BV literal")
  pure (decimalLoop len digits)

/-- The loop over the bits, from the right. -/
def binaryLoop (width : Nat) : List Char → (offset : Nat) → List UInt8 → Result (List UInt8)
  | [], _, bytes => ok bytes
  | c :: cs, offset, bytes =>
    if width ≤ offset then ok bytes
    else if c = '0' then binaryLoop width cs (offset + 1) bytes
    else if c = '1' then do
      let _ ← (expect bytes[offset / 8]? : Result UInt8)
      binaryLoop width cs (offset + 1) (setBit bytes offset)
    else err (.invalid "Z3 model" "bad binary BV literal")

/-- The loop over the nibbles, from the right. -/
def hexLoop : List Char → (nibble : Nat) → List UInt8 → Result (List UInt8)
  | [], _, bytes => ok bytes
  | c :: cs, nibble, bytes => do
    let value ← ofOption (toDigit 16 c) (.invalid "Z3 model" "bad hex BV literal")
    let bit := nibble * 4
    match bytes[bit / 8]? with
    | some byte =>
      hexLoop cs (nibble + 1)
        (bytes.set (bit / 8) (byte ||| UInt8.ofNat value <<< UInt8.ofNat (bit % 8)))
    | none => hexLoop cs (nibble + 1) bytes

def parseBvLiteral (text : String) (width : UInt32) : Result ScalarValue := do
  let bytes ←
    match stripText "#b".toList text.toList with
    | some bits => binaryLoop width.toNat bits.reverse 0 (zeros width.toNat)
    | none =>
      match stripText "#x".toList text.toList with
      | some hex => hexLoop hex.reverse 0 (zeros width.toNat)
      | none => decimalToLeBytes text (divCeil8 width.toNat)
  ScalarValue.bv width bytes

end Server
end SmtServer
