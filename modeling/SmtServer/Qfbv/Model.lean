import SmtServer.Qfbv.Query

/-!
# `model.rs` — values as text

A value is printed bit by bit, the most significant one first.
-/

namespace SmtServer
namespace Qfbv

open Lib Outcome

/-- The digit of one bit; a byte that is not there panics. -/
def bitChar (bytes : List UInt8) (bit : Nat) : Result Char := do
  let byte ← expect bytes[bit / 8]?
  pure (if byte.toNat.testBit (bit % 8) then '1' else '0')

def scalarToSmt : ScalarValue → Result String
  | .bool false => pure "false"
  | .bool true => pure "true"
  | .bv width bytes => do
    let bits ← (List.range width).reverse.mapM (bitChar bytes)
    pure ("#b" ++ String.ofList bits)

end Qfbv
end SmtServer
