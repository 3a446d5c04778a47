import SmtServer.Qfbv.Bytes
import SmtServer.Wire.Expr

/-!
# `smt-qfbv-smtlib` — S-expressions and what is read off them

The frontend works on S-expressions: an atom is the text of a token, a list is what stood between
parentheses. Nothing marks an atom as a symbol, a numeral or a literal, and a quoted symbol comes
without its bars, so `|true|` and `true` are one atom.

This module holds the readers that look at no scope: sorts, numerals, the three spellings of a
bit-vector literal and annotations. Each literal reader is specified by the number its digits
denote (`digitsValue`), which is the only thing the meaning of a term uses.
-/

namespace SmtServer
namespace Smtlib

open Lib Outcome
open Qfbv (divCeil8 maskUnusedHighBits)
open Qfbv.Bytes (setBit zeros Spells)
open Wire (debugStr)

inductive SExpr where
  | atom (text : String)
  | list (items : List SExpr)

inductive SmtSort where
  | bool
  | bv (width : Nat)
  deriving Repr, DecidableEq

/-- `{:?}`. -/
def SmtSort.debug : SmtSort → String
  | .bool => "Bool"
  | .bv width => s!"Bv({width})"

inductive FrontendError where
  | parse (message : String)
  | unsupported (message : String)
  | invalid (context message : String)
  | sink (message : String)
  deriving Repr, DecidableEq

abbrev Result := Outcome FrontendError

/-! ## Readers -/

def atom : SExpr → Result String
  | .atom text => ok text
  | .list _ => err (.invalid "SMT-LIB atom" "expected atom")

/-- The value of a digit character in bases up to 16. -/
def toDigit (radix : Nat) (c : Char) : Option Nat :=
  let value :=
    if '0' ≤ c ∧ c ≤ '9' then some (c.toNat - '0'.toNat)
    else if 'a' ≤ c ∧ c ≤ 'f' then some (c.toNat - 'a'.toNat + 10)
    else if 'A' ≤ c ∧ c ≤ 'F' then some (c.toNat - 'A'.toNat + 10)
    else none
  value.filter (· < radix)

/-- The number a string of digits denotes, most significant digit first. -/
def digitsValue (radix : Nat) (digits : List Nat) : Nat :=
  digits.foldl (fun n digit => radix * n + digit) 0

/-- `str::parse::<u32>`: an optional plus, then at least one digit, and no overflow. -/
def parseU32 (text : String) : Option Nat := do
  let chars := match text.toList with
    | '+' :: rest => rest
    | chars => chars
  let digits ← if chars = [] then none else chars.mapM (toDigit 10)
  some (digitsValue 10 digits) |>.filter (· < 2 ^ 32)

def parseU32Atom (expr : SExpr) (context : String) : Result Nat := do
  let text ← atom expr
  ofOption (parseU32 text) (.invalid context "expected u32 numeral")

def validateBvWidth (width : Nat) (context : String) : Result Unit :=
  ensure (1 ≤ width ∧ width ≤ 65536) (.invalid context s!"invalid BitVec width {width}")

def expectLen (len expected : Nat) (context : String) : Result Unit :=
  ensure (len = expected) (.invalid context s!"expected {expected} items")

def expectSort (actual expected : SmtSort) (context : String) : Result Unit :=
  ensure (actual = expected)
    (.invalid context s!"expected {expected.debug}, got {actual.debug}")

def badSort : FrontendError := .invalid "sort" "expected Bool or (_ BitVec n)"

/-- The guard of the second arm reads two atoms and may fail with their error. -/
def parseSort : SExpr → Result SmtSort
  | .atom text => if text = "Bool" then ok .bool else err badSort
  | .list [a, b, c] => do
    let underscore ← atom a
    if underscore ≠ "_" then err badSort
    else
      let bitVec ← atom b
      if bitVec ≠ "BitVec" then err badSort
      else
        let text ← atom c
        let width ← ofOption (parseU32 text) (.invalid "sort" "invalid BitVec width")
        validateBvWidth width "sort"
        pure (.bv width)
  | .list _ => err badSort

/-- The loop of `parse_function_params`, with the parameters read so far. -/
def paramsLoop : List SExpr → List (String × SmtSort) → Result (List (String × SmtSort))
  | [], params => ok params
  | .atom _ :: _, _ => err (.invalid "define-fun" "argument is not a pair")
  | .list pair :: rest, params => do
    expectLen pair.length 2 "define-fun"
    let name ← (expect pair[0]? : Result SExpr) >>= atom
    ensure (params.all (·.1 ≠ name))
      (.invalid "define-fun" s!"duplicate argument {debugStr name}")
    let sort ← (expect pair[1]? : Result SExpr) >>= parseSort
    paramsLoop rest (params ++ [(name, sort)])

def parseFunctionParams : SExpr → Result (List (String × SmtSort))
  | .atom _ => err (.invalid "define-fun" "expected argument list")
  | .list args => paramsLoop args []

/-! ## Literals -/

/-- One round of the division by 256: the quotient so far, without leading zeros, and the carry. -/
def divStep (state : List Nat × Nat) (digit : Nat) : List Nat × Nat :=
  let n := state.2 * 10 + digit
  let q := n / 256
  (if state.1 ≠ [] ∨ q ≠ 0 then state.1 ++ [q] else state.1, n % 256)

/-- The bytes of a decimal number. Every quotient is a decimal digit again, so nothing here
reaches the limits of `u8` and `u16`. -/
def decimalLoop : (len : Nat) → (digits : List Nat) → List UInt8
  | 0, _ => []
  | len + 1, [] => List.replicate (len + 1) 0
  | len + 1, digit :: digits =>
    let (quotient, carry) := (digit :: digits).foldl divStep ([], 0)
    UInt8.ofNat carry :: decimalLoop len quotient

def decimalToLeBytes (text : String) (len : Nat) : Result (List UInt8) := do
  let digits ← ofOption (text.toList.mapM (toDigit 10))
    (.invalid "bv literal" "invalid decimal value")
  pure (decimalLoop len digits)

/-- `str::strip_prefix`. -/
def stripText (start text : List Char) : Option (List Char) :=
  if start.isPrefixOf text then some (text.drop start.length) else none

/-- The value and the width of `(_ bv N W)` and of `(_ bvN W)`; `items` starts with the underscore. -/
def literalParts (items : List SExpr) : Result (Option (String × String)) :=
  match items with
  | [_, a, b, c] => do
    let head ← atom a
    if head = "bv" then
      let value ← atom b
      let width ← atom c
      pure (some (value, width))
    else pure none
  | [_, a, b] => do
    let symbol ← atom a
    match stripText "bv".toList symbol.toList with
    | some value =>
      let width ← atom b
      pure (some (String.ofList value, width))
    | none => pure none
  | _ => pure none

def indexedBvLiteralBytes (items : List SExpr) : Result (List UInt8 × Nat) := do
  let parts ← literalParts items
  let (value, width) ← ofOption parts (.invalid "indexed literal" "expected (_ bvN W)")
  ensure (value ≠ "") (.invalid "bv literal" "missing value")
  let width ← ofOption (parseU32 width) (.invalid "bv literal" "invalid width")
  validateBvWidth width "bv literal"
  let bytes ← decimalToLeBytes value (divCeil8 width)
  pure (maskUnusedHighBits bytes width, width)

/-- One digit of `#b…` or `#x…`, the `pos`-th from the right; an index out of the bytes panics. A
binary zero touches no byte. -/
def literalStep (radix : Nat) (original : String) (state : List UInt8 × Nat) (c : Char) :
    Result (List UInt8 × Nat) := do
  let (bytes, pos) := state
  let value ← ofOption (toDigit radix c)
    (.invalid "bv literal" s!"invalid digit in {original}")
  if radix = 2 then
    if value ≠ 0 then
      let _ ← (expect bytes[pos / 8]? : Result UInt8)
      pure (setBit bytes pos, pos + 1)
    else pure (bytes, pos + 1)
  else
    let byte ← (expect bytes[pos / 2]? : Result UInt8)
    pure (bytes.set (pos / 2) (byte ||| UInt8.ofNat value <<< UInt8.ofNat (pos % 2 * 4)), pos + 1)

def literalBytes (digits : List Char) (radix width : Nat) (original : String) :
    Result (List UInt8) := do
  validateBvWidth width "bv literal"
  let (bytes, _) ← digits.reverse.foldlM (literalStep radix original) (zeros width, 0)
  pure (maskUnusedHighBits bytes width)

/-! ## Annotations -/

/-- The pairs after an annotated term, with the name found so far. -/
def annotationLoop : List SExpr → Option String → Result (Option String)
  | keyword :: value :: rest, name => do
    let key ← atom keyword
    ensure (":".toList.isPrefixOf key.toList)
      (.invalid "annotation" "expected annotation keyword")
    if key = ":named" then
      let text ← atom value
      annotationLoop rest (some text)
    else annotationLoop rest name
  | _, name => ok name

def parseAnnotation (items : List SExpr) : Result (Option (SExpr × Option String)) :=
  match items with
  | [] => ok none
  | head :: rest => do
    let head ← atom head
    if head ≠ "!" then pure none
    else
      match rest with
      | term :: pairs => do
        ensure (4 ≤ items.length ∧ pairs.length % 2 = 0)
          (.invalid "annotation" "expected annotated term followed by keyword/value pairs")
        let name ← annotationLoop pairs none
        pure (some (term, name))
      | [] => err (.invalid "annotation" "expected annotated term followed by keyword/value pairs")

def namedAnnotation : SExpr → Result (Option (SExpr × String))
  | .atom _ => ok none
  | .list items => do
    match ← parseAnnotation items with
    | some (inner, some name) => pure (some (inner, name))
    | _ => pure none

/-! ## What the readers accept -/

theorem atom_eq_ok {e : SExpr} {text : String} : atom e = ok text ↔ e = .atom text := by
  cases e <;> simp [atom]

theorem parseU32Atom_eq_ok {e : SExpr} {context : String} {n : Nat}
    (h : parseU32Atom e context = ok n) : ∃ text, e = .atom text ∧ parseU32 text = some n := by
  obtain ⟨text, htext, h⟩ := bind_eq_ok.mp h
  exact ⟨text, atom_eq_ok.mp htext, ofOption_eq_ok.mp h⟩

/-- A bit-vector sort has a width in range. -/
theorem parseSort_width {e : SExpr} {w : Nat} (h : parseSort e = ok (.bv w)) :
    1 ≤ w ∧ w ≤ 65536 := by
  unfold parseSort at h
  split at h
  · split at h <;> simp at h
  · obtain ⟨_, _, h⟩ := bind_eq_ok.mp h
    split at h
    · simp at h
    · obtain ⟨_, _, h⟩ := bind_eq_ok.mp h
      split at h
      · simp at h
      · obtain ⟨_, _, h⟩ := bind_eq_ok.mp h
        obtain ⟨width, _, h⟩ := bind_eq_ok.mp h
        obtain ⟨hwidth, h⟩ := ensure_bind_eq_ok.mp h
        obtain rfl : width = w := by simpa using h
        exact hwidth
  · simp at h

/-! ## What literals denote -/

theorem digitsValue_append (radix : Nat) (ds : List Nat) (d : Nat) :
    digitsValue radix (ds ++ [d]) = radix * digitsValue radix ds + d := by
  simp [digitsValue]

/-- Quotient and carry stand for the digits divided so far. -/
theorem foldl_divStep (ds : List Nat) :
    digitsValue 10 ds =
        256 * digitsValue 10 (ds.foldl divStep ([], 0)).1 + (ds.foldl divStep ([], 0)).2 ∧
      (ds.foldl divStep ([], 0)).2 < 256 := by
  induction ds using List.reverseRecOn with
  | nil => decide
  | append_singleton ds d ih =>
    rw [List.foldl_append, List.foldl_cons, List.foldl_nil, digitsValue_append]
    generalize ds.foldl divStep ([], 0) = state at ih
    obtain ⟨quotient, carry⟩ := state
    obtain ⟨hv, -⟩ := ih
    dsimp only at hv
    refine ⟨?_, Nat.mod_lt _ (by omega)⟩
    simp only [divStep]
    split
    · rw [digitsValue_append, hv]
      omega
    · rename_i h
      obtain ⟨rfl, hq⟩ : quotient = [] ∧ (carry * 10 + d) / 256 = 0 := by simpa using h
      rw [hv]
      simp only [digitsValue, List.foldl_nil]
      omega

@[simp] theorem length_decimalLoop (len : Nat) (ds : List Nat) :
    (decimalLoop len ds).length = len := by
  induction len generalizing ds with
  | zero => rfl
  | succ len ih =>
    cases ds with
    | nil => simp [decimalLoop]
    | cons d ds => simp [decimalLoop, ih]

theorem leNat_decimalLoop (len : Nat) (ds : List Nat) :
    leNat (decimalLoop len ds) = digitsValue 10 ds % 256 ^ len := by
  induction len generalizing ds with
  | zero => simp [decimalLoop, Nat.mod_one]
  | succ len ih =>
    cases ds with
    | nil => simp [decimalLoop, leNat_replicate_zero, digitsValue]
    | cons d ds =>
      obtain ⟨hv, hc⟩ := foldl_divStep (d :: ds)
      rw [decimalLoop, leNat_cons, ih, hv, Qfbv.Bytes.ofNat_toNat, Nat.mod_eq_of_lt hc,
        Nat.pow_succ, Nat.mul_comm (256 ^ len), Nat.add_comm (256 * _), Nat.mod_mul,
        Nat.add_mul_mod_self_left, Nat.mod_eq_of_lt hc, Nat.add_mul_div_left _ _ (by omega),
        Nat.div_eq_of_lt hc, Nat.zero_add]

/-- `(_ bvN W)` is the number `N` modulo `2 ^ W`. -/
theorem indexedBvLiteralBytes_spells {items : List SExpr} {bytes : List UInt8} {width : Nat}
    (h : indexedBvLiteralBytes items = ok (bytes, width)) :
    ∃ value text ds, literalParts items = ok (some (value, text)) ∧ value ≠ "" ∧
      parseU32 text = some width ∧ value.toList.mapM (toDigit 10) = some ds ∧
      1 ≤ width ∧ width ≤ 65536 ∧ Spells bytes (BitVec.ofNat width (digitsValue 10 ds)) := by
  unfold indexedBvLiteralBytes at h
  obtain ⟨parts, hparts, h⟩ := bind_eq_ok.mp h
  obtain ⟨⟨value, text⟩, hsome, h⟩ := bind_eq_ok.mp h
  obtain rfl := ofOption_eq_ok.mp hsome
  obtain ⟨hne, h⟩ := ensure_bind_eq_ok.mp h
  obtain ⟨w, hw, h⟩ := bind_eq_ok.mp h
  obtain ⟨hwidth, h⟩ := ensure_bind_eq_ok.mp h
  obtain ⟨raw, hraw, h⟩ := bind_eq_ok.mp h
  obtain ⟨ds, hds, hraw⟩ := bind_eq_ok.mp hraw
  obtain rfl := Outcome.ok.inj hraw
  obtain ⟨rfl, rfl⟩ := Prod.mk.inj (Outcome.ok.inj h)
  refine ⟨value, text, ds, hparts, hne, ofOption_eq_ok.mp hw, ofOption_eq_ok.mp hds, hwidth.1,
    hwidth.2, by simp, ?_⟩
  rw [Qfbv.Bytes.leNat_maskUnusedHighBits (by simp), leNat_decimalLoop, BitVec.toNat_ofNat]
  exact Nat.mod_mod_of_dvd _ (Qfbv.Bytes.dvd_bytes _)

theorem toDigit_lt {radix : Nat} {c : Char} {d : Nat} (h : toDigit radix c = some d) :
    d < radix := by
  simpa using (Option.filter_eq_some_iff.mp h).2

/-- Writing a hexadecimal digit into the nibble at `pos`, above everything written so far. -/
theorem nibble_or {byte : UInt8} {d pos : Nat} (hd : d < 16) (hbyte : byte.toNat < 16 ^ (pos % 2)) :
    (byte ||| UInt8.ofNat d <<< UInt8.ofNat (pos % 2 * 4)).toNat =
      byte.toNat + 16 ^ (pos % 2) * d := by
  obtain h | h : pos % 2 = 0 ∨ pos % 2 = 1 := by omega
  · rw [h] at hbyte ⊢
    obtain rfl : byte = 0 := UInt8.toNat_inj.mp (by simpa using hbyte)
    interval_cases d <;> rfl
  · rw [h] at hbyte ⊢
    have key : ∀ b < 16, ∀ e < 16, (UInt8.ofNat b ||| UInt8.ofNat e <<< UInt8.ofNat (1 * 4)).toNat =
        b + 16 ^ 1 * e := by decide
    have hb := key byte.toNat (by simpa using hbyte) d hd
    rwa [UInt8.ofNat_toNat] at hb

/-- One digit adds its weight, when everything written so far lies below it. -/
theorem literalStep_spec {radix pos pos' : Nat} {original : String} {bytes bytes' : List UInt8}
    {c : Char} (hradix : radix = 2 ∨ radix = 16) (hlow : leNat bytes < radix ^ pos)
    (h : literalStep radix original (bytes, pos) c = ok (bytes', pos')) :
    ∃ d, toDigit radix c = some d ∧ pos' = pos + 1 ∧ bytes'.length = bytes.length ∧
      leNat bytes' = leNat bytes + radix ^ pos * d := by
  unfold literalStep at h
  obtain ⟨d, hd, h⟩ := bind_eq_ok.mp h
  have hd := ofOption_eq_ok.mp hd
  have hlt := toDigit_lt hd
  refine ⟨d, hd, ?_⟩
  obtain rfl | rfl := hradix
  · rw [if_pos rfl] at h
    obtain rfl | rfl : d = 0 ∨ d = 1 := by omega
    · obtain ⟨rfl, rfl⟩ := Prod.mk.inj (Outcome.ok.inj h)
      simp
    · obtain ⟨byte, hbyte, h⟩ := bind_eq_ok.mp h
      obtain ⟨rfl, rfl⟩ := Prod.mk.inj (Outcome.ok.inj h)
      have hin := (List.getElem?_eq_some_iff.mp (expect_eq_ok.mp hbyte)).1
      refine ⟨rfl, Qfbv.Bytes.length_setBit .., Nat.eq_of_testBit_eq fun j => ?_⟩
      rw [Qfbv.Bytes.testBit_setBit (by omega), Nat.add_comm, Nat.two_pow_add_eq_or_of_lt hlow,
        Nat.testBit_or, Nat.mul_one, Nat.testBit_two_pow, Bool.or_comm]
  · rw [if_neg (by omega)] at h
    obtain ⟨byte, hbyte, h⟩ := bind_eq_ok.mp h
    obtain ⟨rfl, rfl⟩ := Prod.mk.inj (Outcome.ok.inj h)
    have hbyte := expect_eq_ok.mp hbyte
    have hpow : 16 ^ pos = 256 ^ (pos / 2) * 16 ^ (pos % 2) := by
      rw [show (256 : Nat) = 16 ^ 2 from rfl, ← Nat.pow_mul, ← Nat.pow_add, Nat.div_add_mod]
    have hbound : byte.toNat < 16 ^ (pos % 2) := by
      have hzero := leNat_set hbyte 0
      refine Nat.lt_of_mul_lt_mul_left (a := 256 ^ (pos / 2)) ?_
      rw [← hpow]
      simp only [UInt8.toNat_zero, Nat.mul_zero, Nat.add_zero] at hzero
      omega
    have hset := leNat_set hbyte (byte ||| UInt8.ofNat d <<< UInt8.ofNat (pos % 2 * 4))
    rw [nibble_or hlt hbound, Nat.mul_add, ← Nat.mul_assoc, ← hpow] at hset
    refine ⟨rfl, List.length_set .., ?_⟩
    omega

/-- The digits are written from the right. -/
theorem literalLoop_spec {radix : Nat} {original : String} (hradix : radix = 2 ∨ radix = 16)
    (cs : List Char) {bytes bytes' : List UInt8} {pos pos' : Nat} (hlow : leNat bytes < radix ^ pos)
    (h : cs.foldlM (literalStep radix original) (bytes, pos) = ok (bytes', pos')) :
    ∃ ds, cs.reverse.mapM (toDigit radix) = some ds ∧ bytes'.length = bytes.length ∧
      leNat bytes' = leNat bytes + radix ^ pos * digitsValue radix ds := by
  induction cs generalizing bytes pos with
  | nil =>
    obtain ⟨rfl, rfl⟩ := Prod.mk.inj (Outcome.ok.inj h)
    exact ⟨[], rfl, rfl, by simp [digitsValue]⟩
  | cons c cs ih =>
    rw [List.foldlM_cons] at h
    obtain ⟨⟨bytes₁, pos₁⟩, hstep, h⟩ := bind_eq_ok.mp h
    obtain ⟨d, hd, rfl, hlen₁, hval₁⟩ := literalStep_spec hradix hlow hstep
    have hlow₁ : leNat bytes₁ < radix ^ (pos + 1) := by
      have hmul : radix ^ pos * d ≤ radix ^ pos * (radix - 1) :=
        Nat.mul_le_mul_left _ (Nat.le_sub_one_of_lt (toDigit_lt hd))
      have hone : radix ^ pos * (radix - 1) + radix ^ pos = radix ^ (pos + 1) := by
        rw [Nat.pow_succ, ← Nat.mul_succ]
        congr 1
        omega
      omega
    obtain ⟨ds, hds, hlen, hval⟩ := ih hlow₁ h
    refine ⟨ds ++ [d], ?_, hlen.trans hlen₁, ?_⟩
    · rw [List.reverse_cons, List.mapM_append, hds]
      simp [hd]
    · rw [hval, hval₁, digitsValue_append, Nat.pow_succ, Nat.mul_add]
      ring

/-- A literal of `width` bits is the number its digits denote. -/
theorem literalBytes_spells {digits : List Char} {radix width : Nat} {original : String}
    {bytes : List UInt8} (hradix : radix = 2 ∨ radix = 16)
    (h : literalBytes digits radix width original = ok bytes) :
    1 ≤ width ∧ width ≤ 65536 ∧ ∃ ds, digits.mapM (toDigit radix) = some ds ∧
      Spells bytes (BitVec.ofNat width (digitsValue radix ds)) := by
  unfold literalBytes at h
  obtain ⟨hwidth, h⟩ := ensure_bind_eq_ok.mp h
  obtain ⟨⟨raw, pos⟩, hraw, h⟩ := bind_eq_ok.mp h
  obtain rfl := Outcome.ok.inj h
  obtain ⟨ds, hds, hlen, hval⟩ := literalLoop_spec hradix _ (by simp) hraw
  rw [List.reverse_reverse] at hds
  refine ⟨hwidth.1, hwidth.2, ds, hds, ?_⟩
  have hspell := Qfbv.Bytes.spells_mask_ofNat (hlen.trans (Qfbv.Bytes.length_zeros width))
  rwa [hval, Qfbv.Bytes.leNat_zeros, Nat.zero_add, Nat.pow_zero, Nat.one_mul] at hspell

end Smtlib
end SmtServer
