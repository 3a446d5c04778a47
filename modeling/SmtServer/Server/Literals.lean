import SmtServer.Qfbv.Model
import SmtServer.Server.Smt2Printed
import SmtServer.Server.Z3Literal

/-!
# Literals are read and printed exactly

The two printers of a value — the solver's and the one that prints requests — write the same text,
its binary numeral. The two readers of a literal — the frontend's and the Z3 backend's — take it
digit by digit from the right, and give back the bytes of the number that the digits stand for. They
are compared step by step: what the frontend accepts, in its own positions, the other one reads
alike.
-/

namespace SmtServer
namespace Server

open Lib Outcome
open Smtlib (SExpr decimalLoop digitsValue indexedBvLiteralBytes literalBytes literalDigits literalStep
  literalWidth parseU32 stripText toDigit)
open Qfbv (divCeil8)
open Qfbv.Bytes (Spells setBit zeros)
open Wire (ExprView BlobRef)
open Smt2 (binaryText constBytes constToSmt2 digits_binaryText digitsValue_bits literalDigits_binaryText
  parseU32_toString)

variable {radix w pos : Nat} {x : BitVec w} {digits : List Char} {bytes : List UInt8} {c : Char}
variable {d n : Nat} {original : String}

/-! ## Digits -/

/-- The digits, read in this base, are the number. -/
def Numeral (radix : Nat) (digits : List Char) (n : Nat) : Prop :=
  ∃ ds, digits.mapM (toDigit radix) = some ds ∧ digitsValue radix ds = n

theorem mapM_some_forall {α β : Type} {f : α → Option β} {xs : List α} {ys : List β}
    (h : xs.mapM f = some ys) : ∀ x ∈ xs, ∃ y, f x = some y := by
  induction xs generalizing ys with
  | nil => exact nofun
  | cons x xs ih =>
    rw [List.mapM_cons] at h
    obtain ⟨y, hy, h⟩ := Option.bind_eq_some_iff.mp h
    obtain ⟨rest, hrest, -⟩ := Option.bind_eq_some_iff.mp h
    exact List.forall_mem_cons.mpr ⟨⟨y, hy⟩, ih hrest⟩

theorem toDigit_two (h : toDigit 2 c = some d) : d = 0 ∧ c = '0' ∨ d = 1 ∧ c = '1' := by
  obtain ⟨hv, hlt⟩ := Option.filter_eq_some_iff.mp h
  have hlt : d < 2 := by simpa using hlt
  have hchar {e : Char} (he : c.toNat = e.toNat) : c = e := Char.toNat_inj.mp he
  have h0 : '0'.toNat = 48 := rfl
  have h1 : '1'.toNat = 49 := rfl
  split at hv
  · rename_i hr
    obtain rfl := Option.some.inj hv
    have hge : '0'.toNat ≤ c.toNat := hr.1
    obtain hc | hc : c.toNat - '0'.toNat = 0 ∨ c.toNat - '0'.toNat = 1 := by omega
    · exact .inl ⟨hc, hchar (by omega)⟩
    · exact .inr ⟨hc, hchar (by omega)⟩
  · -- a letter stands for ten at least
    split at hv
    · have := Option.some.inj hv
      omega
    · split at hv
      · have := Option.some.inj hv
        omega
      · cases hv

/-! ## The frontend -/

/-- How many digits a byte holds. -/
def digitsPerByte (radix : Nat) : Nat := if radix = 2 then 8 else 2

theorem digitsPerByte_pos (radix : Nat) : 0 < digitsPerByte radix := by
  unfold digitsPerByte
  split <;> decide

/-- A digit whose place is within the bytes is written. -/
theorem literalStep_ok (hd : toDigit radix c = some d)
    (hpos : pos < digitsPerByte radix * bytes.length) :
    ∃ r, literalStep radix original (bytes, pos) c = ok (r, pos + 1) ∧
      r.length = bytes.length := by
  unfold literalStep
  rw [hd]
  unfold digitsPerByte at hpos
  split at hpos
  · rename_i hradix
    subst hradix
    have hget : bytes[pos / 8]? = some bytes[pos / 8] := List.getElem?_eq_getElem (by omega)
    simp only [ofOption, ok_bind, if_true, hget, expect_some]
    split
    · exact ⟨_, rfl, Qfbv.Bytes.length_setBit ..⟩
    · exact ⟨_, rfl, rfl⟩
  · rename_i hradix
    have hget : bytes[pos / 2]? = some bytes[pos / 2] := List.getElem?_eq_getElem (by omega)
    simp only [ofOption, ok_bind, if_neg hradix, hget, expect_some]
    exact ⟨_, rfl, List.length_set ..⟩

theorem literalLoop_ok {cs : List Char} (hds : ∀ c ∈ cs, ∃ d, toDigit radix c = some d)
    (hpos : pos + cs.length ≤ digitsPerByte radix * bytes.length) :
    ∃ r, cs.foldlM (literalStep radix original) (bytes, pos) = ok r := by
  induction cs generalizing bytes pos with
  | nil => exact ⟨_, rfl⟩
  | cons c cs ih =>
    obtain ⟨⟨d, hd⟩, hds⟩ := List.forall_mem_cons.mp hds
    rw [List.length_cons] at hpos
    have hstep : pos < digitsPerByte radix * bytes.length := by omega
    obtain ⟨r, hr, hlen⟩ := literalStep_ok hd hstep
    rw [List.foldlM_cons, hr, ok_bind]
    exact ih hds (by rw [hlen]; omega)

/-- A numeral with no more digits than there is room for is written as the bytes of its value. -/
theorem literalLoop_bytes (original : String) (hradix : radix = 2 ∨ radix = 16) (hb : Spells bytes x)
    (hdigits : Numeral radix digits x.toNat)
    (hlen : digits.length ≤ digitsPerByte radix * divCeil8 w) :
    ∃ q, digits.reverse.foldlM (literalStep radix original) (zeros w, 0) = ok (bytes, q) := by
  obtain ⟨ds, hds, hvalue⟩ := hdigits
  have hall : ∀ c ∈ digits.reverse, ∃ d, toDigit radix c = some d := fun c hc =>
    mapM_some_forall hds c (List.mem_reverse.mp hc)
  have hroom : 0 + digits.reverse.length ≤ digitsPerByte radix * (zeros w).length := by
    rwa [Nat.zero_add, List.length_reverse, Qfbv.Bytes.length_zeros]
  obtain ⟨⟨raw, q⟩, hraw⟩ := literalLoop_ok hall hroom
  obtain ⟨ds', hds', hlen', hvalue'⟩ := Smtlib.literalLoop_spec hradix _ (by simp) hraw
  rw [List.reverse_reverse] at hds'
  obtain rfl := Option.some.inj (hds.symm.trans hds')
  have hspell : Spells raw x := by
    refine ⟨hlen'.trans (Qfbv.Bytes.length_zeros w), ?_⟩
    rw [hvalue', Qfbv.Bytes.leNat_zeros, Nat.zero_add, Nat.pow_zero, Nat.one_mul, hvalue]
  exact ⟨q, by rw [hraw, (hspell.inj hb).mpr rfl]⟩

theorem literalBytes_ok (hradix : radix = 2 ∨ radix = 16) (hw : 1 ≤ w ∧ w ≤ 65536)
    (hb : Spells bytes x) (hdigits : Numeral radix digits x.toNat)
    (hlen : digits.length ≤ digitsPerByte radix * divCeil8 w) :
    literalBytes digits radix w original = ok bytes := by
  obtain ⟨q, hloop⟩ := literalLoop_bytes original hradix hb hdigits hlen
  have hvalid : Smtlib.validateBvWidth w "bv literal" = ok () := ensure_eq_ok.mpr hw
  rw [literalBytes, hvalid, ok_bind, hloop, ok_bind]
  dsimp only
  rw [hb.mask]
  rfl

/-- `(_ bvN W)` and `(_ bv N W)`. -/
theorem indexedBvLiteralBytes_ok {items : List SExpr} {value : String}
    (hw : 1 ≤ w ∧ w ≤ 65536) (hb : Spells bytes x) (hne : value ≠ "")
    (hdigits : Numeral 10 value.toList x.toNat)
    (hparts : Smtlib.literalParts items = ok (some (value, toString w))) :
    indexedBvLiteralBytes items = ok (bytes, w) := by
  obtain ⟨ds, hds, hvalue⟩ := hdigits
  have hwidth : parseU32 (toString w) = some w := parseU32_toString (by omega)
  have hok : indexedBvLiteralBytes items =
      ok (Qfbv.maskUnusedHighBits (decimalLoop (divCeil8 w) ds) w, w) := by
    have hvalid : Smtlib.validateBvWidth w "bv literal" = ok () := ensure_eq_ok.mpr hw
    rw [indexedBvLiteralBytes, hparts, ok_bind]
    simp only [ofOption, ok_bind, hwidth, hvalid, Smtlib.decimalToLeBytes, hds, pure_eq]
    rw [ensure, if_pos hne, ok_bind]
  rw [hok]
  obtain ⟨_, _, ds', hparts', -, -, hds', -, -, hspell⟩ := Smtlib.indexedBvLiteralBytes_spells hok
  rw [hparts] at hparts'
  obtain ⟨rfl, -⟩ := Prod.mk.inj (Option.some.inj (Outcome.ok.inj hparts'))
  obtain rfl := Option.some.inj (hds.symm.trans hds')
  rw [(hspell.inj hb).mpr]
  rw [hvalue, BitVec.ofNat_toNat, BitVec.setWidth_eq]

/-! ## The Z3 backend -/

/-- Bits are read as the frontend reads them. -/
theorem binaryLoop_eq {cs : List Char} {r : List UInt8 × Nat} (hpos : pos + cs.length ≤ w)
    (h : cs.foldlM (literalStep 2 original) (bytes, pos) = ok r) :
    binaryLoop w cs pos bytes = ok r.1 := by
  induction cs generalizing bytes pos with
  | nil =>
    obtain rfl := Outcome.ok.inj h
    rfl
  | cons c cs ih =>
    rw [List.length_cons] at hpos
    rw [List.foldlM_cons] at h
    obtain ⟨state, hstep, h⟩ := bind_eq_ok.mp h
    rw [binaryLoop, if_neg (by omega)]
    unfold literalStep at hstep
    obtain ⟨d, hd, hwrite⟩ := bind_eq_ok.mp hstep
    clear hstep
    rw [if_pos rfl] at hwrite
    rcases toDigit_two (ofOption_eq_ok.mp hd) with ⟨rfl, rfl⟩ | ⟨rfl, rfl⟩
    · obtain rfl := Outcome.ok.inj hwrite
      rw [if_pos rfl]
      exact ih (by omega) h
    · rw [if_pos (by decide)] at hwrite
      obtain ⟨byte, hbyte, hset⟩ := bind_eq_ok.mp hwrite
      obtain rfl := Outcome.ok.inj hset
      rw [if_neg (by decide), if_pos rfl, expect_eq_ok.mp hbyte, expect_some, ok_bind]
      exact ih (by omega) h

/-- Nibbles are read as the frontend reads them. -/
theorem hexLoop_eq {cs : List Char} {r : List UInt8 × Nat}
    (h : cs.foldlM (literalStep 16 original) (bytes, pos) = ok r) :
    hexLoop cs pos bytes = ok r.1 := by
  induction cs generalizing bytes pos with
  | nil =>
    obtain rfl := Outcome.ok.inj h
    rfl
  | cons c cs ih =>
    rw [List.foldlM_cons] at h
    obtain ⟨state, hstep, h⟩ := bind_eq_ok.mp h
    unfold literalStep at hstep
    obtain ⟨d, hd, hstep⟩ := bind_eq_ok.mp hstep
    rw [if_neg (by decide)] at hstep
    obtain ⟨byte, hbyte, hstep⟩ := bind_eq_ok.mp hstep
    obtain rfl := Outcome.ok.inj hstep
    rw [hexLoop, ofOption_eq_ok.mp hd, ofOption, ok_bind]
    dsimp only
    rw [show pos * 4 / 8 = pos / 2 by omega, show pos * 4 % 8 = pos % 2 * 4 by omega,
      expect_eq_ok.mp hbyte]
    exact ih h

/-- A vector whose bytes spell it passes the check of a scalar. -/
theorem scalar_bv_ok (hw : 1 ≤ w ∧ w ≤ 65536) (hb : Spells bytes x) :
    Wire.ScalarValue.bv (UInt32.ofNat w) bytes = ok ⟨UInt32.ofNat w, bytes⟩ := by
  have hwidth : (UInt32.ofNat w).toNat = w := UInt32.toNat_ofNat_of_lt' (show w < 2 ^ 32 by omega)
  have hbytes : Wire.bytesForWidth w = ok (divCeil8 w) := by
    have hvalid : Wire.validateBvWidthValue w "scalar width" = ok () := ensure_eq_ok.mpr hw
    rw [Wire.bytesForWidth, hvalid]
    rfl
  have hunused : Wire.ensureUnusedHighBitsZero w bytes "scalar BV value" = ok () := by
    have hmask := hb.mask
    unfold Wire.ensureUnusedHighBitsZero
    unfold Qfbv.maskUnusedHighBits at hmask
    dsimp only at hmask ⊢
    split
    · rfl
    · rename_i hcut
      rw [if_neg hcut] at hmask
      have hpos : 0 < bytes.length := List.length_pos_iff.mpr fun h0 => hcut (.inr h0)
      have hlast : bytes[bytes.length - 1]? = some bytes[bytes.length - 1] :=
        List.getElem?_eq_getElem (by omega)
      have hsame := congrArg (·[bytes.length - 1]?) hmask
      rw [List.getElem?_modify_eq, hlast] at hsame
      have hsame := Option.some.inj hsame
      rw [hlast, expect_some, ok_bind]
      refine ensure_eq_ok.mpr ?_
      rw [← hsame, UInt8.and_assoc]
      simp
  rw [Wire.ScalarValue.bv, hwidth, hbytes, ok_bind, ensure, if_pos hb.length, ok_bind, hunused]
  rfl

/-! ## Reading back -/

/-- The frontend takes the atom for a literal of this width and these bytes. -/
def FrontendReads (text : String) (w : Nat) (bytes : List UInt8) : Prop :=
  ∃ digits radix, literalDigits text = some (digits, radix) ∧ literalWidth digits radix = ok w ∧
    literalBytes digits radix w text = ok bytes

/-- The Z3 backend, asked for a value of this width, takes the text for these bytes. -/
def Z3Reads (text : String) (w : Nat) (bytes : List UInt8) : Prop :=
  parseBvLiteral text (UInt32.ofNat w) = ok ⟨UInt32.ofNat w, bytes⟩

theorem stripText_binary (digits : List Char) :
    stripText "#b".toList ("#b" ++ String.ofList digits).toList = some digits := by
  simp [stripText]

theorem stripText_hex (digits : List Char) :
    stripText "#b".toList ("#x" ++ String.ofList digits).toList = none ∧
      stripText "#x".toList ("#x" ++ String.ofList digits).toList = some digits := by
  simp [stripText]

theorem le_eight_bytes (w : Nat) : w ≤ 8 * divCeil8 w := Qfbv.Bytes.le_eight_mul_divCeil8 w

theorem toNat_width (hw : 1 ≤ w ∧ w ≤ 65536) : (UInt32.ofNat w).toNat = w :=
  UInt32.toNat_ofNat_of_lt' (show w < 2 ^ 32 by omega)

/-- **A binary numeral of the value is read back**, as an atom if it has a digit for every bit. -/
theorem reads_binary (original : String) (hw : 1 ≤ w ∧ w ≤ 65536) (hb : Spells bytes x)
    (hdigits : Numeral 2 digits x.toNat) (hlen : digits.length ≤ w) :
    literalBytes digits 2 w original = ok bytes ∧ Z3Reads ("#b" ++ String.ofList digits) w bytes ∧
      (digits.length = w → FrontendReads ("#b" ++ String.ofList digits) w bytes) := by
  have hroom : digits.length ≤ digitsPerByte 2 * divCeil8 w := hlen.trans (le_eight_bytes w)
  refine ⟨literalBytes_ok (.inl rfl) hw hb hdigits hroom, ?_, fun hall => ?_⟩
  · obtain ⟨q, hloop⟩ := literalLoop_bytes original (.inl rfl) hb hdigits hroom
    have hpos : 0 + digits.reverse.length ≤ w := by
      rwa [Nat.zero_add, List.length_reverse]
    rw [Z3Reads, parseBvLiteral, stripText_binary, toNat_width hw]
    dsimp only
    rw [binaryLoop_eq hpos hloop, ok_bind, scalar_bv_ok hw hb]
  · refine ⟨digits, 2, ?_, ?_, literalBytes_ok (.inl rfl) hw hb hdigits hroom⟩
    · rw [literalDigits, stripText_binary]
    · obtain ⟨ds, hds, -⟩ := hdigits
      rw [literalWidth, if_pos rfl, (Smtlib.utf8ByteSize_digits hds).1, hall,
        Nat.mod_eq_of_lt (by omega)]

/-- **A hexadecimal numeral of the value, with a digit for every four bits, is read back.** -/
theorem reads_hex (original : String) (hw : 1 ≤ w ∧ w ≤ 65536) (hb : Spells bytes x)
    (hdigits : Numeral 16 digits x.toNat) (hlen : 4 * digits.length = w) :
    literalBytes digits 16 w original = ok bytes ∧ Z3Reads ("#x" ++ String.ofList digits) w bytes ∧
      FrontendReads ("#x" ++ String.ofList digits) w bytes := by
  have hroom : digits.length ≤ digitsPerByte 16 * divCeil8 w := by
    have := le_eight_bytes w
    rw [digitsPerByte, if_neg (by decide)]
    omega
  obtain ⟨hbin, hhex⟩ := stripText_hex digits
  refine ⟨literalBytes_ok (.inr rfl) hw hb hdigits hroom, ?_, ?_⟩
  · obtain ⟨q, hloop⟩ := literalLoop_bytes original (.inr rfl) hb hdigits hroom
    rw [Z3Reads, parseBvLiteral, hbin, hhex, toNat_width hw]
    dsimp only
    rw [hexLoop_eq hloop, ok_bind, scalar_bv_ok hw hb]
  · refine ⟨digits, 16, ?_, ?_, literalBytes_ok (.inr rfl) hw hb hdigits hroom⟩
    · rw [literalDigits, hbin, hhex]
      rfl
    · obtain ⟨ds, hds, -⟩ := hdigits
      rw [literalWidth, if_neg (by decide), (Smtlib.utf8ByteSize_digits hds).1,
        Nat.mod_eq_of_lt (by omega), mulU_of_lt (by omega), Nat.mul_comm, hlen]

/-- The bytes of a decimal number, in both crates. -/
theorem decimalToLeBytes_ok {text : String} (h : Numeral 10 text.toList n) (len : Nat) :
    ∃ bytes, Smtlib.decimalToLeBytes text len = ok bytes ∧ decimalToLeBytes text len = ok bytes ∧
      bytes.length = len ∧ leNat bytes = n % 256 ^ len := by
  obtain ⟨ds, hds, rfl⟩ := h
  refine ⟨decimalLoop len ds, ?_, ?_, Smtlib.length_decimalLoop len ds,
    Smtlib.leNat_decimalLoop len ds⟩
  · rw [Smtlib.decimalToLeBytes, hds]
    rfl
  · rw [decimalToLeBytes, hds]
    rfl

/-- No decimal numeral starts like a literal of another base. -/
theorem stripText_decimal {text : String} (h : Numeral 10 text.toList n) :
    stripText "#b".toList text.toList = none ∧ stripText "#x".toList text.toList = none := by
  obtain ⟨ds, hds, -⟩ := h
  have hhash : toDigit 10 '#' = none := by decide
  cases htext : text.toList with
  | nil => exact ⟨rfl, rfl⟩
  | cons c cs =>
    obtain ⟨d, hd⟩ := mapM_some_forall hds c (htext ▸ List.mem_cons_self)
    have hne : '#' ≠ c := by
      rintro rfl
      rw [hhash] at hd
      cases hd
    simp [stripText, hne]

/-- **A decimal numeral of the value is read back**, in both spellings of the frontend and by the
Z3 backend. -/
theorem reads_decimal {text : String} (hw : 1 ≤ w ∧ w ≤ 65536) (hb : Spells bytes x)
    (hdigits : Numeral 10 text.toList x.toNat) (hne : text ≠ "") :
    indexedBvLiteralBytes [.atom "_", .atom ("bv" ++ text), .atom (toString w)] = ok (bytes, w) ∧
      indexedBvLiteralBytes [.atom "_", .atom "bv", .atom text, .atom (toString w)] =
        ok (bytes, w) ∧
      Z3Reads text w bytes := by
  refine ⟨?_, ?_, ?_⟩
  · refine indexedBvLiteralBytes_ok hw hb hne hdigits ?_
    simp [Smtlib.literalParts, Smtlib.atom, stripText]
  · refine indexedBvLiteralBytes_ok hw hb hne hdigits ?_
    simp [Smtlib.literalParts, Smtlib.atom]
  · obtain ⟨raw, -, hraw, hlen, hvalue⟩ := decimalToLeBytes_ok hdigits (divCeil8 w)
    have hspell : Spells raw x := by
      refine ⟨hlen, hvalue.trans (Nat.mod_eq_of_lt (lt_of_lt_of_le x.isLt ?_))⟩
      exact Nat.le_of_dvd (Nat.pow_pos (by decide)) (Qfbv.Bytes.dvd_bytes w)
    obtain ⟨hbin, hhex⟩ := stripText_decimal hdigits
    rw [Z3Reads, parseBvLiteral, hbin, hhex, toNat_width hw]
    dsimp only
    rw [hraw, ok_bind, (hspell.inj hb).mpr rfl, scalar_bv_ok hw hb]

/-! ## What is printed -/

/-- The binary numeral of a value, as both printers write it. -/
theorem numeral_binaryText (x : BitVec w) :
    Numeral 2 ((BitList.bits x).reverse.map fun bit => if bit then '1' else '0') x.toNat := by
  refine ⟨_, digits_binaryText _, ?_⟩
  rw [digitsValue_bits, BitList.bits, BitList.toNat_ofNat, Nat.mod_eq_of_lt x.isLt]

theorem reads_binaryText (hw : 1 ≤ w ∧ w ≤ 65536) (hb : Spells bytes x) :
    FrontendReads (binaryText (BitList.bits x)) w bytes ∧
      Z3Reads (binaryText (BitList.bits x)) w bytes := by
  have hlen : ((BitList.bits x).reverse.map fun bit => if bit then '1' else '0').length = w := by
    rw [List.length_map, List.length_reverse, BitList.bits, BitList.length_ofNat]
  obtain ⟨-, hz3, hfrontend⟩ :=
    reads_binary "" hw hb (numeral_binaryText x) hlen.le
  exact ⟨hfrontend hlen, hz3⟩

/-- The bits from the top are the binary numeral. -/
theorem ofList_bits (hb : Spells bytes x) :
    "#b" ++ String.ofList ((List.range w).reverse.map fun bit =>
      if (leNat bytes).testBit bit then '1' else '0') = binaryText (BitList.bits x) := by
  rw [binaryText, BitList.bits, BitList.ofNat, ← List.map_reverse, List.map_map, hb.toNat]
  rfl

theorem mem_bytes (hb : Spells bytes x) {bit : Nat} (h : bit ∈ (List.range w).reverse) :
    bit < 8 * bytes.length := by
  have hbit := List.mem_range.mp (List.mem_reverse.mp h)
  have hle := le_eight_bytes w
  rw [hb.length]
  omega

theorem scalarToSmt_eq (hb : Spells bytes x) :
    Qfbv.scalarToSmt (.bv w bytes) = ok (binaryText (BitList.bits x)) := by
  have hchar : ∀ bit ∈ (List.range w).reverse, Qfbv.bitChar bytes bit =
      ok (if (leNat bytes).testBit bit then '1' else '0') := by
    intro bit hbit
    have hlt := mem_bytes hb hbit
    have hget : bytes[bit / 8]? = some bytes[bit / 8] := List.getElem?_eq_getElem (by omega)
    rw [Qfbv.bitChar, hget, expect_some, ok_bind, testBit_leNat, List.getD_eq_getElem?_getD, hget]
    rfl
  rw [Qfbv.scalarToSmt, mapM_of_forall hchar, ok_bind, ofList_bits hb]
  rfl

/-- The value of a constant node: the payload, or for wide vectors the blob it points at. -/
def IsConstant (expr : ExprView) (payload : UInt64) (x : BitVec w) : Prop :=
  if w ≤ 64 then x = .ofNat w payload.toNat
  else ∃ raw, expr.blobRef (BlobRef.fromPayload payload) = ok raw ∧ raw.length = divCeil8 w ∧
    x = .ofNat w (leNat raw)

theorem constBytes_ok {expr : ExprView} {payload : UInt64} (hw : 1 ≤ w ∧ w ≤ 65536)
    (hx : IsConstant expr payload x) :
    ∃ bytes, constBytes expr (UInt32.ofNat w) payload = ok bytes ∧ Spells bytes x := by
  unfold IsConstant at hx
  unfold constBytes
  rw [toNat_width hw]
  split at hx
  · rename_i hsmall
    rw [if_pos hsmall, ok_bind]
    have hlen : ((u64Bytes payload).take (divCeil8 w)).length = divCeil8 w := by
      rw [List.length_take, length_u64Bytes]
      unfold divCeil8
      omega
    refine ⟨_, rfl, by rw [Qfbv.Bytes.length_maskUnusedHighBits, hlen], ?_⟩
    have hpayload : leNat (u64Bytes payload) = payload.toNat :=
      (leNat_leBytes 8 _).trans (Nat.mod_eq_of_lt payload.toNat_lt)
    rw [Qfbv.Bytes.leNat_maskUnusedHighBits hlen, leNat_take,
      Nat.mod_mod_of_dvd _ (Qfbv.Bytes.dvd_bytes w), hpayload, hx, BitVec.toNat_ofNat]
  · rename_i hbig
    obtain ⟨raw, hraw, hlen, rfl⟩ := hx
    rw [if_neg hbig, hraw, ok_bind]
    refine ⟨_, rfl, by rw [Qfbv.Bytes.length_maskUnusedHighBits, hlen], ?_⟩
    rw [Qfbv.Bytes.leNat_maskUnusedHighBits hlen, BitVec.toNat_ofNat]

theorem constToSmt2_binaryText {expr : ExprView} {payload : UInt64} (hw : 1 ≤ w ∧ w ≤ 65536)
    (hx : IsConstant expr payload x) :
    constToSmt2 expr (UInt32.ofNat w) payload = ok (binaryText (BitList.bits x)) := by
  obtain ⟨bytes, hbytes, hb⟩ := constBytes_ok hw hx
  rw [constToSmt2, hbytes, ok_bind, toNat_width hw,
    mapM_of_forall fun bit hbit => Smt2.bitChar_eq (mem_bytes hb hbit), ok_bind]
  exact congrArg ok (ofList_bits hb)

/-- **Literals are read and printed exactly.** A decimal number is cut into its bytes; and what
either printer writes for a value, and any numeral of it in base ten, in base two or in base sixteen
with a digit for every four bits, is read back as that value. -/
theorem literals_exact :
    (∀ text n len, Numeral 10 text.toList n →
      ∃ bytes, Smtlib.decimalToLeBytes text len = ok bytes ∧ decimalToLeBytes text len = ok bytes ∧
        bytes.length = len ∧ leNat bytes = n % 256 ^ len) ∧
    ∀ (w : Nat) (x : BitVec w) (bytes : List UInt8), 1 ≤ w ∧ w ≤ 65536 → Spells bytes x →
      (∃ text, Qfbv.scalarToSmt (.bv w bytes) = ok text ∧
        FrontendReads text w bytes ∧ Z3Reads text w bytes) ∧
      (∀ expr payload, IsConstant expr payload x →
        ∃ text, constToSmt2 expr (UInt32.ofNat w) payload = ok text ∧
          FrontendReads text w bytes ∧ Z3Reads text w bytes) ∧
      (∀ digits original, Numeral 2 digits x.toNat → digits.length ≤ w →
        literalBytes digits 2 w original = ok bytes ∧
          Z3Reads ("#b" ++ String.ofList digits) w bytes ∧
          (digits.length = w → FrontendReads ("#b" ++ String.ofList digits) w bytes)) ∧
      (∀ digits original, Numeral 16 digits x.toNat → 4 * digits.length = w →
        literalBytes digits 16 w original = ok bytes ∧
          Z3Reads ("#x" ++ String.ofList digits) w bytes ∧
          FrontendReads ("#x" ++ String.ofList digits) w bytes) ∧
      ∀ text, Numeral 10 text.toList x.toNat → text ≠ "" →
        indexedBvLiteralBytes [.atom "_", .atom ("bv" ++ text), .atom (toString w)] =
            ok (bytes, w) ∧
          indexedBvLiteralBytes [.atom "_", .atom "bv", .atom text, .atom (toString w)] =
            ok (bytes, w) ∧
          Z3Reads text w bytes := by
  refine ⟨fun text n len h => decimalToLeBytes_ok h len, fun w x bytes hw hb => ⟨?_, ?_, ?_, ?_, ?_⟩⟩
  · exact ⟨_, scalarToSmt_eq hb, reads_binaryText hw hb⟩
  · intro expr payload hx
    exact ⟨_, constToSmt2_binaryText hw hx, reads_binaryText hw hb⟩
  · exact fun digits original hdigits hlen => reads_binary original hw hb hdigits hlen
  · exact fun digits original hdigits hlen => reads_hex original hw hb hdigits hlen
  · exact fun text hdigits hne => reads_decimal hw hb hdigits hne

end Server
end SmtServer
