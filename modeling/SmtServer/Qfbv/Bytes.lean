import SmtServer.Qfbv.Ir
import Mathlib.Data.Nat.Bitwise

/-!
# `builder.rs` — constants as byte strings

The builder folds constants on their little-endian bytes. A string **spells** a vector when it
has the length the width prescribes and the number of the vector (`Spells`); each helper is
specified once, by the operation of `BitVec` whose operands and result it spells, and the
rewriting rules never look at a byte again.

The helpers that move single bits are one loop (`copyBits`) at different ranges and offsets.
Sixteen-bit intermediate sums are natural numbers: the largest is
`255 + 255 * 255 + 255 = 2 ^ 16 - 1`.
-/

namespace SmtServer
namespace Qfbv
namespace Bytes

open Lib

/-! ## The helpers -/

/-- `bytes.resize(len, 0)`. -/
def resize (bytes : List UInt8) (len : Nat) : List UInt8 :=
  bytes.take len ++ List.replicate (len - bytes.length) 0

/-- The loop of `add_bytes`. -/
def addLoop : (a b : List UInt8) → (carry : Nat) → List UInt8
  | x :: a, y :: b, carry =>
      let sum := x.toNat + y.toNat + carry
      UInt8.ofNat sum :: addLoop a b (sum >>> 8)
  | _, _, _ => []

def addBytes (a b : List UInt8) (width : Nat) : List UInt8 :=
  maskUnusedHighBits (addLoop a b 0) width

/-- The loop of `neg_bytes`, which stops when there is no carry left. -/
def carryLoop : (bytes : List UInt8) → (carry : Nat) → List UInt8
  | [], _ => []
  | byte :: bytes, carry =>
      let sum := byte.toNat + carry
      let carry := sum >>> 8
      UInt8.ofNat sum :: if carry = 0 then bytes else carryLoop bytes carry

def negBytes (bytes : List UInt8) (width : Nat) : List UInt8 :=
  maskUnusedHighBits (carryLoop (bytes.map (~~~ ·)) 1) width

def subBytes (a b : List UInt8) (width : Nat) : List UInt8 :=
  addBytes a (negBytes b width) width

/-- The inner loop of `mul_bytes`, over the slots from `i` on. -/
def mulRow (x : UInt8) : (b slots : List UInt8) → (carry : Nat) → List UInt8
  | y :: b, slot :: slots, carry =>
      let product := slot.toNat + x.toNat * y.toNat + carry
      UInt8.ofNat product :: mulRow x b slots (product >>> 8)
  | _, slots, _ => slots

def mulBytes (a b : List UInt8) (width : Nat) : List UInt8 :=
  let out := a.zipIdx.foldl (fun out (x, i) => out.take i ++ mulRow x b (out.drop i) 0)
    (List.replicate a.length 0)
  maskUnusedHighBits out width

def getBit (bytes : List UInt8) (bit : Nat) : Bool :=
  bytes[bit / 8]?.any fun byte => (byte >>> UInt8.ofNat (bit % 8)) &&& 1 ≠ 0

def setBit (bytes : List UInt8) (bit : Nat) : List UInt8 :=
  bytes.modify (bit / 8) (· ||| 1 <<< UInt8.ofNat (bit % 8))

/-- `for bit in start..stop { if get_bit(bytes, src(bit)) { set_bit(&mut out, dst(bit)) } }`. -/
def copyBits (bytes : List UInt8) (start stop : Nat) (src dst : Nat → Nat)
    (out : List UInt8) : List UInt8 :=
  (List.range' start (stop - start)).foldl
    (fun out bit => if getBit bytes (src bit) then setBit out (dst bit) else out) out

/-- `for bit in start..stop { set_bit(&mut out, bit) }`. -/
def setRange (start stop : Nat) (out : List UInt8) : List UInt8 :=
  (List.range' start (stop - start)).foldl setBit out

def highBitsZero (bytes : List UInt8) (start width : Nat) : Bool :=
  (List.range' start (width - start)).all fun bit => !getBit bytes bit

/-- `vec![0; width.div_ceil(8)]`. -/
def zeros (width : Nat) : List UInt8 := List.replicate (divCeil8 width) 0

def extractBytes (bytes : List UInt8) (low width : Nat) : List UInt8 :=
  maskUnusedHighBits (copyBits bytes 0 width (low + ·) id (zeros width)) width

def concatBytes (high : List UInt8) (highWidth : Nat) (low : List UInt8) (lowWidth : Nat) :
    List UInt8 :=
  let width := highWidth + lowWidth
  let out := copyBits low 0 lowWidth id id (zeros width)
  maskUnusedHighBits (copyBits high 0 highWidth id (lowWidth + ·) out) width

def sextBytes (bytes : List UInt8) (width extra : Nat) : List UInt8 :=
  let outWidth := width + extra
  let out := resize bytes (divCeil8 outWidth)
  let out := if getBit bytes (width - 1) then setRange width outWidth out else out
  maskUnusedHighBits out outWidth

def repeatBytes (bytes : List UInt8) (width count : Nat) : List UInt8 :=
  let outWidth := width * count
  let out := (List.range count).foldl
    (fun out copy => copyBits bytes 0 width id (copy * width + ·) out) (zeros outWidth)
  maskUnusedHighBits out outWidth

def rotateLeftBytes (bytes : List UInt8) (width amount : Nat) : List UInt8 :=
  copyBits bytes 0 width (fun bit => (bit + width - amount) % width) id (zeros width)

def rotateRightBytes (bytes : List UInt8) (width amount : Nat) : List UInt8 :=
  copyBits bytes 0 width (fun bit => (bit + amount) % width) id (zeros width)

def shlBytes (bytes : List UInt8) (width amount : Nat) : List UInt8 :=
  maskUnusedHighBits (copyBits bytes amount width (· - amount) id (zeros width)) width

def lshrBytes (bytes : List UInt8) (width amount : Nat) : List UInt8 :=
  copyBits bytes 0 (width - amount) (· + amount) id (zeros width)

def ashrBytes (bytes : List UInt8) (width amount : Nat) : List UInt8 :=
  let out := lshrBytes bytes width (min amount width)
  let out :=
    if getBit bytes (width - 1) then setRange (width - min amount width) width out else out
  maskUnusedHighBits out width

/-- One round of `bytes_to_bounded_usize`: an error is the early return. -/
def boundedStep (bytes : List UInt8) (bound value bit : Nat) : Except Nat Nat :=
  if getBit bytes bit then
    if 64 ≤ bit then .error bound
    else
      let value := min (value + 2 ^ bit) (2 ^ 64 - 1)
      if bound ≤ value then .error bound else .ok value
  else .ok value

/-- `bytes_to_bounded_usize`. The source walks bytes and then the bits of a byte; a zero byte is
one it would find no bit in. -/
def bytesToBoundedUsize (bytes : List UInt8) (bound : Nat) : Nat :=
  match (List.range (8 * bytes.length)).foldlM (boundedStep bytes bound) 0 with
  | .ok value => value
  | .error early => early

/-- `bytes.iter().all(|byte| *byte == 0)`. -/
def isZeroBytes (bytes : List UInt8) : Bool := bytes.all (· == 0)

def isOneBytes (bytes : List UInt8) : Bool :=
  bytes.head? == some 1 && (bytes.drop 1).all (· == 0)

/-- `cmp_unsigned_bytes`: the last unequal pair decides. -/
def cmpUnsignedBytes (a b : List UInt8) : Ordering :=
  (a.zip b).reverse.foldr (fun p rest => (compare p.1 p.2).then rest) .eq

def signedLessThan (a b : List UInt8) (width : Nat) : Bool :=
  match getBit a (width - 1), getBit b (width - 1) with
  | true, false => true
  | false, true => false
  | _, _ => cmpUnsignedBytes a b == .lt

/-! ## Sums and products, byte by byte -/

theorem ofNat_toNat (n : Nat) : (UInt8.ofNat n).toNat = n % 256 := UInt8.toNat_ofNat'

/-- One digit and its carry, against the whole. -/
theorem digit_step (n m k : Nat) : n % 256 + 256 * ((m + n / 256) % k) = (n + 256 * m) % (256 * k) := by
  rw [Nat.mod_mul, Nat.add_mul_mod_self_left, Nat.add_mul_div_left _ _ (by decide), Nat.add_comm m]

theorem length_addLoop {a b : List UInt8} (h : a.length = b.length) (carry : Nat) :
    (addLoop a b carry).length = a.length := by
  induction a generalizing b carry with
  | nil => simp [addLoop]
  | cons x a ih =>
    cases b with
    | nil => exact absurd h (by simp)
    | cons y b => simp [addLoop, ih (Nat.succ.inj h)]

theorem leNat_addLoop {a b : List UInt8} (h : a.length = b.length) (carry : Nat) :
    leNat (addLoop a b carry) = (leNat a + leNat b + carry) % 256 ^ a.length := by
  induction a generalizing b carry with
  | nil => simp [addLoop, Nat.mod_one]
  | cons x a ih =>
    cases b with
    | nil => exact absurd h (by simp)
    | cons y b =>
      rw [addLoop, leNat_cons, ih (Nat.succ.inj h), ofNat_toNat, Nat.shiftRight_eq_div_pow,
        digit_step, List.length_cons, Nat.pow_succ, Nat.mul_comm (256 ^ a.length)]
      congr 1
      simp only [leNat_cons]
      omega

theorem length_carryLoop (bytes : List UInt8) (carry : Nat) :
    (carryLoop bytes carry).length = bytes.length := by
  induction bytes generalizing carry with
  | nil => rfl
  | cons byte bytes ih =>
    simp only [carryLoop, List.length_cons]
    split
    · rfl
    · rw [ih]

theorem leNat_carryLoop (bytes : List UInt8) (carry : Nat) :
    leNat (carryLoop bytes carry) = (leNat bytes + carry) % 256 ^ bytes.length := by
  induction bytes generalizing carry with
  | nil => simp [carryLoop, Nat.mod_one]
  | cons byte bytes ih =>
    have hrest : leNat (if (byte.toNat + carry) >>> 8 = 0 then bytes
        else carryLoop bytes ((byte.toNat + carry) >>> 8)) =
        (leNat bytes + (byte.toNat + carry) / 256) % 256 ^ bytes.length := by
      rw [Nat.shiftRight_eq_div_pow]
      split
      · rename_i h0
        rw [show (byte.toNat + carry) / 256 = 0 from h0, Nat.add_zero,
          Nat.mod_eq_of_lt (leNat_lt bytes)]
      · exact ih _
    simp only [carryLoop]
    rw [leNat_cons, hrest, ofNat_toNat, digit_step, List.length_cons, Nat.pow_succ,
      Nat.mul_comm (256 ^ bytes.length), leNat_cons]
    congr 1
    omega

theorem leNat_map_not (bytes : List UInt8) :
    leNat (bytes.map (~~~ ·)) = 256 ^ bytes.length - 1 - leNat bytes := by
  induction bytes with
  | nil => rfl
  | cons byte bytes ih =>
    have hb := byte.toNat_lt
    have hlt := leNat_lt bytes
    simp only [List.map_cons, leNat_cons, ih, List.length_cons, Nat.pow_succ, UInt8.toNat_not]
    simp only [UInt8.size] at *
    omega

theorem length_mulRow (x : UInt8) (b slots : List UInt8) (carry : Nat) :
    (mulRow x b slots carry).length = slots.length := by
  induction b generalizing slots carry with
  | nil => rfl
  | cons y b ih =>
    cases slots with
    | nil => rfl
    | cons slot slots => simp [mulRow, ih]

theorem leNat_mulRow (x : UInt8) {b slots : List UInt8} (h : slots.length ≤ b.length)
    (carry : Nat) : leNat (mulRow x b slots carry) =
      (leNat slots + x.toNat * leNat b + carry) % 256 ^ slots.length := by
  induction slots generalizing b carry with
  | nil => cases b <;> simp [mulRow, Nat.mod_one]
  | cons slot slots ih =>
    cases b with
    | nil => exact absurd h (by simp)
    | cons y b =>
      rw [mulRow, leNat_cons, ih (Nat.le_of_succ_le_succ h), ofNat_toNat,
        Nat.shiftRight_eq_div_pow, digit_step, List.length_cons, Nat.pow_succ,
        Nat.mul_comm (256 ^ slots.length)]
      congr 1
      simp only [leNat_cons]
      ring

/-- The outer loop of `mul_bytes`: after `i` rows the slots hold the product of the bytes seen so
far. -/
theorem mulRows_spec {b : List UInt8} (a done : List UInt8) (out : List UInt8)
    (hlen : out.length = done.length + a.length) (hb : out.length ≤ b.length)
    (hout : leNat out = leNat done * leNat b % 256 ^ out.length) :
    let res := (a.zipIdx done.length).foldl
      (fun out (p : UInt8 × Nat) => out.take p.2 ++ mulRow p.1 b (out.drop p.2) 0) out
    res.length = out.length ∧ leNat res = leNat (done ++ a) * leNat b % 256 ^ out.length := by
  induction a generalizing done out with
  | nil => simpa using hout
  | cons x a ih =>
    rw [List.length_cons] at hlen
    have hi : done.length ≤ out.length := by omega
    have htake : (out.take done.length).length = done.length := by simp [hi]
    have hrow : (out.take done.length ++ mulRow x b (out.drop done.length) 0).length =
        out.length := by
      rw [List.length_append, length_mulRow, htake, List.length_drop]
      omega
    have hval : leNat (out.take done.length ++ mulRow x b (out.drop done.length) 0) =
        (leNat out + 256 ^ done.length * (x.toNat * leNat b)) % 256 ^ out.length := by
      have hsplit : 256 ^ out.length = 256 ^ done.length * 256 ^ (out.drop done.length).length := by
        rw [← Nat.pow_add, List.length_drop, Nat.add_sub_of_le hi]
      have hlow := leNat_lt (out.take done.length)
      rw [htake] at hlow
      conv_rhs => rw [← List.take_append_drop done.length out]
      rw [leNat_append, leNat_append, htake, List.take_append_drop,
        leNat_mulRow x (by rw [List.length_drop]; omega), Nat.add_zero, hsplit, Nat.add_assoc,
        ← Nat.mul_add, Nat.mod_mul, Nat.add_mul_mod_self_left, Nat.mod_eq_of_lt hlow,
        Nat.add_mul_div_left _ _ (by positivity), Nat.div_eq_of_lt hlow, Nat.zero_add]
    rw [List.zipIdx_cons, List.foldl_cons]
    have hnext := ih (done ++ [x]) _ (by rw [hrow, List.length_append, List.length_singleton]; omega)
      (by rw [hrow]; exact hb) (by
        rw [hval, hrow, hout, leNat_append, Nat.mod_add_mod]
        congr 1
        simp only [leNat_cons, leNat_nil]
        ring)
    rw [hrow, List.append_assoc, List.singleton_append, List.length_append,
      List.length_singleton] at hnext
    exact hnext

/-! ## Single bits -/

@[simp] theorem length_maskUnusedHighBits (bytes : List UInt8) (width : Nat) :
    (maskUnusedHighBits bytes width).length = bytes.length := by
  simp only [maskUnusedHighBits]
  split
  · rfl
  · exact List.length_modify ..

theorem getBit_eq (bytes : List UInt8) (i : Nat) : getBit bytes i = (leNat bytes).testBit i := by
  have key : ∀ (byte : UInt8) (r : Nat), r < 8 →
      (decide ((byte >>> UInt8.ofNat r) &&& 1 ≠ 0)) = byte.toNat.testBit r := by
    intro byte r hr
    rw [Nat.testBit_eq_decide_div_mod_eq, decide_eq_decide, ne_eq, ← UInt8.toNat_inj,
      UInt8.toNat_and, UInt8.toNat_shiftRight, ofNat_toNat, Nat.mod_eq_of_lt (by omega : r < 256),
      Nat.mod_eq_of_lt hr, Nat.shiftRight_eq_div_pow]
    show ¬(_ &&& 1 = 0) ↔ _
    rw [Nat.and_one_is_mod]
    omega
  rw [testBit_leNat, getBit, List.getD_eq_getElem?_getD]
  cases bytes[i / 8]? with
  | none => simp
  | some byte => simpa using key byte (i % 8) (Nat.mod_lt _ (by decide))

@[simp] theorem length_setBit (bytes : List UInt8) (i : Nat) :
    (setBit bytes i).length = bytes.length := by
  simp [setBit]

theorem testBit_setBit {bytes : List UInt8} {i : Nat} (hi : i < 8 * bytes.length) (j : Nat) :
    (leNat (setBit bytes i)).testBit j = ((leNat bytes).testBit j || decide (i = j)) := by
  have hshift : (1 <<< UInt8.ofNat (i % 8) : UInt8).toNat = 2 ^ (i % 8) := by
    have key : ∀ r : Fin 8, (1 <<< UInt8.ofNat r.val : UInt8).toNat = 2 ^ r.val := by decide
    exact key ⟨i % 8, Nat.mod_lt _ (by decide)⟩
  rw [testBit_leNat, testBit_leNat, setBit, List.getD_eq_getElem?_getD, List.getElem?_modify,
    List.getD_eq_getElem?_getD]
  by_cases hq : i / 8 = j / 8
  · have hj : j / 8 < bytes.length := by omega
    rw [List.getElem?_eq_getElem hj]
    simp only [hq, if_true, Option.map_eq_map, Option.map_some, Option.getD_some, UInt8.toNat_or,
      Nat.testBit_or, hshift, Nat.testBit_two_pow]
    congr 1
    rw [decide_eq_decide]
    omega
  · have hne : i ≠ j := by
      intro hij
      exact hq (by rw [hij])
    simp [hq, hne]

/-- Masking is reduction modulo the width. -/
theorem leNat_maskUnusedHighBits {bytes : List UInt8} {width : Nat}
    (h : bytes.length = divCeil8 width) :
    leNat (maskUnusedHighBits bytes width) = leNat bytes % 2 ^ width := by
  unfold divCeil8 at h
  by_cases hr : width % 8 = 0
  · -- whole bytes: nothing to cut off
    have hlt := leNat_lt_two_pow bytes
    rw [show 8 * bytes.length = width by omega] at hlt
    rw [maskUnusedHighBits, if_pos (Or.inl hr), Nat.mod_eq_of_lt hlt]
  · have hne : bytes ≠ [] := by
      rintro rfl
      rw [List.length_nil] at h
      omega
    rw [maskUnusedHighBits, if_neg (by simp [hr, hne])]
    dsimp only
    rw [leNat_mask_last hne (Nat.mod_lt _ (by decide)),
      show 8 * (bytes.length - 1) + width % 8 = width by omega]

theorem length_copyBits (bytes : List UInt8) (start stop : Nat) (src dst : Nat → Nat)
    (out : List UInt8) : (copyBits bytes start stop src dst out).length = out.length := by
  unfold copyBits
  induction List.range' start (stop - start) generalizing out with
  | nil => rfl
  | cons bit bits ih =>
    rw [List.foldl_cons, ih]
    split <;> simp

/-- A bit of the result was there before, or the loop put it there. -/
theorem testBit_copyBits {bytes : List UInt8} {start stop : Nat} {src dst : Nat → Nat}
    {out : List UInt8} (hdst : ∀ bit, start ≤ bit → bit < stop → dst bit < 8 * out.length)
    (j : Nat) : (leNat (copyBits bytes start stop src dst out)).testBit j = true ↔
      (leNat out).testBit j = true ∨
        ∃ bit, start ≤ bit ∧ bit < stop ∧ dst bit = j ∧ getBit bytes (src bit) = true := by
  have key : ∀ (bits : List Nat) (out : List UInt8), (∀ bit ∈ bits, dst bit < 8 * out.length) →
      ((leNat (bits.foldl (fun out bit =>
        if getBit bytes (src bit) then setBit out (dst bit) else out) out)).testBit j = true ↔
        (leNat out).testBit j = true ∨ ∃ bit ∈ bits, dst bit = j ∧ getBit bytes (src bit) = true) := by
    intro bits
    induction bits with
    | nil => simp
    | cons bit bits ih =>
      intro out hbits
      rw [List.forall_mem_cons] at hbits
      rw [List.foldl_cons]
      by_cases hget : getBit bytes (src bit) = true
      · rw [if_pos hget, ih _ (by simpa using hbits.2), testBit_setBit hbits.1]
        simp only [Bool.or_eq_true, decide_eq_true_eq, List.mem_cons, exists_eq_or_imp, hget,
          and_true, or_assoc]
      · rw [if_neg hget, ih _ hbits.2]
        simp [hget]
  rw [copyBits, key]
  · simp only [List.mem_range'_1]
    constructor
    · rintro (h | ⟨bit, hbit, h⟩)
      · exact .inl h
      · exact .inr ⟨bit, by omega, by omega, h⟩
    · rintro (h | ⟨bit, h1, h2, h⟩)
      · exact .inl h
      · exact .inr ⟨bit, by omega, h⟩
  · intro bit hbit
    rw [List.mem_range'_1] at hbit
    exact hdst bit (by omega) (by omega)

theorem setRange_eq (start stop : Nat) (out : List UInt8) :
    setRange start stop out = copyBits [1] start stop (fun _ => 0) id out := by
  have hone : getBit [1] 0 = true := rfl
  simp only [setRange, copyBits, hone, if_true, id]

theorem testBit_setRange {start stop : Nat} {out : List UInt8} (h : stop ≤ 8 * out.length)
    (j : Nat) : (leNat (setRange start stop out)).testBit j =
      ((leNat out).testBit j || decide (start ≤ j ∧ j < stop)) := by
  rw [setRange_eq, Bool.eq_iff_iff, testBit_copyBits (fun bit _ hbit => by simpa using by omega)]
  have hone : getBit [1] 0 = true := rfl
  simp only [id, hone, and_true, Bool.or_eq_true, decide_eq_true_eq]
  refine or_congr_right ?_
  constructor
  · rintro ⟨bit, h1, h2, rfl⟩
    exact ⟨h1, h2⟩
  · rintro ⟨h1, h2⟩
    exact ⟨j, h1, h2, rfl⟩

@[simp] theorem length_setRange (start stop : Nat) (out : List UInt8) :
    (setRange start stop out).length = out.length := by
  rw [setRange_eq, length_copyBits]

@[simp] theorem length_zeros (width : Nat) : (zeros width).length = divCeil8 width :=
  List.length_replicate

@[simp] theorem leNat_zeros (width : Nat) : leNat (zeros width) = 0 := leNat_replicate_zero _

theorem length_resize (bytes : List UInt8) (len : Nat) : (resize bytes len).length = len := by
  simp only [resize, List.length_append, List.length_take, List.length_replicate]
  omega

theorem leNat_resize {bytes : List UInt8} {len : Nat} (h : bytes.length ≤ len) :
    leNat (resize bytes len) = leNat bytes := by
  rw [resize, List.take_of_length_le h, leNat_append, leNat_replicate_zero, Nat.mul_zero,
    Nat.add_zero]

theorem le_eight_mul_divCeil8 (width : Nat) : width ≤ 8 * divCeil8 width := by
  unfold divCeil8
  omega

/-! ## Spelling -/

/-- The bytes of a constant: as many as its width needs, least significant first, unused high bits
zero. -/
structure Spells {w : Nat} (bytes : List UInt8) (x : BitVec w) : Prop where
  length : bytes.length = divCeil8 w
  toNat : leNat bytes = x.toNat

variable {w : Nat} {x y : BitVec w} {a b bytes : List UInt8}

theorem Spells.testBit (h : Spells bytes x) (i : Nat) : (leNat bytes).testBit i = x.getLsbD i := by
  rw [h.toNat, BitVec.testBit_toNat]

theorem Spells.getBit (h : Spells bytes x) (i : Nat) : getBit bytes i = x.getLsbD i := by
  rw [getBit_eq, h.testBit]

theorem Spells.ofNat_leNat (h : Spells bytes x) : BitVec.ofNat w (leNat bytes) = x := by
  rw [h.toNat, BitVec.ofNat_toNat, BitVec.setWidth_eq]

theorem spells_of_lt (hl : bytes.length = divCeil8 w) (h : leNat bytes < 2 ^ w) :
    Spells bytes (BitVec.ofNat w (leNat bytes)) :=
  ⟨hl, by rw [BitVec.toNat_ofNat, Nat.mod_eq_of_lt h]⟩

theorem Spells.inj (ha : Spells a x) (hb : Spells b y) : a = b ↔ x = y := by
  constructor
  · rintro rfl
    exact BitVec.eq_of_toNat_eq (ha.toNat.symm.trans hb.toNat)
  · rintro rfl
    exact leNat_inj (ha.length.trans hb.length.symm) (ha.toNat.trans hb.toNat.symm)

/-- Strings are compared bit by bit. -/
theorem spells_of_bits (hl : bytes.length = divCeil8 w)
    (h : ∀ i, (leNat bytes).testBit i = x.getLsbD i) : Spells bytes x := by
  refine ⟨hl, Nat.eq_of_testBit_eq fun i => ?_⟩
  rw [h, BitVec.testBit_toNat]

/-- After masking, the bits above the width do not matter. -/
theorem spells_mask (hl : bytes.length = divCeil8 w)
    (h : ∀ i, i < w → (leNat bytes).testBit i = x.getLsbD i) :
    Spells (maskUnusedHighBits bytes w) x := by
  refine spells_of_bits (by rw [length_maskUnusedHighBits, hl]) fun i => ?_
  rw [leNat_maskUnusedHighBits hl, Nat.testBit_mod_two_pow]
  by_cases hi : i < w
  · simp [hi, h i hi]
  · simp [hi, BitVec.getLsbD_of_ge x i (by omega)]

theorem spells_mask_ofNat (hl : bytes.length = divCeil8 w) :
    Spells (maskUnusedHighBits bytes w) (BitVec.ofNat w (leNat bytes)) :=
  ⟨by rw [length_maskUnusedHighBits, hl],
    by rw [leNat_maskUnusedHighBits hl, BitVec.toNat_ofNat]⟩

theorem Spells.mask (h : Spells bytes x) : maskUnusedHighBits bytes w = bytes := by
  refine leNat_inj (length_maskUnusedHighBits ..) ?_
  rw [leNat_maskUnusedHighBits h.length, h.toNat, Nat.mod_eq_of_lt x.isLt]

theorem spells_zeros (w : Nat) : Spells (zeros w) (0 : BitVec w) := ⟨length_zeros w, by simp⟩

theorem dvd_bytes (w : Nat) : 2 ^ w ∣ 256 ^ divCeil8 w := by
  rw [show (256 : Nat) = 2 ^ 8 from rfl, ← Nat.pow_mul]
  exact Nat.pow_dvd_pow 2 (le_eight_mul_divCeil8 w)

theorem Spells.addBytes (ha : Spells a x) (hb : Spells b y) :
    Spells (addBytes a b w) (x + y) := by
  have hlen : a.length = b.length := ha.length.trans hb.length.symm
  have hl : (addLoop a b 0).length = divCeil8 w := by rw [length_addLoop hlen, ha.length]
  refine ⟨by rw [Bytes.addBytes, length_maskUnusedHighBits, hl], ?_⟩
  rw [Bytes.addBytes, leNat_maskUnusedHighBits hl, leNat_addLoop hlen, ha.length,
    Nat.mod_mod_of_dvd _ (dvd_bytes w), ha.toNat, hb.toNat, BitVec.toNat_add, Nat.add_zero]

theorem Spells.negBytes (h : Spells bytes x) : Spells (negBytes bytes w) (-x) := by
  have hl : (carryLoop (bytes.map (~~~ ·)) 1).length = divCeil8 w := by
    rw [length_carryLoop, List.length_map, h.length]
  refine ⟨by rw [Bytes.negBytes, length_maskUnusedHighBits, hl], ?_⟩
  obtain ⟨k, hk⟩ := dvd_bytes w
  have hlt := x.isLt
  have hk0 : k ≠ 0 := by
    rintro rfl
    exact absurd hk (by simp)
  have hle : 2 ^ w ≤ 256 ^ divCeil8 w := Nat.le_of_dvd (by positivity) (dvd_bytes w)
  rw [Bytes.negBytes, leNat_maskUnusedHighBits hl, leNat_carryLoop, leNat_map_not,
    List.length_map, h.length, Nat.mod_mod_of_dvd _ (dvd_bytes w), h.toNat, BitVec.toNat_neg]
  rw [show 256 ^ divCeil8 w - 1 - x.toNat + 1 = 2 ^ w - x.toNat + 2 ^ w * (k - 1) by
    rw [Nat.mul_sub, Nat.mul_one, ← hk]
    omega]
  exact Nat.add_mul_mod_self_left ..

theorem Spells.subBytes (ha : Spells a x) (hb : Spells b y) :
    Spells (subBytes a b w) (x - y) := by
  have h := ha.addBytes hb.negBytes
  rwa [BitVec.add_neg_eq_sub] at h

theorem Spells.mulBytes (ha : Spells a x) (hb : Spells b y) :
    Spells (mulBytes a b w) (x * y) := by
  have hrows := mulRows_spec (b := b) a [] (List.replicate a.length 0) (by simp)
    (by simp [ha.length, hb.length]) (by simp)
  simp only [List.length_nil, List.nil_append, List.length_replicate] at hrows
  obtain ⟨hl, hval⟩ := hrows
  refine ⟨by rw [Bytes.mulBytes, length_maskUnusedHighBits, hl, ha.length], ?_⟩
  rw [Bytes.mulBytes, leNat_maskUnusedHighBits (hl.trans ha.length), hval, ha.length,
    Nat.mod_mod_of_dvd _ (dvd_bytes w), ha.toNat, hb.toNat, BitVec.toNat_mul]

theorem Spells.notBytes (h : Spells bytes x) :
    Spells (maskUnusedHighBits (bytes.map (~~~ ·)) w) (~~~x) := by
  have hl : (bytes.map (~~~ ·)).length = divCeil8 w := by rw [List.length_map, h.length]
  refine spells_mask hl fun i hi => ?_
  have hcover := le_eight_mul_divCeil8 w
  rw [leNat_map_not, Nat.sub_sub, Nat.add_comm 1, h.length, show (256 : Nat) = 2 ^ 8 from rfl,
    ← Nat.pow_mul, Nat.testBit_two_pow_sub_succ, h.testBit, BitVec.getLsbD_not]
  · simp [hi, show i < 8 * divCeil8 w by omega]
  · have := leNat_lt bytes
    rwa [h.length, show (256 : Nat) = 2 ^ 8 from rfl, ← Nat.pow_mul] at this

/-- Byte-wise logic is bit-wise logic. -/
theorem Spells.zipWith {f : UInt8 → UInt8 → UInt8} {g : Bool → Bool → Bool}
    {op : BitVec w → BitVec w → BitVec w} (ha : Spells a x) (hb : Spells b y)
    (hf : ∀ u v i, (f u v).toNat.testBit i = (decide (i < 8) && g (u.toNat.testBit i) (v.toNat.testBit i)))
    (hop : ∀ i, i < w → (op x y).getLsbD i = g (x.getLsbD i) (y.getLsbD i))
    (hg : g false false = false) : Spells (a.zipWith f b) (op x y) := by
  have hlen : a.length = b.length := ha.length.trans hb.length.symm
  refine spells_of_bits (by rw [List.length_zipWith, ← hlen, Nat.min_self, ha.length]) fun i => ?_
  have hbits : (leNat (a.zipWith f b)).testBit i =
      g ((leNat a).testBit i) ((leNat b).testBit i) := by
    rw [testBit_leNat, testBit_leNat, testBit_leNat, List.getD_eq_getElem?_getD,
      List.getD_eq_getElem?_getD, List.getD_eq_getElem?_getD, List.getElem?_zipWith]
    by_cases hi : i / 8 < a.length
    · rw [List.getElem?_eq_getElem hi, List.getElem?_eq_getElem (hlen ▸ hi)]
      simp [hf, Nat.mod_lt]
    · rw [List.getElem?_eq_none (by omega), List.getElem?_eq_none (by omega)]
      simp [hg]
  rw [hbits, ha.testBit, hb.testBit]
  by_cases hi : i < w
  · rw [hop i hi]
  · rw [BitVec.getLsbD_of_ge _ _ (by omega), BitVec.getLsbD_of_ge _ _ (by omega),
      BitVec.getLsbD_of_ge _ _ (by omega), hg]

theorem Spells.andBytes (ha : Spells a x) (hb : Spells b y) :
    Spells (a.zipWith (· &&& ·) b) (x &&& y) :=
  ha.zipWith (g := (· && ·)) hb (fun u v i => by
    by_cases hi : i < 8
    · simp [hi]
    · simp [hi, Nat.testBit_lt_two_pow (Nat.lt_of_lt_of_le u.toNat_lt
        (Nat.pow_le_pow_right (by decide) (show 8 ≤ i by omega)))]) (fun i _ => by simp) rfl

theorem Spells.orBytes (ha : Spells a x) (hb : Spells b y) :
    Spells (a.zipWith (· ||| ·) b) (x ||| y) :=
  ha.zipWith (g := (· || ·)) hb (fun u v i => by
    by_cases hi : i < 8
    · simp [hi]
    · have hpow : 2 ^ 8 ≤ 2 ^ i := Nat.pow_le_pow_right (by decide) (show 8 ≤ i by omega)
      simp [hi, Nat.testBit_lt_two_pow (Nat.lt_of_lt_of_le u.toNat_lt hpow),
        Nat.testBit_lt_two_pow (Nat.lt_of_lt_of_le v.toNat_lt hpow)]) (fun i _ => by simp) rfl

theorem Spells.xorBytes (ha : Spells a x) (hb : Spells b y) :
    Spells (a.zipWith (· ^^^ ·) b) (x ^^^ y) :=
  ha.zipWith (g := Bool.xor) hb (fun u v i => by
    by_cases hi : i < 8
    · simp [hi]
    · have hpow : 2 ^ 8 ≤ 2 ^ i := Nat.pow_le_pow_right (by decide) (show 8 ≤ i by omega)
      simp [hi, Nat.testBit_lt_two_pow (Nat.lt_of_lt_of_le u.toNat_lt hpow),
        Nat.testBit_lt_two_pow (Nat.lt_of_lt_of_le v.toNat_lt hpow)]) (fun i _ => by simp) rfl

/-! ## Moving bits -/

/-- One loop from nothing: bit `j` of the result is bit `src j` of the source. -/
theorem testBit_copyBits_zeros {v stop start : Nat} {src : Nat → Nat} (hv : stop ≤ v) (j : Nat) :
    (leNat (copyBits bytes start stop src id (zeros v))).testBit j =
      (decide (start ≤ j ∧ j < stop) && getBit bytes (src j)) := by
  have hcover := le_eight_mul_divCeil8 v
  rw [Bool.eq_iff_iff, testBit_copyBits fun bit _ hbit => by rw [length_zeros]; simp only [id]; omega]
  simp only [leNat_zeros, Nat.zero_testBit, Bool.false_eq_true, false_or, id, Bool.and_eq_true,
    decide_eq_true_eq]
  constructor
  · rintro ⟨bit, h1, h2, rfl, hget⟩
    exact ⟨⟨h1, h2⟩, hget⟩
  · rintro ⟨⟨h1, h2⟩, hget⟩
    exact ⟨j, h1, h2, rfl, hget⟩

theorem Spells.extractBytes (h : Spells bytes x) (low n : Nat) :
    Spells (extractBytes bytes low n) (x.extractLsb' low n) := by
  refine spells_mask (by rw [length_copyBits, length_zeros]) fun i hi => ?_
  rw [testBit_copyBits_zeros (le_refl n), h.getBit, BitVec.getLsbD_extractLsb']
  simp [hi]

theorem Spells.concatBytes {v : Nat} {z : BitVec v} (ha : Spells a x) (hb : Spells b z) :
    Spells (concatBytes a w b v) (x ++ z) := by
  have hcover := le_eight_mul_divCeil8 (w + v)
  have hl : (copyBits b 0 v id id (zeros (w + v))).length = divCeil8 (w + v) := by
    rw [length_copyBits, length_zeros]
  refine spells_mask (by rw [length_copyBits, hl]) fun i hi => ?_
  rw [Bool.eq_iff_iff, testBit_copyBits fun bit _ hbit => by rw [hl]; omega,
    testBit_copyBits_zeros (by omega), BitVec.getLsbD_append]
  simp only [id, ha.getBit, hb.getBit]
  by_cases hiv : i < v
  · rw [if_pos hiv]
    constructor
    · rintro (hbit | ⟨bit, -, -, hbit, -⟩)
      · simpa [hiv] using hbit
      · omega
    · intro hbit
      exact .inl (by simpa [hiv] using hbit)
  · rw [if_neg hiv]
    constructor
    · rintro (hbit | ⟨bit, -, -, rfl, hbit⟩)
      · simp [hiv] at hbit
      · rwa [Nat.add_sub_cancel_left]
    · intro hbit
      exact .inr ⟨i - v, Nat.zero_le _, by omega, by omega, hbit⟩

theorem Spells.zextBytes (h : Spells bytes x) (extra : Nat) :
    Spells (resize bytes (divCeil8 (w + extra))) (x.setWidth (w + extra)) := by
  have hle : bytes.length ≤ divCeil8 (w + extra) := by
    rw [h.length]
    exact Nat.div_le_div_right (by omega)
  refine ⟨length_resize .., ?_⟩
  rw [leNat_resize hle, h.toNat, BitVec.toNat_setWidth,
    Nat.mod_eq_of_lt (Nat.lt_of_lt_of_le x.isLt (Nat.pow_le_pow_right (by decide) (by omega)))]

theorem Spells.sextBytes (h : Spells bytes x) (extra : Nat) :
    Spells (sextBytes bytes w extra) (x.signExtend (w + extra)) := by
  have hz := h.zextBytes extra
  have hcover := le_eight_mul_divCeil8 (w + extra)
  have hmsb : Bytes.getBit bytes (w - 1) = x.msb := by rw [h.getBit, BitVec.msb_eq_getLsbD_last]
  rw [Bytes.sextBytes, hmsb]
  refine spells_mask (by split <;> simp [hz.length]) fun i hi => ?_
  have hold : (leNat (resize bytes (divCeil8 (w + extra)))).testBit i = x.getLsbD i := by
    rw [hz.testBit, BitVec.getLsbD_setWidth]
    simp [hi]
  rw [BitVec.getLsbD_signExtend]
  by_cases hiw : i < w
  · cases hm : x.msb with
    | false => simp [hold, hi, hiw]
    | true =>
      rw [if_pos rfl, testBit_setRange (by rw [hz.length]; omega), hold]
      simp [hi, hiw, show ¬w ≤ i by omega]
  · cases hm : x.msb with
    | false => simp [hold, hi, hiw, BitVec.getLsbD_of_ge x i (by omega)]
    | true =>
      rw [if_pos rfl, testBit_setRange (by rw [hz.length]; omega), hold]
      simp [hi, hiw, show w ≤ i by omega]

/-- The copies of `repeat_bytes` made so far. -/
theorem repeatLoop_spec (h : Spells bytes x) (total n : Nat) (hn : n * w ≤ total) :
    let out := (List.range n).foldl
      (fun out copy => copyBits bytes 0 w id (copy * w + ·) out) (zeros total)
    out.length = divCeil8 total ∧
      ∀ i, (leNat out).testBit i = (decide (i < n * w) && x.getLsbD (i % w)) := by
  have hcover := le_eight_mul_divCeil8 total
  induction n with
  | zero => simp
  | succ n ih =>
    have hnw : (n + 1) * w = n * w + w := Nat.succ_mul n w
    rw [hnw] at hn
    obtain ⟨hl, hbits⟩ := ih (by omega)
    simp only [List.range_succ, List.foldl_append, List.foldl_cons, List.foldl_nil]
    refine ⟨by rw [length_copyBits, hl], fun i => ?_⟩
    rw [Bool.eq_iff_iff, testBit_copyBits fun bit _ hbit => by rw [hl]; omega, hbits, hnw]
    simp only [id, h.getBit, Bool.and_eq_true, decide_eq_true_eq]
    constructor
    · rintro (⟨hi, hx⟩ | ⟨bit, -, hbit, rfl, hx⟩)
      · exact ⟨by omega, hx⟩
      · refine ⟨by omega, ?_⟩
        rwa [Nat.add_comm, Nat.add_mul_mod_self_right, Nat.mod_eq_of_lt hbit]
    · rintro ⟨hi, hx⟩
      by_cases hin : i < n * w
      · exact .inl ⟨hin, hx⟩
      · refine .inr ⟨i - n * w, Nat.zero_le _, by omega, by omega, ?_⟩
        have hmod : i % w = i - n * w := by
          conv_lhs => rw [show i = i - n * w + n * w by omega]
          rw [Nat.add_mul_mod_self_right, Nat.mod_eq_of_lt (by omega)]
        rwa [← hmod]

theorem Spells.repeatBytes (h : Spells bytes x) (count : Nat) :
    Spells (repeatBytes bytes w count) (x.replicate count) := by
  have hloop := repeatLoop_spec h (w * count) count (by rw [Nat.mul_comm])
  refine spells_mask hloop.1 fun i hi => ?_
  rw [hloop.2 i, BitVec.getLsbD_replicate, Nat.mul_comm count]

theorem Spells.rotateLeftBytes (h : Spells bytes x) {amount : Nat} (ha : amount < w) :
    Spells (rotateLeftBytes bytes w amount) (x.rotateLeft amount) := by
  refine spells_of_bits (by rw [Bytes.rotateLeftBytes, length_copyBits, length_zeros]) fun i => ?_
  rw [Bytes.rotateLeftBytes, testBit_copyBits_zeros (le_refl w), h.getBit,
    BitVec.getLsbD_rotateLeft, Nat.mod_eq_of_lt ha]
  by_cases hi : i < w
  · by_cases hlt : i < amount
    · rw [Nat.mod_eq_of_lt (by omega), show i + w - amount = w - amount + i by omega]
      simp [hi, hlt]
    · rw [show i + w - amount = i - amount + w by omega, Nat.add_mod_right,
        Nat.mod_eq_of_lt (by omega)]
      simp [hi, hlt]
  · simp [hi, show ¬i < amount by omega]

theorem Spells.rotateRightBytes (h : Spells bytes x) {amount : Nat} (ha : amount < w) :
    Spells (rotateRightBytes bytes w amount) (x.rotateRight amount) := by
  refine spells_of_bits (by rw [Bytes.rotateRightBytes, length_copyBits, length_zeros]) fun i => ?_
  rw [Bytes.rotateRightBytes, testBit_copyBits_zeros (le_refl w), h.getBit,
    BitVec.getLsbD_rotateRight, Nat.mod_eq_of_lt ha]
  by_cases hi : i < w
  · by_cases hlt : i < w - amount
    · rw [Nat.mod_eq_of_lt (by omega), Nat.add_comm]
      simp [hi, hlt]
    · rw [show i + amount = i - (w - amount) + w by omega, Nat.add_mod_right,
        Nat.mod_eq_of_lt (by omega)]
      simp [hi, hlt]
  · simp [hi, show ¬i < w - amount by omega]

theorem Spells.shlBytes (h : Spells bytes x) (amount : Nat) :
    Spells (shlBytes bytes w amount) (x <<< amount) := by
  refine spells_mask (by rw [length_copyBits, length_zeros]) fun i hi => ?_
  rw [testBit_copyBits_zeros (le_refl w), h.getBit, BitVec.getLsbD_shiftLeft]
  by_cases hle : amount ≤ i
  · simp [hi, hle]
  · simp [hle, show i < amount by omega]

theorem Spells.lshrBytes (h : Spells bytes x) (amount : Nat) :
    Spells (lshrBytes bytes w amount) (x >>> amount) := by
  refine spells_of_bits (by rw [Bytes.lshrBytes, length_copyBits, length_zeros]) fun i => ?_
  rw [Bytes.lshrBytes, testBit_copyBits_zeros (Nat.sub_le w amount), h.getBit,
    BitVec.getLsbD_ushiftRight, Nat.add_comm]
  by_cases hlt : i < w - amount
  · simp [hlt]
  · simp [BitVec.getLsbD_of_ge x (amount + i) (by omega)]

theorem Spells.ashrBytes (h : Spells bytes x) (amount : Nat) :
    Spells (ashrBytes bytes w amount) (x.sshiftRight amount) := by
  have hcover := le_eight_mul_divCeil8 w
  have hz := h.lshrBytes (min amount w)
  have hmsb : Bytes.getBit bytes (w - 1) = x.msb := by rw [h.getBit, BitVec.msb_eq_getLsbD_last]
  rw [Bytes.ashrBytes, hmsb]
  refine spells_mask (by split <;> simp [hz.length]) fun i hi => ?_
  have hold : (leNat (Bytes.lshrBytes bytes w (min amount w))).testBit i =
      x.getLsbD (min amount w + i) := by
    rw [hz.testBit, BitVec.getLsbD_ushiftRight]
  rw [BitVec.getLsbD_sshiftRight]
  by_cases hin : amount + i < w
  · have hmin : min amount w = amount := by omega
    rw [hmin] at hold
    cases hm : x.msb with
    | false => simp [hold, hmin, hin, show ¬w ≤ i by omega]
    | true =>
      rw [if_pos rfl, testBit_setRange (by rw [hz.length]; omega), hmin, hold]
      simp [hi, hin, show ¬w ≤ i by omega, show ¬w - amount ≤ i by omega]
  · have hout : x.getLsbD (min amount w + i) = false := BitVec.getLsbD_of_ge _ _ (by omega)
    cases hm : x.msb with
    | false => simp [hold, hout, hin, show ¬w ≤ i by omega]
    | true =>
      rw [if_pos rfl, testBit_setRange (by rw [hz.length]; omega), hold, hout]
      simp [hi, hin, show ¬w ≤ i by omega, show w - min amount w ≤ i by omega]

/-! ## Reading numbers back -/

/-- The value of `bytes_to_bounded_usize` after the first `n` bits: their number, or the bound. -/
theorem boundedLoop_eq {bound : Nat} (hbound : bound < 2 ^ 64) (bytes : List UInt8) (n : Nat) :
    ((List.range n).foldlM (boundedStep bytes bound) 0 = .ok (leNat bytes % 2 ^ n) ∧
      (leNat bytes % 2 ^ n < bound ∨ leNat bytes % 2 ^ n = 0)) ∨
    ((List.range n).foldlM (boundedStep bytes bound) 0 = .error bound ∧
      bound ≤ leNat bytes % 2 ^ n) := by
  induction n with
  | zero => exact .inl ⟨by simp [Nat.mod_one]; rfl, .inr (Nat.mod_one _)⟩
  | succ n ih =>
    have hstep : leNat bytes % 2 ^ (n + 1) =
        leNat bytes % 2 ^ n + if getBit bytes n then 2 ^ n else 0 := by
      rw [getBit_eq, Nat.testBit_eq_decide_div_mod_eq, Nat.pow_succ, Nat.mod_mul]
      rcases Nat.mod_two_eq_zero_or_one (leNat bytes / 2 ^ n) with h | h <;> simp [h]
    rw [List.range_succ, List.foldlM_append, hstep]
    rcases ih with ⟨hok, hlt⟩ | ⟨herr, hle⟩
    · rw [hok]
      have hmod : leNat bytes % 2 ^ n < 2 ^ n := Nat.mod_lt _ (by positivity)
      show (boundedStep bytes bound _ n >>= pure = _ ∧ _) ∨ (boundedStep bytes bound _ n >>= pure = _ ∧ _)
      rw [bind_pure, boundedStep]
      by_cases hget : getBit bytes n = true
      · simp only [hget, if_true]
        by_cases h64 : 64 ≤ n
        · have hpow : 2 ^ 64 ≤ 2 ^ n := Nat.pow_le_pow_right (by decide) h64
          rw [if_pos h64]
          exact .inr ⟨rfl, by omega⟩
        · -- the sum is below `2 ^ 64`, so saturation does nothing
          have hpow : 2 ^ (n + 1) ≤ 2 ^ 64 := Nat.pow_le_pow_right (by decide) (by omega)
          rw [Nat.pow_succ] at hpow
          rw [if_neg h64, Nat.min_eq_left (by omega)]
          by_cases hb : bound ≤ leNat bytes % 2 ^ n + 2 ^ n
          · rw [if_pos hb]
            exact .inr ⟨rfl, hb⟩
          · rw [if_neg hb]
            exact .inl ⟨rfl, .inl (by omega)⟩
      · rw [if_neg hget, if_neg hget]
        exact .inl ⟨rfl, hlt⟩
    · rw [herr]
      exact .inr ⟨rfl, by omega⟩

theorem bytesToBoundedUsize_eq {bound : Nat} (hbound : bound < 2 ^ 64) (bytes : List UInt8) :
    bytesToBoundedUsize bytes bound = min (leNat bytes) bound := by
  have hall : leNat bytes % 2 ^ (8 * bytes.length) = leNat bytes := by
    rw [Nat.pow_mul]
    exact Nat.mod_eq_of_lt (leNat_lt bytes)
  have h := boundedLoop_eq hbound bytes (8 * bytes.length)
  rw [hall] at h
  rw [bytesToBoundedUsize]
  rcases h with ⟨hok, hlt⟩ | ⟨herr, hle⟩
  · rw [hok]
    show leNat bytes = _
    omega
  · rw [herr]
    show bound = _
    omega

theorem isZeroBytes_iff (bytes : List UInt8) : isZeroBytes bytes = true ↔ leNat bytes = 0 := by
  rw [isZeroBytes, leNat_eq_zero, List.all_eq_true]
  simp

theorem Spells.isZeroBytes (h : Spells bytes x) : isZeroBytes bytes = true ↔ x = 0 := by
  rw [isZeroBytes_iff, h.toNat, ← BitVec.toNat_inj]
  simp

theorem Spells.isOneBytes (h : Spells bytes x) (hw : 1 ≤ w) : isOneBytes bytes = true ↔ x = 1 := by
  have hone : x = 1 ↔ leNat bytes = 1 := by
    rw [h.toNat, ← BitVec.toNat_inj, show (1 : BitVec w).toNat = 1 from BitVec.toNat_one hw]
  rw [hone]
  cases bytes with
  | nil => simp [Bytes.isOneBytes]
  | cons byte rest =>
    have hb := byte.toNat_lt
    simp only [Bytes.isOneBytes, List.head?_cons, List.drop_one, List.tail_cons, Bool.and_eq_true,
      beq_iff_eq, Option.some.injEq, leNat_cons]
    rw [show rest.all (· == 0) = Bytes.isZeroBytes rest from rfl, isZeroBytes_iff, ← UInt8.toNat_inj]
    show byte.toNat = 1 ∧ _ ↔ _
    omega

theorem Spells.allOnes (w : Nat) :
    Spells (maskUnusedHighBits (List.replicate (divCeil8 w) 0xff) w) (BitVec.allOnes w) := by
  refine spells_mask (by simp) fun i hi => ?_
  have hcover := le_eight_mul_divCeil8 w
  have hbyte : ∀ r : Fin 8, (0xff : UInt8).toNat.testBit r = true := by decide
  rw [testBit_leNat, List.getD_eq_getElem?_getD, List.getElem?_replicate,
    if_pos (by omega), Option.getD_some, BitVec.getLsbD_allOnes]
  simpa [hi] using hbyte ⟨i % 8, Nat.mod_lt _ (by decide)⟩

theorem compare_byte (x y : UInt8) : compare x y = compare x.toNat y.toNat := by
  show compareOfLessAndEq x y = compareOfLessAndEq x.toNat y.toNat
  simp only [compareOfLessAndEq, UInt8.lt_iff_toNat_lt, UInt8.toNat_inj]

theorem cmpUnsignedBytes_eq {a b : List UInt8} (h : a.length = b.length) :
    cmpUnsignedBytes a b = compare (leNat a) (leNat b) := by
  induction a generalizing b with
  | nil => rw [List.length_eq_zero_iff.mp h.symm]; rfl
  | cons x a ih =>
    cases b with
    | nil => exact absurd h (by simp)
    | cons y b =>
      have hrec : cmpUnsignedBytes (x :: a) (y :: b) =
          (cmpUnsignedBytes a b).then (compare x y) := by
        have hthen : ∀ (ps : List (UInt8 × UInt8)) (o : Ordering),
            ps.foldr (fun p rest => (compare p.1 p.2).then rest) o =
              (ps.foldr (fun p rest => (compare p.1 p.2).then rest) .eq).then o := by
          intro ps o
          induction ps with
          | nil => rfl
          | cons p ps ih => rw [List.foldr_cons, List.foldr_cons, ih, Ordering.then_assoc]
        rw [cmpUnsignedBytes, cmpUnsignedBytes, List.zip_cons_cons, List.reverse_cons,
          List.foldr_append, hthen]
        simp [Ordering.then_eq]
      have hx := x.toNat_lt
      have hy := y.toNat_lt
      rw [hrec, ih (Nat.succ.inj h), leNat_cons, leNat_cons]
      rcases Nat.lt_trichotomy (leNat a) (leNat b) with hab | hab | hab
      · rw [compare_lt_iff_lt.mpr hab, compare_lt_iff_lt.mpr (by omega)]
        rfl
      · rw [compare_eq_iff_eq.mpr hab, hab]
        show compare x y = _
        rw [compare_byte]
        rcases Nat.lt_trichotomy x.toNat y.toNat with hxy | hxy | hxy
        · rw [compare_lt_iff_lt.mpr hxy, compare_lt_iff_lt.mpr (by omega)]
        · rw [compare_eq_iff_eq.mpr hxy, compare_eq_iff_eq.mpr (by omega)]
        · rw [compare_gt_iff_gt.mpr hxy, compare_gt_iff_gt.mpr (by omega)]
      · rw [compare_gt_iff_gt.mpr hab, compare_gt_iff_gt.mpr (by omega)]
        rfl

theorem Spells.cmpUnsignedBytes (ha : Spells a x) (hb : Spells b y) :
    cmpUnsignedBytes a b = compare x.toNat y.toNat := by
  rw [cmpUnsignedBytes_eq (ha.length.trans hb.length.symm), ha.toNat, hb.toNat]

theorem Spells.signedLessThan (ha : Spells a x) (hb : Spells b y) :
    signedLessThan a b w = x.slt y := by
  have hmsb : ∀ {bytes : List UInt8} {z : BitVec w}, Spells bytes z →
      Bytes.getBit bytes (w - 1) = z.msb := by
    intro bytes z h
    rw [h.getBit, BitVec.msb_eq_getLsbD_last]
  have hult : (Bytes.cmpUnsignedBytes a b == .lt) = x.ult y := by
    rw [ha.cmpUnsignedBytes hb, Bool.eq_iff_iff, beq_iff_eq, compare_lt_iff_lt,
      BitVec.ult_iff_lt, BitVec.lt_def]
  rw [Bytes.signedLessThan, hmsb ha, hmsb hb, BitVec.slt_eq_ult, hult]
  have hx := x.isLt
  have hy := y.isLt
  cases hmx : x.msb with
  | false =>
    cases hmy : y.msb with
    | false => simp
    | true =>
      rw [BitVec.msb_eq_false_iff_two_mul_lt] at hmx
      rw [BitVec.msb_eq_true_iff_two_mul_ge] at hmy
      simp [BitVec.ult, show x.toNat < y.toNat by omega]
  | true =>
    cases hmy : y.msb with
    | false =>
      rw [BitVec.msb_eq_true_iff_two_mul_ge] at hmx
      rw [BitVec.msb_eq_false_iff_two_mul_lt] at hmy
      simp [BitVec.ult, show ¬x.toNat < y.toNat by omega]
    | true => simp

end Bytes
end Qfbv
end SmtServer
