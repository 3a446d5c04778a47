import SmtServer.Qfbv.Bytes

/-!
# `builder.rs` — the byte kernels on machine words

`Qfbv/Bytes.lean` computes with natural numbers, which is right as long as no intermediate word
overflows. Here every kernel is written a second time with the words of the source: a `u16` sum, a
`usize` index and a `u32` shift position are computed by operations that panic when the exact result
does not fit, and a cast keeps the low bits. The two agree: no kernel panics, and each returns what
its exact counterpart returns.

The carries carry the argument. A sum of two bytes and a carry stays below `2 ^ 16` because the
carry is 0 or 1; a product row needs the carry to be a byte, and then reaches exactly
`255 + 255 * 255 + 255 = 2 ^ 16 - 1`.

`get_bit` and `set_bit` only divide by eight and shift by a remainder modulo eight, so they are
taken as they are.
-/

namespace SmtServer
namespace Qfbv
namespace Bytes

open Lib Outcome

variable {ε : Type}

/-! ## The kernels -/

namespace Checked

/-- `n as u32`. -/
def asU32 (n : Nat) : Nat := n % 2 ^ 32

/-- `mask_unused_high_bits`. -/
def maskUnusedHighBits (bytes : List UInt8) (width : Nat) : Outcome ε (List UInt8) := do
  let validBits := width % 8
  if validBits = 0 ∨ bytes = [] then return bytes
  else
    let mask ← subU (1 <<< validBits % 2 ^ 8) 1
    let last ← subU bytes.length 1
    return bytes.modify last (· &&& UInt8.ofNat mask)

/-- The loop of `add_bytes`, with `carry` a `u16`. -/
def addLoop : (a b : List UInt8) → (carry : Nat) → Outcome ε (List UInt8)
  | x :: a, y :: b, carry => do
      let sum ← addU 16 (← addU 16 x.toNat y.toNat) carry
      return UInt8.ofNat sum :: (← addLoop a b (sum >>> 8))
  | _, _, _ => return []

def addBytes (a b : List UInt8) (width : Nat) : Outcome ε (List UInt8) := do
  maskUnusedHighBits (← addLoop a b 0) width

/-- The loop of `neg_bytes`. -/
def carryLoop : (bytes : List UInt8) → (carry : Nat) → Outcome ε (List UInt8)
  | [], _ => return []
  | byte :: bytes, carry => do
      let sum ← addU 16 byte.toNat carry
      let carry := sum >>> 8
      let rest ← if carry = 0 then pure bytes else carryLoop bytes carry
      return UInt8.ofNat sum :: rest

def negBytes (bytes : List UInt8) (width : Nat) : Outcome ε (List UInt8) := do
  maskUnusedHighBits (← carryLoop (bytes.map (~~~ ·)) 1) width

def subBytes (a b : List UInt8) (width : Nat) : Outcome ε (List UInt8) := do
  addBytes a (← negBytes b width) width

/-- The inner loop of `mul_bytes`: `j` counts the bytes of `b`, and the loop breaks where
`out.get_mut(i + j)` finds nothing. -/
def mulRow (x : UInt8) (i : Nat) :
    (b : List UInt8) → (j : Nat) → (out : List UInt8) → (carry : Nat) → Outcome ε (List UInt8)
  | [], _, out, _ => return out
  | y :: b, j, out, carry => do
      let index ← addU 64 i j
      match out[index]? with
      | none => return out
      | some slot =>
          let product ← addU 16 (← addU 16 slot.toNat (← mulU 16 x.toNat y.toNat)) carry
          mulRow x i b (j + 1) (out.set index (UInt8.ofNat product)) (product >>> 8)

def mulBytes (a b : List UInt8) (width : Nat) : Outcome ε (List UInt8) := do
  let out ← a.zipIdx.foldlM (fun out (x, i) => mulRow x i b 0 out 0) (List.replicate a.length 0)
  maskUnusedHighBits out width

def shlBytes (bytes : List UInt8) (width amount : Nat) : Outcome ε (List UInt8) := do
  let out ← (List.range' amount (width - amount)).foldlM
    (fun out bit => do
      let source ← subU bit amount
      return if getBit bytes (asU32 source) then setBit out (asU32 bit) else out) (zeros width)
  maskUnusedHighBits out width

def lshrBytes (bytes : List UInt8) (width amount : Nat) : Outcome ε (List UInt8) :=
  (List.range' 0 (width - amount)).foldlM
    (fun out bit => do
      let source ← addU 64 bit amount
      return if getBit bytes (asU32 source) then setBit out (asU32 bit) else out) (zeros width)

def ashrBytes (bytes : List UInt8) (width amount : Nat) : Outcome ε (List UInt8) := do
  let out ← lshrBytes bytes width (min amount width)
  let sign ← subU width 1
  let out :=
    if getBit bytes sign then setRange (width - asU32 (min amount width)) width out else out
  maskUnusedHighBits out width

/-- One bit of `bytes_to_bounded_usize`: an error is the early return. -/
def boundedBit (byte : UInt8) (byteIndex bound value bitInByte : Nat) : Outcome Nat Nat := do
  if (byte >>> UInt8.ofNat bitInByte) &&& 1 = 0 then return value
  else
    let bit ← addU 64 (← mulU 64 byteIndex 8) bitInByte
    if 64 ≤ bit then err bound
    else
      let value := min (value + 1 <<< bit) (2 ^ 64 - 1)
      if bound ≤ value then err bound else return value

def boundedByte (bound value : Nat) (entry : UInt8 × Nat) : Outcome Nat Nat :=
  if entry.1 = 0 then return value
  else (List.range 8).foldlM (boundedBit entry.1 entry.2 bound) value

def bytesToBoundedUsize (bytes : List UInt8) (bound : Nat) : Outcome ε Nat :=
  match bytes.zipIdx.foldlM (boundedByte bound) 0 with
  | .ok value => .ok value
  | .err early => .ok early
  | .panic => .panic

/-- `signed_less_than`. -/
def signedLessThan (a b : List UInt8) (width : Nat) : Outcome ε Bool := do
  let sign ← subU width 1
  return match getBit a sign, getBit b sign with
    | true, false => true
    | false, true => false
    | _, _ => cmpUnsignedBytes a b == .lt

end Checked

/-! ## None of them overflows -/

theorem asU32_of_lt {n : Nat} (h : n < 2 ^ 32) : Checked.asU32 n = n := Nat.mod_eq_of_lt h

theorem maskUnusedHighBits_exact (bytes : List UInt8) (width : Nat) :
    Checked.maskUnusedHighBits bytes width =
      (ok (maskUnusedHighBits bytes width) : Outcome ε (List UInt8)) := by
  have hv : width % 8 < 8 := Nat.mod_lt _ (by decide)
  unfold Checked.maskUnusedHighBits maskUnusedHighBits
  dsimp only
  split
  · rfl
  · next h =>
    have hlen : 1 ≤ bytes.length := List.length_pos_iff.mpr fun hb => h (.inr hb)
    have hpow : 2 ^ (width % 8) < 2 ^ 8 := Nat.pow_lt_pow_right (by decide) hv
    have hone : 1 ≤ 2 ^ (width % 8) := Nat.one_le_two_pow
    rw [Nat.shiftLeft_eq, Nat.one_mul, Nat.mod_eq_of_lt hpow, subU_of_le hone, ok_bind,
      subU_of_le hlen, ok_bind]
    rfl

/-- A sum of two bytes and a carry of at most one is below `2 ^ 16`, and carries at most one. -/
theorem carry_of_sum {x y : UInt8} {carry : Nat} (hc : carry ≤ 1) :
    x.toNat + y.toNat + carry < 2 ^ 16 ∧ (x.toNat + y.toNat + carry) >>> 8 ≤ 1 := by
  have hx := x.toNat_lt
  have hy := y.toNat_lt
  rw [Nat.shiftRight_eq_div_pow]
  omega

theorem addLoop_exact (a b : List UInt8) {carry : Nat} (hc : carry ≤ 1) :
    Checked.addLoop a b carry = (ok (addLoop a b carry) : Outcome ε (List UInt8)) := by
  induction a generalizing b carry with
  | nil => rfl
  | cons x a ih =>
    cases b with
    | nil => rfl
    | cons y b =>
      obtain ⟨hsum, hcarry⟩ := carry_of_sum (x := x) (y := y) hc
      rw [Checked.addLoop, addLoop, addU_of_lt (by omega), ok_bind, addU_of_lt hsum, ok_bind,
        ih b hcarry]
      rfl

theorem addBytes_exact (a b : List UInt8) (width : Nat) :
    Checked.addBytes a b width = (ok (addBytes a b width) : Outcome ε (List UInt8)) := by
  rw [Checked.addBytes, addLoop_exact a b (Nat.zero_le 1), ok_bind, maskUnusedHighBits_exact]
  rfl

theorem carryLoop_exact (bytes : List UInt8) {carry : Nat} (hc : carry ≤ 1) :
    Checked.carryLoop bytes carry = (ok (carryLoop bytes carry) : Outcome ε (List UInt8)) := by
  induction bytes generalizing carry with
  | nil => rfl
  | cons byte bytes ih =>
    obtain ⟨hsum, hcarry⟩ := carry_of_sum (x := byte) (y := 0) hc
    rw [UInt8.toNat_zero, Nat.add_zero] at hsum hcarry
    rw [Checked.carryLoop, carryLoop, addU_of_lt hsum, ok_bind]
    dsimp only
    split
    · rfl
    · rw [ih hcarry]
      rfl

theorem negBytes_exact (bytes : List UInt8) (width : Nat) :
    Checked.negBytes bytes width = (ok (negBytes bytes width) : Outcome ε (List UInt8)) := by
  rw [Checked.negBytes, carryLoop_exact _ (le_refl 1), ok_bind, maskUnusedHighBits_exact]
  rfl

theorem subBytes_exact (a b : List UInt8) (width : Nat) :
    Checked.subBytes a b width = (ok (subBytes a b width) : Outcome ε (List UInt8)) := by
  rw [Checked.subBytes, negBytes_exact, ok_bind, addBytes_exact]
  rfl

/-- The largest sum of a product row is `2 ^ 16 - 1`, and it carries a byte again. -/
theorem carry_of_product {slot x y : UInt8} {carry : Nat} (hc : carry < 2 ^ 8) :
    slot.toNat + x.toNat * y.toNat + carry < 2 ^ 16 ∧
      (slot.toNat + x.toNat * y.toNat + carry) >>> 8 < 2 ^ 8 := by
  have hs := slot.toNat_lt
  have hx := x.toNat_lt
  have hy := y.toNat_lt
  have hxy : x.toNat * y.toNat ≤ 255 * 255 := Nat.mul_le_mul (by omega) (by omega)
  rw [Nat.shiftRight_eq_div_pow]
  omega

theorem mulRow_exact (x : UInt8) (i : Nat) (b : List UInt8) (j : Nat) (out : List UInt8)
    {carry : Nat} (hc : carry < 2 ^ 8) (hlen : i + j + b.length ≤ 2 ^ 64) :
    Checked.mulRow x i b j out carry =
      (ok (out.take (i + j) ++ mulRow x b (out.drop (i + j)) carry) : Outcome ε (List UInt8)) := by
  induction b generalizing j out carry with
  | nil => simp [Checked.mulRow, mulRow]
  | cons y b ih =>
    rw [List.length_cons] at hlen
    rw [Checked.mulRow, addU_of_lt (by omega), ok_bind]
    cases hslot : out[i + j]? with
    | none =>
      have hover : out.length ≤ i + j := List.getElem?_eq_none_iff.mp hslot
      simp [List.drop_eq_nil_of_le hover, mulRow, List.take_of_length_le hover]
    | some slot =>
      obtain ⟨hlt, hget⟩ := List.getElem?_eq_some_iff.mp hslot
      have hproduct : slot.toNat + x.toNat * y.toNat + carry < 2 ^ 16 ∧ _ := carry_of_product hc
      obtain ⟨hsum, hcarry⟩ := hproduct
      dsimp only
      rw [mulU_of_lt (by omega), ok_bind, addU_of_lt (by omega), ok_bind, addU_of_lt hsum, ok_bind,
        ih (j + 1) _ hcarry (by omega), List.drop_eq_getElem_cons hlt, hget, mulRow,
        ← Nat.add_assoc, List.take_set, List.drop_set_of_lt (by omega), List.take_add_one, hslot,
        List.set_append_right _ _ (by simp [Nat.min_eq_left hlt.le])]
      simp [Nat.min_eq_left hlt.le]

theorem mulBytes_exact {a b : List UInt8} (hlen : a.length + b.length ≤ 2 ^ 64) (width : Nat) :
    Checked.mulBytes a b width = (ok (mulBytes a b width) : Outcome ε (List UInt8)) := by
  have hrows : ∀ entry ∈ a.zipIdx, ∀ out : List UInt8,
      Checked.mulRow entry.1 entry.2 b 0 out 0 =
        (ok (out.take entry.2 ++ mulRow entry.1 b (out.drop entry.2) 0) :
          Outcome ε (List UInt8)) := by
    rintro ⟨x, i⟩ hentry out
    have hi : i < 0 + a.length := (List.mem_zipIdx hentry).2.1
    exact mulRow_exact x i b 0 out (by decide) (by omega)
  rw [Checked.mulBytes, foldlM_eq_foldl hrows, ok_bind, maskUnusedHighBits_exact]
  rfl

theorem shlBytes_exact (bytes : List UInt8) {width : Nat} (hw : width < 2 ^ 32) (amount : Nat) :
    Checked.shlBytes bytes width amount =
      (ok (shlBytes bytes width amount) : Outcome ε (List UInt8)) := by
  have hround : ∀ bit ∈ List.range' amount (width - amount), ∀ out : List UInt8,
      (do let source ← subU bit amount
          return if getBit bytes (Checked.asU32 source) then setBit out (Checked.asU32 bit)
            else out : Outcome ε (List UInt8)) =
        ok (if getBit bytes (bit - amount) then setBit out bit else out) := by
    intro bit hbit out
    have hbit := List.mem_range'_1.mp hbit
    rw [subU_of_le hbit.1, ok_bind, asU32_of_lt (by omega), asU32_of_lt (by omega)]
    rfl
  rw [Checked.shlBytes, foldlM_eq_foldl hround, ok_bind, maskUnusedHighBits_exact]
  rfl

theorem lshrBytes_exact (bytes : List UInt8) {width : Nat} (hw : width < 2 ^ 32) (amount : Nat) :
    Checked.lshrBytes bytes width amount =
      (ok (lshrBytes bytes width amount) : Outcome ε (List UInt8)) := by
  have hround : ∀ bit ∈ List.range' 0 (width - amount), ∀ out : List UInt8,
      (do let source ← addU 64 bit amount
          return if getBit bytes (Checked.asU32 source) then setBit out (Checked.asU32 bit)
            else out : Outcome ε (List UInt8)) =
        ok (if getBit bytes (bit + amount) then setBit out bit else out) := by
    intro bit hbit out
    have hbit := List.mem_range'_1.mp hbit
    rw [addU_of_lt (by omega), ok_bind, asU32_of_lt (by omega), asU32_of_lt (by omega)]
    rfl
  exact foldlM_eq_foldl hround _

theorem ashrBytes_exact (bytes : List UInt8) {width : Nat} (h1 : 1 ≤ width) (hw : width < 2 ^ 32)
    (amount : Nat) : Checked.ashrBytes bytes width amount =
      (ok (ashrBytes bytes width amount) : Outcome ε (List UInt8)) := by
  rw [Checked.ashrBytes, lshrBytes_exact bytes hw, ok_bind, subU_of_le h1, ok_bind,
    asU32_of_lt (by omega), maskUnusedHighBits_exact]
  rfl

/-! ## Reading numbers back -/

/-- One bit of the source's two loops is one round of the exact loop. -/
theorem boundedBit_exact {bytes : List UInt8} {byte : UInt8} {i r bound value : Nat}
    (hbyte : bytes[i]? = some byte) (hr : r < 8) (hi : 8 * i + 8 ≤ 2 ^ 64) :
    Checked.boundedBit byte i bound value r =
      fromExcept (boundedStep bytes bound value (8 * i + r)) := by
  have hget : getBit bytes (8 * i + r) = !decide ((byte >>> UInt8.ofNat r) &&& 1 = 0) := by
    rw [getBit, show (8 * i + r) / 8 = i by omega, show (8 * i + r) % 8 = r by omega, hbyte]
    simp
  rw [Checked.boundedBit, boundedStep, hget]
  by_cases hzero : (byte >>> UInt8.ofNat r) &&& 1 = 0
  · simp [hzero]
    rfl
  · rw [if_neg hzero, if_pos (by simp [hzero]), mulU_of_lt (by omega), ok_bind,
      addU_of_lt (by omega), ok_bind, Nat.mul_comm i 8, Nat.shiftLeft_eq, Nat.one_mul]
    by_cases h64 : 64 ≤ 8 * i + r
    · rw [if_pos h64, if_pos h64]
      rfl
    · rw [if_neg h64, if_neg h64]
      dsimp only
      split <;> rfl

/-- A byte that is zero has no bit to add. -/
theorem boundedByte_exact {bytes : List UInt8} {byte : UInt8} {i bound : Nat} (value : Nat)
    (hbyte : bytes[i]? = some byte) (hi : 8 * i + 8 ≤ 2 ^ 64) :
    Checked.boundedByte bound value (byte, i) =
      fromExcept ((List.range' (8 * i) 8).foldlM (boundedStep bytes bound) value) := by
  have hmap : List.range' (8 * i) 8 = (List.range 8).map (8 * i + ·) := by
    rw [List.range_eq_range', List.map_add_range']
    rfl
  have hloop : (List.range 8).foldlM (Checked.boundedBit byte i bound) value =
      fromExcept ((List.range' (8 * i) 8).foldlM (boundedStep bytes bound) value) := by
    rw [hmap, List.foldlM_map, fromExcept_foldlM]
    exact foldlM_congr (fun r hr value =>
      boundedBit_exact hbyte (List.mem_range.mp hr) hi) value
  rw [Checked.boundedByte]
  split
  · next hzero =>
    obtain rfl : byte = 0 := hzero
    rw [← hloop]
    have hstay : ∀ r ∈ List.range 8, ∀ value : Nat,
        Checked.boundedBit 0 i bound value r = ok value := by
      intro r _ value
      simp [Checked.boundedBit]
    rw [foldlM_eq_foldl hstay]
    simp
  · exact hloop

theorem bytesToBoundedUsize_exact {bytes : List UInt8} (hlen : 8 * bytes.length ≤ 2 ^ 64)
    (bound : Nat) : Checked.bytesToBoundedUsize bytes bound =
      (ok (bytesToBoundedUsize bytes bound) : Outcome ε Nat) := by
  have key : ∀ (rest done : List UInt8) (value : Nat), bytes = done ++ rest →
      (rest.zipIdx done.length).foldlM (Checked.boundedByte bound) value =
        fromExcept ((List.range' (8 * done.length) (8 * rest.length)).foldlM
          (boundedStep bytes bound) value) := by
    intro rest
    induction rest with
    | nil => intro done value _; rfl
    | cons byte rest ih =>
      intro done value hbytes
      have hget : bytes[done.length]? = some byte := by simp [hbytes]
      have hlong : done.length + (rest.length + 1) = bytes.length := by simp [hbytes]
      have hnext := fun value => ih (done ++ [byte]) value (by simp [hbytes])
      rw [List.length_append, List.length_singleton, Nat.mul_add] at hnext
      rw [List.zipIdx_cons, List.foldlM_cons, boundedByte_exact value hget (by omega),
        List.length_cons, Nat.mul_add, Nat.add_comm (8 * rest.length), ← List.range'_append_1,
        List.foldlM_append, fromExcept_bind]
      exact bind_congr hnext
  have hall := key bytes [] 0 rfl
  rw [List.length_nil, Nat.mul_zero, ← List.range_eq_range'] at hall
  rw [Checked.bytesToBoundedUsize, bytesToBoundedUsize, hall]
  cases (List.range (8 * bytes.length)).foldlM (boundedStep bytes bound) 0 <;> rfl

theorem signedLessThan_exact (a b : List UInt8) {width : Nat} (h1 : 1 ≤ width) :
    Checked.signedLessThan a b width = (ok (signedLessThan a b width) : Outcome ε Bool) := by
  rw [Checked.signedLessThan, subU_of_le h1]
  rfl

/-! ## Every kernel at once -/

/-- The vector that a string of `w` bits spells. -/
def word (w : Nat) (bytes : List UInt8) : BitVec w := BitVec.ofNat w (leNat bytes)

theorem spells_of_normalized {w : Nat} {bytes : List UInt8}
    (h : normalizedBytes bytes w = ok bytes) :
    (1 ≤ w ∧ w ≤ 65536) ∧ Spells bytes (word w bytes) := by
  obtain ⟨expected, hexpected, h⟩ := bind_eq_ok.mp h
  obtain ⟨u, hvalid, hpure⟩ := bind_eq_ok.mp hexpected
  cases hpure
  obtain ⟨hlen, hstring⟩ := ensure_bind_eq_ok.mp h
  have hmask := spells_mask_ofNat (w := w) hlen
  rw [Outcome.ok.inj hstring] at hmask
  exact ⟨ensure_eq_ok.mp hvalid, hmask⟩

/-- **The byte kernels are the operations of bit vectors**, and compute them without an overflow:
on normalised strings each returns, and what it returns spells the exact result. -/
theorem kernels_exact {ε : Type} {w : Nat} {a b : List UInt8} (ha : normalizedBytes a w = ok a)
    (hb : normalizedBytes b w = ok b) (amount : Nat) {bound : Nat} (hbound : bound < 2 ^ 64) :
    Answers (Checked.addBytes a b w : Outcome ε _) (Spells · (word w a + word w b)) ∧
    Answers (Checked.subBytes a b w : Outcome ε _) (Spells · (word w a - word w b)) ∧
    Answers (Checked.negBytes a w : Outcome ε _) (Spells · (-word w a)) ∧
    Answers (Checked.mulBytes a b w : Outcome ε _) (Spells · (word w a * word w b)) ∧
    Answers (Checked.shlBytes a w amount : Outcome ε _) (Spells · (word w a <<< amount)) ∧
    Answers (Checked.lshrBytes a w amount : Outcome ε _) (Spells · (word w a >>> amount)) ∧
    Answers (Checked.ashrBytes a w amount : Outcome ε _)
      (Spells · ((word w a).sshiftRight amount)) ∧
    cmpUnsignedBytes a b = compare (word w a).toNat (word w b).toNat ∧
    (Checked.signedLessThan a b w : Outcome ε _) = ok ((word w a).slt (word w b)) ∧
    (Checked.bytesToBoundedUsize a bound : Outcome ε _) = ok (min (word w a).toNat bound) := by
  obtain ⟨⟨h1, hmax⟩, ha⟩ := spells_of_normalized ha
  obtain ⟨-, hb⟩ := spells_of_normalized hb
  have hw : w < 2 ^ 32 := by omega
  have hlen : a.length ≤ 8192 := by
    rw [ha.length]
    unfold divCeil8
    omega
  have hlenb : b.length = a.length := hb.length.trans ha.length.symm
  refine ⟨⟨_, addBytes_exact .., ha.addBytes hb⟩, ⟨_, subBytes_exact .., ha.subBytes hb⟩,
    ⟨_, negBytes_exact .., ha.negBytes⟩, ⟨_, mulBytes_exact (by omega) w, ha.mulBytes hb⟩,
    ⟨_, shlBytes_exact a hw amount, ha.shlBytes amount⟩,
    ⟨_, lshrBytes_exact a hw amount, ha.lshrBytes amount⟩,
    ⟨_, ashrBytes_exact a h1 hw amount, ha.ashrBytes amount⟩, ha.cmpUnsignedBytes hb, ?_, ?_⟩
  · rw [signedLessThan_exact a b h1, ha.signedLessThan hb]
  · rw [bytesToBoundedUsize_exact (by omega), bytesToBoundedUsize_eq hbound, ha.toNat]

theorem kernels_exact_nine_bits :
    Answers (Checked.mulBytes [0xff, 1] [3, 0] 9 : Outcome Error _)
      (Spells · (word 9 [0xff, 1] * word 9 [3, 0])) :=
  (@kernels_exact Error 9 [0xff, 1] [3, 0] (by decide) (by decide) 4 5 (by decide)).2.2.2.1

end Bytes
end Qfbv
end SmtServer
