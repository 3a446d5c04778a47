import Mathlib.Data.BitVec
import Mathlib.Data.Nat.Digits.Lemmas

/-!
# Bit strings

A bit string is a list of Bools, **least significant first**, and stands for a natural number
(`toNat`). The operations are those a circuit carries out bit by bit; each comes with the number its
result stands for. The bits of a vector are the string of its number, and on such strings the
operations are those of `BitVec`.
-/

namespace Lib
namespace BitList

/-- The number a bit string stands for. -/
def toNat (bs : List Bool) : Nat := Nat.ofDigits 2 (bs.map Bool.toNat)

/-- The `width` lowest bits of a number. -/
def ofNat (width n : Nat) : List Bool := (List.range width).map n.testBit

/-- The bits of a vector. -/
def bits {width : Nat} (x : BitVec width) : List Bool := ofNat width x.toNat

/-- The most significant bit. -/
def sign (bs : List Bool) : Bool := bs.getLastD false

/-- The sum and the carry out of the highest bit, with a carry into the lowest one. -/
def addCarry : List Bool → List Bool → Bool → List Bool × Bool
  | x :: xs, y :: ys, c =>
    let rest := addCarry xs ys (x && y || c && (x ^^ y))
    (((x ^^ y) ^^ c) :: rest.1, rest.2)
  | _, _, c => ([], c)

def add (xs ys : List Bool) : List Bool := (addCarry xs ys false).1

/-- Subtraction adds the complement and one. -/
def sub (xs ys : List Bool) : List Bool := (addCarry xs (ys.map (!·)) true).1

/-- Zero extended or cut off. -/
def resize (width : Nat) (bs : List Bool) : List Bool :=
  (bs ++ List.replicate width false).take width

/-- As many copies of the sign bit as asked for, above the string. -/
def signExtend (extra : Nat) (bs : List Bool) : List Bool :=
  bs ++ List.replicate extra (sign bs)

/-- One row of a long multiplication: `xs` moved up by `shift`, or zeros. -/
def row (width : Nat) (xs : List Bool) (shift : Nat) (sel : Bool) : List Bool :=
  resize width (List.replicate shift false ++ xs.map (· && sel))

/-- Long multiplication from bit `shift` of the second factor on. -/
def mulFrom (width : Nat) (xs : List Bool) : Nat → List Bool → List Bool → List Bool
  | _, acc, [] => acc
  | shift, acc, sel :: rest => mulFrom width xs (shift + 1) (add acc (row width xs shift sel)) rest

/-- The product modulo `2 ^ width`. -/
def mul (width : Nat) (xs ys : List Bool) : List Bool :=
  mulFrom width xs 0 (List.replicate width false) ys

variable {x y c : Bool} {xs ys bs : List Bool} {n k width : Nat}

/-! ## Numbers -/

@[simp] theorem toNat_nil : toNat [] = 0 := rfl

@[simp] theorem toNat_cons : toNat (x :: xs) = x.toNat + 2 * toNat xs := by
  simp [toNat, Nat.ofDigits_cons]

theorem toNat_append : toNat (xs ++ ys) = toNat xs + 2 ^ xs.length * toNat ys := by
  simp [toNat, Nat.ofDigits_append]

theorem toNat_lt (bs : List Bool) : toNat bs < 2 ^ bs.length := by
  have h := Nat.ofDigits_lt_base_pow_length (b := 2) (l := bs.map Bool.toNat) (by omega)
    (by simp only [List.mem_map]; rintro d ⟨b, -, rfl⟩; exact Bool.toNat_lt b)
  rwa [List.length_map] at h

theorem toNat_inj (h : xs.length = ys.length) : toNat xs = toNat ys ↔ xs = ys := by
  refine ⟨fun heq => ?_, fun heq => heq ▸ rfl⟩
  induction xs generalizing ys with
  | nil => exact (List.length_eq_zero_iff.mp h.symm).symm
  | cons x xs ih =>
    match ys with
    | [] => cases h
    | y :: ys =>
      rw [toNat_cons, toNat_cons] at heq
      have hlow : x = y := by
        cases x <;> cases y <;> simp only [Bool.toNat_true, Bool.toNat_false] at heq <;>
          first | rfl | omega
      subst hlow
      rw [ih (by simpa using h) (by omega)]

@[simp] theorem toNat_replicate_false : toNat (List.replicate n false) = 0 := by
  induction n with
  | zero => rfl
  | succ n ih => simp [List.replicate_succ, ih]

theorem toNat_replicate_true : toNat (List.replicate n true) = 2 ^ n - 1 := by
  induction n with
  | zero => rfl
  | succ n ih =>
    have := Nat.one_le_two_pow (n := n)
    rw [List.replicate_succ, toNat_cons, ih, Nat.pow_succ]
    simp only [Bool.toNat_true]
    omega

theorem toNat_map_not : toNat (bs.map (!·)) + toNat bs + 1 = 2 ^ bs.length := by
  induction bs with
  | nil => rfl
  | cons b bs ih =>
    simp only [List.map_cons, toNat_cons, List.length_cons, Nat.pow_succ, ← ih]
    cases b <;> simp only [Bool.not_true, Bool.not_false, Bool.toNat_true, Bool.toNat_false] <;>
      omega

theorem toNat_take : toNat (bs.take k) = toNat bs % 2 ^ k := by
  by_cases hk : k ≤ bs.length
  · have h : toNat (bs.take k ++ bs.drop k) = _ := toNat_append
    rw [List.take_append_drop, List.length_take, Nat.min_eq_left hk] at h
    have hlt := toNat_lt (bs.take k)
    rw [List.length_take, Nat.min_eq_left hk] at hlt
    rw [h, Nat.add_mul_mod_self_left, Nat.mod_eq_of_lt hlt]
  · have hle : bs.length ≤ k := by omega
    rw [List.take_of_length_le hle, Nat.mod_eq_of_lt]
    exact (toNat_lt bs).trans_le (Nat.pow_le_pow_right (by omega) hle)

theorem toNat_drop : toNat (bs.drop k) = toNat bs / 2 ^ k := by
  by_cases hk : k ≤ bs.length
  · have h : toNat (bs.take k ++ bs.drop k) = _ := toNat_append
    rw [List.take_append_drop, List.length_take, Nat.min_eq_left hk] at h
    have hlt := toNat_lt (bs.take k)
    rw [List.length_take, Nat.min_eq_left hk] at hlt
    rw [h, Nat.add_mul_div_left _ _ (Nat.two_pow_pos k), Nat.div_eq_of_lt hlt, Nat.zero_add]
  · have hle : bs.length ≤ k := by omega
    rw [List.drop_eq_nil_of_le hle, Nat.div_eq_of_lt]
    · rfl
    · exact (toNat_lt bs).trans_le (Nat.pow_le_pow_right (by omega) hle)

@[simp] theorem length_ofNat : (ofNat width n).length = width := by simp [ofNat]

theorem toNat_ofNat : toNat (ofNat width n) = n % 2 ^ width := by
  induction width generalizing n with
  | zero => simp [ofNat, Nat.mod_one]
  | succ width ih =>
    have hmap : ofNat (width + 1) n = n.testBit 0 :: ofNat width (n / 2) := by
      simp [ofNat, List.range_succ_eq_map, Function.comp_def, Nat.testBit_succ]
    rw [hmap, toNat_cons, ih, Nat.pow_succ', Nat.mod_mul, Nat.testBit_zero]
    rcases Nat.mod_two_eq_zero_or_one n with h | h <;> simp [h]

theorem toNat_eq_zero : toNat bs = 0 ↔ bs.any id = false := by
  induction bs with
  | nil => simp
  | cons b bs ih => cases b <;> simp_all

/-! ## Order -/

/-- The order is that of the high bits, then that of the lowest. -/
theorem toNat_cons_lt (h : xs.length = ys.length) :
    toNat (x :: xs) < toNat (y :: ys) ↔ toNat xs < toNat ys ∨ xs = ys ∧ x = false ∧ y = true := by
  rw [← toNat_inj h, toNat_cons, toNat_cons]
  cases x <;> cases y <;> simp only [Bool.toNat_true, Bool.toNat_false] <;> simp <;> omega

/-! ## The sign bit -/

theorem sign_append_singleton : sign (bs ++ [x]) = x := by simp [sign]

/-- The sign bit weighs as much as all numbers below it. -/
theorem sign_eq (h : bs ≠ []) : sign bs = decide (2 ^ (bs.length - 1) ≤ toNat bs) := by
  obtain ⟨low, b, rfl⟩ := List.eq_nil_or_concat' bs |>.resolve_left h
  have hlt := toNat_lt low
  rw [sign_append_singleton, toNat_append, List.length_append, List.length_singleton,
    Nat.add_sub_cancel]
  cases b with
  | false => simpa using hlt
  | true => simp

/-! ## Addition -/

@[simp] theorem length_addCarry (h : xs.length = ys.length) :
    (addCarry xs ys c).1.length = xs.length := by
  induction xs generalizing ys c with
  | nil => rfl
  | cons x xs ih =>
    match ys with
    | [] => cases h
    | y :: ys => 
      have hlen : xs.length = ys.length := by simpa using h
      simp only [addCarry, List.length_cons, ih hlen]

theorem toNat_addCarry (h : xs.length = ys.length) :
    toNat (addCarry xs ys c).1 + 2 ^ xs.length * (addCarry xs ys c).2.toNat =
      toNat xs + toNat ys + c.toNat := by
  induction xs generalizing ys c with
  | nil =>
    obtain rfl := List.length_eq_zero_iff.mp h.symm
    simp [addCarry]
  | cons x xs ih =>
    match ys with
    | [] => cases h
    | y :: ys =>
      have hlen : xs.length = ys.length := by simpa using h
      have ih := ih (c := x && y || c && (x ^^ y)) hlen
      simp only [addCarry, toNat_cons, List.length_cons, Nat.pow_succ]
      rw [Nat.mul_comm (2 ^ xs.length), Nat.mul_assoc]
      -- the column of the lowest bits
      have hcol : ((x ^^ y) ^^ c).toNat + 2 * (x && y || c && (x ^^ y)).toNat =
          x.toNat + y.toNat + c.toNat := by
        cases x <;> cases y <;> cases c <;> rfl
      omega

/-- The carry says whether the sum is too large. -/
theorem addCarry_carry (h : xs.length = ys.length) :
    (addCarry xs ys c).2 = decide (2 ^ xs.length ≤ toNat xs + toNat ys + c.toNat) := by
  have hv := toNat_addCarry (c := c) h
  have hlt := toNat_lt (addCarry xs ys c).1
  rw [length_addCarry h] at hlt
  cases hc : (addCarry xs ys c).2 with
  | false =>
    rw [hc] at hv
    simp only [Bool.toNat_false, Nat.mul_zero, Nat.add_zero] at hv
    simp only [← hv]
    simpa using hlt
  | true =>
    rw [hc] at hv
    simp only [Bool.toNat_true, Nat.mul_one] at hv
    simp only [← hv]
    simp

@[simp] theorem length_add (h : xs.length = ys.length) : (add xs ys).length = xs.length :=
  length_addCarry h

@[simp] theorem length_sub (h : xs.length = ys.length) : (sub xs ys).length = xs.length :=
  length_addCarry (by simpa using h)

theorem toNat_add (h : xs.length = ys.length) :
    toNat (add xs ys) = (toNat xs + toNat ys) % 2 ^ xs.length := by
  have hv := toNat_addCarry (c := false) h
  have hlt := toNat_lt (addCarry xs ys false).1
  rw [length_addCarry h] at hlt
  rw [Bool.toNat_false, Nat.add_zero] at hv
  rw [← hv, Nat.add_mul_mod_self_left, add, Nat.mod_eq_of_lt hlt]

theorem toNat_sub (h : xs.length = ys.length) :
    toNat (sub xs ys) = (toNat xs + 2 ^ xs.length - toNat ys) % 2 ^ xs.length := by
  have hlen : xs.length = (ys.map (!·)).length := by simpa using h
  have hv := toNat_addCarry (c := true) hlen
  have hlt := toNat_lt (addCarry xs (ys.map (!·)) true).1
  rw [length_addCarry (by simpa using h)] at hlt
  have hnot : toNat (ys.map (!·)) + toNat ys + 1 = _ := toNat_map_not
  rw [← h] at hnot
  rw [Bool.toNat_true] at hv
  have : toNat xs + 2 ^ xs.length - toNat ys = toNat xs + toNat (ys.map (!·)) + 1 := by omega
  rw [this, ← hv, Nat.add_mul_mod_self_left, sub, Nat.mod_eq_of_lt hlt]

/-! ## Multiplication -/

@[simp] theorem length_resize : (resize width bs).length = width := by simp [resize]

theorem toNat_resize : toNat (resize width bs) = toNat bs % 2 ^ width := by
  rw [resize, toNat_take, toNat_append, toNat_replicate_false, Nat.mul_zero, Nat.add_zero]

theorem resize_replicate : resize width (List.replicate k false) = List.replicate width false := by
  rw [resize, List.replicate_append_replicate, List.take_replicate]
  congr 1
  omega

/-- One more bit is written over the first zero. -/
theorem resize_snoc (h : bs.length < width) :
    resize width (bs ++ [x]) = (resize width bs).set bs.length x := by
  obtain ⟨k, rfl⟩ := Nat.exists_eq_add_of_lt h
  have hpad : resize (bs.length + k + 1) bs = bs ++ List.replicate (k + 1) false := by
    rw [resize, List.take_append, List.take_of_length_le (by omega), List.take_replicate]
    congr 2
    omega
  rw [hpad, List.set_append_right _ _ (le_refl _), Nat.sub_self, List.replicate_succ,
    List.set_cons_zero, resize, List.append_assoc, List.take_append,
    List.take_of_length_le (by omega)]
  congr 1
  rw [List.singleton_append, show bs.length + k + 1 - bs.length = k + 1 by omega,
    List.take_succ_cons, List.take_replicate]
  congr 2
  omega

/-- What is cut off does not count. -/
theorem resize_append_of_le (h : width ≤ xs.length) : resize width (xs ++ ys) = resize width xs := by
  rw [resize, resize, List.append_assoc, List.take_append_of_le_length h,
    List.take_append_of_le_length h]

theorem toNat_map_and : toNat (xs.map (· && x)) = toNat xs * x.toNat := by
  cases x with
  | true => simp
  | false => simp [List.map_const', toNat_replicate_false]

@[simp] theorem length_row {shift : Nat} {sel : Bool} : (row width xs shift sel).length = width :=
  length_resize

theorem toNat_row {shift : Nat} {sel : Bool} :
    toNat (row width xs shift sel) = 2 ^ shift * (toNat xs * sel.toNat) % 2 ^ width := by
  rw [row, toNat_resize, toNat_append, toNat_replicate_false, toNat_map_and, List.length_replicate,
    Nat.zero_add]

theorem length_mulFrom {shift : Nat} {acc : List Bool} (h : acc.length = width) :
    (mulFrom width xs shift acc ys).length = width := by
  induction ys generalizing shift acc with
  | nil => exact h
  | cons y ys ih => exact ih (by rw [length_add (by simpa using h), h])

theorem toNat_mulFrom {shift : Nat} {acc : List Bool} (h : acc.length = width) :
    toNat (mulFrom width xs shift acc ys) =
      (toNat acc + 2 ^ shift * (toNat xs * toNat ys)) % 2 ^ width := by
  induction ys generalizing shift acc with
  | nil =>
    rw [mulFrom, toNat_nil, Nat.mul_zero, Nat.mul_zero, Nat.add_zero, Nat.mod_eq_of_lt]
    exact h ▸ toNat_lt acc
  | cons y ys ih =>
    have hlen : acc.length = (row width xs shift y).length := by simpa using h
    rw [mulFrom, ih (by rw [length_add hlen, h]), toNat_add hlen, h, toNat_row, toNat_cons,
      Nat.mod_add_mod, Nat.add_right_comm, Nat.add_mod_mod, Nat.pow_succ]
    congr 1
    ring

@[simp] theorem length_mul : (mul width xs ys).length = width :=
  length_mulFrom (by simp)

theorem toNat_mul : toNat (mul width xs ys) = toNat xs * toNat ys % 2 ^ width := by
  rw [mul, toNat_mulFrom (by simp), toNat_replicate_false, Nat.zero_add, Nat.pow_zero, Nat.one_mul]

/-! ## Sign extension -/

@[simp] theorem length_signExtend : (signExtend k bs).length = bs.length + k := by
  simp [signExtend]

/-! ## Vectors -/

section Vectors

variable {v w : BitVec width}

@[simp] theorem length_bits : (bits v).length = width := length_ofNat

@[simp] theorem toNat_bits : toNat (bits v) = v.toNat := by
  rw [bits, toNat_ofNat, Nat.mod_eq_of_lt v.isLt]

/-- Strings of one length are told apart by their numbers. -/
theorem eq_bits (hlen : bs.length = width) (h : toNat bs = v.toNat) : bs = bits v :=
  (toNat_inj (by rw [hlen, length_bits])).mp (by rw [h, toNat_bits])

theorem bits_inj : bits v = bits w ↔ v = w := by
  rw [← toNat_inj (by simp), toNat_bits, toNat_bits, BitVec.toNat_inj]

theorem bits_ne_nil (h : 0 < width) : bits v ≠ [] := by
  refine List.ne_nil_of_length_pos ?_
  rwa [length_bits]

theorem sign_bits (h : 0 < width) : sign (bits v) = v.msb := by
  rw [sign_eq (bits_ne_nil h), BitVec.msb_eq_decide, length_bits, toNat_bits]

theorem add_bits : add (bits v) (bits w) = bits (v + w) := by
  refine eq_bits (by simp) ?_
  rw [toNat_add (by simp), BitVec.toNat_add, length_bits, toNat_bits, toNat_bits]

theorem sub_bits : sub (bits v) (bits w) = bits (v - w) := by
  have hw := w.isLt
  refine eq_bits (by simp) ?_
  rw [toNat_sub (by simp), BitVec.toNat_sub, length_bits, toNat_bits, toNat_bits]
  congr 1
  omega

theorem mul_bits : mul width (bits v) (bits w) = bits (v * w) := by
  refine eq_bits length_mul ?_
  rw [toNat_mul, BitVec.toNat_mul, toNat_bits, toNat_bits]

theorem bits_setWidth (h : width ≤ n) :
    bits (v.setWidth n) = bits v ++ List.replicate (n - width) false := by
  have hlt : v.toNat < 2 ^ n := v.isLt.trans_le (Nat.pow_le_pow_right (by omega) h)
  refine (eq_bits (by simp; omega) ?_).symm
  rw [toNat_append, toNat_replicate_false, toNat_bits, BitVec.toNat_setWidth,
    Nat.mod_eq_of_lt hlt, Nat.mul_zero, Nat.add_zero]

theorem signExtend_bits (h : 0 < width) :
    signExtend n (bits v) = bits (v.signExtend (width + n)) := by
  refine eq_bits (by simp) ?_
  rw [signExtend, sign_bits h, toNat_append, BitVec.toNat_signExtend, length_bits, toNat_bits,
    BitVec.toNat_setWidth, Nat.mod_eq_of_lt
      (v.isLt.trans_le (Nat.pow_le_pow_right (by omega) (Nat.le_add_right width n)))]
  cases v.msb with
  | false => simp
  | true =>
    rw [toNat_replicate_true, if_pos rfl, Nat.mul_sub, Nat.mul_one, Nat.pow_add]

theorem bits_take (h : n ≤ width) : (bits v).take n = bits (v.setWidth n) := by
  refine eq_bits (by simpa using h) ?_
  rw [toNat_take, toNat_bits, BitVec.toNat_setWidth]

theorem bits_shiftLeft (h : n ≤ width) :
    bits (v <<< n) = List.replicate n false ++ (bits v).take (width - n) := by
  refine (eq_bits ?_ ?_).symm
  · simp only [List.length_append, List.length_replicate, List.length_take, length_bits]
    omega
  · rw [toNat_append, toNat_replicate_false, toNat_take, toNat_bits, List.length_replicate,
      Nat.zero_add, BitVec.toNat_shiftLeft, Nat.shiftLeft_eq, Nat.mul_comm, ← Nat.mul_mod_mul_right,
      ← Nat.pow_add, Nat.sub_add_cancel h]

theorem bits_intMin (h : 0 < width) :
    (List.replicate width false).set (width - 1) true = bits (BitVec.intMin width) := by
  obtain ⟨k, rfl⟩ := Nat.exists_eq_add_one_of_ne_zero h.ne'
  refine eq_bits (by simp) ?_
  rw [Nat.add_sub_cancel, List.replicate_succ', List.set_append_right _ _ (by simp)]
  simp [toNat_append, BitVec.toNat_intMin, Nat.mod_eq_of_lt, Nat.pow_lt_pow_succ]

theorem replicate_true : List.replicate width true = bits (BitVec.allOnes width) :=
  eq_bits (by simp) (by rw [toNat_replicate_true, BitVec.toNat_allOnes])

end Vectors

end BitList
end Lib
