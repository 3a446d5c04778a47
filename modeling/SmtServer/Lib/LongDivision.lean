import SmtServer.Lib.BitList

/-!
# Long division of bit strings

The school method, one bit of the dividend a round, from the highest down: the bit moves into the
remainder, and the divisor is taken off where it fits. The remainder is kept in as many bits as the
dividend has, so a round shifts its top bit out. Nothing is lost by that: the remainder is at most
the part of the dividend that has been used up, and that part is a bit shorter than the dividend.
-/

namespace Lib
namespace BitList

/-- One round, from a remainder and the quotient so far. -/
def divideStep (width : Nat) (ys : List Bool) (state : List Bool × List Bool) (bit : Bool) :
    List Bool × List Bool :=
  let shifted := bit :: state.1.take (width - 1)
  let fits := decide (toNat ys ≤ toNat shifted)
  (if fits then sub shifted ys else shifted, fits :: state.2)

/-- The remainder and the quotient. -/
def divide (xs ys : List Bool) : List Bool × List Bool :=
  xs.reverse.foldl (divideStep xs.length ys) (List.replicate xs.length false, [])

variable {ys : List Bool} {n : Nat}

/-- The part `used` of the dividend has been divided. -/
structure Divided (width : Nat) (ys used : List Bool) (state : List Bool × List Bool) : Prop where
  length_remainder : state.1.length = width
  length_quotient : state.2.length = used.length
  remainder : toNat ys ≠ 0 → toNat state.1 = toNat used % toNat ys
  quotient : toNat ys ≠ 0 → toNat state.2 = toNat used / toNat ys

theorem divided_nil : Divided n ys [] (List.replicate n false, []) :=
  ⟨by simp, rfl, by simp, by simp⟩

/-- A quotient and a remainder are found from those of the higher bits. -/
theorem div_mod_step {m d b : Nat} (hd : d ≠ 0) (hb : b ≤ 1) :
    (d ≤ b + 2 * (m % d) →
      (b + 2 * m) % d = b + 2 * (m % d) - d ∧ (b + 2 * m) / d = 1 + 2 * (m / d)) ∧
    (¬ d ≤ b + 2 * (m % d) →
      (b + 2 * m) % d = b + 2 * (m % d) ∧ (b + 2 * m) / d = 2 * (m / d)) := by
  have hpos : 0 < d := Nat.pos_of_ne_zero hd
  have hlt := Nat.mod_lt m hpos
  have hdm := Nat.mod_add_div m d
  refine ⟨fun hfits => ?_, fun hshort => ?_⟩
  · obtain ⟨hq, hr⟩ := (Nat.div_mod_unique (c := b + 2 * (m % d) - d) (d := 1 + 2 * (m / d)) hpos
      (a := b + 2 * m)).mpr ⟨by rw [Nat.mul_add, Nat.mul_left_comm]; omega, by omega⟩
    exact ⟨hr, hq⟩
  · obtain ⟨hq, hr⟩ := (Nat.div_mod_unique (c := b + 2 * (m % d)) (d := 2 * (m / d)) hpos
      (a := b + 2 * m)).mpr ⟨by rw [Nat.mul_left_comm]; omega, by omega⟩
    exact ⟨hr, hq⟩

/-- The shift loses no bit of the remainder, which is no larger than the part of the dividend it
comes from. -/
theorem toNat_shifted {used : List Bool} {state : List Bool × List Bool} {bit : Bool}
    (h : Divided n ys used state) (hused : used.length < n) (hys : toNat ys ≠ 0) :
    toNat (bit :: state.1.take (n - 1)) = bit.toNat + 2 * (toNat used % toNat ys) := by
  have hlt : toNat used < 2 ^ (n - 1) :=
    (toNat_lt used).trans_le (Nat.pow_le_pow_right (by omega) (by omega))
  rw [toNat_cons, toNat_take, h.remainder hys,
    Nat.mod_eq_of_lt ((Nat.mod_le _ _).trans_lt hlt)]

theorem divided_step {used : List Bool} {state : List Bool × List Bool} (hys : ys.length = n)
    (h : Divided n ys used state) (hused : used.length < n) (bit : Bool) :
    Divided n ys (bit :: used) (divideStep n ys state bit) := by
  have hshifted : (bit :: state.1.take (n - 1)).length = n := by
    simp only [List.length_cons, List.length_take, h.length_remainder]
    omega
  have hb : bit.toNat ≤ 1 := Bool.toNat_le bit
  refine ⟨?_, by simp [divideStep, h.length_quotient], fun hd => ?_, fun hd => ?_⟩
  · dsimp only [divideStep]
    split
    · rw [length_sub (by rw [hshifted, hys]), hshifted]
    · exact hshifted
  · obtain ⟨hfits, hshort⟩ := div_mod_step (m := toNat used) hd hb
    rw [toNat_cons, divideStep, toNat_shifted h hused hd]
    dsimp only
    by_cases hle : toNat ys ≤ bit.toNat + 2 * (toNat used % toNat ys)
    · have hsum := toNat_lt (bit :: state.1.take (n - 1))
      rw [toNat_shifted h hused hd, hshifted] at hsum
      have hyslt := toNat_lt ys
      rw [hys] at hyslt
      rw [if_pos (by simpa using hle), toNat_sub (by rw [hshifted, hys]),
        toNat_shifted h hused hd, hshifted, (hfits hle).1, Nat.mod_eq_sub_mod (by omega),
        Nat.mod_eq_of_lt (by omega)]
      omega
    · rw [if_neg (by simpa using hle), toNat_shifted h hused hd, (hshort hle).1]
  · obtain ⟨hfits, hshort⟩ := div_mod_step (m := toNat used) hd hb
    rw [toNat_cons, divideStep, toNat_shifted h hused hd, toNat_cons, h.quotient hd]
    by_cases hle : toNat ys ≤ bit.toNat + 2 * (toNat used % toNat ys)
    · rw [decide_eq_true hle, (hfits hle).2, Bool.toNat_true]
    · rw [decide_eq_false hle, (hshort hle).2, Bool.toNat_false, Nat.zero_add]

theorem divided_divide {xs : List Bool} (h : xs.length = ys.length) :
    Divided xs.length ys xs (divide xs ys) := by
  have hrounds : ∀ (high low : List Bool) (state : List Bool × List Bool),
      (low ++ high).length = xs.length → Divided xs.length ys high state →
        Divided xs.length ys (low ++ high) (low.reverse.foldl (divideStep xs.length ys) state) := by
    intro high low
    -- the highest of the bits that are left is the last of `low`
    induction low using List.reverseRecOn generalizing high with
    | nil => exact fun _ _ h => h
    | append_singleton low bit ih =>
      intro state hlen hstate
      rw [List.append_assoc, List.singleton_append] at hlen ⊢
      rw [List.reverse_append, List.reverse_singleton, List.singleton_append, List.foldl_cons]
      refine ih (bit :: high) _ hlen (divided_step h.symm hstate ?_ bit)
      simp only [List.length_append, List.length_cons] at hlen
      omega
  have hall := hrounds [] xs _ (by simp) divided_nil
  rwa [List.append_nil] at hall

/-- The quotient and the remainder of two vectors. -/
theorem divide_bits {w : Nat} {x y : BitVec w} (hy : y ≠ 0) :
    divide (bits x) (bits y) = (bits (x % y), bits (x / y)) := by
  have hlen : (bits x).length = (bits y).length := by simp
  have h := divided_divide hlen
  have hd : toNat (bits y) ≠ 0 := by
    rw [toNat_bits]
    exact fun h0 => hy (BitVec.eq_of_toNat_eq (by simpa using h0))
  refine Prod.ext (eq_bits ?_ ?_) (eq_bits ?_ ?_)
  · rw [h.length_remainder, length_bits]
  · rw [h.remainder hd, toNat_bits, toNat_bits, BitVec.toNat_umod]
  · rw [h.length_quotient, length_bits]
  · rw [h.quotient hd, toNat_bits, toNat_bits, BitVec.toNat_udiv]

end BitList
end Lib
