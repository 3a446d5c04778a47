import SmtServer.Lib.BitList
import SmtServer.Server.Smt2
import SmtServer.Smtlib.Legible
import SmtServer.Smtlib.Reader

/-!
# What a printed formula says

The texts that `smt2.rs` puts together are those of `Printed` expressions: tokens, an operator on
its arguments, an operator with indices on one argument. Such an expression has a value in every
reading in which binary literals stand for their bits and no function is defined (`PlainReading`),
which is how a printed script is read.
-/

namespace SmtServer
namespace Server
namespace Smt2

open Lib
open Lib.Smt (Value)
open Smtlib (IsToken Operation Printed Reading digitsValue frontendAtom literalDigits literalWidth
  parseU32 spaced theory toDigit utf8ByteSize_digits wrappedLiteral)

/-! ## Tokens -/

theorem isToken_toString (n : Nat) : IsToken (toString n) := by
  have hrepr : toString n = n.repr := rfl
  refine ⟨?_, fun c hc => ?_⟩
  · rw [hrepr, Ne, ← String.toList_eq_nil_iff, Nat.toList_repr]
    exact Nat.toDigits_ne_nil
  · rw [hrepr, Nat.toList_repr] at hc
    have hdigit := Nat.isDigit_of_mem_toDigits (by omega) (by omega) hc
    rw [← Bool.not_eq_true]
    intro hd
    simp only [Smtlib.Reader.isDelimiter, Smtlib.Reader.isSpace, Bool.or_eq_true,
      decide_eq_true_eq] at hd
    rcases hd with ((((((((rfl | rfl) | rfl) | rfl) | rfl) | rfl) | rfl) | rfl) | rfl) <;>
      exact absurd hdigit (by decide)

/-- A binary literal, from the bits in ascending order. -/
def binaryText (bits : List Bool) : String :=
  "#b" ++ String.ofList (bits.reverse.map fun bit => if bit then '1' else '0')

theorem toList_binaryText (bits : List Bool) : (binaryText bits).toList =
    '#' :: 'b' :: bits.reverse.map fun bit => if bit then '1' else '0' := by
  simp [binaryText]

theorem isToken_binaryText (bits : List Bool) : IsToken (binaryText bits) := by
  refine ⟨?_, fun c hc => ?_⟩
  · rw [Ne, ← String.toList_eq_nil_iff, toList_binaryText]
    exact List.cons_ne_nil _ _
  · rw [toList_binaryText, List.mem_cons, List.mem_cons] at hc
    rcases hc with rfl | rfl | hc
    · decide
    · decide
    · obtain ⟨bit, -, rfl⟩ := List.mem_map.mp hc
      cases bit <;> decide

def numeral (n : Nat) : Printed := .token (toString n) (isToken_toString n)

def literal (bits : List Bool) : Printed := .token (binaryText bits) (isToken_binaryText bits)

/-- An operator on its arguments. -/
def app (op : String) (h : IsToken op) (args : List Printed) : Printed :=
  .list (.token op h :: args)

/-- An operator with indices on its argument. -/
def indexedApp (op : String) (h : IsToken op) (indices : List Nat) (arg : Printed) : Printed :=
  .list [.list (.token "_" (by decide) :: .token op h :: indices.map numeral), arg]

/-- Two terms are equal. -/
def equal (a b : Printed) : Printed := app "=" (by decide) [a, b]

theorem isToken_zero_extend : IsToken "zero_extend" := by decide

theorem isToken_sign_extend : IsToken "sign_extend" := by decide

theorem isToken_bvmul : IsToken "bvmul" := by decide

theorem isToken_extract : IsToken "extract" := by decide

theorem isToken_not : IsToken "not" := by decide

theorem isToken_and : IsToken "and" := by decide

theorem isToken_or : IsToken "or" := by decide

theorem isToken_bvult : IsToken "bvult" := by decide

theorem isToken_true : IsToken "true" := by decide

theorem isToken_underscore : IsToken "_" := by decide

variable {op : String} {h : IsToken op} {a b : Printed} {args : List Printed} {w : Nat}

theorem spaced_cons (t : List Char) (ts : List (List Char)) :
    spaced (t :: ts) = t ++ ts.flatMap fun u => ' ' :: u := by
  induction ts generalizing t with
  | nil => simp [spaced]
  | cons u ts ih =>
    rw [spaced, ih, List.flatMap_cons, List.cons_append]
    simp

theorem text_list (a : Printed) (args : List Printed) :
    (Printed.list (a :: args)).text =
      '(' :: (a.text ++ args.flatMap (fun arg => ' ' :: arg.text) ++ [')']) := by
  show '(' :: spaced (a.text :: args.map (·.text)) ++ [')'] = _
  rw [spaced_cons, List.flatMap_map]
  rfl

@[simp] theorem text_token : (Printed.token op h).text = op.toList := rfl

@[simp] theorem text_numeral (n : Nat) : (numeral n).text = (toString n).toList := rfl

@[simp] theorem text_literal (bits : List Bool) :
    (literal bits).text = (binaryText bits).toList := rfl

theorem text_app : (app op h args).text =
    '(' :: (op.toList ++ args.flatMap (fun arg => ' ' :: arg.text) ++ [')']) := text_list _ _

theorem text_indexedApp (indices : List Nat) : (indexedApp op h indices a).text =
    "((_ ".toList ++ op.toList ++ indices.flatMap (fun n => ' ' :: (toString n).toList) ++
      [')', ' '] ++ a.text ++ [')'] := by
  rw [indexedApp, text_list, text_list]
  simp [List.flatMap_map]

/-! ## Numerals -/

theorem toDigit_of_isDigit {c : Char} (h : c.isDigit = true) :
    toDigit 10 c = some (c.toNat - '0'.toNat) := by
  simp only [Char.isDigit, Bool.and_eq_true, decide_eq_true_eq] at h
  obtain ⟨hge, hle⟩ := h
  have hlt : c.toNat - '0'.toNat < 10 := by
    have hle : c.toNat ≤ '9'.toNat := hle
    have h9 : '9'.toNat = 57 := rfl
    have h0 : '0'.toNat = 48 := rfl
    omega
  rw [toDigit, if_pos ⟨hge, hle⟩]
  simp only [Option.filter, hlt, decide_true, if_true]

theorem mapM_eq_some {α β : Type} {f : α → Option β} {g : α → β} {xs : List α}
    (h : ∀ x ∈ xs, f x = some (g x)) : xs.mapM f = some (xs.map g) := by
  induction xs with
  | nil => rfl
  | cons x xs ih =>
    rw [List.mapM_cons, h x List.mem_cons_self, ih fun y hy => h y (List.mem_cons_of_mem x hy)]
    rfl

theorem parseU32_of_digits {text : String} {ds : List Nat} (hne : text.toList ≠ [])
    (hplus : ∀ rest, text.toList ≠ '+' :: rest) (hds : text.toList.mapM (toDigit 10) = some ds)
    (hlt : digitsValue 10 ds < 2 ^ 32) : parseU32 text = some (digitsValue 10 ds) := by
  unfold parseU32
  cases htext : text.toList with
  | nil => exact absurd htext hne
  | cons c cs =>
    rw [htext] at hplus hds
    dsimp only
    split
    · exact absurd ‹_› (hplus _)
    · rw [if_neg (List.cons_ne_nil c cs), hds]
      simp only [Option.bind_eq_bind, Option.bind_some, Option.filter, decide_eq_true hlt, if_true]

/-- A numeral reads back as its number. -/
theorem parseU32_toString {n : Nat} (hn : n < 2 ^ 32) : parseU32 (toString n) = some n := by
  have htext : (toString n).toList = Nat.toDigits 10 n := Nat.toList_repr
  have hdigit : ∀ c ∈ Nat.toDigits 10 n, c.isDigit = true := fun c hc =>
    Nat.isDigit_of_mem_toDigits (by omega) (by omega) hc
  have hplus : ∀ rest, Nat.toDigits 10 n ≠ '+' :: rest := by
    intro rest h
    exact absurd (hdigit '+' (h ▸ List.mem_cons_self)) (by decide)
  have hds : (Nat.toDigits 10 n).mapM (toDigit 10) =
      some ((Nat.toDigits 10 n).map fun c => c.toNat - '0'.toNat) :=
    mapM_eq_some fun c hc => toDigit_of_isDigit (hdigit c hc)
  have hvalue : digitsValue 10 ((Nat.toDigits 10 n).map fun c => c.toNat - '0'.toNat) = n := by
    rw [digitsValue, List.foldl_map]
    exact Nat.ofDigitChars_eq_foldl.symm.trans Nat.ofDigitChars_ten_toDigits
  rw [← htext] at hplus hds hvalue
  have hne : (toString n).toList ≠ [] := by
    rw [htext]
    exact Nat.toDigits_ne_nil
  rw [parseU32_of_digits hne hplus hds (by rwa [hvalue]), hvalue]

/-! ## Binary literals -/

theorem digitsValue_bits (bits : List Bool) :
    digitsValue 2 (bits.reverse.map Bool.toNat) = BitList.toNat bits := by
  induction bits with
  | nil => rfl
  | cons bit bits ih =>
    rw [List.reverse_cons, List.map_append, List.map_singleton, Smtlib.digitsValue_append, ih,
      BitList.toNat_cons, Nat.add_comm]

theorem literalDigits_binaryText (bits : List Bool) : literalDigits (binaryText bits) =
    some (bits.reverse.map (fun bit => if bit then '1' else '0'), 2) := by
  rw [literalDigits, toList_binaryText]
  rfl

theorem digits_binaryText (bits : List Bool) :
    (bits.reverse.map fun bit => if bit then '1' else '0').mapM (toDigit 2) =
      some (bits.reverse.map Bool.toNat) := by
  have hdigit : ∀ bit : Bool, toDigit 2 (if bit then '1' else '0') = some bit.toNat := by decide
  rw [List.mapM_map]
  exact mapM_eq_some fun bit _ => hdigit bit

theorem wrappedLiteral_binaryText {bits : List Bool} (hlen : bits.length < 2 ^ 32) :
    wrappedLiteral (binaryText bits) = some (.bv bits.length (.ofNat _ (BitList.toNat bits))) := by
  have hwidth : literalWidth (bits.reverse.map fun bit => if bit then '1' else '0') 2 =
      .ok bits.length := by
    rw [literalWidth, if_pos rfl, (utf8ByteSize_digits (digits_binaryText bits)).1]
    rw [List.length_map, List.length_reverse, Nat.mod_eq_of_lt hlen]
  rw [wrappedLiteral, literalDigits_binaryText]
  simp only [Option.bind_eq_bind, Option.bind_some]
  rw [digits_binaryText, Option.bind_some, hwidth, digitsValue_bits]

theorem binaryText_ne {bits : List Bool} {text : String} (h : text.toList.head? ≠ some '#') :
    binaryText bits ≠ text := by
  rintro rfl
  rw [toList_binaryText] at h
  exact h rfl

/-- No function is defined, and a binary literal stands for its bits. -/
structure PlainReading (R : Reading) (scope : Smtlib.Scope) : Prop where
  functions : R.functions = []
  literal : ∀ bits, bits ≠ [] → bits.length ≤ 65536 →
    R.atom scope (binaryText bits) = some (.bv bits.length (.ofNat _ (BitList.toNat bits)))

theorem plainReading_frontendAtom (constants : Smtlib.Scope)
    (apply : Smtlib.FunctionBinding → Operation) (scope : Smtlib.Scope) :
    PlainReading ⟨frontendAtom constants, [], apply⟩ scope where
  functions := rfl
  literal := fun bits _ hlen => by
    show frontendAtom constants scope (binaryText bits) = _
    rw [frontendAtom, if_neg (binaryText_ne (by decide)), if_neg (binaryText_ne (by decide)),
      literalDigits_binaryText]
    exact wrappedLiteral_binaryText (by omega)

theorem hashLiteral_binaryText (bits : List Bool) : Smtlib.hashLiteral (binaryText bits) =
    some (.bv bits.length (.ofNat _ (BitList.toNat bits))) := by
  rw [Smtlib.hashLiteral, literalDigits_binaryText]
  simp only [Option.bind_eq_bind, Option.bind_some]
  rw [digits_binaryText]
  show some (Value.bv (bits.reverse.map Bool.toNat).length (.ofNat _ (digitsValue 2 _))) = _
  rw [digitsValue_bits, List.length_map, List.length_reverse]

/-- The standard's reading, where no literal is bound. -/
theorem plainReading_atomValue {constants scope : Smtlib.Scope}
    (apply : Smtlib.FunctionBinding → Operation)
    (h : ∀ bits,
      scope.lookup (binaryText bits) = none ∧ constants.lookup (binaryText bits) = none) :
    PlainReading ⟨Smtlib.atomValue constants, [], apply⟩ scope where
  functions := rfl
  literal := fun bits _ _ => by
    show Smtlib.atomValue constants scope (binaryText bits) = _
    rw [Smtlib.atomValue, (h bits).1, (h bits).2, Smtlib.builtinValue,
      if_neg (binaryText_ne (by decide)), if_neg (binaryText_ne (by decide)),
      hashLiteral_binaryText]
    rfl

/-! ## Values -/

/-- The value of a printed term. -/
def Denotes (R : Reading) (scope : Smtlib.Scope) (a : Printed) (v : Value) : Prop :=
  Smtlib.value R a.expr scope = some v

section Values

variable {R : Reading} {scope : Smtlib.Scope} {u v : Value} {f : Operation} {vs : List Value}

theorem values_of_denotes (hargs : List.Forall₂ (Denotes R scope) args vs) :
    Smtlib.values R (args.map (·.expr)) scope = some vs := by
  induction hargs with
  | nil => rfl
  | @cons a v args vs ha _ ih =>
    have ha : Smtlib.value R a.expr scope = some v := ha
    rw [List.map_cons, Smtlib.values, ha, ih]
    rfl

theorem denotes_app (hR : PlainReading R scope) (hop : theory.lookup op = some f)
    (hargs : List.Forall₂ (Denotes R scope) args vs) (hf : f vs = some v) :
    Denotes R scope (app op h args) v := by
  have hne : ∀ name, theory.lookup name = none → op ≠ name := by
    rintro name hname rfl
    rw [hop] at hname
    cases hname
  show Smtlib.value R (.list (.atom op :: args.map (·.expr))) scope = some v
  rw [Smtlib.value, if_neg (hne "_" (by decide)), hR.functions]
  simp only [List.lookup_nil]
  rw [if_neg (hne "!" (by decide)), if_neg (hne "let" (by decide)), hop, values_of_denotes hargs]
  exact hf

theorem denotes_indexedApp {indices : List Nat} (ha : Denotes R scope a u)
    (hf : Smtlib.indexedValue
      (.atom "_" :: .atom op :: indices.map fun n => .atom (toString n)) [u] = some v) :
    Denotes R scope (indexedApp op h indices a) v := by
  have hexpr : (indexedApp op h indices a).expr =
      .list [.list (.atom "_" :: .atom op :: indices.map fun n => .atom (toString n)), a.expr] := by
    simp [indexedApp, Printed.list, Printed.token, numeral, Function.comp_def]
  have ha : Smtlib.value R a.expr scope = some u := ha
  rw [Denotes, hexpr, Smtlib.value, Smtlib.values, ha, Smtlib.values]
  exact hf

theorem denotes_literal (hR : PlainReading R scope) {bits : List Bool} (hne : bits ≠ [])
    (hlen : bits.length ≤ 65536) :
    Denotes R scope (literal bits) (.bv bits.length (.ofNat _ (BitList.toNat bits))) := by
  show Smtlib.value R (.atom (binaryText bits)) scope = _
  rw [Smtlib.value]
  exact hR.literal bits hne hlen

/-! ## Operators -/

variable {x y : BitVec w}

theorem denotes_app₂ (hR : PlainReading R scope) (hop : theory.lookup op = some f)
    (ha : Denotes R scope a u) (hb : Denotes R scope b v) {r : Value} (hf : f [u, v] = some r) :
    Denotes R scope (app op h [a, b]) r :=
  denotes_app hR hop (.cons ha (.cons hb .nil)) hf

theorem denotes_not (hR : PlainReading R scope) {p : Bool} (ha : Denotes R scope a (.bool p)) :
    Denotes R scope (app "not" (by decide) [a]) (.bool !p) :=
  denotes_app hR (f := Smtlib.onBool Smt.not) rfl (.cons ha .nil) rfl

theorem denotes_onBvs (hR : PlainReading R scope) {g : Value → Value → Value}
    (hop : theory.lookup op = some (Smtlib.onBvs g)) (ha : Denotes R scope a (.bv w x))
    (hb : Denotes R scope b (.bv w y)) :
    Denotes R scope (app op h [a, b]) (g (.bv w x) (.bv w y)) :=
  denotes_app₂ hR hop ha hb (if_pos rfl)

theorem denotes_foldBvs (hR : PlainReading R scope) {g : Value → Value → Value}
    (hop : theory.lookup op = some (Smtlib.foldBvs g)) (ha : Denotes R scope a (.bv w x))
    (hb : Denotes R scope b (.bv w y)) :
    Denotes R scope (app op h [a, b]) (g (.bv w x) (.bv w y)) :=
  denotes_app₂ hR hop ha hb (by simp [Smtlib.foldBvs, Smtlib.sortOf])

theorem denotes_equal (hR : PlainReading R scope) (ha : Denotes R scope a (.bv w x))
    (hb : Denotes R scope b (.bv w y)) : Denotes R scope (equal a b) (.bool (x == y)) := by
  refine denotes_app₂ hR (f := Smtlib.chainable) rfl ha hb ?_
  simp [Smtlib.chainable, Smtlib.sameSorts, Smtlib.sortOf, beq_eq_decide]

theorem denotes_extract (high low : Nat) {n : Nat} (ha : Denotes R scope a (.bv w x))
    (hle : low ≤ high) (hlt : high < w) (hw : w ≤ 2 ^ 32) (hn : high - low + 1 = n) :
    Denotes R scope (indexedApp "extract" (by decide) [high, low] a)
      (.bv n (.ofNat n (x.toNat >>> low))) := by
  refine denotes_indexedApp ha ?_
  rw [← Smt.extract_eq hn]
  show ((parseU32 (toString high)).bind fun high => (parseU32 (toString low)).bind fun low =>
    Smtlib.extractValue high low [.bv w x]) = _
  rw [parseU32_toString (by omega), parseU32_toString (by omega)]
  exact if_pos ⟨hle, hlt⟩

theorem denotes_indexed {k : Nat} (hop : (Smtlib.indexedTheory k).lookup op = some f)
    (hk : k < 2 ^ 32) (ha : Denotes R scope a u) (hf : f [u] = some v) :
    Denotes R scope (indexedApp op h [k] a) v := by
  refine denotes_indexedApp ha ?_
  rw [List.map_singleton, Smtlib.indexedValue, parseU32_toString hk]
  simp only [Option.bind_eq_bind, Option.bind_some, hop, hf]

end Values

end Smt2
end Server
end SmtServer
