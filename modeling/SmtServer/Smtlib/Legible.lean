import SmtServer.Smtlib.Sound
import SmtServer.Smtlib.ValueSink

/-!
# Where the frontend and the standard read a term alike

The frontend recognises `true`, `false`, `#b…` and `#x…` before it looks at the scope, so a `let`
variable, a parameter or a constant of such a name is passed over; and it computes the width of a
literal modulo `2 ^ 32`. `legible` says of a term that it never comes to either, in the term itself
or in a body it expands. A legible term that is lowered has the value the standard gives it.
-/

namespace SmtServer
namespace Smtlib

open Lib Grow
open Lib.Smt (Value)

/-! ## Atoms that read as literals -/

def literalLike (name : String) : Bool :=
  name = "true" || name = "false" || (literalDigits name).isSome

/-- The atom is no literal that shares its spelling with a name in scope, and its width fits. -/
def legibleAtom (bound : List String) (name : String) : Bool :=
  !(literalLike name && bound.contains name) &&
    (literalDigits name).all fun literal => literal.1.length < 2 ^ 32

/-- The names a binding list binds. -/
def bindingNames : List SExpr → List String
  | .list [.atom name, _] :: rest => name :: bindingNames rest
  | _ :: rest => bindingNames rest
  | [] => []

section

variable (functions : NameMap FunctionBinding) (calls : FunctionBinding → Bool)

mutual

/-- Every atom that is lowered is legible where it stands; `calls` says it of a function's body. -/
def legible : SExpr → List String → Bool
  | .atom name, bound => legibleAtom bound name
  | .list [], _ => true
  | .list (.list _ :: args), bound => legibleAll args bound
  | .list (.atom op :: args), bound =>
    if op = "_" then true
    else
      match functions.lookup op with
      | some function => legibleAll args bound && calls function
      | none =>
        if op = "!" then legibleFirst args bound
        else if op = "let" then legibleLet args bound
        else legibleAll args bound

def legibleAll : List SExpr → List String → Bool
  | [], _ => true
  | term :: terms, bound => legible term bound && legibleAll terms bound

def legibleFirst : List SExpr → List String → Bool
  | term :: _, bound => legible term bound
  | [], _ => true

def legibleLet : List SExpr → List String → Bool
  | [.list bindings, body], bound =>
    legibleBindings bindings bound && legible body (bindingNames bindings ++ bound)
  | _, _ => true

def legibleBindings : List SExpr → List String → Bool
  | [], _ => true
  | .list [_, term] :: rest, bound => legible term bound && legibleBindings rest bound
  | _ :: rest, bound => legibleBindings rest bound

end

end

/-- A body is lowered where the parameters and the constants are bound. -/
def legibleCall (functions : NameMap FunctionBinding) (constants : List String) :
    Nat → FunctionBinding → Bool
  | 0, _ => true
  | depth + 1, function =>
    legible functions (legibleCall functions constants depth) function.body
      (function.params.map (·.1) ++ constants)

/-- A term with `depth` expansions left, among constants of the given names. -/
def legibleTerm (functions : NameMap FunctionBinding) (constants : List String) (depth : Nat)
    (e : SExpr) (locals : List String) : Bool :=
  legible functions (legibleCall functions constants depth) e (locals ++ constants)

/-! ## Atoms -/

theorem toDigit_utf8Size {radix : Nat} {c : Char} {d : Nat} (h : toDigit radix c = some d) :
    c.utf8Size = 1 := by
  have hc := (Option.filter_eq_some_iff.mp h).1
  refine Char.utf8Size_eq_one_iff.mpr ?_
  split at hc
  · rename_i hr
    exact UInt32.le_trans (show c.val ≤ '9'.val from hr.2) (by decide)
  · split at hc
    · rename_i hr
      exact UInt32.le_trans (show c.val ≤ 'f'.val from hr.2) (by decide)
    · split at hc
      · rename_i hr
        exact UInt32.le_trans (show c.val ≤ 'F'.val from hr.2) (by decide)
      · simp at hc

/-- Digits are one byte each. -/
theorem utf8ByteSize_digits {radix : Nat} {digits : List Char} {ds : List Nat}
    (h : digits.mapM (toDigit radix) = some ds) :
    (String.ofList digits).utf8ByteSize = digits.length ∧ ds.length = digits.length := by
  induction digits generalizing ds with
  | nil =>
    obtain rfl : [] = ds := by simpa using h
    exact ⟨rfl, rfl⟩
  | cons c digits ih =>
    rw [List.mapM_cons] at h
    obtain ⟨d, hd, h⟩ := Option.bind_eq_some_iff.mp h
    obtain ⟨rest, hrest, h⟩ := Option.bind_eq_some_iff.mp h
    obtain rfl : d :: rest = ds := by simpa using h
    obtain ⟨hsize, hlen⟩ := ih hrest
    refine ⟨?_, by simp [hlen]⟩
    rw [String.ofList_cons, String.utf8ByteSize_append, String.utf8ByteSize_singleton, hsize,
      toDigit_utf8Size hd, List.length_cons, Nat.add_comm]

/-- A literal whose width does not wrap around is read alike. -/
theorem hashLiteral_of_wrapped {text : String} {v : Value}
    (hshort : (literalDigits text).all fun literal => literal.1.length < 2 ^ 32)
    (h : wrappedLiteral text = some v) : hashLiteral text = some v := by
  obtain ⟨⟨digits, radix⟩, hlit, h⟩ := Option.bind_eq_some_iff.mp h
  obtain ⟨ds, hds, h⟩ := Option.bind_eq_some_iff.mp h
  obtain ⟨hsize, hlen⟩ := utf8ByteSize_digits hds
  have hdigits : digits.length < 2 ^ 32 := by simpa [hlit] using hshort
  have hwidth : ∀ {width}, literalWidth digits radix = .ok width →
      width = if radix = 2 then ds.length else 4 * ds.length := by
    intro width hwidth
    rw [literalWidth, hsize, Nat.mod_eq_of_lt hdigits, ← hlen] at hwidth
    split at hwidth
    · rename_i hbin
      rw [if_pos hbin, Outcome.ok.inj hwidth]
    · rename_i hhex
      rw [Outcome.mulU] at hwidth
      split at hwidth
      · rw [if_neg hhex, ← Outcome.ok.inj hwidth, Nat.mul_comm]
      · simp at hwidth
  split at h
  · rename_i width hw
    obtain rfl := Option.some.inj h
    obtain rfl := hwidth hw
    simp [hashLiteral, hlit, hds]
  · simp at h

section

variable {constants : Scope} {functions : NameMap FunctionBinding}
  {calls : FunctionBinding → Bool} {apply apply' : FunctionBinding → Operation}

/-- Every name in scope is in `bound`. -/
def Covers (bound : List String) (constants scope : Scope) : Prop :=
  ∀ name ∉ bound, scope.lookup name = none ∧ constants.lookup name = none

theorem atomValue_of_legible {bound : List String} {scope : Scope} {name : String} {v : Value}
    (hbound : Covers bound constants scope) (hlegible : legibleAtom bound name)
    (h : frontendAtom constants scope name = some v) :
    atomValue constants scope name = some v := by
  obtain ⟨hfree, hshort⟩ := Bool.and_eq_true_iff.mp hlegible
  -- a literal is read as itself, since no name in scope is spelled like it
  have builtin : literalLike name → atomValue constants scope name = builtinValue name := by
    intro hlit
    have hnot : name ∉ bound := by simpa [hlit] using hfree
    obtain ⟨hs, hc⟩ := hbound name hnot
    rw [atomValue, hs, hc, Option.none_or, Option.none_or]
  unfold frontendAtom at h
  split at h
  · rename_i htrue
    rwa [builtin (by simp [literalLike, htrue]), builtinValue, if_pos htrue]
  · split at h
    · rename_i htrue hfalse
      rwa [builtin (by simp [literalLike, hfalse]), builtinValue, if_neg htrue, if_pos hfalse]
    · split at h
      · rename_i htrue hfalse hlit
        rw [builtin (by simp [literalLike, hlit]), builtinValue, if_neg htrue, if_neg hfalse]
        exact hashLiteral_of_wrapped hshort h
      · rw [atomValue, h, Option.some_or]

/-! ## Terms -/

variable (happly : ∀ {f vs v}, calls f → apply' f vs = some v → apply f vs = some v)

include happly

mutual

theorem value_of_legible : ∀ (e : SExpr) (scope : Scope) (bound : List String) {v : Value},
    Covers bound constants scope → legible functions calls e bound →
    value ⟨frontendAtom constants, functions, apply'⟩ e scope = some v →
    value ⟨atomValue constants, functions, apply⟩ e scope = some v
  | .atom name, scope, bound, v, hbound, hl, hv => atomValue_of_legible hbound hl hv
  | .list [], _, _, _, _, _, hv => by simp [value] at hv
  | .list (.list opItems :: args), scope, bound, v, hbound, hl, hv => by
    rw [value, Option.bind_eq_bind, Option.bind_eq_some_iff] at hv ⊢
    obtain ⟨vs, hvs, hv⟩ := hv
    exact ⟨vs, values_of_legible args scope bound hbound hl hvs, hv⟩
  | .list (.atom op :: args), scope, bound, v, hbound, hl, hv => by
    rw [value] at hv ⊢
    rw [legible] at hl
    dsimp only at hv ⊢
    split at hv
    · rwa [if_pos ‹_›]
    · rw [if_neg ‹_›] at hl ⊢
      cases hfun : functions.lookup op with
      | some f =>
        rw [hfun] at hv hl
        obtain ⟨hargs, hcall⟩ := Bool.and_eq_true_iff.mp hl
        obtain ⟨vs, hvs, hv⟩ := Option.bind_eq_some_iff.mp hv
        exact Option.bind_eq_some_iff.mpr
          ⟨vs, values_of_legible args scope bound hbound hargs hvs, happly hcall hv⟩
      | none =>
        rw [hfun] at hv hl
        dsimp only at hv hl ⊢
        split at hv
        · rw [if_pos ‹_›] at hl ⊢
          exact annotatedValue_of_legible args scope bound hbound hl hv
        · rw [if_neg ‹_›] at hl ⊢
          split at hv
          · rw [if_pos ‹_›] at hl ⊢
            exact letValue_of_legible args scope bound hbound hl hv
          · rw [if_neg ‹_›] at hl ⊢
            split at hv
            · obtain ⟨vs, hvs, hv⟩ := Option.bind_eq_some_iff.mp hv
              exact Option.bind_eq_some_iff.mpr
                ⟨vs, values_of_legible args scope bound hbound hl hvs, hv⟩
            · simp at hv

theorem annotatedValue_of_legible :
    ∀ (es : List SExpr) (scope : Scope) (bound : List String) {v : Value},
      Covers bound constants scope → legibleFirst functions calls es bound →
      annotatedValue ⟨frontendAtom constants, functions, apply'⟩ es scope = some v →
      annotatedValue ⟨atomValue constants, functions, apply⟩ es scope = some v
  | term :: _, scope, bound, _, hbound, hl, hv => value_of_legible term scope bound hbound hl hv

theorem letValue_of_legible :
    ∀ (es : List SExpr) (scope : Scope) (bound : List String) {v : Value},
      Covers bound constants scope → legibleLet functions calls es bound →
      letValue ⟨frontendAtom constants, functions, apply'⟩ es scope = some v →
      letValue ⟨atomValue constants, functions, apply⟩ es scope = some v
  | [.list bindings, body], scope, bound, v, hbound, hl, hv => by
    obtain ⟨hb, hbody⟩ := Bool.and_eq_true_iff.mp hl
    rw [letValue] at hv ⊢
    obtain ⟨values, hvalues, hv⟩ := Option.bind_eq_some_iff.mp hv
    obtain ⟨hvalues, hnames⟩ := bindingValues_of_legible bindings scope bound hbound hb hvalues
    rw [hvalues]
    refine value_of_legible body _ (bindingNames bindings ++ bound) ?_ hbody hv
    intro name hname
    rw [List.mem_append, not_or, ← hnames] at hname
    obtain ⟨hscope, hconst⟩ := hbound name hname.2
    refine ⟨?_, hconst⟩
    rw [insertAll_eq, List.lookup_append, hscope, Option.or_none]
    refine lookup_eq_none ?_
    rw [List.map_reverse, List.mem_reverse]
    exact hname.1

theorem values_of_legible :
    ∀ (es : List SExpr) (scope : Scope) (bound : List String) {vs : List Value},
      Covers bound constants scope → legibleAll functions calls es bound →
      values ⟨frontendAtom constants, functions, apply'⟩ es scope = some vs →
      values ⟨atomValue constants, functions, apply⟩ es scope = some vs
  | [], _, _, _, _, _, hvs => hvs
  | e :: es, scope, bound, vs, hbound, hl, hvs => by
    obtain ⟨he, hes⟩ := Bool.and_eq_true_iff.mp hl
    rw [values] at hvs ⊢
    obtain ⟨v, hv, hvs⟩ := Option.bind_eq_some_iff.mp hvs
    obtain ⟨rest, hrest, hvs⟩ := Option.bind_eq_some_iff.mp hvs
    rw [value_of_legible e scope bound hbound he hv,
      values_of_legible es scope bound hbound hes hrest]
    exact hvs

/-- The bindings are read alike, and bind the names the list says. -/
theorem bindingValues_of_legible :
    ∀ (es : List SExpr) (scope : Scope) (bound : List String) {bs : Scope},
      Covers bound constants scope → legibleBindings functions calls es bound →
      bindingValues ⟨frontendAtom constants, functions, apply'⟩ es scope = some bs →
      bindingValues ⟨atomValue constants, functions, apply⟩ es scope = some bs ∧
        bs.map (·.1) = bindingNames es
  | [], _, _, _, _, _, hb => by
    obtain rfl := Option.some.inj hb
    exact ⟨rfl, rfl⟩
  | .list [.atom name, term] :: rest, scope, bound, bs, hbound, hl, hb => by
    obtain ⟨hterm, hrest⟩ := Bool.and_eq_true_iff.mp hl
    rw [bindingValues] at hb ⊢
    obtain ⟨v, hv, hb⟩ := Option.bind_eq_some_iff.mp hb
    obtain ⟨more, hmore, hb⟩ := Option.bind_eq_some_iff.mp hb
    obtain ⟨hmore, hnames⟩ := bindingValues_of_legible rest scope bound hbound hrest hmore
    obtain rfl := Option.some.inj hb
    rw [value_of_legible term scope bound hbound hterm hv, hmore]
    exact ⟨rfl, by rw [List.map_cons, bindingNames, hnames]⟩

end

end

/-- Bodies that are legible at every depth are read alike. -/
theorem applyFunction_of_legible {constants : Scope} {functions : NameMap FunctionBinding}
    {depth : Nat} {f : FunctionBinding} {vs : List Value} {v : Value}
    (hf : legibleCall functions (constants.map (·.1)) depth f)
    (h : applyFunction (frontendAtom constants) functions depth f vs = some v) :
    applyFunction (atomValue constants) functions depth f vs = some v := by
  induction depth generalizing f vs v with
  | zero => simp [applyFunction] at h
  | succ depth ih =>
    rw [applyFunction] at h ⊢
    split at h
    · rw [if_pos ‹_›]
      obtain ⟨hv, hs⟩ := Option.filter_eq_some_iff.mp h
      refine Option.filter_eq_some_iff.mpr ⟨value_of_legible ih _ _ _ ?_ hf hv, hs⟩
      intro name hname
      rw [List.mem_append, not_or] at hname
      refine ⟨lookup_eq_none ?_, lookup_eq_none hname.2⟩
      rw [insertAll_eq, List.append_nil, List.map_reverse, List.mem_reverse]
      intro hmem
      obtain ⟨p, hp, rfl⟩ := List.mem_map.mp hmem
      exact hname.1 (List.of_mem_zip hp).1
    · simp at h

theorem termValue_of_legible {constants scope : Scope} {functions : NameMap FunctionBinding}
    {depth : Nat} {e : SExpr} {v : Value}
    (hl : legibleTerm functions (constants.map (·.1)) depth e (scope.map (·.1)))
    (h : termValue (frontendAtom constants) functions depth e scope = some v) :
    termValue (atomValue constants) functions depth e scope = some v := by
  have happly : ∀ {f vs v}, legibleCall functions (constants.map (·.1)) depth f →
      applyFunction (frontendAtom constants) functions depth f vs = some v →
      applyFunction (atomValue constants) functions depth f vs = some v :=
    fun hf h => applyFunction_of_legible hf h
  refine value_of_legible happly e scope _ ?_ hl h
  intro name hname
  rw [List.mem_append, not_or] at hname
  exact ⟨lookup_eq_none hname.1, lookup_eq_none hname.2⟩

/-- A constant `x` of width 8, and the function `(inc a) = (bvadd a #x01)`. -/
def sampleTables : Tables SortedMeaning where
  env := [("x", ⟨⟨.bv 8, fun ρ => ρ.value "x" (.bv 8)⟩, .bv 8⟩)]
  functions := [("inc", ⟨[("a", .bv 8)], .bv 8,
    .list [.atom "bvadd", .atom "a", .atom "#x01"]⟩)]

/-- `(let ((x (inc x)) (y x)) (bvult y x))`: the inner `x` is not the one `y` is bound to. -/
def sampleTerm : SExpr :=
  .list [.atom "let",
    .list [.list [.atom "x", .list [.atom "inc", .atom "x"]], .list [.atom "y", .atom "x"]],
    .list [.atom "bvult", .atom "y", .atom "x"]]

def emptyStore : ValueStore := ⟨[], [], []⟩

/-- `(let ((true false)) true)`. -/
def shadowedTrue : SExpr :=
  .list [.atom "let", .list [.list [.atom "true", .atom "false"]], .atom "true"]

end Smtlib
end SmtServer
