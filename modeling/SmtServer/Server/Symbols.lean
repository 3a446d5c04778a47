import SmtServer.Lib.SmtLexer
import SmtServer.Server.Text

/-!
# `quote_symbol`, three times

Names are printed by three functions: one in `smt2.rs` (`Server.quoteSymbol`, which `smtlib.rs` uses
as well), one in `frontend.rs` of the solver and one in `api.rs` of the wire crate. Each prints a
name bare if it looks like a simple symbol and between bars otherwise. They differ in what looks
like a simple symbol: the first lets a colon pass, and of the words the standard reserves the first
knows three, the second none, the third the eight that occur in terms.

For each the text is the symbol exactly if the printed form is one the standard allows
(`ReadsBack`).
-/

namespace SmtServer

open Lib SmtLexer

/-! ## The two other copies -/

namespace Qfbv
namespace Frontend

def isSymbolChar (c : Char) : Bool := c.isAlphanum || "~!@$%^&*_+-=<>.?/".toList.contains c

def isSimpleSymbol (name : String) : Bool :=
  name.toList.all isSymbolChar && name ≠ "" && !name.toList.head?.any Char.isDigit

/-- A bar in a name becomes two. -/
def quoteSymbol (name : String) : String :=
  if isSimpleSymbol name then name
  else "|" ++ String.ofList (name.toList.flatMap fun c => if c = '|' then ['|', '|'] else [c]) ++ "|"

end Frontend
end Qfbv

namespace Wire

def isSimpleStart (c : Char) : Bool := c.isAlpha || "_~!@$%^&*+=<>.?/-".toList.contains c

def isSimpleRest (c : Char) : Bool := c.isAlphanum || "_~!@$%^&*+=<>.?/-".toList.contains c

def reservedNames : List String :=
  ["let", "par", "forall", "exists", "match", "_", "!", "as", "true", "false"]

def isSimpleSymbol (name : String) : Bool :=
  match name.toList with
  | [] => false
  | c :: cs => isSimpleStart c && cs.all isSimpleRest && !reservedNames.contains name && c ≠ '#'

def quoteSymbol (name : String) : String :=
  if isSimpleSymbol name then name else "|" ++ Server.escapeSymbol name ++ "|"

end Wire

namespace Server

/-! ## What is printed bare -/

/-- What the three tests have in common. -/
structure Simple (name : String) : Prop where
  ne : name.toList ≠ []
  chars : ∀ c ∈ name.toList, SmtLexer.isSymbolChar c = true ∨ c = ':'
  digit : ∀ c, name.toList.head? = some c → c.isDigit = false

theorem simple_of_isSimpleSymbol {name : String} (h : isSimpleSymbol name = true) : Simple name := by
  rw [isSimpleSymbol] at h
  split at h
  · cases h
  · next c cs htext =>
    rw [Bool.and_eq_true, Bool.and_eq_true, List.all_eq_true, Bool.not_eq_true'] at h
    refine ⟨by rw [htext]; simp, fun d hd => ?_, fun d hd => ?_⟩
    · have hsymbol := h.1.1 d (htext ▸ hd)
      simp only [isSymbolChar, SmtLexer.isSymbolChar, Bool.or_eq_true, List.contains_iff_mem] at *
      rcases hsymbol with halpha | hother
      · exact .inl (.inl halpha)
      · have hknown : "_-.$/:+*=<>?!~&^%@".toList ⊆ ':' :: "~!@$%^&*_-+=<>.?/".toList := by
          decide
        rcases List.mem_cons.mp (hknown hother) with hcolon | hmem
        · exact .inr hcolon
        · exact .inl (.inr hmem)
    · rw [htext] at hd
      obtain rfl := Option.some.inj hd
      exact h.1.2

theorem simple_of_frontend {name : String} (h : Qfbv.Frontend.isSimpleSymbol name = true) :
    Simple name := by
  rw [Qfbv.Frontend.isSimpleSymbol, Bool.and_eq_true, Bool.and_eq_true, List.all_eq_true,
    Bool.not_eq_true'] at h
  obtain ⟨⟨hchars, hne⟩, hdigit⟩ := h
  refine ⟨by simpa using hne, fun c hc => .inl ?_, fun c hc => ?_⟩
  · have hsymbol := hchars c hc
    simp only [Qfbv.Frontend.isSymbolChar, SmtLexer.isSymbolChar, Bool.or_eq_true,
      List.contains_iff_mem] at *
    have hknown : "~!@$%^&*_+-=<>.?/".toList ⊆ "~!@$%^&*_-+=<>.?/".toList := by decide
    exact hsymbol.imp_right fun h => hknown h
  · simpa [hc] using hdigit

theorem simple_of_wire {name : String} (h : Wire.isSimpleSymbol name = true) : Simple name := by
  rw [Wire.isSimpleSymbol] at h
  split at h
  · cases h
  · next c cs htext =>
    rw [Bool.and_eq_true, Bool.and_eq_true, Bool.and_eq_true, List.all_eq_true] at h
    obtain ⟨⟨⟨hstart, hrest⟩, -⟩, -⟩ := h
    have hknown : "_~!@$%^&*+=<>.?/-".toList ⊆ "~!@$%^&*_-+=<>.?/".toList := by decide
    have hfirst : c.isAlpha = true ∨ c ∈ "~!@$%^&*_-+=<>.?/".toList := by
      simp only [Wire.isSimpleStart, Bool.or_eq_true, List.contains_iff_mem] at hstart
      exact hstart.imp_right fun h => hknown h
    refine ⟨by rw [htext]; simp, fun d hd => .inl ?_, fun d hd => ?_⟩
    · simp only [SmtLexer.isSymbolChar, Bool.or_eq_true, List.contains_iff_mem]
      rw [htext] at hd
      rcases List.mem_cons.mp hd with rfl | hd
      · exact hfirst.imp_left fun h => by simp [Char.isAlphanum, h]
      · have hsymbol := hrest d hd
        simp only [Wire.isSimpleRest, Bool.or_eq_true, List.contains_iff_mem] at hsymbol
        exact hsymbol.imp_right fun h => hknown h
    · rw [htext] at hd
      obtain rfl := Option.some.inj hd
      rcases hfirst with halpha | hmem
      · by_contra hdigit
        rw [Bool.not_eq_false] at hdigit
        delta Char.isAlpha Char.isUpper Char.isLower at halpha
        simp only [Char.isDigit, Bool.or_eq_true,
          Bool.and_eq_true, decide_eq_true_eq, ge_iff_le, UInt32.le_iff_toNat_le] at halpha hdigit
        simp at halpha hdigit
        omega
      · have hno : "~!@$%^&*_-+=<>.?/".toList.all (!·.isDigit) = true := by decide
        simpa using List.all_eq_true.mp hno c hmem

/-! ## Reading back -/

/-- The standard allows the form in which the name is printed. -/
def ReadsBack (simple : String → Bool) (name : String) : Prop :=
  if simple name then ':' ∉ name.toList ∧ name ∉ SmtLexer.reservedWords
  else ∀ c ∈ name.toList, isWhite c = true ∨ isPrintable c = true

/-- A name as it is printed, bare or between bars. -/
def printed (simple : String → Bool) (name : String) : String :=
  if simple name then name else "|" ++ name ++ "|"

theorem lex_printed_iff {simple : String → Bool} (hsimple : ∀ name, simple name = true → Simple name)
    {name : String} (hbar : '|' ∉ name.toList) (hbackslash : '\\' ∉ name.toList) :
    lex (printed simple name) = some [.symbol name] ↔ ReadsBack simple name := by
  rw [printed, ReadsBack]
  by_cases h : simple name = true
  · obtain ⟨hne, hchars, hdigit⟩ := hsimple name h
    rw [if_pos h, if_pos h, lex_bare_iff hne hchars hdigit]
  · rw [if_neg h, if_neg h, lex_quoted_iff hbar hbackslash]

/-- A bar shows that a name is printed between bars. -/
theorem printed_inj {simple : String → Bool} {a b : String} (ha : '|' ∉ a.toList)
    (hb : '|' ∉ b.toList) (h : printed simple a = printed simple b) : a = b := by
  have hmem : ∀ name : String, '|' ∈ ("|" ++ name ++ "|").toList := by
    intro name
    simp [String.toList_append]
  rw [printed, printed] at h
  split at h <;> split at h
  · exact h
  · exact absurd (h ▸ hmem b) ha
  · exact absurd (h.symm ▸ hmem a) hb
  · have hlist := congrArg String.toList h
    simp only [String.toList_append] at hlist
    exact String.toList_injective (List.append_cancel_left (List.append_cancel_right hlist))

theorem flatMap_unchanged {d : Char} {escaped : List Char} {cs : List Char} (h : d ∉ cs) :
    (cs.flatMap fun c => if c = d then escaped else [c]) = cs := by
  induction cs with
  | nil => rfl
  | cons c cs ih =>
    rw [List.mem_cons, not_or] at h
    rw [List.flatMap_cons, if_neg (Ne.symm h.1), ih h.2]
    rfl

section Printed

variable {name : String} (hbar : '|' ∉ name.toList) (hbackslash : '\\' ∉ name.toList)

include hbar

theorem frontend_eq_printed :
    Qfbv.Frontend.quoteSymbol name = printed Qfbv.Frontend.isSimpleSymbol name := by
  rw [Qfbv.Frontend.quoteSymbol, flatMap_unchanged hbar, String.ofList_toList, printed]

include hbackslash

theorem escapeSymbol_eq : escapeSymbol name = name := by
  rw [escapeSymbol, flatMap_unchanged hbackslash, flatMap_unchanged hbar, String.ofList_toList]

theorem quoteSymbol_eq_printed : quoteSymbol name = printed isSimpleSymbol name := by
  rw [quoteSymbol, escapeSymbol_eq hbar hbackslash, printed]

theorem wire_eq_printed : Wire.quoteSymbol name = printed Wire.isSimpleSymbol name := by
  rw [Wire.quoteSymbol, escapeSymbol_eq hbar hbackslash, printed]

end Printed

/-- **When a printed name reads back as itself**, for each of the three functions; and none prints
two names alike. -/
theorem quoteSymbol_reads_back_iff {name : String} (hbar : '|' ∉ name.toList)
    (hbackslash : '\\' ∉ name.toList) :
    (lex (quoteSymbol name) = some [.symbol name] ↔ ReadsBack isSimpleSymbol name) ∧
    (lex (Qfbv.Frontend.quoteSymbol name) = some [.symbol name] ↔
      ReadsBack Qfbv.Frontend.isSimpleSymbol name) ∧
    (lex (Wire.quoteSymbol name) = some [.symbol name] ↔ ReadsBack Wire.isSimpleSymbol name) ∧
    ∀ other : String, '|' ∉ other.toList → '\\' ∉ other.toList →
      (quoteSymbol name = quoteSymbol other → name = other) ∧
      (Qfbv.Frontend.quoteSymbol name = Qfbv.Frontend.quoteSymbol other → name = other) ∧
      (Wire.quoteSymbol name = Wire.quoteSymbol other → name = other) := by
  rw [quoteSymbol_eq_printed hbar hbackslash, frontend_eq_printed hbar,
    wire_eq_printed hbar hbackslash]
  refine ⟨lex_printed_iff (fun _ => simple_of_isSimpleSymbol) hbar hbackslash,
    lex_printed_iff (fun _ => simple_of_frontend) hbar hbackslash,
    lex_printed_iff (fun _ => simple_of_wire) hbar hbackslash, fun other hother hother' => ?_⟩
  rw [quoteSymbol_eq_printed hother hother', frontend_eq_printed hother,
    wire_eq_printed hother hother']
  exact ⟨printed_inj hbar hother, printed_inj hbar hother, printed_inj hbar hother⟩

theorem quoteSymbol_reads_back_of_two_words :
    (lex (quoteSymbol "two words") = some [.symbol "two words"] ↔
      ReadsBack isSimpleSymbol "two words") :=
  have h : '|' ∉ "two words".toList ∧ '\\' ∉ "two words".toList := by decide
  (quoteSymbol_reads_back_iff h.1 h.2).1

/-- **The name of a command** is printed bare by all three, and `:x` by the first: a reserved word
and a keyword. -/
theorem quoteSymbol_misses_exit :
    '|' ∉ "exit".toList ∧ '\\' ∉ "exit".toList ∧
    lex (quoteSymbol "exit") = some [.reserved "exit"] ∧
    lex (Qfbv.Frontend.quoteSymbol "exit") = some [.reserved "exit"] ∧
    lex (Wire.quoteSymbol "exit") = some [.reserved "exit"] ∧
    lex (quoteSymbol ":x") = some [.keyword "x"] := by
  decide

end Server
end SmtServer
