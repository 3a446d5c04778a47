import Mathlib.Data.List.TakeWhile
import Mathlib.Data.Option.Basic

/-!
# The tokens of SMT-LIB 2.6

The lexical rules of the standard. A symbol is written in two ways: bare, as letters, digits and
seventeen other characters, not starting with a digit and not one of the reserved words; or between
bars, as white space and printable characters other than a bar and a backslash. A bare word goes on
as long as it can.

A character beyond ASCII is read as its UTF-8 bytes, all of them from 128 up, which the standard
counts as printable.
-/

namespace Lib
namespace SmtLexer

inductive Token where
  | open
  | close
  | numeral (digits : String)
  | decimal (digits fraction : String)
  | hexadecimal (digits : String)
  | binary (digits : String)
  | string (text : String)
  | symbol (name : String)
  | keyword (name : String)
  | reserved (word : String)
  deriving Repr, DecidableEq

def isWhite (c : Char) : Bool := c = ' ' || c = '\t' || c = '\n' || c = '\r'

def isPrintable (c : Char) : Bool := 32 ≤ c.toNat && c.toNat ≠ 127

/-- The characters of a bare symbol. -/
def isSymbolChar (c : Char) : Bool := c.isAlphanum || "~!@$%^&*_-+=<>.?/".toList.contains c

/-- The characters between the bars of a quoted symbol. -/
def isQuotedChar (c : Char) : Bool := (isWhite c || isPrintable c) && c ≠ '|' && c ≠ '\\'

/-- The words of the grammar, and the names of the commands. -/
def reservedWords : List String :=
  ["BINARY", "DECIMAL", "HEXADECIMAL", "NUMERAL", "STRING", "_", "!", "as", "let", "exists",
    "forall", "match", "par",
    "assert", "check-sat", "check-sat-assuming", "declare-const", "declare-datatype",
    "declare-datatypes", "declare-fun", "declare-sort", "define-fun", "define-fun-rec",
    "define-funs-rec", "define-sort", "echo", "exit", "get-assertions", "get-assignment",
    "get-info", "get-model", "get-option", "get-proof", "get-unsat-assumptions", "get-unsat-core",
    "get-value", "pop", "push", "reset", "reset-assertions", "set-info", "set-logic", "set-option"]

/-- A bare word. -/
def word (text : String) : Token :=
  if reservedWords.contains text then .reserved text else .symbol text

/-- After the opening quote of a string literal; two quotes stand for one. -/
def stringBody : List Char → Option (List Char × List Char)
  | [] => none
  | '"' :: '"' :: cs => (stringBody cs).map fun (body, rest) => ('"' :: body, rest)
  | '"' :: cs => some ([], cs)
  | c :: cs =>
    if isWhite c || isPrintable c then (stringBody cs).map fun (body, rest) => (c :: body, rest)
    else none

/-- As many characters of a kind as there are, and at least one. -/
def run (p : Char → Bool) (token : String → Token) (cs : List Char) :
    Option (Token × List Char) :=
  if cs.takeWhile p = [] then none
  else some (token (String.ofList (cs.takeWhile p)), cs.dropWhile p)

/-- A number that starts here; a number of several digits does not start with zero. -/
def number (cs : List Char) : Option (Token × List Char) :=
  let digits := cs.takeWhile Char.isDigit
  if digits.head? = some '0' ∧ digits ≠ ['0'] then none
  else
    match cs.dropWhile Char.isDigit with
    | '.' :: rest => run Char.isDigit (.decimal (String.ofList digits)) rest
    | rest => some (.numeral (String.ofList digits), rest)

/-- After the opening bar of a quoted symbol. -/
def quoted (cs : List Char) : Option (Token × List Char) :=
  match cs.dropWhile isQuotedChar with
  | '|' :: rest => some (.symbol (String.ofList (cs.takeWhile isQuotedChar)), rest)
  | _ => none

def hashed : List Char → Option (Token × List Char)
  | 'b' :: cs => run (fun c => c = '0' || c = '1') .binary cs
  | 'x' :: cs => run (fun c => c.isDigit || "abcdefABCDEF".toList.contains c) .hexadecimal cs
  | _ => none

/-- The token that starts with `c`, which is not white space, and the text after it. -/
def next (c : Char) (cs : List Char) : Option (Token × List Char) :=
  if c = '(' then some (.open, cs)
  else if c = ')' then some (.close, cs)
  else if c = '|' then quoted cs
  else if c = '"' then (stringBody cs).map fun (body, rest) => (.string (String.ofList body), rest)
  else if c = ':' then run isSymbolChar .keyword cs
  else if c = '#' then hashed cs
  else if c.isDigit then number (c :: cs)
  else run isSymbolChar word (c :: cs)

/-- The tokens of a text; each takes at least one character. -/
def lexFrom : Nat → List Char → Option (List Token)
  | _, [] => some []
  | 0, _ :: _ => none
  | fuel + 1, c :: cs =>
    if isWhite c then lexFrom fuel cs
    else if c = ';' then lexFrom fuel (cs.dropWhile fun c => c ≠ '\n' && c ≠ '\r')
    else
      match next c cs with
      | none => none
      | some (token, rest) => (lexFrom fuel rest).map (token :: ·)

def lex (text : String) : Option (List Token) := lexFrom text.toList.length text.toList

/-! ## One token -/

variable {c : Char} {cs : List Char} {name : String} {token : Token}

theorem lex_eq (htext : name.toList = c :: cs) (hwhite : isWhite c = false) (hcomment : c ≠ ';') :
    lex name = (next c cs).bind fun (token, rest) =>
      (lexFrom cs.length rest).map (token :: ·) := by
  rw [lex, htext, List.length_cons, lexFrom, if_neg (by simp [hwhite]), if_neg hcomment]
  cases next c cs <;> rfl

/-- A text that is a token and nothing else. -/
theorem lex_eq_singleton (htext : name.toList = c :: cs) (hwhite : isWhite c = false)
    (hcomment : c ≠ ';') (hnext : next c cs = some (token, [])) : lex name = some [token] := by
  rw [lex_eq htext hwhite hcomment, hnext]
  cases cs <;> rfl

/-- The first token of a text that is one token. -/
theorem next_of_lex (htext : name.toList = c :: cs) (hwhite : isWhite c = false)
    (hcomment : c ≠ ';') (hlex : lex name = some [token]) : ∃ rest, next c cs = some (token, rest) := by
  rw [lex_eq htext hwhite hcomment] at hlex
  obtain ⟨⟨found, rest⟩, hnext, htokens⟩ := Option.bind_eq_some_iff.mp hlex
  obtain ⟨tokens, -, hcons⟩ := Option.map_eq_some_iff.mp htokens
  obtain ⟨rfl, -⟩ := List.cons.inj hcons
  exact ⟨rest, hnext⟩

/-- Characters that mean something else are not characters of a symbol. -/
theorem special_of_symbolChar (h : isSymbolChar c = true) :
    isWhite c = false ∧ c ≠ ';' ∧ c ≠ '(' ∧ c ≠ ')' ∧ c ≠ '|' ∧ c ≠ '"' ∧ c ≠ ':' ∧ c ≠ '#' := by
  have hne : ∀ d, isSymbolChar d = false → c ≠ d := by
    rintro d hd rfl
    rw [h] at hd
    cases hd
  refine ⟨?_, hne _ (by decide), hne _ (by decide), hne _ (by decide), hne _ (by decide),
    hne _ (by decide), hne _ (by decide), hne _ (by decide)⟩
  rw [isWhite]
  simp [hne ' ' (by decide), hne '\t' (by decide), hne '\n' (by decide), hne '\r' (by decide)]

theorem next_of_symbolChar (h : isSymbolChar c = true) (hdigit : c.isDigit = false) :
    next c cs = some (word (String.ofList (c :: cs.takeWhile isSymbolChar)),
      cs.dropWhile isSymbolChar) := by
  obtain ⟨-, -, hopen, hclose, hbar, hquote, hcolon, hhash⟩ := special_of_symbolChar h
  rw [next, if_neg hopen, if_neg hclose, if_neg hbar, if_neg hquote, if_neg hcolon, if_neg hhash,
    if_neg (by simp [hdigit]), run, List.takeWhile_cons_of_pos h, List.dropWhile_cons_of_pos h,
    if_neg (by simp)]

/-- **A bare symbol.** A word of symbol characters and colons that does not start with a digit is a
symbol exactly if it has no colon and is not reserved. -/
theorem lex_bare_iff (hne : name.toList ≠ [])
    (hchars : ∀ c ∈ name.toList, isSymbolChar c = true ∨ c = ':')
    (hdigit : ∀ c, name.toList.head? = some c → c.isDigit = false) :
    lex name = some [.symbol name] ↔ ':' ∉ name.toList ∧ name ∉ reservedWords := by
  obtain ⟨c, cs, htext⟩ := List.exists_cons_of_ne_nil hne
  have hd : c.isDigit = false := hdigit c (by rw [htext]; rfl)
  rw [htext, List.forall_mem_cons] at hchars
  have hcolon : isSymbolChar ':' = false := by decide
  rcases hchars.1 with hc | rfl
  · obtain ⟨hwhite, hcomment, -⟩ := special_of_symbolChar hc
    have hnext : next _ cs = _ := next_of_symbolChar hc hd
    constructor
    · intro hlex
      obtain ⟨rest, hrest⟩ := next_of_lex htext hwhite hcomment hlex
      rw [hnext, Option.some.injEq, Prod.mk.injEq, word] at hrest
      split at hrest
      · exact nomatch hrest.1
      · next hreserved =>
        have hword : String.ofList (c :: cs.takeWhile isSymbolChar) = name := Token.symbol.inj hrest.1
        rw [hword] at hreserved
        refine ⟨fun hmem => ?_, by simpa using hreserved⟩
        rw [← hword, String.toList_ofList] at hmem
        rcases List.mem_cons.mp hmem with rfl | hmem
        · rw [hcolon] at hc
          cases hc
        · rw [List.mem_takeWhile_imp hmem] at hcolon
          cases hcolon
    · rintro ⟨hmem, hreserved⟩
      have hall : ∀ d ∈ cs, isSymbolChar d = true := by
        intro d hdmem
        rcases hchars.2 d hdmem with h | rfl
        · exact h
        · exact absurd (htext ▸ List.mem_cons_of_mem c hdmem) hmem
      rw [List.takeWhile_eq_self_iff.mpr hall, List.dropWhile_eq_nil_iff.mpr hall, ← htext,
        String.ofList_toList, word, if_neg (by simpa using hreserved)] at hnext
      exact lex_eq_singleton htext hwhite hcomment hnext
  · refine ⟨fun hlex => ?_, fun h => absurd (by rw [htext]; simp) h.1⟩
    obtain ⟨rest, hrest⟩ := next_of_lex htext (by decide) (by decide) hlex
    rw [next, if_neg (by decide), if_neg (by decide), if_neg (by decide), if_neg (by decide),
      if_pos rfl, run] at hrest
    split at hrest
    · cases hrest
    · exact nomatch (Prod.mk.inj (Option.some.inj hrest)).1

/-- **A quoted symbol.** Between bars a text without bars and backslashes is a symbol exactly if it
is made of white space and printable characters. -/
theorem lex_quoted_iff (hbar : '|' ∉ name.toList) (hbackslash : '\\' ∉ name.toList) :
    lex ("|" ++ name ++ "|") = some [.symbol name] ↔
      ∀ c ∈ name.toList, isWhite c = true ∨ isPrintable c = true := by
  have htext : ("|" ++ name ++ "|").toList = '|' :: (name.toList ++ ['|']) := by
    simp [String.toList_append]
  have hquoted : ∀ c ∈ name.toList,
      (isQuotedChar c = true ↔ isWhite c = true ∨ isPrintable c = true) := by
    intro c hc
    have h1 : c ≠ '|' := fun h => hbar (h ▸ hc)
    have h2 : c ≠ '\\' := fun h => hbackslash (h ▸ hc)
    simp [isQuotedChar, h1, h2]
  have hstop : isQuotedChar '|' = false := by decide
  constructor
  · intro hlex
    obtain ⟨rest, hrest⟩ := next_of_lex htext (by decide) (by decide) hlex
    rw [next, if_neg (by decide), if_neg (by decide), if_pos rfl, quoted] at hrest
    split at hrest
    · have hname := Token.symbol.inj (Prod.mk.inj (Option.some.inj hrest)).1
      intro c hc
      rw [← hquoted c hc]
      rw [← hname, String.toList_ofList] at hc
      exact List.mem_takeWhile_imp hc
    · cases hrest
  · intro h
    have hall : ∀ c ∈ name.toList, isQuotedChar c = true := fun c hc => (hquoted c hc).mpr (h c hc)
    refine lex_eq_singleton htext (by decide) (by decide) ?_
    rw [next, if_neg (by decide), if_neg (by decide), if_pos rfl, quoted,
      List.dropWhile_append_of_pos hall, List.takeWhile_append_of_pos hall,
      List.dropWhile_cons_of_neg (by simp [hstop]), List.takeWhile_cons_of_neg (by simp [hstop]),
      List.append_nil, String.ofList_toList]
    rfl

end SmtLexer
end Lib
