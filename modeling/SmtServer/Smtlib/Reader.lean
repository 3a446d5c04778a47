import SmtServer.Smtlib.Syntax

/-!
# Reading S-expressions

The text of a script as SMT-LIB reads it, one character at a time: what is open and what has been
read of each open list (`levels`), and what the characters since the last token mean (`mode`).
White space and parentheses end a token; between bars everything but a bar and a backslash is part
of the symbol; a semicolon starts a comment; in a string literal two quotes stand for one.

The reader is a fold over the text, so what a text adds to the list it stands in (`Reader.Adds`) can
be said of each piece on its own. A `Printed` expression carries its text and the proof that the text
is read as it: tokens are, symbols between bars are, and so is a list of printed expressions with
blanks between them.
-/

namespace SmtServer
namespace Smtlib

/-- What the next character is part of. -/
inductive Mode where
  | between
  | token (text : List Char)
  | quoted (text : List Char)
  | string (text : List Char)
  /-- After a quote in a string literal: the literal ends, or the next quote is part of it. -/
  | stringQuote (text : List Char)
  | comment
  deriving Repr, DecidableEq

/-- The open lists with what has been read of them, innermost first; the last one is the script. -/
structure Reader where
  levels : List (List SExpr)
  mode : Mode

namespace Reader

def start : Reader := ⟨[[]], .between⟩

/-- One more item of the innermost list. -/
def add (levels : List (List SExpr)) (e : SExpr) : List (List SExpr) :=
  match levels with
  | items :: outer => (items ++ [e]) :: outer
  | [] => []

/-- The token that ends here is an item. -/
def settled (r : Reader) : List (List SExpr) :=
  match r.mode with
  | .token text | .stringQuote text => add r.levels (.atom (String.ofList text))
  | _ => r.levels

def isSpace (c : Char) : Bool := c = ' ' || c = '\t' || c = '\n' || c = '\r'

/-- Characters that end a token. -/
def isDelimiter (c : Char) : Bool :=
  isSpace c || c = '(' || c = ')' || c = '|' || c = '"' || c = ';'

/-- A delimiter outside of quotes and comments. -/
def delimit (levels : List (List SExpr)) (c : Char) : Option Reader :=
  if c = '(' then some ⟨[] :: levels, .between⟩
  else if c = ')' then
    match levels with
    | items :: outer :: rest => some ⟨add (outer :: rest) (.list items), .between⟩
    | _ => none
  else if c = '|' then some ⟨levels, .quoted []⟩
  else if c = '"' then some ⟨levels, .string []⟩
  else if c = ';' then some ⟨levels, .comment⟩
  else some ⟨levels, .between⟩

def step (r : Reader) (c : Char) : Option Reader :=
  match r.mode with
  | .quoted text =>
    if c = '|' then some ⟨add r.levels (.atom (String.ofList text)), .between⟩
    else if c = '\\' then none
    else some ⟨r.levels, .quoted (text ++ [c])⟩
  | .string text =>
    if c = '"' then some ⟨r.levels, .stringQuote text⟩ else some ⟨r.levels, .string (text ++ [c])⟩
  | .comment => some ⟨r.levels, if c = '\n' then .between else .comment⟩
  | .stringQuote text =>
    if c = '"' then some ⟨r.levels, .string (text ++ [c])⟩
    else if isDelimiter c then delimit r.settled c
    else some ⟨r.settled, .token [c]⟩
  | .token text =>
    if isDelimiter c then delimit r.settled c else some ⟨r.levels, .token (text ++ [c])⟩
  | .between => if isDelimiter c then delimit r.levels c else some ⟨r.levels, .token [c]⟩

def run (r : Reader) (text : List Char) : Option Reader := text.foldlM step r

/-- At the end of the text everything is closed. -/
def finish (r : Reader) : Option (List SExpr) :=
  match r.mode, r.settled with
  | .quoted _, _ | .string _, _ => none
  | _, [items] => some items
  | _, _ => none

end Reader

/-- The S-expressions of a script. -/
def readScript (script : String) : Option (List SExpr) := do
  let r ← Reader.start.run script.toList
  r.finish

/-! ## What a text adds -/

/-- A text that is read as one token. -/
def IsToken (text : String) : Prop := text ≠ "" ∧ ∀ c ∈ text.toList, Reader.isDelimiter c = false

instance (text : String) : Decidable (IsToken text) :=
  @instDecidableAnd _ _ _ (List.decidableBAll _ _)

namespace Reader

variable {r r' : Reader} {c : Char} {text : List Char} {e : SExpr} {levels : List (List SExpr)}

theorem run_append {t u : List Char} : r.run (t ++ u) = (r.run t).bind (·.run u) := by
  rw [run, List.foldlM_append]
  rfl

theorem run_cons {t : List Char} : r.run (c :: t) = (r.step c).bind (·.run t) := rfl

/-- The characters of a token gather in it. -/
theorem run_token {t : List Char} (h : ∀ c ∈ t, isDelimiter c = false) :
    run ⟨levels, .token text⟩ t = some ⟨levels, .token (text ++ t)⟩ := by
  induction t generalizing text with
  | nil => simp [run]
  | cons c t ih =>
    have hc : isDelimiter c = false := h c List.mem_cons_self
    rw [run_cons, step]
    simp only [hc, Bool.false_eq_true, if_false, Option.bind_some]
    rw [ih fun d hd => h d (List.mem_cons_of_mem c hd)]
    simp

/-- Reading may stop here: what comes next ends the last token. -/
def Settles (r : Reader) : Prop := r.mode = .between ∨ ∃ text, r.mode = .token text

/-- The text adds the items to the innermost list. -/
def Adds (text : List Char) (items : List SExpr) : Prop :=
  ∀ done outer, ∃ r, run ⟨done :: outer, .between⟩ text = some r ∧
    r.settled = (done ++ items) :: outer ∧ r.Settles

/-- A delimiter sees a token that ends where it stands and nothing else of it. -/
theorem Settles.step (h : r.Settles) (hc : isDelimiter c = true) :
    r.step c = delimit r.settled c := by
  rcases h with h | ⟨t, h⟩ <;> simp [Reader.step, settled, h, hc]

theorem adds_nil : Adds [] [] := fun done outer =>
  ⟨⟨done :: outer, .between⟩, rfl, by simp [settled], .inl rfl⟩

/-- Texts with a blank between them. -/
theorem Adds.append {t u : List Char} {items items' : List SExpr} (ht : Adds t items)
    (hspace : isSpace c = true) (hu : Adds u items') : Adds (t ++ c :: u) (items ++ items') := by
  intro done outer
  obtain ⟨r, hrun, hsettled, hr⟩ := ht done outer
  obtain ⟨r', hrun', hsettled', hr'⟩ := hu (done ++ items) outer
  refine ⟨r', ?_, by rw [hsettled', List.append_assoc], hr'⟩
  have hdelimit : delimit ((done ++ items) :: outer) c = some ⟨(done ++ items) :: outer, .between⟩ := by
    simp only [isSpace, Bool.or_eq_true, decide_eq_true_eq] at hspace
    rcases hspace with ((rfl | rfl) | rfl) | rfl <;> rfl
  rw [run_append, hrun, Option.bind_some, run_cons, hr.step (by simp [isDelimiter, hspace]),
    hsettled, hdelimit]
  exact hrun'

theorem adds_token {text : String} (h : IsToken text) : Adds text.toList [.atom text] := by
  intro done outer
  obtain ⟨hne, htoken⟩ := h
  obtain ⟨c, cs, hcs⟩ : ∃ c cs, text.toList = c :: cs :=
    List.exists_cons_of_ne_nil fun h => hne (String.toList_eq_nil_iff.mp h)
  refine ⟨⟨done :: outer, .token text.toList⟩, ?_, ?_, .inr ⟨_, rfl⟩⟩
  · have hc : isDelimiter c = false := htoken c (by rw [hcs]; exact List.mem_cons_self)
    have hstep : step ⟨done :: outer, .between⟩ c = some ⟨done :: outer, .token [c]⟩ := by
      simp [step, hc]
    rw [hcs, run_cons, hstep, Option.bind_some,
      run_token fun d hd => htoken d (by rw [hcs]; exact List.mem_cons_of_mem c hd)]
    rfl
  · simp [settled, add]

/-- A list is read once its items have been. -/
theorem Adds.list {items : List SExpr} (h : Adds text items) :
    Adds ('(' :: text ++ [')']) [.list items] := by
  intro done outer
  obtain ⟨r, hrun, hsettled, hr⟩ := h [] (done :: outer)
  have hopen : step ⟨done :: outer, .between⟩ '(' = some ⟨[] :: done :: outer, .between⟩ := rfl
  refine ⟨⟨(done ++ [.list items]) :: outer, .between⟩, ?_, rfl, .inl rfl⟩
  rw [List.cons_append, run_cons, hopen, Option.bind_some, run_append, hrun, Option.bind_some,
    run_cons, hr.step rfl, hsettled]
  rfl

/-- Between bars stands a symbol of any characters but bars and backslashes. -/
theorem adds_quoted {text : String} (h : ∀ c ∈ text.toList, c ≠ '|' ∧ c ≠ '\\') :
    Adds ('|' :: text.toList ++ ['|']) [.atom text] := by
  have hrun : ∀ (levels : List (List SExpr)) (t u : List Char),
      (∀ c ∈ u, c ≠ '|' ∧ c ≠ '\\') →
      run ⟨levels, .quoted t⟩ u = some ⟨levels, .quoted (t ++ u)⟩ := by
    intro levels t u
    induction u generalizing t with
    | nil =>
      intro _
      simp [run]
    | cons c u ih =>
      intro hu
      obtain ⟨hbar, hslash⟩ := hu c List.mem_cons_self
      have hstep : step ⟨levels, .quoted t⟩ c = some ⟨levels, .quoted (t ++ [c])⟩ := by
        simp [step, hbar, hslash]
      rw [run_cons, hstep, Option.bind_some, ih _ fun d hd => hu d (List.mem_cons_of_mem c hd)]
      simp
  intro done outer
  refine ⟨⟨(done ++ [.atom text]) :: outer, .between⟩, ?_, rfl, .inl rfl⟩
  have hopen : step ⟨done :: outer, .between⟩ '|' = some ⟨done :: outer, .quoted []⟩ := rfl
  rw [List.cons_append, run_cons, hopen, Option.bind_some, run_append, hrun _ _ _ h,
    Option.bind_some, run_cons]
  simp [step, add, run]

end Reader

/-- A whole script. -/
theorem readScript_of_adds {script : String} {items : List SExpr}
    (h : Reader.Adds script.toList items) : readScript script = some items := by
  obtain ⟨r, hrun, hsettled, hr⟩ := h [] []
  have hstart : Reader.start = ⟨[[]], .between⟩ := rfl
  have hfinish : r.finish = some items := by
    rcases hr with h | ⟨t, h⟩ <;> simp only [Reader.finish, h, hsettled, List.nil_append]
  rw [readScript, hstart, hrun]
  exact hfinish

/-! ## Printed expressions -/

/-- A text together with the expression it is read as. -/
structure Printed where
  text : List Char
  expr : SExpr
  adds : Reader.Adds text [expr]

/-- Texts with one blank between them. -/
def spaced : List (List Char) → List Char
  | [] => []
  | [text] => text
  | text :: rest => text ++ ' ' :: spaced rest

theorem adds_spaced : ∀ items : List Printed,
    Reader.Adds (spaced (items.map (·.text))) (items.map (·.expr))
  | [] => Reader.adds_nil
  | [e] => e.adds
  | e :: f :: rest => e.adds.append rfl (adds_spaced (f :: rest))

namespace Printed

def token (text : String) (h : IsToken text) : Printed :=
  ⟨text.toList, .atom text, Reader.adds_token h⟩

def list (items : List Printed) : Printed where
  text := '(' :: spaced (items.map (·.text)) ++ [')']
  expr := .list (items.map (·.expr))
  adds := (adds_spaced items).list

end Printed

end Smtlib
end SmtServer
