import SmtServer.Lib.Levels
import SmtServer.Smtlib.Legible
import SmtServer.Smtlib.Script

/-!
# What a script asks

The meaning of a script as SMT-LIB has it, command by command: an assertion belongs to the innermost
open level, `pop` drops levels, a check is made of what is in force at that moment under its own
assumptions, and nothing after `exit` is a check (`ScriptState.step`).

The frontend does not answer a check but the whole script. What a correct sink holds at the end is
what is in force at the *end* of the script, together with the assumptions of *all* its checks
(`script_is_answered_for_its_end`). `get-value` leaves extra assertions, which always hold.
-/

namespace SmtServer
namespace Smtlib

open Lib Grow Outcome
open Lib.Smt (Value)

/-! ## The reference -/

/-- An assertion, or the trace a `get-value` leaves. -/
structure Entry where
  meaning : Meaning
  name : Option String
  asserted : Bool

/-- A check: what was in force, and the assumptions that came with it. -/
structure Check where
  inForce : List Meaning
  assumptions : List Meaning

structure ScriptState where
  constants : NameMap Meaning
  functions : NameMap FunctionBinding
  /-- The levels of the assertion stack, innermost first. -/
  levels : List (List Entry)
  /-- The assumptions of all checks. -/
  assumptions : List Meaning
  /-- The last check before any `exit`. -/
  lastCheck : Option Check
  exited : Bool

namespace ScriptState

def start : ScriptState := ⟨[], [], [[]], [], none, false⟩

/-- What the assertion commands have put in force, outermost level first. -/
def inForce (A : ScriptState) : List Meaning :=
  ((Levels.items A.levels).filter (·.asserted)).map (·.meaning)

/-- The value of a term, read with the constants and functions there are. -/
def meaningOf (A : ScriptState) (depth : Nat) (e : SExpr) : Meaning := fun ρ =>
  (frontendValue A.constants [] A.functions depth e ρ).getD (.bool false)

def bind (A : ScriptState) (name : String) (x : Meaning) : ScriptState :=
  { A with constants := (name, x) :: A.constants }

def record (A : ScriptState) (entry : Entry) : ScriptState :=
  { A with levels := Levels.add entry A.levels }

def assert (A : ScriptState) (depth : Nat) (e : SExpr) : ScriptState :=
  match assertParts e with
  | .ok (term, name) => A.record ⟨A.meaningOf depth term, name, true⟩
  | _ => A

def check (A : ScriptState) (own : List Meaning) : ScriptState :=
  { A with
    assumptions := A.assumptions ++ own
    lastCheck := if A.exited then A.lastCheck else some ⟨A.inForce, own⟩ }

/-- `(push n)` and `(pop n)`; without a number, one level. -/
def levelsOf : List SExpr → Nat
  | [_] => 1
  | [_, .atom level] => (parseU32 level).getD 0
  | _ => 0

def push (A : ScriptState) (n : Nat) : ScriptState :=
  { A with levels := List.replicate n [] ++ A.levels }

def pop (A : ScriptState) (n : Nat) : ScriptState := { A with levels := A.levels.drop n }

def declare (A : ScriptState) (name : String) (sort : SExpr) : ScriptState :=
  match parseSort sort with
  | .ok sort => A.bind name fun ρ => ρ.value name sort
  | _ => A

def define (A : ScriptState) (depth : Nat) (name : String) (params sort body : SExpr) :
    ScriptState :=
  match parseFunctionParams params, parseSort sort with
  | .ok [], _ => A.bind name (A.meaningOf depth body)
  | .ok params, .ok result => { A with functions := (name, ⟨params, result, body⟩) :: A.functions }
  | _, _ => A

/-- One command; what is not one leaves the state alone. -/
def step (depth : Nat) (A : ScriptState) : SExpr → ScriptState
  | .list [.atom "assert", e] => A.assert depth e
  | .list (.atom "push" :: args) => A.push (levelsOf (.atom "push" :: args))
  | .list (.atom "pop" :: args) => A.pop (levelsOf (.atom "pop" :: args))
  | .list [.atom "declare-const", .atom name, sort] => A.declare name sort
  | .list [.atom "declare-fun", .atom name, _, sort] => A.declare name sort
  | .list [.atom "define-const", .atom name, _, body] => A.bind name (A.meaningOf depth body)
  | .list [.atom "define-fun", .atom name, params, sort, body] =>
    A.define depth name params sort body
  | .list [.atom "check-sat"] => A.check []
  | .list [.atom "check-sat-assuming", .list items] => A.check (items.map (A.meaningOf depth))
  | .list [.atom "get-value", .list terms] =>
    terms.foldl (fun A _ => A.record ⟨fun _ => .bool true, none, false⟩) A
  | .list (.atom "exit" :: _) => { A with exited := true }
  | _ => A

end ScriptState

/-! ## The sink's side -/

/-- What a sink holds besides its nodes; the marks of open scopes, innermost first. -/
structure StackView (N : Type) where
  assertions : List (N × Option String)
  assumptions : List N
  scopes : List Nat

section

variable {S N : Type} [Preorder S] (Inv : S → Prop) (Denotes : S → N → Meaning → Prop)
  (view : S → StackView N)

/-- A correct sink that keeps assertions, assumptions and scopes: building a term leaves them
alone, and `pop` truncates. -/
structure Sink.Stacked (sink : Sink S N) : Prop where
  terms : ∀ v, sink.Correct (fun s => Inv s ∧ view s = v) Denotes
  mono : ∀ {s s' n x}, Inv s → Inv s' → s ≤ s' → Denotes s n x → Denotes s' n x
  assert : ∀ {s n x name}, Inv s → Denotes s n x → HasSort x .bool →
    Returns (sink.assert n name) s fun _ s' => Inv s' ∧
      view s' = { view s with assertions := (view s).assertions ++ [(n, name)] }
  assume : ∀ {s n x}, Inv s → Denotes s n x → HasSort x .bool →
    Returns (sink.assume n) s fun _ s' => Inv s' ∧
      view s' = { view s with assumptions := (view s).assumptions ++ [n] }
  push : ∀ {s}, Inv s → Returns sink.push s fun _ s' => Inv s' ∧
    view s' = { view s with scopes := (view s).assertions.length :: (view s).scopes }
  pop : ∀ {s}, Inv s → Returns sink.pop s fun _ s' => Inv s' ∧ ∃ mark marks,
    (view s).scopes = mark :: marks ∧
    view s' = { view s with assertions := (view s).assertions.take mark, scopes := marks }

/-- The lowerer and the sink stand where the reference stands. -/
structure Tracks (s : S) (st : ScriptLowerer N) (A : ScriptState) : Prop where
  inv : Inv s
  env : ScopeMeans Denotes s st.tables.env A.constants
  functions : st.tables.functions = A.functions
  assertions : List.Forall₂ (fun a e => a.2 = e.name ∧ Denotes s a.1 e.meaning)
    (view s).assertions (Levels.items A.levels)
  levels : Levels.Represents (Levels.items A.levels) (view s).scopes A.levels
  asked : ∀ e ∈ Levels.items A.levels, e.asserted = false → ∀ ρ, e.meaning ρ = .bool true
  assumptions : List.Forall₂ (Denotes s) (view s).assumptions A.assumptions

end

section

variable {S N : Type} [Preorder S] {Inv : S → Prop} {Denotes : S → N → Meaning → Prop}
  {view : S → StackView N} {sink : Sink S N} {s s' : S} {st st' : ScriptLowerer N}
  {A : ScriptState} {own : List Meaning} {options : FrontendOptions} {depth : Nat}

/-! Nodes go on denoting what they denote, whatever happens to the stack. -/

theorem Tracks.env_mono (hsink : sink.Stacked Inv Denotes view)
    (h : Tracks Inv Denotes view s st A) (hs' : Inv s') (hle : s ≤ s') :
    ScopeMeans Denotes s' st.tables.env A.constants :=
  h.env.imp fun _ _ hx => ⟨hx.1, hsink.mono h.inv hs' hle hx.2.denotes, hx.2.sort⟩

theorem Tracks.assertions_mono (hsink : sink.Stacked Inv Denotes view)
    (h : Tracks Inv Denotes view s st A) (hs' : Inv s') (hle : s ≤ s') :
    List.Forall₂ (fun a e => a.2 = e.name ∧ Denotes s' a.1 e.meaning) (view s).assertions
      (Levels.items A.levels) :=
  h.assertions.imp fun _ _ ha => ⟨ha.1, hsink.mono h.inv hs' hle ha.2⟩

theorem Tracks.assumptions_mono (hsink : sink.Stacked Inv Denotes view)
    (h : Tracks Inv Denotes view s st A) (hs' : Inv s') (hle : s ≤ s') :
    List.Forall₂ (Denotes s') (view s).assumptions A.assumptions :=
  h.assumptions.imp fun _ _ hn => hsink.mono h.inv hs' hle hn

/-- Building terms keeps the two in step. -/
theorem Tracks.mono (hsink : sink.Stacked Inv Denotes view) (h : Tracks Inv Denotes view s st A)
    (hs' : Inv s') (hle : s ≤ s') (hview : view s' = view s) :
    Tracks Inv Denotes view s' st A where
  inv := hs'
  env := h.env_mono hsink hs' hle
  functions := h.functions
  assertions := hview ▸ h.assertions_mono hsink hs' hle
  levels := hview ▸ h.levels
  asked := h.asked
  assumptions := hview ▸ h.assumptions_mono hsink hs' hle

/-- Lowering a term at the top level. -/
theorem topExpr_run (hsink : sink.Stacked Inv Denotes view) (h : Tracks Inv Denotes view s st A)
    (e : SExpr) :
    Returns (topExpr sink options st e) s fun b s' => Tracks Inv Denotes view s' st A ∧
      Means Denotes s' b (A.meaningOf options.maxMacroExpansionDepth e) := by
  have hinv : Inv s ∧ view s = view s := ⟨h.inv, rfl⟩
  refine (lowers (hsink.terms (view s)) options.maxMacroExpansionDepth e hinv h.env .nil s
    (le_refl s) hinv).mono ?_
  rintro b s' hle ⟨⟨hs', hview⟩, x, hx, hv⟩
  refine ⟨h.mono hsink hs' hle hview, ?_⟩
  have hmeaning : A.meaningOf options.maxMacroExpansionDepth e = x := by
    funext ρ
    rw [ScriptState.meaningOf, ← h.functions, hv ρ, Option.getD_some]
  rwa [hmeaning]

/-- A new assertion, or the trace of a `get-value`. -/
theorem assert_run (hsink : sink.Stacked Inv Denotes view) (h : Tracks Inv Denotes view s st A)
    {n : N} {entry : Entry} (hn : Denotes s n entry.meaning) (hsort : HasSort entry.meaning .bool)
    (hasked : entry.asserted = false → ∀ ρ, entry.meaning ρ = .bool true) :
    Returns (sinkResult (sink.assert n entry.name)) s fun _ s' =>
      Tracks Inv Denotes view s' st (A.record entry) := by
  refine (hsink.assert h.inv hn hsort).mapErr.mono ?_
  rintro - s' hle ⟨hs', hview⟩
  have hlevels := h.levels.add entry
  have hitems := hlevels.eq_items
  have henv := h.env_mono hsink hs' hle
  have hassertions := h.assertions_mono hsink hs' hle
  have hassumptions := h.assumptions_mono hsink hs' hle
  refine ⟨hs', henv, h.functions, ?_, ?_, ?_, ?_⟩
  · rw [hview, ScriptState.record, ← hitems]
    exact List.rel_append hassertions
      (.cons ⟨rfl, hsink.mono h.inv hs' hle hn⟩ .nil)
  · rw [hview, ScriptState.record, ← hitems]
    exact hlevels
  · intro e he
    rw [ScriptState.record, ← hitems, List.mem_append, List.mem_singleton] at he
    rcases he with he | rfl
    · exact h.asked e he
    · exact hasked
  · rw [hview]
    exact hassumptions

theorem assume_run (hsink : sink.Stacked Inv Denotes view) (h : Tracks Inv Denotes view s st A)
    {n : N} {x : Meaning} (hn : Denotes s n x) (hsort : HasSort x .bool) :
    Returns (sinkResult (sink.assume n)) s fun _ s' =>
      Tracks Inv Denotes view s' st { A with assumptions := A.assumptions ++ [x] } := by
  refine (hsink.assume h.inv hn hsort).mapErr.mono ?_
  rintro - s' hle ⟨hs', hview⟩
  have henv := h.env_mono hsink hs' hle
  have hassertions := h.assertions_mono hsink hs' hle
  have hassumptions := h.assumptions_mono hsink hs' hle
  refine ⟨hs', henv, h.functions, ?_, ?_, h.asked, ?_⟩
  · rw [hview]
    exact hassertions
  · rw [hview]
    exact h.levels
  · rw [hview]
    exact List.rel_append hassumptions
      (.cons (hsink.mono h.inv hs' hle hn) .nil)

theorem push_run (hsink : sink.Stacked Inv Denotes view) (h : Tracks Inv Denotes view s st A) :
    Returns (sinkResult sink.push) s fun _ s' => Tracks Inv Denotes view s' st (A.push 1) := by
  refine (hsink.push h.inv).mapErr.mono ?_
  rintro - s' hle ⟨hs', hview⟩
  have hitems : Levels.items (A.push 1).levels = Levels.items A.levels := by
    simp [ScriptState.push, Levels.items]
  have henv := h.env_mono hsink hs' hle
  have hassertions := h.assertions_mono hsink hs' hle
  have hassumptions := h.assumptions_mono hsink hs' hle
  refine ⟨hs', henv, h.functions, ?_, ?_, ?_, ?_⟩
  · rw [hview, hitems]
    exact hassertions
  · rw [hview, hitems, h.assertions.length_eq]
    exact h.levels.push
  · rw [hitems]
    exact h.asked
  · rw [hview]
    exact hassumptions

theorem pop_run (hsink : sink.Stacked Inv Denotes view) (h : Tracks Inv Denotes view s st A) :
    Returns (sinkResult sink.pop) s fun _ s' => Tracks Inv Denotes view s' st (A.pop 1) := by
  refine (hsink.pop h.inv).mapErr.mono ?_
  rintro - s' hle ⟨hs', mark, marks, hscopes, hview⟩
  have hlevels := h.levels
  rw [hscopes] at hlevels
  have hpop := hlevels.pop
  have hitems : (Levels.items A.levels).take mark = Levels.items (A.pop 1).levels := by
    rw [hpop.eq_items, ScriptState.pop, List.drop_one]
  have henv := h.env_mono hsink hs' hle
  have hassertions := h.assertions_mono hsink hs' hle
  have hassumptions := h.assumptions_mono hsink hs' hle
  refine ⟨hs', henv, h.functions, ?_, ?_, ?_, ?_⟩
  · rw [hview, ← hitems]
    exact List.forall₂_take mark hassertions
  · rw [hview, ← hitems, ScriptState.pop, List.drop_one]
    exact hpop
  · rw [← hitems]
    exact fun e he => h.asked e (List.mem_of_mem_take he)
  · rw [hview]
    exact hassumptions

/-! ## Commands -/

/-- A loop over expressions keeps in step if each round does. -/
theorem returns_foldlM {f : ScriptLowerer N → SExpr → LowerM S (ScriptLowerer N)}
    (next : ScriptState → SExpr → ScriptState)
    (hf : ∀ {s st A}, Tracks Inv Denotes view s st A → ∀ e, Returns (f st e) s fun st' s' =>
      Tracks Inv Denotes view s' st' (next A e))
    (exprs : List SExpr) (h : Tracks Inv Denotes view s st A) :
    Returns (exprs.foldlM f st) s fun st' s' =>
      Tracks Inv Denotes view s' st' (exprs.foldl next A) := by
  induction exprs generalizing s st A with
  | nil => exact returns_pure h
  | cons e exprs ih =>
    rw [List.foldlM_cons]
    exact (hf h e).bind fun st₁ s₁ _ h₁ => ih h₁

omit [Preorder S] in
theorem Tracks.bind (h : Tracks Inv Denotes view s st A) {name : String} {e : LoweredExpr N}
    {x : Meaning} (hx : Means Denotes s e x) :
    Tracks Inv Denotes view s (st.bind name e) (A.bind name x) :=
  ⟨h.inv, .cons ⟨rfl, hx⟩ h.env, h.functions, h.assertions, h.levels, h.asked, h.assumptions⟩

omit [Preorder S] in
/-- The flags and the declared symbols do not matter. -/
theorem Tracks.of_tables (h : Tracks Inv Denotes view s st A)
    (ht : st'.tables = st.tables) : Tracks Inv Denotes view s st' A := by
  refine ⟨h.inv, ?_, ?_, h.assertions, h.levels, h.asked, h.assumptions⟩
  · rw [ht]
    exact h.env
  · rw [ht]
    exact h.functions

theorem repeat_push_run (hsink : sink.Stacked Inv Denotes view) (n : Nat)
    (h : Tracks Inv Denotes view s st A) :
    Returns (repeatOp sink.push n) s fun _ s' => Tracks Inv Denotes view s' st (A.push n) := by
  induction n generalizing s A with
  | zero => exact returns_pure h
  | succ n ih =>
    refine (push_run hsink h).bind fun _ s₁ _ h₁ => (ih h₁).mono ?_
    rintro - s' - h'
    have hpush : (A.push 1).push n = A.push (n + 1) := by
      simp [ScriptState.push, List.replicate_succ']
    rwa [← hpush]

theorem repeat_pop_run (hsink : sink.Stacked Inv Denotes view) (n : Nat)
    (h : Tracks Inv Denotes view s st A) :
    Returns (repeatOp sink.pop n) s fun _ s' => Tracks Inv Denotes view s' st (A.pop n) := by
  induction n generalizing s A with
  | zero => exact returns_pure h
  | succ n ih =>
    refine (pop_run hsink h).bind fun _ s₁ _ h₁ => (ih h₁).mono ?_
    rintro - s' - h'
    have hpop : (A.pop 1).pop n = A.pop (n + 1) := by
      rw [ScriptState.pop, ScriptState.pop, ScriptState.pop, List.drop_drop, Nat.add_comm]
    rwa [← hpop]

theorem scopeCommand_run {op : SinkM S Unit} {name : String} {list : List SExpr}
    {next : ScriptState → Nat → ScriptState}
    (hop : ∀ n, Returns (repeatOp op n) s fun _ s' => Tracks Inv Denotes view s' st (next A n)) :
    Returns (scopeCommand options op name st list) s fun st' s' =>
      Tracks Inv Denotes view s' st' (next A (ScriptState.levelsOf list)) := by
  refine returns_lift_bind fun n hn => ?_
  have hlevels : ScriptState.levelsOf list = n := by
    match list, hn with
    | [_], hn => exact Outcome.ok.inj hn
    | [_, level], hn =>
      obtain ⟨text, rfl, htext⟩ := parseU32Atom_eq_ok hn
      rw [ScriptState.levelsOf, htext, Option.getD_some]
  cases options.incrementalPolicy with
  | rejectPushPop => exact returns_invalid
  | simulatePushPop =>
    rw [hlevels]
    exact (hop n).bind fun _ s' _ h' => returns_pure h'

theorem declareNamed_run (hsink : sink.Stacked Inv Denotes view)
    (h : Tracks Inv Denotes view s st A) {name : String} {sort : SExpr} :
    Returns (declareNamed sink st (.atom name) sort) s fun st' s' =>
      Tracks Inv Denotes view s' st' (A.declare name sort) := by
  refine returns_lift_bind fun text htext => ?_
  obtain rfl : name = text := by simpa [atom] using htext
  refine returns_lift_bind fun σ hσ => ?_
  have hcorrect := hsink.terms (view s)
  have hdeclare : A.declare name sort = A.bind name fun ρ => ρ.value name σ := by
    rw [ScriptState.declare, hσ]
  -- both kinds of variable end the same way
  have close : ∀ {m : SinkM S N}, Gives (fun s' => Inv s' ∧ view s' = view s) Denotes m
      (fun ρ => ρ.value name σ) s → Returns (sinkResult m >>= fun node => (pure
        { st.bind name ⟨node, σ⟩ with declaredSymbols := (name, σ) :: st.declaredSymbols } :
          LowerM S (ScriptLowerer N))) s fun st' s' =>
        Tracks Inv Denotes view s' st' (A.declare name sort) := by
    intro m hm
    refine hm.step ⟨h.inv, rfl⟩ fun n s₁ hle hs hn => returns_pure ?_
    obtain ⟨hs₁, hview⟩ := hs
    have hx : Means Denotes s₁ ⟨n, σ⟩ fun ρ => ρ.value name σ := ⟨hn, fun ρ => ρ.sorted _ _⟩
    rw [hdeclare]
    exact ((h.mono hsink hs₁ hle hview).bind hx).of_tables rfl
  cases σ with
  | bool => exact close hcorrect.boolVar
  | bv w =>
    obtain ⟨hw, hw'⟩ := parseSort_width hσ
    exact close (hcorrect.bvVar hw hw')

theorem defineNamed_run (hsink : sink.Stacked Inv Denotes view)
    (h : Tracks Inv Denotes view s st A) {name : String} {sort body : SExpr} :
    Returns (defineNamed sink options st (.atom name) sort body) s fun st' s' =>
      Tracks Inv Denotes view s' st'
        (A.bind name (A.meaningOf options.maxMacroExpansionDepth body)) := by
  refine returns_lift_bind fun text htext => ?_
  obtain rfl : name = text := by simpa [atom] using htext
  refine returns_lift_bind fun σ _ => ?_
  refine (topExpr_run hsink h body).bind fun b s₁ _ hmeans => ?_
  obtain ⟨h₁, hb⟩ := hmeans
  exact returns_lowerSort_bind fun _ => returns_pure (h₁.bind hb)

theorem assumeAll_run (hsink : sink.Stacked Inv Denotes view) (items : List SExpr)
    (h : Tracks Inv Denotes view s st A) :
    Returns (assumeAll sink options st items) s fun _ s' => Tracks Inv Denotes view s' st
      { A with assumptions :=
          A.assumptions ++ items.map (A.meaningOf options.maxMacroExpansionDepth) } := by
  induction items generalizing s A with
  | nil =>
    refine returns_pure ?_
    simpa using h
  | cons item items ih =>
    refine (topExpr_run hsink h item).bind fun b s₁ _ ⟨h₁, hb⟩ => ?_
    refine returns_lowerSort_bind fun hsort => ?_
    refine (assume_run hsink h₁ hb.denotes (hsort ▸ hb.sort)).bind fun _ s₂ _ h₂ => ?_
    refine (ih h₂).mono ?_
    rintro - s' - h'
    rw [List.map_cons, List.append_cons]
    exact h'

theorem declareConst_run (hsink : sink.Stacked Inv Denotes view)
    (h : Tracks Inv Denotes view s st A) (args : List SExpr) :
    Returns (declareConst sink st (.atom "declare-const" :: args)) s fun st' s' =>
      Tracks Inv Denotes view s' st' (A.step depth (.list (.atom "declare-const" :: args))) := by
  match args with
  | [.atom name, sort] => exact declareNamed_run hsink h
  | [.list _, _] => exact returns_fail
  | [] | [_] | _ :: _ :: _ :: _ => exact returns_fail

theorem declareFun_run (hsink : sink.Stacked Inv Denotes view)
    (h : Tracks Inv Denotes view s st A) (args : List SExpr) :
    Returns (declareFun sink st (.atom "declare-fun" :: args)) s fun st' s' =>
      Tracks Inv Denotes view s' st' (A.step depth (.list (.atom "declare-fun" :: args))) := by
  match args with
  | [.atom name, .list [], sort] => exact declareNamed_run hsink h
  | [.list _, .list [], _] => exact returns_fail
  | [_, .atom _, _] | [_, .list (_ :: _), _] => exact returns_fail
  | [] | [_] | [_, .atom _] | [_, .list []] | [_, .list (_ :: _)] => exact returns_fail
  | _ :: .atom _ :: _ :: _ :: _ | _ :: .list [] :: _ :: _ :: _
  | _ :: .list (_ :: _) :: _ :: _ :: _ => exact returns_fail

theorem defineConst_run (hsink : sink.Stacked Inv Denotes view)
    (h : Tracks Inv Denotes view s st A) (args : List SExpr) :
    Returns (defineConst sink options st (.atom "define-const" :: args)) s fun st' s' =>
      Tracks Inv Denotes view s' st'
        (A.step options.maxMacroExpansionDepth (.list (.atom "define-const" :: args))) := by
  match args with
  | [.atom name, sort, body] => exact defineNamed_run hsink h
  | [.list _, _, _] => exact returns_fail
  | [] | [_] | [_, _] | _ :: _ :: _ :: _ :: _ => exact returns_fail

theorem defineFun_run (hsink : sink.Stacked Inv Denotes view)
    (h : Tracks Inv Denotes view s st A) (args : List SExpr) :
    Returns (defineFun sink options st (.atom "define-fun" :: args)) s fun st' s' =>
      Tracks Inv Denotes view s' st'
        (A.step options.maxMacroExpansionDepth (.list (.atom "define-fun" :: args))) := by
  match args with
  | [.atom name, params, sort, body] =>
    show Returns _ s fun st' s' => Tracks Inv Denotes view s' st' (A.define _ name params sort body)
    refine returns_lift_bind fun text htext => ?_
    obtain rfl : name = text := by simpa [atom] using htext
    refine returns_lift_bind fun ps hps => ?_
    rw [ScriptState.define, hps]
    cases ps with
    | nil => exact defineNamed_run hsink h
    | cons p ps =>
      refine returns_lift_bind fun result hresult => returns_pure ?_
      rw [hresult]
      have hfunctions := congrArg ((name, FunctionBinding.mk (p :: ps) result body) :: ·) h.functions
      exact ⟨h.inv, h.env, hfunctions, h.assertions, h.levels, h.asked, h.assumptions⟩
  | [.list _, _, _, _] => exact returns_fail
  | [] | [_] | [_, _] | [_, _, _] | _ :: _ :: _ :: _ :: _ :: _ => exact returns_fail

theorem assertCommand_run (hsink : sink.Stacked Inv Denotes view)
    (h : Tracks Inv Denotes view s st A) (args : List SExpr) :
    Returns (assertCommand sink options st (.atom "assert" :: args)) s fun st' s' =>
      Tracks Inv Denotes view s' st'
        (A.step options.maxMacroExpansionDepth (.list (.atom "assert" :: args))) := by
  match args with
  | [e] =>
    show Returns _ s fun st' s' => Tracks Inv Denotes view s' st' (A.assert _ e)
    refine returns_lift_bind fun parts hparts => ?_
    refine (topExpr_run hsink h parts.1).bind fun b s₁ _ ⟨h₁, hb⟩ => ?_
    refine returns_lowerSort_bind fun hsort => ?_
    rw [ScriptState.assert, hparts]
    have hrun := @assert_run _ _ _ _ _ _ _ _ _ _ hsink h₁ b.node
      ⟨A.meaningOf options.maxMacroExpansionDepth parts.1, parts.2, true⟩ hb.denotes
      (hsort ▸ hb.sort) fun hfalse => Bool.noConfusion hfalse
    exact hrun.bind fun _ _ _ h₂ => returns_pure h₂
  | [] | _ :: _ :: _ => exact returns_fail

omit [Preorder S] in
theorem Tracks.check
    (h : Tracks Inv Denotes view s st { A with assumptions := A.assumptions ++ own })
    (ht : st'.tables = st.tables) : Tracks Inv Denotes view s st' (A.check own) := by
  have h' := h.of_tables ht
  exact ⟨h'.inv, h'.env, h'.functions, h'.assertions, h'.levels, h'.asked, h'.assumptions⟩

theorem checkSatAssuming_run (hsink : sink.Stacked Inv Denotes view)
    (h : Tracks Inv Denotes view s st A) (args : List SExpr) :
    Returns (checkSatAssuming sink options st (.atom "check-sat-assuming" :: args)) s
      fun st' s' => Tracks Inv Denotes view s' st'
        (A.step options.maxMacroExpansionDepth (.list (.atom "check-sat-assuming" :: args))) := by
  match args with
  | [.list items] =>
    exact (assumeAll_run hsink items h).bind fun _ s' _ h' => returns_pure (h'.check rfl)
  | [.atom _] => exact returns_fail
  | [] | .atom _ :: _ :: _ | .list _ :: _ :: _ => exact returns_fail

/-- What `get-value` asserts of a symbol holds, whatever the symbol is. -/
theorem getValueStep_run (hsink : sink.Stacked Inv Denotes view)
    (h : Tracks Inv Denotes view s st A) (e : SExpr) :
    Returns (getValueStep sink st e) s fun st' s' =>
      Tracks Inv Denotes view s' st' (A.record ⟨fun _ => .bool true, none, false⟩) := by
  match e with
  | .list _ => exact returns_fail
  | .atom name =>
    rw [getValueStep]
    split
    · exact returns_fail
    refine returns_lift_bind fun b hb => ?_
    have hlookup : st.tables.env.lookup name = some b := Outcome.ofOption_eq_ok.mp hb
    rcases lookup_forall₂ h.env name with ⟨hnone, -⟩ | ⟨b', x, hsome, -, hx⟩
    · simp [hlookup] at hnone
    obtain rfl : b = b' := by simpa [hlookup] using hsome
    refine (equalityNode_run (hsink.terms (view s)) ⟨h.inv, rfl⟩ hx hx).bind ?_
    rintro n s₁ hle ⟨⟨hs₁, hview⟩, -, hn⟩
    simp only [decide_true] at hn
    have hrun := @assert_run _ _ _ _ _ _ _ _ _ _ hsink (h.mono hsink hs₁ hle hview) n
      ⟨fun _ => .bool true, none, false⟩ hn (fun _ => rfl) fun _ _ => rfl
    exact hrun.bind fun _ _ _ h₂ => returns_pure (h₂.of_tables rfl)

theorem getValueCommand_run (hsink : sink.Stacked Inv Denotes view)
    (h : Tracks Inv Denotes view s st A) (args : List SExpr) :
    Returns (getValueCommand sink st (.atom "get-value" :: args)) s fun st' s' =>
      Tracks Inv Denotes view s' st' (A.step depth (.list (.atom "get-value" :: args))) := by
  match args with
  | [.list terms] =>
    refine returns_foldlM (fun A _ => A.record ⟨fun _ => .bool true, none, false⟩)
      (fun h₁ e => getValueStep_run hsink h₁ e) terms (h.of_tables rfl)
  | [.atom _] => exact returns_fail
  | [] | .atom _ :: _ :: _ | .list _ :: _ :: _ => exact returns_fail

theorem flagCommand_run {name : String} {list : List SExpr} (ht : st'.tables = st.tables)
    (h : list.length = 1 → Tracks Inv Denotes view s st A) :
    Returns (flagCommand name st' list : LowerM S (ScriptLowerer N)) s fun st' s' =>
      Tracks Inv Denotes view s' st' A :=
  returns_ite (fun hlen => returns_pure ((h hlen).of_tables ht)) fun _ => returns_fail

theorem setLogic_run (h : Tracks Inv Denotes view s st A) (args : List SExpr) :
    Returns (setLogic options st (.atom "set-logic" :: args) : LowerM S (ScriptLowerer N)) s
      fun st' s' => Tracks Inv Denotes view s' st'
        (A.step depth (.list (.atom "set-logic" :: args))) := by
  match args with
  | [logic] =>
    refine returns_lift_bind fun text _ => ?_
    exact returns_ite (fun _ => returns_pure h) fun _ => returns_fail
  | [] | _ :: _ :: _ => exact returns_fail

/-- Every command that is accepted keeps the two in step. -/
theorem namedCommand_run (hsink : sink.Stacked Inv Denotes view)
    (h : Tracks Inv Denotes view s st A) (cmd : String) (args : List SExpr) :
    Returns (namedCommand sink options cmd st (.atom cmd :: args)) s fun st' s' =>
      Tracks Inv Denotes view s' st'
        (A.step options.maxMacroExpansionDepth (.list (.atom cmd :: args))) := by
  unfold namedCommand
  split
  · exact setLogic_run h args
  · exact returns_pure h
  · exact returns_pure h
  · exact returns_pure h
  · exact returns_pure ⟨h.inv, h.env, h.functions, h.assertions, h.levels, h.asked, h.assumptions⟩
  · exact scopeCommand_run fun n => repeat_push_run hsink n h
  · exact scopeCommand_run fun n => repeat_pop_run hsink n h
  · exact returns_fail
  · exact returns_fail
  · exact declareConst_run hsink h args
  · exact declareFun_run hsink h args
  · exact defineConst_run hsink h args
  · exact defineFun_run hsink h args
  · exact assertCommand_run hsink h args
  · refine @flagCommand_run _ _ _ _ _ _ _ st _ _ _ _ rfl fun hlen => ?_
    obtain rfl : args = [] := by simpa using hlen
    refine Tracks.check ?_ rfl
    simpa using h
  · exact checkSatAssuming_run hsink h args
  · exact @flagCommand_run _ _ _ _ _ _ _ st _ _ _ _ rfl fun _ => h
  · exact getValueCommand_run hsink h args
  · exact @flagCommand_run _ _ _ _ _ _ _ st _ _ _ _ rfl fun _ => h
  · exact returns_fail

theorem command_run (hsink : sink.Stacked Inv Denotes view)
    (h : Tracks Inv Denotes view s st A) (e : SExpr) :
    Returns (command sink options st e) s fun st' s' =>
      Tracks Inv Denotes view s' st' (A.step options.maxMacroExpansionDepth e) := by
  match e with
  | .atom _ => exact returns_fail
  | .list [] => exact returns_pure h
  | .list (.list _ :: _) => exact returns_fail
  | .list (.atom cmd :: args) => exact namedCommand_run hsink h cmd args

/-- A script that is accepted ends where the reference ends. -/
theorem lowerScript_run (hsink : sink.Stacked Inv Denotes view) (hs : Inv s)
    (hview : view s = ⟨[], [], []⟩) (exprs : List SExpr) :
    Returns (lowerScript sink options exprs) s fun _ s' => ∃ st,
      Tracks Inv Denotes view s' st
        (exprs.foldl (ScriptState.step options.maxMacroExpansionDepth) .start) := by
  have hstart : Tracks Inv Denotes view s .new .start := by
    refine ⟨hs, .nil, rfl, ?_, ?_, nofun, ?_⟩
    · rw [hview]
      exact .nil
    · rw [hview]
      exact Levels.represents_nil
    · rw [hview]
      exact .nil
  refine (returns_foldlM _ (fun h e => command_run hsink h e) exprs hstart).bind ?_
  intro st s' _ h'
  exact returns_ite (fun _ => returns_fail) fun _ => returns_pure ⟨st, h'⟩

/-! ## The answer -/

/-- All of them hold. -/
def Holds (ρ : Assignment) (xs : List Meaning) : Prop := ∀ x ∈ xs, x ρ = .bool true

def Satisfiable (xs : List Meaning) : Prop := ∃ ρ, Holds ρ xs

/-- The assertions of a sink are `xs`, its assumptions `ys`. -/
def Leaves (Denotes : S → N → Meaning → Prop) (s : S) (v : StackView N) (xs ys : List Meaning) :
    Prop :=
  List.Forall₂ (fun a x => Denotes s a.1 x) v.assertions xs ∧
    List.Forall₂ (Denotes s) v.assumptions ys

omit [Preorder S] in
theorem Tracks.leaves (h : Tracks Inv Denotes view s st A) :
    Leaves Denotes s (view s) ((Levels.items A.levels).map (·.meaning)) A.assumptions :=
  ⟨List.forall₂_map_right_iff.mpr (h.assertions.imp fun _ _ ha => ha.2), h.assumptions⟩

omit [Preorder S] in
theorem Tracks.names (h : Tracks Inv Denotes view s st A) :
    (view s).assertions.map (·.2) = (Levels.items A.levels).map (·.name) := by
  rw [← List.forall₂_eq_eq_eq, List.forall₂_map_left_iff, List.forall₂_map_right_iff]
  exact h.assertions.imp fun _ _ ha => ha.1

omit [Preorder S] in
/-- What `get-value` has left holds anyway. -/
theorem Tracks.holds_iff (h : Tracks Inv Denotes view s st A) (ρ : Assignment) :
    Holds ρ ((Levels.items A.levels).map (·.meaning)) ↔ Holds ρ A.inForce := by
  constructor
  · intro hall x hx
    obtain ⟨e, he, rfl⟩ := List.mem_map.mp hx
    exact hall _ (List.mem_map_of_mem (List.mem_of_mem_filter he))
  · intro hall x hx
    obtain ⟨e, he, rfl⟩ := List.mem_map.mp hx
    by_cases ha : e.asserted
    · exact hall _ (List.mem_map_of_mem (List.mem_filter.mpr ⟨he, ha⟩))
    · exact h.asked e he (by simpa using ha) ρ

theorem holds_append {ρ : Assignment} {xs ys : List Meaning} :
    Holds ρ (xs ++ ys) ↔ Holds ρ xs ∧ Holds ρ ys := List.forall_mem_append

/-- Where the commands of a script lead. -/
def ScriptState.ofScript (exprs : List SExpr) : ScriptState := exprs.foldl (step 64) start

/-- What is left is what is in force at the end and all that was ever assumed. It is what the last
check was about if that check saw the same. -/
theorem script_is_answered_for_its_end (hsink : sink.Stacked Inv Denotes view) (hs : Inv s)
    (hview : view s = ⟨[], [], []⟩) {exprs : List SExpr} {out : LoweredScript}
    (hrun : (lowerScript sink .standalone exprs).run s = (.ok out, s')) :
    ∃ xs ys, Leaves Denotes s' (view s') xs ys ∧
      (∀ ρ, Holds ρ (xs ++ ys) ↔ Holds ρ ((ScriptState.ofScript exprs).inForce ++
        (ScriptState.ofScript exprs).assumptions)) ∧
      ∀ c, (ScriptState.ofScript exprs).lastCheck = some c →
        c.inForce = (ScriptState.ofScript exprs).inForce →
        c.assumptions = (ScriptState.ofScript exprs).assumptions →
        (Satisfiable (xs ++ ys) ↔ Satisfiable (c.inForce ++ c.assumptions)) := by
  obtain ⟨st, h⟩ := lowerScript_run hsink hs hview exprs out s' hrun
  have hholds : ∀ ρ, Holds ρ ((Levels.items (ScriptState.ofScript exprs).levels).map (·.meaning) ++
      (ScriptState.ofScript exprs).assumptions) ↔ Holds ρ ((ScriptState.ofScript exprs).inForce ++
        (ScriptState.ofScript exprs).assumptions) := by
    intro ρ
    rw [holds_append, holds_append]
    exact and_congr_left fun _ => h.holds_iff ρ
  refine ⟨_, _, h.leaves, hholds, fun c _ hin hown => ?_⟩
  rw [hin, hown]
  exact exists_congr hholds

end

/-! ## Runs on the sink of values -/

def ValueStore.view (s : ValueStore) : StackView SortedMeaning :=
  ⟨s.assertions, s.assumptions, s.scopes⟩

theorem valueSink_stacked :
    valueSink.Stacked (fun _ => True) ValueDenotes ValueStore.view where
  terms _ := valueSink_correct
  mono _ _ _ h := h
  assert {s n x name} _ hn hx := by
    have hsort : n.sort = .bool := sort_unique hn.2 hx
    intro _ s' hrun
    simp only [valueSink, valueAssert, hsort, if_true] at hrun
    obtain rfl := congrArg Prod.snd hrun
    exact ⟨trivial, rfl⟩
  assume {s n x} _ hn hx := by
    have hsort : n.sort = .bool := sort_unique hn.2 hx
    intro _ s' hrun
    simp only [valueSink, valueAssume, hsort, if_true] at hrun
    obtain rfl := congrArg Prod.snd hrun
    exact ⟨trivial, rfl⟩
  push {s} _ := by
    intro _ s' hrun
    obtain rfl := congrArg Prod.snd hrun
    exact ⟨trivial, rfl⟩
  pop {s} _ := by
    obtain ⟨assertions, assumptions, scopes⟩ := s
    intro _ s' hrun
    cases scopes with
    | nil => simp [valueSink, valuePop] at hrun
    | cons mark marks =>
      obtain rfl := congrArg Prod.snd hrun
      exact ⟨trivial, mark, marks, rfl, rfl⟩

/-- `(declare-const p Bool) (push 1) (assert (not p)) (pop 1) (assert p) (get-value (p))
(check-sat)`. -/
def sampleScript : List SExpr := [
  .list [.atom "declare-const", .atom "p", .atom "Bool"],
  .list [.atom "push", .atom "1"],
  .list [.atom "assert", .list [.atom "not", .atom "p"]],
  .list [.atom "pop", .atom "1"],
  .list [.atom "assert", .atom "p"],
  .list [.atom "get-value", .list [.atom "p"]],
  .list [.atom "check-sat"]]

set_option maxRecDepth 4000 in
theorem script_is_answered_for_its_end_sample :
    ∃ out s', (lowerScript valueSink .standalone sampleScript).run emptyStore = (.ok out, s') ∧
      ∃ xs ys, Leaves ValueDenotes s' s'.view xs ys ∧
        (∀ ρ, Holds ρ (xs ++ ys) ↔ Holds ρ ((ScriptState.ofScript sampleScript).inForce ++
          (ScriptState.ofScript sampleScript).assumptions)) ∧
        ∀ c, (ScriptState.ofScript sampleScript).lastCheck = some c →
          c.inForce = (ScriptState.ofScript sampleScript).inForce →
          c.assumptions = (ScriptState.ofScript sampleScript).assumptions →
          (Satisfiable (xs ++ ys) ↔ Satisfiable (c.inForce ++ c.assumptions)) :=
  ⟨_, _, rfl, script_is_answered_for_its_end valueSink_stacked trivial rfl rfl⟩

/-- The script is answered for its last check. -/
def AnsweredForLastCheck (exprs : List SExpr) : Prop :=
  ∀ out s' c, (lowerScript valueSink .standalone exprs).run emptyStore = (.ok out, s') →
    (ScriptState.ofScript exprs).lastCheck = some c →
    ∃ xs ys, Leaves ValueDenotes s' s'.view xs ys ∧
      (Satisfiable (xs ++ ys) ↔ Satisfiable (c.inForce ++ c.assumptions))

/-- A script whose last check has nothing to satisfy and that leaves a `false`. -/
theorem not_answeredForLastCheck {exprs : List SExpr} {out : LoweredScript} {s' : ValueStore}
    (hrun : (lowerScript valueSink .standalone exprs).run emptyStore = (.ok out, s'))
    (hlast : (ScriptState.ofScript exprs).lastCheck = some ⟨[], []⟩)
    (hfalse : ∀ xs ys, Leaves ValueDenotes s' s'.view xs ys → ∃ x ∈ xs ++ ys, ∀ ρ,
      x ρ = .bool false) : ¬ AnsweredForLastCheck exprs := by
  intro h
  obtain ⟨xs, ys, hleaves, hiff⟩ := h out s' _ hrun hlast
  obtain ⟨x, hx, hxf⟩ := hfalse xs ys hleaves
  obtain ⟨ρ, hρ⟩ := hiff.mpr ⟨default, nofun⟩
  have htrue := hρ x hx
  rw [hxf ρ] at htrue
  simp at htrue

def checkSat : SExpr := .list [.atom "check-sat"]

def assertFalse : SExpr := .list [.atom "assert", .atom "false"]

/-- An assertion after the check, one after `exit`, and the assumption of an earlier check all
count. -/
theorem script_is_not_answered_for_its_last_check :
    valueSink.Stacked (fun _ => True) ValueDenotes ValueStore.view ∧
    ¬ AnsweredForLastCheck [checkSat, assertFalse] ∧
    ¬ AnsweredForLastCheck [checkSat, .list [.atom "exit"], assertFalse, checkSat] ∧
    ¬ AnsweredForLastCheck
      [.list [.atom "check-sat-assuming", .list [.atom "false"]], checkSat] := by
  refine ⟨valueSink_stacked, not_answeredForLastCheck rfl rfl ?_,
    not_answeredForLastCheck rfl rfl ?_, not_answeredForLastCheck rfl rfl ?_⟩
  · rintro xs ys ⟨hxs, -⟩
    cases hxs with
    | cons hx _ => exact ⟨_, List.mem_append_left _ List.mem_cons_self, congrFun hx.1.symm⟩
  · rintro xs ys ⟨hxs, -⟩
    cases hxs with
    | cons hx _ => exact ⟨_, List.mem_append_left _ List.mem_cons_self, congrFun hx.1.symm⟩
  · rintro xs ys ⟨-, hys⟩
    cases hys with
    | cons hx _ => exact ⟨_, List.mem_append_right _ List.mem_cons_self, congrFun hx.1.symm⟩

end Smtlib
end SmtServer
