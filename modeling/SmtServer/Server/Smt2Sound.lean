import SmtServer.Server.Smt2Script
import SmtServer.Smtlib.ScriptMeaning

/-!
# A printed script asks what its request asks

The commands a request is printed as, followed through the reference (`ScriptState.step`): the
header changes nothing, the declarations bind the variables, every root leaves one entry under its
name, and the footer leaves checks and the traces of `get-value` (`after_scriptCommands`). With the
meaning of the printed terms, what an accepted script leaves in a sink holds exactly where the
assertions and the assumptions of the request do.

The parser is not part of the repository. It is a parameter that is taken to read the script's text
as SMT-LIB has it.
-/

namespace SmtServer
namespace Server
namespace Smt2

open Lib Outcome Wire
open Lib.Smt (Value)
open Smtlib (Assignment Entry Holds Leaves Meaning NameMap Printed SExpr ScriptState
  Sink SmtSort StackView frontendAtom frontendValue lowerScript namedAnnotation parseSort readScript
  scopeAt)

/-! ## What the parser hands over -/

/-- What `SExprAction` makes of a command: the attribute of an option is a list of its own. -/
def actionForm : SExpr → SExpr
  | .list (.atom "set-option" :: option) => .list [.atom "set-option", .list option]
  | e => e

/-- What the parser makes of a text, if anything, are its S-expressions. -/
def ReadsText (parse : String → Option (List SExpr)) (text : String) : Prop :=
  ∀ exprs, parse text = some exprs → (readScript text).map (·.map actionForm) = some exprs

theorem parsed_eq {parse : String → Option (List SExpr)} {text : String} {commands : List Printed}
    {exprs : List SExpr} (hreads : ReadsText parse text) (htext : text.toList = lines commands)
    (hparse : parse text = some exprs) : exprs = commands.map fun c => actionForm c.expr := by
  have hadds := adds_lines commands
  rw [← htext] at hadds
  have hread := hreads exprs hparse
  rw [Smtlib.readScript_of_adds hadds, Option.map_some, List.map_map] at hread
  exact (Option.some.inj hread).symm

/-! ## Assignments -/

/-- The sort a variable is declared with. -/
def Smt2Variable.smtSort (v : Smt2Variable) : SmtSort :=
  match v.sort with
  | .bool => .bool
  | .bv => .bv v.width.toNat

/-- Every name of the expression has one value in both. -/
def Agrees (p : Parts) (ρ : Assignment) (env : Env) : Prop :=
  ∀ i n t s, p.Declares i n t s →
    ρ.value s (Smtlib.sortOf (p.semTag env n [] t)) = p.semTag env n [] t

/-- The values of an environment at every sort. -/
def assignmentOf (env : Env) : Assignment where
  value name
    | .bool => .bool (env.bool name)
    | .bv w => .bv w (.ofNat w (env.bv name))
  sorted name sort := by cases sort <;> rfl

variable {p : Parts}

theorem agrees_assignmentOf (p : Parts) (env : Env) : Agrees p (assignmentOf env) env := by
  intro i n t s hd
  have hsymbol : p.symbol n = s := by rw [Parts.symbol, hd.2.2.2, Option.getD_some]
  rcases hd.2.2.1 with rfl | rfl <;> simp only [Parts.semTag, hsymbol] <;> rfl

/-- The number a value stands for; a Boolean stands for none. -/
def numberOf : Value → Nat
  | .bv _ x => x.toNat
  | .bool _ => 0

def truthOf : Value → Bool
  | .bool b => b
  | .bv _ _ => false

/-- Every assignment gives the names of an expression values of their sorts. -/
theorem exists_agrees (hp : p.WellFormed) (ρ : Assignment) : ∃ env, Agrees p ρ env := by
  classical
  refine ⟨⟨fun s => if h : ∃ w i n, p.Declares i n .bvVar s ∧ n.width.toNat = w then
    numberOf (ρ.value s (.bv h.choose)) else 0, fun s => truthOf (ρ.value s .bool)⟩, ?_⟩
  intro i n t s hd
  have hsymbol : p.symbol n = s := by rw [Parts.symbol, hd.2.2.2, Option.getD_some]
  rcases hd.2.2.1 with rfl | rfl
  · have hex : ∃ w i n, p.Declares i n .bvVar s ∧ n.width.toNat = w := ⟨_, i, n, hd, rfl⟩
    obtain ⟨j, m, hd', hw⟩ := hex.choose_spec
    have hwidth : hex.choose = n.width.toNat := by rw [← hw, (hp.symbols hd hd').2]
    simp only [Parts.semTag, hsymbol, dif_pos hex, hwidth, Smtlib.sortOf]
    have hsorted := ρ.sorted s (.bv n.width.toNat)
    cases hv : ρ.value s (.bv n.width.toNat) with
    | bool b =>
      rw [hv] at hsorted
      cases hsorted
    | bv w x =>
      rw [hv] at hsorted
      cases hsorted
      simp [numberOf]
  · simp only [Parts.semTag, hsymbol, Smtlib.sortOf]
    have hsorted := ρ.sorted s .bool
    cases hv : ρ.value s .bool with
    | bool b => rfl
    | bv w x =>
      rw [hv] at hsorted
      cases hsorted

/-! ## Commands -/

/-- Where commands lead. -/
def after (depth : Nat) (A : ScriptState) (commands : List Printed) : ScriptState :=
  commands.foldl (fun A c => A.step depth (actionForm c.expr)) A

variable {depth : Nat} {A : ScriptState} {constants : NameMap Meaning} {entries : List Entry}
  {cs ds : List Printed}

theorem after_append : after depth A (cs ++ ds) = after depth (after depth A cs) ds :=
  List.foldl_append

/-- One level is open, no function is defined and nothing is assumed. -/
structure At (A : ScriptState) (constants : NameMap Meaning) (entries : List Entry) : Prop where
  constants : A.constants = constants
  functions : A.functions = []
  levels : A.levels = [entries]
  assumptions : A.assumptions = []

theorem At.items (h : At A constants entries) : Levels.items A.levels = entries := by
  rw [h.levels, Levels.items, List.reverse_singleton, List.flatten_singleton]

theorem at_start : At .start [] [] := ⟨rfl, rfl, rfl, rfl⟩

theorem At.record (h : At A constants entries) (e : Entry) :
    At (A.record e) constants (entries ++ [e]) := by
  refine ⟨h.constants, h.functions, ?_, h.assumptions⟩
  rw [ScriptState.record, h.levels]
  rfl

/-- Commands none of which does anything. -/
theorem At.idle (h : At A constants entries)
    (hcs : ∀ c ∈ cs, ∀ A, ScriptState.step depth A (actionForm c.expr) = A) :
    At (after depth A cs) constants entries := by
  induction cs with
  | nil => exact h
  | cons c cs ih =>
    rw [after, List.foldl_cons, hcs c List.mem_cons_self]
    exact ih fun d hd => hcs d (List.mem_cons_of_mem c hd)

theorem At.header (h : At A constants entries) (request : BinaryRequest) :
    At (after depth A (headerCommands request)) constants entries := by
  refine h.idle fun c hc A => ?_
  simp only [headerCommands, List.mem_append, List.mem_ite_nil_right, List.mem_singleton] at hc
  rcases hc with ((rfl | ⟨-, rfl⟩) | ⟨-, rfl⟩) | ⟨-, rfl⟩ <;> rfl

/-- What a declared name is bound to. -/
def binding (v : Smt2Variable) : String × Meaning := (v.name, fun ρ => ρ.value v.name v.smtSort)

theorem parseSort_sortTerm {v : Smt2Variable}
    (hw : v.sort = .bv → 1 ≤ v.width.toNat ∧ v.width.toNat ≤ 65536) :
    parseSort (sortTerm v.sort v.width).expr = ok v.smtSort := by
  unfold sortTerm Smt2Variable.smtSort
  cases hsort : v.sort with
  | bool => rfl
  | bv =>
    obtain ⟨hlo, hhi⟩ := hw hsort
    show parseSort (.list [.atom "_", .atom "BitVec", .atom (toString v.width.toNat)]) = _
    simp only [parseSort, Smtlib.atom, ok_bind, ne_eq, not_true_eq_false, if_false]
    rw [parseU32_toString (by omega)]
    simp only [ofOption, ok_bind, Smtlib.validateBvWidth, ensure]
    rw [if_pos (by omega)]
    rfl

theorem At.declare (h : At A constants entries) {v : Smt2Variable} (hplain : Plain v.name)
    (hw : v.sort = .bv → 1 ≤ v.width.toNat ∧ v.width.toNat ≤ 65536) :
    At (A.step depth (actionForm (declareCommand v).expr)) (binding v :: constants) entries := by
  have hstep : A.step depth (actionForm (declareCommand v).expr) =
      A.declare v.name (sortTerm v.sort v.width).expr := by
    rw [declareCommand, symbolTerm_of_plain hplain]
    rfl
  rw [hstep, ScriptState.declare, parseSort_sortTerm hw]
  exact ⟨congrArg (binding v :: ·) h.constants, h.functions, h.levels, h.assumptions⟩

theorem At.declarations {vars : List Smt2Variable} (h : At A constants entries)
    (hplain : ∀ v ∈ vars, Plain v.name)
    (hw : ∀ v ∈ vars, v.sort = .bv → 1 ≤ v.width.toNat ∧ v.width.toNat ≤ 65536) :
    At (after depth A (vars.map declareCommand)) ((vars.map binding).reverse ++ constants)
      entries := by
  induction vars generalizing A constants with
  | nil => exact h
  | cons v vars ih =>
    have hv : At (A.step depth _) _ _ :=
      h.declare (hplain v List.mem_cons_self) (hw v List.mem_cons_self)
    have hrest := ih hv (fun u hu => hplain u (List.mem_cons_of_mem v hu))
      fun u hu => hw u (List.mem_cons_of_mem v hu)
    rw [List.map_cons, List.map_cons, List.reverse_cons, List.append_assoc]
    exact hrest

/-! ## Assertions -/

/-- The entries the roots leave: the first ones under the names there are. -/
def rootEntries (meaning : Nat → Meaning) (p : Parts) : List NodeRef → List BlobRef → List Entry
  | [], _ => []
  | root :: roots, name :: names =>
    ⟨meaning root.idx, p.textAt name, true⟩ :: rootEntries meaning p roots names
  | root :: roots, [] => ⟨meaning root.idx, none, true⟩ :: rootEntries meaning p roots []

theorem getElem?_rootEntries {meaning : Nat → Meaning} {roots : List NodeRef}
    {names : List BlobRef} {k : Nat} :
    (rootEntries meaning p roots names)[k]? = roots[k]?.map fun root =>
      ⟨meaning root.idx, names[k]?.bind p.textAt, true⟩ := by
  induction roots generalizing names k with
  | nil => rfl
  | cons root roots ih =>
    cases names with
    | nil =>
      cases k with
      | zero => rfl
      | succ k => simpa [rootEntries] using @ih [] k
    | cons name names =>
      cases k with
      | zero => rfl
      | succ k => simpa [rootEntries] using @ih names k

/-- The entry of a root stands where the root does. -/
theorem getElem?_entries (meaning : Nat → Meaning) (p : Parts) {roots : List NodeRef}
    (names : List BlobRef) {rest : List Entry} {k : Nat} {root : NodeRef}
    (hk : roots[k]? = some root) : (rootEntries meaning p roots names ++ rest)[k]? =
      some ⟨meaning root.idx, names[k]?.bind p.textAt, true⟩ := by
  have hget := @getElem?_rootEntries p meaning roots names k
  rw [hk, Option.map_some] at hget
  rw [List.getElem?_append_left (List.getElem?_eq_some_iff.mp hget).1, hget]

theorem holds_rootEntries {meaning : Nat → Meaning} {roots : List NodeRef}
    {names : List BlobRef} {ρ : Assignment} :
    Holds ρ ((rootEntries meaning p roots names).map (·.meaning)) ↔
      ∀ root ∈ roots, meaning root.idx ρ = .bool true := by
  have hentry : ∀ root ∈ roots, ∃ e ∈ rootEntries meaning p roots names,
      e.meaning = meaning root.idx := by
    intro root hroot
    obtain ⟨k, hk⟩ := List.mem_iff_getElem?.mp hroot
    have hget := @getElem?_rootEntries p meaning roots names k
    rw [hk] at hget
    exact ⟨_, List.mem_of_getElem? hget, rfl⟩
  constructor
  · intro hall root hroot
    obtain ⟨e, he, hmeaning⟩ := hentry root hroot
    exact hmeaning ▸ hall _ (List.mem_map_of_mem he)
  · intro hall x hx
    obtain ⟨e, he, rfl⟩ := List.mem_map.mp hx
    obtain ⟨k, hk⟩ := List.mem_iff_getElem?.mp he
    rw [getElem?_rootEntries, Option.map_eq_some_iff] at hk
    obtain ⟨root, hroot, rfl⟩ := hk
    exact hall root (List.mem_of_getElem? hroot)

/-- The term is not taken for an annotated one. -/
def Unannotated (a : Printed) : Prop := namedAnnotation a.expr = ok none

theorem unannotated_token {text : String} {h : Smtlib.IsToken text} :
    Unannotated (.token text h) := rfl

theorem unannotated_app {op : String} {h : Smtlib.IsToken op} {args : List Printed}
    (hop : op ≠ "!") : Unannotated (app op h args) := by
  show namedAnnotation (.list (.atom op :: args.map (·.expr))) = _
  have hparse : Smtlib.parseAnnotation (.atom op :: args.map (·.expr)) = ok none := by
    unfold Smtlib.parseAnnotation
    simp only [Smtlib.atom, ok_bind, if_pos hop]
    rfl
  rw [ namedAnnotation, hparse]
  rfl

/-- The term of a Boolean node. -/
theorem unannotated_printed {i : Nat} {n : RawNode} {t : Tag} (hp : p.WellFormed)
    (hn : p.nodes[i]? = some n) (ht : Tag.tryFrom n.tag = some t) (hsort : t.resultSort = .bool) :
    Unannotated (p.printed i) := by
  rw [hp.printed_eq hn ht]
  cases t with
  | boolVar =>
    show Unannotated (symbolTerm _)
    unfold symbolTerm
    split <;> exact unannotated_token
  | boolTrue | boolFalse => rfl
  | uaddOvf | usubOvf | umulOvf | saddOvf | ssubOvf | smulOvf | negOvf | sdivOvf | boolNot
  | boolAnd | boolOr | boolImplies | bvEq | bvUlt | bvUle | bvSlt | bvSle =>
    exact unannotated_app (by decide)
  | _ => cases hsort

theorem assertParts_assertCommand {name : Option String} {term : Printed}
    (hterm : Unannotated term) (hname : ∀ s, name = some s → Plain s) :
    ∃ e, (assertCommand name term).expr = .list [.atom "assert", e] ∧
      Smtlib.assertParts e = ok (term.expr, name) := by
  cases name with
  | none =>
    refine ⟨term.expr, rfl, ?_⟩
    rw [Smtlib.assertParts, hterm]
    rfl
  | some s =>
    refine ⟨.list [.atom "!", term.expr, .atom ":named", .atom s], ?_, ?_⟩
    · rw [assertCommand, symbolTerm_of_plain (hname s rfl)]
      rfl
    · unfold Smtlib.assertParts namedAnnotation Smtlib.parseAnnotation
      simp [Smtlib.atom, Smtlib.annotationLoop, ensure]

variable {roots : List NodeRef} {names : List BlobRef}

/-- What the printed roots mean where names are bound so. -/
def rootMeaning (constants : NameMap Meaning) (depth : Nat) (p : Parts) (i : Nat) : Meaning :=
  fun ρ => (frontendValue constants [] [] depth (p.printed i).expr ρ).getD (.bool false)

theorem At.assertion (h : At A constants entries) {name : Option String} {i : Nat}
    (hterm : Unannotated (p.printed i)) (hname : ∀ s, name = some s → Plain s) :
    At (A.step depth (actionForm (assertCommand name (p.printed i)).expr)) constants
      (entries ++ [⟨rootMeaning constants depth p i, name, true⟩]) := by
  obtain ⟨e, hexpr, hparts⟩ := assertParts_assertCommand hterm hname
  have hstep : A.step depth (actionForm (assertCommand name (p.printed i)).expr) =
      A.assert depth e := by
    rw [hexpr]
    rfl
  have hmeaning : A.meaningOf depth (p.printed i).expr = rootMeaning constants depth p i := by
    rw [← h.constants]
    unfold ScriptState.meaningOf
    rw [h.functions]
    rfl
  rw [hstep, ScriptState.assert, hparts]
  dsimp only
  rw [hmeaning]
  exact h.record _

theorem At.assertions (h : At A constants entries)
    (hroots : ∀ root ∈ roots, Unannotated (p.printed root.idx))
    (hnames : ∀ name ∈ names, ∀ s, p.textAt name = some s → Plain s) :
    At (after depth A (assertCommands p roots names)) constants
      (entries ++ rootEntries (rootMeaning constants depth p) p roots names) := by
  induction roots generalizing A entries names with
  | nil =>
    rw [rootEntries, List.append_nil]
    exact h
  | cons root roots ih =>
    have hroot := hroots root List.mem_cons_self
    have hroots' := fun r hr => hroots r (List.mem_cons_of_mem root hr)
    cases names with
    | nil =>
      rw [rootEntries, List.append_cons]
      exact ih (h.assertion hroot nofun) hroots' hnames
    | cons name names =>
      rw [rootEntries, List.append_cons]
      exact ih (h.assertion hroot (hnames name List.mem_cons_self)) hroots'
        fun b hb => hnames b (List.mem_cons_of_mem name hb)

/-! ## The footer -/

/-- What `get-value` leaves of each symbol. -/
def traceEntry : Entry := ⟨fun _ => .bool true, none, false⟩

theorem At.footer (h : At A constants entries) (request : BinaryRequest)
    (vars : List Smt2Variable) :
    ∃ k, At (after depth A (footerCommands request vars)) constants
      (entries ++ List.replicate k traceEntry) := by
  have hcheck : At (after depth A [app "check-sat" (by decide) []]) constants entries :=
    ⟨h.constants, h.functions, h.levels, by
      show A.assumptions ++ [] = []
      rw [h.assumptions, List.append_nil]⟩
  have hvalues : ∀ (terms : List Printed) {A : ScriptState} {entries : List Entry},
      At A constants entries →
      At (after depth A [app "get-value" (by decide) [blankList terms]]) constants
        (entries ++ List.replicate terms.length traceEntry) := by
    intro terms A entries h
    show At ((terms.map (·.expr)).foldl (fun A _ => A.record traceEntry) A) constants _
    induction terms generalizing A entries with
    | nil => simpa using h
    | cons term terms ih =>
      rw [List.length_cons, List.replicate_succ, List.append_cons]
      exact ih (h.record traceEntry)
  have hcore : ∀ {A : ScriptState} {entries : List Entry}, At A constants entries →
      At (after depth A (if request.envelope.flags &&& RequestFlags.wantCore ≠ 0 then
        [app "get-unsat-core" (by decide) []] else [])) constants entries := by
    intro A entries h
    refine h.idle fun c hc A => ?_
    rw [List.mem_ite_nil_right, List.mem_singleton] at hc
    obtain ⟨-, rfl⟩ := hc
    rfl
  unfold footerCommands
  rw [after_append, after_append]
  split
  · exact ⟨_, hcore (hvalues _ hcheck)⟩
  · refine ⟨0, ?_⟩
    rw [List.replicate_zero, List.append_nil]
    exact hcore hcheck

/-! ## Scripts -/

theorem fresh_subset {vars : List Smt2Variable} {declared : List String} :
    ∀ u ∈ fresh vars declared, u ∈ vars := by
  induction vars generalizing declared with
  | nil => exact nofun
  | cons v vars ih =>
    intro u hu
    rw [fresh] at hu
    split at hu
    · exact List.mem_cons_of_mem v (ih u hu)
    · rcases List.mem_cons.mp hu with rfl | hu
      · exact List.mem_cons_self
      · exact List.mem_cons_of_mem v (ih u hu)

/-- Every name is declared. -/
theorem exists_fresh {vars : List Smt2Variable} {declared : List String} {v : Smt2Variable}
    (hv : v ∈ vars) : v.name ∈ declared ∨ ∃ u ∈ fresh vars declared, u.name = v.name := by
  induction vars generalizing declared with
  | nil => cases hv
  | cons w vars ih =>
    rw [fresh]
    rcases List.mem_cons.mp hv with rfl | hv
    · split
      · exact .inl ‹_›
      · exact .inr ⟨v, List.mem_cons_self, rfl⟩
    · split
      · exact ih hv
      · rcases @ih (w.name :: declared) hv with hmem | ⟨u, hu, hname⟩
        · rcases List.mem_cons.mp hmem with heq | hmem
          · exact .inr ⟨w, List.mem_cons_self, heq.symm⟩
          · exact .inl hmem
        · exact .inr ⟨u, List.mem_cons_of_mem w hu, hname⟩

theorem variableList_width (hp : p.WellFormed) {v : Smt2Variable} (hv : v ∈ variableList p)
    (hsort : v.sort = .bv) : 1 ≤ v.width.toNat ∧ v.width.toNat ≤ 65536 := by
  obtain ⟨i, n, t, ⟨hn, ht, -, -⟩, heq⟩ := (mem_variableList hp).mp hv
  obtain ⟨t', ht', hr⟩ := hp.node i n hn
  obtain rfl : t = t' := Option.some.inj (ht.symm.trans ht')
  have hwidth := hr.width
  rw [heq] at hsort ⊢
  have hsort : t.resultSort = .bv := hsort
  rwa [Parts.WidthRule, hsort] at hwidth

/-- What the names of an expression are bound to. -/
def bindings (p : Parts) : NameMap Meaning := ((fresh (variableList p) []).map binding).reverse

theorem lookup_bindings (hp : p.WellFormed) {i : Nat} {n : RawNode} {t : Tag} {s : String}
    (hd : p.Declares i n t s) : (bindings p).lookup s =
      some fun ρ => ρ.value s (⟨.mk' t.resultSort i, s, t.resultSort, n.width⟩ :
        Smt2Variable).smtSort := by
  have hv := (mem_variableList (u := ⟨.mk' t.resultSort i, s, t.resultSort, n.width⟩) hp).mpr
    ⟨i, n, t, hd, rfl⟩
  cases hlookup : (bindings p).lookup s with
  | none =>
    rcases @exists_fresh _ [] _ hv with hmem | ⟨u, hu, hname⟩
    · cases hmem
    · have hmem : binding u ∈ bindings p := List.mem_reverse.mpr (List.mem_map_of_mem hu)
      exact absurd hname.symm (bne_iff_ne.mp (List.lookup_eq_none_iff.mp hlookup _ hmem))
  | some x =>
    obtain ⟨before, rest, heq, -⟩ := List.lookup_eq_some_iff.mp hlookup
    have hmem : (s, x) ∈ bindings p := by simp [heq]
    obtain ⟨u, hu, hbinding⟩ := List.mem_map.mp (List.mem_reverse.mp hmem)
    obtain ⟨hname, hx⟩ := Prod.mk.inj hbinding
    obtain ⟨hsort, hwidth⟩ := variableList_sorts hp (fresh_subset u hu) hv hname
    rw [← hx]
    simp only [Smt2Variable.smtSort, hname, hsort, hwidth]

/-- A plain name is no constant and no literal. -/
theorem plain_name {name : String} (h : Plain name) :
    name ≠ "true" ∧ name ≠ "false" ∧ Smtlib.literalDigits name = none := by
  refine ⟨fun he => absurd (he ▸ h) (by decide), fun he => absurd (he ▸ h) (by decide), ?_⟩
  unfold Plain isSimpleSymbol at h
  split at h
  · cases h
  · rename_i c cs hcs
    simp only [Bool.and_eq_true, List.all_eq_true] at h
    have hc : c ≠ '#' := by
      rintro rfl
      exact absurd (h.1.1 '#' List.mem_cons_self) (by decide)
    have hstrip : ∀ start : List Char, start.head? = some '#' →
        Smtlib.stripText start (c :: cs) = none := by
      intro start hstart
      cases start with
      | nil => cases hstart
      | cons d start =>
        obtain rfl := Option.some.inj hstart
        rw [Smtlib.stripText, List.isPrefixOf_cons_cons, beq_eq_false_iff_ne.mpr hc.symm]
        rfl
    rw [Smtlib.literalDigits, hcs, hstrip _ rfl, hstrip _ rfl]
    rfl

/-- A root means what its node means. -/
theorem rootMeaning_eq {ρ : Assignment} {env : Env} {i : Nat}
    (hp : p.WellFormed) (hplain : p.PlainNames) (hagrees : Agrees p ρ env)
    (hi : i < p.nodes.length) : rootMeaning (bindings p) depth p i ρ = p.value env i := by
  have hbinds : Binds (Smtlib.readingAt (frontendAtom (scopeAt (bindings p) ρ)) [] depth)
      (scopeAt [] ρ) p env := by
    refine ⟨fun {i n t s} hd => ?_, rfl, rfl⟩
    obtain ⟨htrue, hfalse, hdigits⟩ := plain_name (hplain i n t s hd)
    show frontendAtom (scopeAt (bindings p) ρ) [] s = _
    rw [frontendAtom, if_neg htrue, if_neg hfalse, hdigits, Smtlib.lookup_scopeAt,
      lookup_bindings hp hd, ← hagrees i n t s hd]
    rcases hd.2.2.1 with rfl | rfl <;> rfl
  have hvalue := printed_denotes (plainReading_frontendAtom _ _ _) hbinds hp hplain hi
  have hvalue : frontendValue (bindings p) [] [] depth (p.printed i).expr ρ =
    some (p.value env i) := hvalue
  rw [rootMeaning, hvalue, Option.getD_some]

/-- **Where the commands of a request lead**: the names are bound, and every root is asserted. -/
theorem at_scriptCommands {request : BinaryRequest} (hvalid : request.validate = ok ())
    (hplain : PlainRequest request (Parts.ofBytes request.expression)) :
    let p := Parts.ofBytes request.expression
    ∃ k, At (after depth .start (scriptCommands request p)) (bindings p)
      (rootEntries (rootMeaning (bindings p) depth p) p request.assertionRoots
          request.namedAssertionRefs ++
        rootEntries (rootMeaning (bindings p) depth p) p request.assumptionRoots [] ++
        List.replicate k traceEntry) := by
  intro p
  obtain ⟨hwf, hroots, -⟩ := BinaryRequest.roots_of_validate hvalid
  have hp : p.WellFormed := hwf.dag
  have hunannotated : ∀ root ∈ request.assertionRoots ++ request.assumptionRoots,
      Unannotated (p.printed root.idx) := by
    intro root hroot
    obtain ⟨n, t, hn, ht, hsort⟩ := hroots root hroot
    exact unannotated_printed hp hn ht hsort
  have hheader : At (after depth .start (headerCommands request)) _ _ := at_start.header request
  have hdeclared : At (after depth _ ((fresh (variableList p) []).map declareCommand)) _ _ :=
    hheader.declarations
      (fun v hv => variableList_plain hp hplain.symbols v (fresh_subset v hv))
      fun v hv => variableList_width hp (fresh_subset v hv)
  have hasserted : At (after depth _ (assertCommands p request.assertionRoots
      request.namedAssertionRefs)) _ _ :=
    hdeclared.assertions (fun root hr => hunannotated root (List.mem_append_left _ hr)) hplain.names
  have hassumed : At (after depth _ (assertCommands p request.assumptionRoots [])) _ _ :=
    hasserted.assertions (fun root hr => hunannotated root (List.mem_append_right _ hr)) nofun
  rw [List.append_nil] at hassumed
  obtain ⟨k, hfooter⟩ : ∃ k, At (after depth _ (footerCommands request (variableList p))) _ _ :=
    hassumed.footer request (variableList p)
  refine ⟨k, ?_⟩
  unfold scriptCommands
  rw [after_append, after_append, after_append, after_append]
  exact hfooter

section

variable {S N : Type} [Preorder S] {Inv : S → Prop} {Denotes : S → N → Meaning → Prop}
  {view : S → StackView N} {sink : Sink S N} {s : S} {options : Smtlib.FrontendOptions}
  {request : BinaryRequest}

/-- **A printed request keeps its meaning.** Whatever an accepted script leaves in a correct sink
holds exactly where all assertions and assumptions of the request hold, and every assertion is there
in its place, under its name. -/
theorem requestToSmt2_keeps_meaning (hsink : sink.Stacked Inv Denotes view) (hs : Inv s)
    (hview : view s = ⟨[], [], []⟩) (hvalid : request.validate = ok ())
    (hplain : PlainRequest request (Parts.ofBytes request.expression)) :
    let p := Parts.ofBytes request.expression
    (∀ env, ∃ ρ, Agrees p ρ env) ∧ (∀ ρ, ∃ env, Agrees p ρ env) ∧
    ∃ out, requestToSmt2 request = ok out ∧
      ∀ (parse : String → Option (List SExpr)) (exprs : List SExpr) (lowered : Smtlib.LoweredScript)
        (s' : S), ReadsText parse out.script → parse out.script = some exprs →
        (lowerScript sink options exprs).run s = (.ok lowered, s') →
        ∃ xs, Leaves Denotes s' (view s') xs [] ∧
          (∀ ρ env, Agrees p ρ env → (Holds ρ xs ↔
            ∀ root ∈ request.assertionRoots ++ request.assumptionRoots,
              p.value env root.idx = .bool true)) ∧
          ∀ (k : Nat) (root : NodeRef), request.assertionRoots[k]? = some root →
            ((view s').assertions[k]?).map (·.2) =
              some (request.namedAssertionRefs[k]?.bind p.textAt) ∧
            ∃ x, xs[k]? = some x ∧ ∀ ρ env, Agrees p ρ env → x ρ = p.value env root.idx := by
  intro p
  obtain ⟨hwf, hroots, -⟩ := BinaryRequest.roots_of_validate hvalid
  have hp : p.WellFormed := hwf.dag
  refine ⟨fun env => ⟨_, agrees_assignmentOf p env⟩, exists_agrees hp, ?_⟩
  obtain ⟨out, hprint, htext⟩ := requestToSmt2_eq hvalid hplain
  refine ⟨out, hprint, fun parse exprs lowered s' hreads hparse hrun => ?_⟩
  have hexprs := parsed_eq hreads htext hparse
  obtain ⟨st, htracks⟩ := Smtlib.lowerScript_run hsink hs hview exprs lowered s' hrun
  obtain ⟨count, hat⟩ : ∃ count,
      At (after options.maxMacroExpansionDepth _ (scriptCommands request p)) _ _ :=
    at_scriptCommands hvalid hplain
  have hfold : exprs.foldl (ScriptState.step options.maxMacroExpansionDepth) .start =
      after options.maxMacroExpansionDepth .start (scriptCommands request p) := by
    rw [hexprs, List.foldl_map]
    rfl
  rw [hfold] at htracks
  have hmeaning : ∀ root ∈ request.assertionRoots ++ request.assumptionRoots, ∀ ρ env,
      Agrees p ρ env → rootMeaning (bindings p) options.maxMacroExpansionDepth p root.idx ρ =
        p.value env root.idx := by
    intro root hroot ρ env hagrees
    obtain ⟨n, t, hn, -⟩ := hroots root hroot
    exact rootMeaning_eq hp hplain.symbols hagrees (List.getElem?_eq_some_iff.mp hn).1
  obtain ⟨hasserted, hassumed⟩ := htracks.leaves
  rw [hat.items] at hasserted
  rw [hat.assumptions] at hassumed
  have hnames := htracks.names
  rw [hat.items] at hnames
  refine ⟨_, ⟨hasserted, hassumed⟩, fun ρ env hagrees => ?_, fun k root hk => ?_⟩
  · have htraces : Holds ρ ((List.replicate count traceEntry).map (·.meaning)) := by
      intro x hx
      rw [List.map_replicate] at hx
      rw [(List.mem_replicate.mp hx).2]
      rfl
    rw [List.map_append, List.map_append, Smtlib.holds_append, Smtlib.holds_append,
      and_iff_left htraces, holds_rootEntries, holds_rootEntries, ← List.forall_mem_append]
    exact forall₂_congr fun root hroot => by rw [hmeaning root hroot ρ env hagrees]
  · have hentry : ∀ rest, (rootEntries _ p request.assertionRoots request.namedAssertionRefs ++
        rest)[k]? = _ := fun _ => getElem?_entries
      (rootMeaning (bindings p) options.maxMacroExpansionDepth p) p request.namedAssertionRefs hk
    rw [← List.getElem?_map, hnames, List.append_assoc, List.getElem?_map, hentry]
    refine ⟨rfl, _, ?_, hmeaning root (List.mem_append_left _ (List.mem_of_getElem? hk))⟩
    rw [List.getElem?_map, hentry]
    rfl

end

/-- `(assert (! p :named p))` for a Boolean variable `p`, and its value is wanted. -/
def assertNamedP : BinaryRequest where
  envelope := ⟨7, .solve, RequestFlags.wantModel, 0, 57, 1, 1, 0, 0⟩
  expression := Parts.encode (List.replicate 3 0) (List.replicate 12 0)
    ⟨[⟨Tag.boolVar.toByte, 0, 0, 0, 0, 0, BlobRef.toPayload ⟨0, 1⟩⟩], [], utf8 "p"⟩
  assertionRoots := [.mk' .bool 0]
  namedAssertionRefs := [⟨0, 1⟩]
  assumptionRoots := []

/-- The commands of its script, as the parser hands them over. -/
def assertNamedScript : List SExpr := [
  .list [.atom "set-logic", .atom "QF_BV"],
  .list [.atom "set-option", .list [.atom ":produce-models", .atom "true"]],
  .list [.atom "declare-fun", .atom "p", .list [], .atom "Bool"],
  .list [.atom "assert", .list [.atom "!", .atom "p", .atom ":named", .atom "p"]],
  .list [.atom "check-sat"],
  .list [.atom "get-value", .list [.atom "p"]]]

theorem plainRequest_assertNamedP :
    PlainRequest assertNamedP (Parts.ofBytes assertNamedP.expression) := by
  have hvalid : assertNamedP.validate = ok () := by decide
  obtain ⟨hwf, -⟩ := BinaryRequest.roots_of_validate hvalid
  refine ⟨fun i n t s hd => ?_, by decide⟩
  have hv := (mem_variableList (u := ⟨.mk' t.resultSort i, s, t.resultSort, n.width⟩)
    hwf.dag).mpr ⟨i, n, t, hd, rfl⟩
  have hplain : ∀ u ∈ variableList (Parts.ofBytes assertNamedP.expression), Plain u.name := by
    decide
  exact hplain _ hv

theorem requestToSmt2_keeps_meaning_of_p :
    ∃ (out : Smt2Script) (lowered : Smtlib.LoweredScript) (s' : Smtlib.ValueStore),
      requestToSmt2 assertNamedP = ok out ∧
      (readScript out.script).map (·.map actionForm) = some assertNamedScript ∧
      (lowerScript Smtlib.valueSink .standalone assertNamedScript).run Smtlib.emptyStore =
        (.ok lowered, s') ∧
      ∃ xs, Leaves Smtlib.ValueDenotes s' s'.view xs [] ∧
        ∀ ρ env, Agrees (Parts.ofBytes assertNamedP.expression) ρ env → (Holds ρ xs ↔
          (Parts.ofBytes assertNamedP.expression).value env 0 = .bool true) := by
  have hvalid : assertNamedP.validate = ok () := by decide
  obtain ⟨-, -, out, hprint, hmeans⟩ := @requestToSmt2_keeps_meaning _ _ _ _ _ _ _
    Smtlib.emptyStore .standalone _ Smtlib.valueSink_stacked trivial rfl hvalid plainRequest_assertNamedP
  obtain ⟨out', hprint', htext⟩ := requestToSmt2_eq hvalid plainRequest_assertNamedP
  obtain rfl : out = out' := Outcome.ok.inj (hprint.symm.trans hprint')
  have hcommands : (scriptCommands assertNamedP (Parts.ofBytes assertNamedP.expression)).map
      (fun c => actionForm c.expr) = assertNamedScript := rfl
  have hread : (readScript out.script).map (·.map actionForm) = some assertNamedScript := by
    have hadds := adds_lines (scriptCommands assertNamedP (Parts.ofBytes assertNamedP.expression))
    rw [← htext] at hadds
    rw [Smtlib.readScript_of_adds hadds, Option.map_some, List.map_map, ← hcommands]
    rfl
  obtain ⟨xs, hleaves, hholds, -⟩ := hmeans (fun text => (readScript text).map (·.map actionForm))
    assertNamedScript _ _ (fun _ h => h) hread rfl
  refine ⟨out, _, _, hprint, hread, rfl, xs, hleaves, fun ρ env hagrees => ?_⟩
  rw [hholds ρ env hagrees]
  exact List.forall_mem_singleton

end Smt2
end Server
end SmtServer
