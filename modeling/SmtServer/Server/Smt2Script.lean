import SmtServer.Server.Smt2Meaning

/-!
# Printed scripts

The commands a request is printed as, as `Printed` expressions, and that `request_to_smt2` prints
exactly these (`requestToSmt2_eq`). It is stated for requests whose names are printed as they stand;
on these nothing is refused: the declarations do not clash, because a validated expression uses each
name at one sort.
-/

namespace SmtServer
namespace Wire

open Lib Outcome

/-- What `validate` says about the expression, the roots and the names of a request. -/
theorem BinaryRequest.roots_of_validate {r : BinaryRequest} (h : r.validate = ok ()) :
    WellFormed r.expression ∧
      (∀ root ∈ r.assertionRoots ++ r.assumptionRoots, ∃ n t,
        (Parts.ofBytes r.expression).nodes[root.idx]? = some n ∧ Tag.tryFrom n.tag = some t ∧
          t.resultSort = .bool) ∧
      ∀ name ∈ r.namedAssertionRefs, ∃ s, (Parts.ofBytes r.expression).textAt name = some s := by
  simp only [validate, bind_eq_ok, ensure_eq_ok, exists_const, forM_eq_ok] at h
  obtain ⟨-, -, -, -, -, v, hview, hasserted, hassumed, hnamed, -⟩ := h
  obtain ⟨hwf, rfl⟩ := parseAndValidate_eq_ok.mp hview
  have hv := isViewOf_viewOf hwf.header
  have hroot : ∀ {root : NodeRef} {context : String} {n : RawNode},
      validateNodeRef (viewOf r.expression) root .bool context = ok n → ∃ n t,
        (Parts.ofBytes r.expression).nodes[root.idx]? = some n ∧ Tag.tryFrom n.tag = some t ∧
          t.resultSort = .bool := by
    intro root context n hn
    simp only [validateNodeRef, bind_eq_ok, ensure_eq_ok, exists_const, hv.node, parseTag,
      ofOption_eq_ok] at hn
    obtain ⟨-, hsort, m, hm, t, ht, htag, -⟩ := hn
    exact ⟨m, t, hm, ht, htag.trans hsort⟩
  refine ⟨hwf, fun root hmem => ?_, fun name hmem => ?_⟩
  · rcases List.mem_append.mp hmem with hmem | hmem
    · obtain ⟨n, hn, -⟩ := hasserted root hmem
      exact hroot hn
    · obtain ⟨n, hn, -⟩ := hassumed root hmem
      exact hroot hn
  · obtain ⟨s, hs, -⟩ := hnamed name hmem
    exact ⟨s, hv.blobStr.mp hs⟩

end Wire

namespace Server
namespace Smt2

open Lib Outcome Wire
open Smtlib (IsToken Printed Reader adds_spaced spaced)

/-! ## Lines -/

/-- Each command on a line of its own. -/
def lines (commands : List Printed) : List Char := commands.flatMap fun c => c.text ++ ['\n']

@[simp] theorem lines_nil : lines [] = [] := rfl

@[simp] theorem lines_cons (c : Printed) (cs : List Printed) :
    lines (c :: cs) = c.text ++ '\n' :: lines cs := by
  rw [lines, List.flatMap_cons, List.append_assoc]
  rfl

@[simp] theorem lines_append (cs ds : List Printed) : lines (cs ++ ds) = lines cs ++ lines ds :=
  List.flatMap_append

theorem adds_lines : ∀ commands : List Printed,
    Reader.Adds (lines commands) (commands.map (·.expr))
  | [] => Reader.adds_nil
  | c :: cs => by
    rw [lines_cons]
    exact c.adds.append rfl (adds_lines cs)

/-- A list with a blank before each item. -/
def blankList (items : List Printed) : Printed where
  text := '(' :: items.flatMap (fun e => ' ' :: e.text) ++ [')']
  expr := .list (items.map (·.expr))
  adds := by
    refine Reader.Adds.list ?_
    cases items with
    | nil => exact Reader.adds_nil
    | cons e items =>
      have hspaced : (e :: items).flatMap (fun e => ' ' :: e.text) =
          [] ++ ' ' :: spaced ((e :: items).map (·.text)) := by
        rw [List.map_cons, spaced_cons, List.flatMap_map]
        rfl
      rw [hspaced]
      exact Reader.adds_nil.append rfl (adds_spaced (e :: items))

/-! ## Commands -/

def sortTerm (sort : WireSort) (width : UInt32) : Printed :=
  match sort with
  | .bool => .token "Bool" (by decide)
  | .bv => .list [.token "_" isToken_underscore, .token "BitVec" (by decide), numeral width.toNat]

def declareCommand (v : Smt2Variable) : Printed :=
  app "declare-fun" (by decide) [symbolTerm v.name, .list [], sortTerm v.sort v.width]

/-- An assertion, under its name if it has one. -/
def assertCommand (name : Option String) (term : Printed) : Printed :=
  match name with
  | some name => app "assert" (by decide)
      [app "!" (by decide) [term, .token ":named" (by decide), symbolTerm name]]
  | none => app "assert" (by decide) [term]

def optionCommand (option : String) (h : IsToken option) (value : Printed) : Printed :=
  app "set-option" (by decide) [.token option h, value]

theorem isToken_produceUnsatCores : IsToken ":produce-unsat-cores" := by decide

theorem isToken_produceModels : IsToken ":produce-models" := by decide

def headerCommands (request : BinaryRequest) : List Printed :=
  [app "set-logic" (by decide) [.token "QF_BV" (by decide)]] ++
    (if request.envelope.budgetMs ≠ 0 then
      [optionCommand ":timeout" (by decide) (numeral request.envelope.budgetMs.toNat)] else []) ++
    (if request.envelope.flags &&& RequestFlags.wantCore ≠ 0 then
      [optionCommand ":produce-unsat-cores" isToken_produceUnsatCores
        (.token "true" isToken_true)] else []) ++
    (if request.envelope.flags &&& RequestFlags.wantModel ≠ 0 then
      [optionCommand ":produce-models" isToken_produceModels (.token "true" isToken_true)] else [])

def footerCommands (request : BinaryRequest) (vars : List Smt2Variable) : List Printed :=
  [app "check-sat" (by decide) []] ++
    (if request.envelope.flags &&& RequestFlags.wantModel ≠ 0 ∧ vars ≠ [] then
      [app "get-value" (by decide) [blankList ((emittedNames vars).map symbolTerm)]] else []) ++
    (if request.envelope.flags &&& RequestFlags.wantCore ≠ 0 then
      [app "get-unsat-core" (by decide) []] else [])

/-- The variables that are declared: the first one of each name. -/
def fresh : List Smt2Variable → List String → List Smt2Variable
  | [], _ => []
  | v :: rest, declared =>
    if v.name ∈ declared then fresh rest declared else v :: fresh rest (v.name :: declared)

/-- The assertions, the first ones with the names there are. -/
def assertCommands (p : Parts) : List NodeRef → List BlobRef → List Printed
  | [], _ => []
  | root :: roots, name :: names =>
    assertCommand (p.textAt name) (p.printed root.idx) :: assertCommands p roots names
  | root :: roots, [] => assertCommand none (p.printed root.idx) :: assertCommands p roots []

/-! ## Their text -/

theorem toList_sortToSmt2 (sort : WireSort) (width : UInt32) :
    (sortToSmt2 sort width).toList = (sortTerm sort width).text := by
  cases sort with
  | bool => rfl
  | bv =>
    simp only [sortToSmt2, sortTerm, text_list, String.toList_append, toString]
    simp

/-- A line that is there under a condition. -/
theorem toList_ite {c : Prop} [Decidable c] {text : String} {commands : List Printed}
    (h : text.toList = lines commands) :
    (if c then text else "").toList = lines (if c then commands else []) := by
  split
  · exact h
  · rfl

theorem toList_option {option text : String} {h : IsToken option} {value : Printed}
    (htext : text.toList =
      "(set-option ".toList ++ option.toList ++ ' ' :: value.text ++ [')', '\n']) :
    text.toList = lines [optionCommand option h value] := by
  rw [htext, optionCommand, lines_cons, text_app]
  simp

theorem toList_header (request : BinaryRequest) :
    (header request).toList = lines (headerCommands request) := by
  have hlogic : "(set-logic QF_BV)\n".toList =
      lines [app "set-logic" (by decide) [.token "QF_BV" (by decide)]] := rfl
  have htimeout : ∀ n : Nat, s!"(set-option :timeout {n})\n".toList =
      lines [optionCommand ":timeout" (by decide) (numeral n)] := by
    intro n
    refine toList_option ?_
    simp only [String.toList_append, text_numeral, toString]
    simp
  have hcores : "(set-option :produce-unsat-cores true)\n".toList = lines [optionCommand
      ":produce-unsat-cores" isToken_produceUnsatCores (.token "true" (by decide))] :=
    toList_option rfl
  have hmodels : "(set-option :produce-models true)\n".toList = lines [optionCommand
      ":produce-models" isToken_produceModels (.token "true" isToken_true)] :=
    toList_option rfl
  unfold header headerCommands
  rw [String.toList_append, String.toList_append, String.toList_append, lines_append, lines_append,
    lines_append, toList_ite (htimeout _), toList_ite hcores, toList_ite hmodels, hlogic]

theorem emittedNames_plain {vars : List Smt2Variable} (h : ∀ v ∈ vars, Plain v.name) :
    ∀ name ∈ emittedNames vars, Plain name := by
  have key : ∀ (vars : List Smt2Variable) (emitted : List String),
      (∀ v ∈ vars, Plain v.name) → (∀ name ∈ emitted, Plain name) →
      ∀ name ∈ vars.foldl (fun emitted v =>
        if v.name ∈ emitted then emitted else emitted ++ [v.name]) emitted, Plain name := by
    intro vars
    induction vars with
    | nil => exact fun _ _ h => h
    | cons v vars ih =>
      intro emitted hvars hemitted
      refine ih _ (fun u hu => hvars u (List.mem_cons_of_mem v hu)) fun name hname => ?_
      dsimp only at hname
      split at hname
      · exact hemitted name hname
      · rcases List.mem_append.mp hname with hname | hname
        · exact hemitted name hname
        · rw [List.mem_singleton.mp hname]
          exact hvars v List.mem_cons_self
  exact key vars [] h nofun

theorem toList_footer {request : BinaryRequest} {vars : List Smt2Variable}
    (h : ∀ v ∈ vars, Plain v.name) :
    (footer request vars).toList = lines (footerCommands request vars) := by
  have hcheck : "(check-sat)\n".toList = lines [app "check-sat" (by decide) []] := rfl
  have hcore : "(get-unsat-core)\n".toList = lines [app "get-unsat-core" (by decide) []] := rfl
  have hnames : ∀ names : List String, (∀ name ∈ names, Plain name) →
      (String.join (names.map fun name => " " ++ quoteSymbol name)).toList =
        (names.map symbolTerm).flatMap fun e => ' ' :: e.text := by
    intro names hplain
    rw [String.toList_join, List.flatMap_map, List.flatMap_map]
    refine List.flatMap_congr fun name hname => ?_
    have hname := hplain name hname
    rw [quoteSymbol_of_plain hname, symbolTerm_of_plain hname, String.toList_append]
    rfl
  have hvalues : ("(get-value (" ++
      String.join ((emittedNames vars).map fun name => " " ++ quoteSymbol name) ++ "))\n").toList =
      lines [app "get-value" (by decide) [blankList ((emittedNames vars).map symbolTerm)]] := by
    rw [String.toList_append, String.toList_append, hnames _ (emittedNames_plain h)]
    simp [text_app, blankList]
  unfold footer footerCommands
  dsimp only
  rw [String.toList_append, String.toList_append, lines_append, lines_append, toList_ite hvalues,
    toList_ite hcore, hcheck]

/-! ## Variables -/

/-- The variable node `i` declares. -/
def variablesAt (p : Parts) (i : Nat) : List Smt2Variable :=
  match p.nodes[i]? with
  | none => []
  | some n =>
    match Tag.tryFrom n.tag with
    | some .bvVar => [⟨.mk' .bv i, p.symbol n, .bv, n.width⟩]
    | some .boolVar => [⟨.mk' .bool i, p.symbol n, .bool, 0⟩]
    | _ => []

def variableList (p : Parts) : List Smt2Variable :=
  (List.range p.nodes.length).flatMap (variablesAt p)

section

variable {p : Parts} {v : ExprView} {u : Smt2Variable} {i : Nat} {n : RawNode} {t : Tag}
  {s : String}

theorem collectVariables_eq (hv : IsViewOf v p) (hp : p.WellFormed)
    (hlen : p.nodes.length ≤ 2 ^ 31) : collectVariables v = ok (variableList p) := by
  have hnode : ∀ i ∈ List.range p.nodes.length, nodeVariable v i = ok (variablesAt p i) := by
    intro i hi
    have hi := List.mem_range.mp hi
    have hn : p.nodes[i]? = some p.nodes[i] := List.getElem?_eq_getElem hi
    obtain ⟨t, ht, hr⟩ := hp.node i _ hn
    have hname : t = .bvVar ∨ t = .boolVar → ∀ context,
        v.blobStr p.nodes[i].blobRef context = ok (p.symbol p.nodes[i]) := by
      intro hvar context
      obtain ⟨s, hs⟩ := hr.blob.name hvar
      rw [hv.blobStr.mpr hs, Parts.symbol, hs, Option.getD_some]
    have href : ∀ σ, NodeRef.new σ (UInt32.ofNat i) = ok (.mk' σ i) := fun σ =>
      NodeRef.new_eq_ok.mpr ⟨by rw [UInt32.toNat_ofNat', Nat.mod_eq_of_lt (by omega)]; omega, by
        rw [UInt32.toNat_ofNat', Nat.mod_eq_of_lt (by omega)]⟩
    rw [nodeVariable, hv.node.mpr hn, ok_bind, variablesAt, hn]
    simp only [ht]
    cases t with
    | bvVar =>
      simp only [href, ok_bind, hname (.inl rfl)]
      rfl
    | boolVar =>
      simp only [href, ok_bind, hname (.inr rfl)]
      rfl
    | _ => rfl
  rw [collectVariables, hv.nodeCount, mapM_of_forall hnode, ok_bind]
  rfl

theorem mem_variableList (hp : p.WellFormed) : u ∈ variableList p ↔ ∃ i n t,
    p.Declares i n t u.name ∧ u = ⟨.mk' t.resultSort i, u.name, t.resultSort, n.width⟩ := by
  rw [variableList, List.mem_flatMap]
  constructor
  · rintro ⟨i, hi, hu⟩
    have hi := List.mem_range.mp hi
    have hn : p.nodes[i]? = some p.nodes[i] := List.getElem?_eq_getElem hi
    obtain ⟨t, ht, hr⟩ := hp.node i _ hn
    have hname : t = .bvVar ∨ t = .boolVar → p.Declares i p.nodes[i] t (p.symbol p.nodes[i]) := by
      intro hvar
      obtain ⟨s, hs⟩ := hr.blob.name hvar
      refine ⟨hn, ht, hvar, ?_⟩
      rw [Parts.symbol, hs, Option.getD_some]
    have hwidth := hr.width
    rw [variablesAt, hn] at hu
    simp only [ht] at hu
    cases t with
    | bvVar =>
      obtain rfl := List.mem_singleton.mp hu
      exact ⟨i, _, _, hname (.inl rfl), rfl⟩
    | boolVar =>
      obtain rfl := List.mem_singleton.mp hu
      have hzero : p.nodes[i].width = 0 := UInt32.toNat_inj.mp hwidth
      exact ⟨i, _, _, hname (.inr rfl), by rw [hzero]; rfl⟩
    | _ => cases hu
  · rintro ⟨i, n, t, ⟨hn, ht, hvar, hs⟩, hu⟩
    have hi := (List.getElem?_eq_some_iff.mp hn).1
    refine ⟨i, List.mem_range.mpr hi, ?_⟩
    obtain ⟨u', ht', hr⟩ := hp.node i n hn
    obtain rfl : t = u' := Option.some.inj (ht.symm.trans ht')
    have hsymbol : p.symbol n = u.name := by rw [Parts.symbol, hs, Option.getD_some]
    have hwidth := hr.width
    rw [variablesAt, hn]
    simp only [ht]
    rcases hvar with rfl | rfl
    · rw [hu, ← hsymbol]
      exact List.mem_singleton_self _
    · have hzero : n.width = 0 := UInt32.toNat_inj.mp hwidth
      rw [hu, ← hsymbol, hzero]
      exact List.mem_singleton_self _

theorem variableList_plain (hp : p.WellFormed) (hplain : p.PlainNames) :
    ∀ u ∈ variableList p, Plain u.name := by
  intro u hu
  obtain ⟨i, n, t, hd, -⟩ := (mem_variableList hp).mp hu
  exact hplain i n t u.name hd

/-- A name is used at one sort. -/
theorem variableList_sorts (hp : p.WellFormed) {u u' : Smt2Variable} (hu : u ∈ variableList p)
    (hu' : u' ∈ variableList p) (hname : u.name = u'.name) :
    u.sort = u'.sort ∧ u.width = u'.width := by
  obtain ⟨i, n, t, hd, heq⟩ := (mem_variableList hp).mp hu
  obtain ⟨j, m, t', hd', heq'⟩ := (mem_variableList hp).mp hu'
  obtain ⟨hsort, hwidth⟩ := hp.symbols hd (hname ▸ hd')
  rw [heq, heq']
  exact ⟨hsort, hwidth⟩

/-! ## Declarations -/

theorem toList_declareLine (hu : Plain u.name) :
    s!"(declare-fun {quoteSymbol u.name} () {sortToSmt2 u.sort u.width})\n".toList =
      lines [declareCommand u] := by
  simp only [declareCommand, String.toList_append, toList_sortToSmt2, quoteSymbol_of_plain hu,
    symbolTerm_of_plain hu, lines_cons, lines_nil, text_app, toString]
  simp [Printed.list, spaced]

/-- Variables that agree on the sort of each name are declared, each name once. -/
theorem declarations_eq {vars : List Smt2Variable} {declared : List (String × WireSort × UInt32)}
    (hplain : ∀ u ∈ vars, Plain u.name)
    (hdeclared : ∀ u ∈ vars, ∀ sort width, declared.lookup u.name = some (sort, width) →
      sort = u.sort ∧ width = u.width)
    (hsorts : ∀ u ∈ vars, ∀ u' ∈ vars, u.name = u'.name → u.sort = u'.sort ∧ u.width = u'.width) :
    ∃ text, declarations vars declared = ok text ∧
      text.toList = lines ((fresh vars (declared.map (·.1))).map declareCommand) := by
  induction vars generalizing declared with
  | nil => exact ⟨"", rfl, rfl⟩
  | cons u vars ih =>
    have hplain' := fun w hw => hplain w (List.mem_cons_of_mem u hw)
    have hsorts' := fun w hw w' hw' =>
      hsorts w (List.mem_cons_of_mem u hw) w' (List.mem_cons_of_mem u hw')
    rw [declarations, fresh]
    cases hlookup : declared.lookup u.name with
    | some sort =>
      have hmem : u.name ∈ declared.map (·.1) := by
        obtain ⟨before, after, heq, -⟩ := List.lookup_eq_some_iff.mp hlookup
        simp [heq]
      rw [if_pos hmem]
      dsimp only
      rw [if_pos (hdeclared u List.mem_cons_self _ _ hlookup)]
      exact ih hplain' (fun w hw => hdeclared w (List.mem_cons_of_mem u hw)) hsorts'
    | none =>
      have hmem : u.name ∉ declared.map (·.1) := by
        rintro hmem
        obtain ⟨entry, hentry, hname⟩ := List.mem_map.mp hmem
        exact bne_iff_ne.mp (List.lookup_eq_none_iff.mp hlookup entry hentry) hname.symm
      obtain ⟨text, hrun, htext⟩ := @ih ((u.name, u.sort, u.width) :: declared) hplain' (by
        intro w hw sort width hl
        rw [List.lookup_cons] at hl
        split at hl
        · obtain ⟨rfl, rfl⟩ := Prod.mk.inj (Option.some.inj hl)
          exact hsorts u List.mem_cons_self w (List.mem_cons_of_mem u hw)
            (beq_iff_eq.mp ‹_›).symm
        · exact hdeclared w (List.mem_cons_of_mem u hw) sort width hl) hsorts'
      rw [if_neg hmem]
      dsimp only
      rw [hrun, ok_bind]
      refine ⟨_, rfl, ?_⟩
      rw [String.toList_append, toList_declareLine (hplain u List.mem_cons_self), htext,
        ← lines_append]
      rfl

/-! ## Assertions -/

/-- The printed roots, each under its name. -/
theorem assertions_yields (hv : IsViewOf v p) (hp : p.WellFormed) (hplain : p.PlainNames)
    {roots : List NodeRef} {names : List BlobRef}
    (hroots : ∀ root ∈ roots, root.idx < p.nodes.length)
    (hnames : ∀ name ∈ names, ∃ s, p.textAt name = some s ∧ Plain s) :
    Yields p (assertions v roots names) fun text =>
      text.toList = lines (assertCommands p roots names) := by
  induction roots generalizing names with
  | nil => exact yields_pure rfl
  | cons root roots ih =>
    have hterm : YieldsText p (termRef v root) (p.printed root.idx) := by
      have hi := hroots root List.mem_cons_self
      exact termNode_yields hv hp hplain hi (by rw [hv.nodeCount]; exact hi)
    have hroots' := fun r hr => hroots r (List.mem_cons_of_mem root hr)
    cases names with
    | nil =>
      refine hterm.bind fun term htext => (ih hroots' hnames).bind fun rest hrest => yields_pure ?_
      simp only [String.toList_append, assertCommands, assertCommand, hrest, htext, lines_cons,
        text_app, toString]
      simp
    | cons name names =>
      obtain ⟨s, hs, hplain'⟩ := hnames name List.mem_cons_self
      have hnames' := fun b hb => hnames b (List.mem_cons_of_mem name hb)
      refine hterm.bind fun term htext => Yields.lift_bind (hv.blobStr.mpr hs) ?_
      refine (ih hroots' hnames').bind fun rest hrest => yields_pure ?_
      simp only [String.toList_append, assertCommands, assertCommand, hrest, htext, hs, lines_cons,
        text_app, toString, symbolTerm_of_plain hplain', quoteSymbol_of_plain hplain']
      simp [text_app]

/-! ## Scripts -/

/-- The commands a request is printed as. -/
def scriptCommands (request : BinaryRequest) (p : Parts) : List Printed :=
  headerCommands request ++ (fresh (variableList p) []).map declareCommand ++
    assertCommands p request.assertionRoots request.namedAssertionRefs ++
    assertCommands p request.assumptionRoots [] ++ footerCommands request (variableList p)

/-- Every symbol and every assertion name is printed as it stands. -/
structure PlainRequest (request : BinaryRequest) (p : Parts) : Prop where
  symbols : p.PlainNames
  names : ∀ name ∈ request.namedAssertionRefs, ∀ s, p.textAt name = some s → Plain s

/-- **A valid request with plain names is printed**, and as its commands. -/
theorem requestToSmt2_eq {request : BinaryRequest} (hvalid : request.validate = ok ())
    (hplain : PlainRequest request (Parts.ofBytes request.expression)) :
    ∃ out, requestToSmt2 request = ok out ∧
      out.script.toList = lines (scriptCommands request (Parts.ofBytes request.expression)) := by
  obtain ⟨hwf, hroots, hnames⟩ := BinaryRequest.roots_of_validate hvalid
  have hv := isViewOf_viewOf hwf.header
  have hp := hwf.dag
  have hview : request.expressionView = ok (viewOf request.expression) :=
    parseAndValidate_eq_ok.mpr ⟨hwf, rfl⟩
  set p := Parts.ofBytes request.expression with hpdef
  have hlen : p.nodes.length ≤ 2 ^ 31 := by
    rw [hpdef, Parts.length_nodes_ofBytes]
    exact hwf.header.nodes
  have hvars := variableList_plain hp hplain.symbols
  obtain ⟨declared, hdeclared, hdeclaredText⟩ :=
    @declarations_eq (variableList p) [] hvars nofun fun u hu u' hu' =>
      variableList_sorts hp hu hu'
  have hcache : CacheOk p (List.replicate (viewOf request.expression).header.nodeCount.toNat
      none) := by
    refine ⟨by rw [List.length_replicate, hv.nodeCount], fun i text hi => ?_⟩
    rw [List.getElem?_replicate] at hi
    split at hi <;> simp at hi
  have hidx : ∀ root ∈ request.assertionRoots ++ request.assumptionRoots,
      root.idx < p.nodes.length := by
    intro root hroot
    obtain ⟨n, t, hn, -⟩ := hroots root hroot
    exact (List.getElem?_eq_some_iff.mp hn).1
  obtain ⟨asserted, cache, hasserted, hcache', hassertedText⟩ :=
    assertions_yields hv hp hplain.symbols
      (fun root hroot => hidx root (List.mem_append_left _ hroot))
      (fun name hname => by
        obtain ⟨s, hs⟩ := hnames name hname
        exact ⟨s, hs, hplain.names name hname s hs⟩) _ hcache
  obtain ⟨assumed, cache', hassumed, -, hassumedText⟩ :=
    @assertions_yields _ _ hv hp hplain.symbols request.assumptionRoots []
      (fun root hroot => hidx root (List.mem_append_right _ hroot)) nofun _ hcache'
  refine ⟨⟨header request ++ declared ++ asserted ++ assumed ++
    footer request (variableList p), variableList p⟩, ?_, ?_⟩
  · rw [requestToSmt2, hview, ok_bind, collectVariables_eq hv hp hlen, ok_bind, hdeclared, ok_bind]
    dsimp only
    rw [hasserted, ok_bind]
    dsimp only
    rw [hassumed, ok_bind]
    rfl
  · simp only [String.toList_append, toList_header, hdeclaredText, hassertedText, hassumedText,
      toList_footer hvars, scriptCommands, lines_append, List.map_nil]

end

end Smt2
end Server
end SmtServer
