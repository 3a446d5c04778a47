import SmtServer.Qfbv.BlastSound
import SmtServer.Qfbv.Check

/-!
# Blasting a query

The loop over the nodes keeps `Progress`: every node passed so far that is wanted has gates that
compute its value, on the inputs of any assignment to the variables so far. The nodes that are
wanted are closed under children, because the marking before the loop is (`Lib.Reach`). In the end
the output is true on the inputs of an assignment just when the query holds under it (`Faithful`),
every assignment has its inputs, and any inputs are those of an assignment.
-/

namespace SmtServer
namespace Qfbv

open Lib Outcome
open Lib.Smt (Value)

namespace Blast

open Circuits GateArena

variable {q : Query} {ctx : BlastContext} {s : GateArena} {inputs : Nat → Bool} {ρ : Env}
  {t : TermId} {w : Nat}

/-! ## Variables -/

/-- The bits of a value; a Bool is one bit. -/
def valueBits : Value → List Bool
  | .bool b => [b]
  | .bv _ x => BitList.bits x

/-- The inputs of the variables are the bits of their values. -/
def Reads (arena : Arena) (s : GateArena) (inputs : Nat → Bool) (ρ : Env)
    (vars : List BlastedVariable) : Prop :=
  ∀ v ∈ vars, s.ComputesAll inputs v.bits (valueBits (arena.value ρ v.term))

/-- All of a variable but its gates. -/
abbrev Declaration := TermId × String × Option Nat × TermSort

def declaration (v : BlastedVariable) : Declaration := (v.term, v.name, v.external, v.sort)

/-- The variable that a node is. -/
def declares (t : TermId) : NodeKind → Option Declaration
  | .bvVar width name external => some (t, name, external, .bv width)
  | .boolVar name external => some (t, name, external, .bool)
  | _ => none

def sortBits : TermSort → Nat
  | .bool => 1
  | .bv w => w

/-- A variable of the arena, with as many gates as its sort has bits. -/
def Declared (arena : Arena) (v : BlastedVariable) : Prop :=
  (arena.kindAt v.term).bind (declares v.term) = some (declaration v) ∧
    v.bits.length = sortBits v.sort

/-- The value of a variable is what the assignment says. -/
theorem Declared.value {arena : Arena} (hs : arena.Inv) {v : BlastedVariable}
    (hv : Declared arena v) : arena.value ρ v.term = match v.sort with
      | .bool => .bool (ρ.bool v.term)
      | .bv w => .bv w (.ofNat w (ρ.bv v.term)) := by
  obtain ⟨k, hk, hdecl⟩ := Option.bind_eq_some_iff.mp hv.1
  rw [hs.value_kind hk]
  cases k with
  | bvVar width name external =>
    have hsort : TermSort.bv width = v.sort := by
      rw [declares, declaration, Option.some_inj] at hdecl
      exact congrArg (·.2.2.2) hdecl
    rw [← hsort]
    rfl
  | boolVar name external =>
    have hsort : TermSort.bool = v.sort := by
      rw [declares, declaration, Option.some_inj] at hdecl
      exact congrArg (·.2.2.2) hdecl
    rw [← hsort]
    rfl
  | _ => cases hdecl

theorem length_valueBits {arena : Arena} (hs : arena.Inv) {v : BlastedVariable}
    (hv : Declared arena v) : (valueBits (arena.value ρ v.term)).length = v.bits.length := by
  rw [hv.2, hv.value hs]
  cases v.sort with
  | bool => rfl
  | bv w => exact BitList.length_bits

theorem forall₂_of_flatMap {α β γ : Type} {R : β → γ → Prop} {f : α → List β} {g : α → List γ}
    {xs : List α} (hlen : ∀ x ∈ xs, (g x).length = (f x).length)
    (h : List.Forall₂ R (xs.flatMap f) (xs.flatMap g)) :
    ∀ x ∈ xs, List.Forall₂ R (f x) (g x) := by
  induction xs with
  | nil => simp
  | cons x xs ih =>
    rw [List.flatMap_cons, List.flatMap_cons] at h
    have hx := hlen x (.head _)
    have hleft := List.forall₂_take (f x).length h
    have hright := List.forall₂_drop (f x).length h
    rw [List.take_left, ← hx, List.take_left] at hleft
    rw [List.drop_left, ← hx, List.drop_left] at hright
    intro y hy
    rcases List.mem_cons.mp hy with rfl | hy
    · exact hleft
    · exact ih (fun y hy => hlen y (.tail _ hy)) hright y hy

/-- Any assignment is read from some inputs. -/
theorem exists_reads {arena : Arena} {vars : List BlastedVariable} (ha : arena.Inv) (hs : s.Inv)
    (hin : s.Inputs (vars.flatMap (·.bits))) (hvars : ∀ v ∈ vars, Declared arena v) (ρ : Env) :
    ∃ inputs, Reads arena s inputs ρ vars := by
  have hlen : ∀ v ∈ vars, (valueBits (arena.value ρ v.term)).length = v.bits.length :=
    fun v hv => length_valueBits ha (hvars v hv)
  have htotal : (vars.flatMap fun v => valueBits (arena.value ρ v.term)).length =
      (vars.flatMap (·.bits)).length := by
    rw [List.length_flatMap, List.length_flatMap, List.map_congr_left hlen]
  obtain ⟨inputs, h⟩ := hin.exists_inputs hs htotal
  exact ⟨inputs, forall₂_of_flatMap hlen h⟩

/-- What a larger arena reads from gates of this one, this one reads. -/
theorem Reads.of_le {arena : Arena} {s' : GateArena} {vars : List BlastedVariable}
    (h : Reads arena s' inputs ρ vars) (hle : s ≤ s') (hfits : s'.Fits)
    (hlt : ∀ g ∈ vars.flatMap (·.bits), g < s.gates.length) : Reads arena s inputs ρ vars := by
  intro v hv
  have hbits : ∀ g ∈ v.bits, g < s.gates.length :=
    fun g hg => hlt g (List.mem_flatMap.mpr ⟨v, hv, hg⟩)
  refine List.Forall₂.imp ?_ ((List.forall₂_and_left _ _).mpr ⟨hbits, h v hv⟩)
  rintro g b ⟨hg, hb⟩
  exact ⟨hg, fun _ => (value_mono hle hg).symm.trans (hb.2 hfits)⟩

theorem Reads.append {arena : Arena} {xs ys : List BlastedVariable} :
    Reads arena s inputs ρ (xs ++ ys) ↔ Reads arena s inputs ρ xs ∧ Reads arena s inputs ρ ys := by
  simp only [Reads, List.forall_mem_append]

/-- What `blastKind` makes of node `t`, whatever its kind: fresh gates for a variable, and gates
with the value of the term where the variables so far, and the one that is new, are read. -/
structure Blasts (q : Query) (ctx : BlastContext) (s : GateArena) (t : TermId) (k : NodeKind)
    (out : Blasted) (s' : GateArena) : Prop where
  inputs : ∀ before, s.Inputs before → s'.Inputs (before ++ out.2.toList.flatMap (·.bits))
  declares : out.2.map declaration = declares t k
  declared : ∀ v ∈ out.2.toList, Declared q.arena v
  means : ∀ inputs ρ, Reads q.arena s inputs ρ ctx.vars →
    Reads q.arena s' inputs ρ out.2.toList → s'.Means inputs out.1 (q.arena.value ρ t)

theorem term_of_declares {k : NodeKind} {d : Declaration} (h : declares t k = some d) :
    d.1 = t := by
  cases k with
  | bvVar | boolVar => exact congrArg (·.1) (Option.some.inj h).symm
  | _ => cases h

theorem declares_of_not_isVar {k : NodeKind} (h : isVar k = false) : declares t k = none := by
  cases k <;> first | rfl | cases h

theorem blastVar_spec {k : NodeKind} (hs : q.arena.Inv) (hk : q.arena.kindAt t = some k)
    (hvar : isVar k = true) : FitSpec (blastKind q ctx t k) s (Blasts q ctx s t k) := by
  obtain ⟨σ, ht, hσ⟩ := hs.hasSort hk
  cases k with
  | bvVar width name external =>
    obtain rfl : σ = .bv width := hσ
    refine (inputs_spec (List.range width)).bind fun bits s' _ _ hbits => fitSpec_pure fun _ => ?_
    have hlen : bits.length = width := hbits.1.trans List.length_range
    refine ⟨fun before h => by simpa using hbits.2 before h, rfl, ?_, fun inputs ρ _ hreads => ?_⟩
    · rintro v (_ | ⟨_, ⟨⟩⟩)
      exact ⟨by rw [hk]; rfl, hlen⟩
    · have := hreads _ (.head _)
      rw [Arena.IsBv.value_eq hs ht] at this ⊢
      exact this
  | boolVar name external =>
    obtain rfl : σ = .bool := hσ
    refine input_spec.bind fun g s' hle _ hg => fitSpec_pure fun _ => ?_
    refine ⟨fun before h => by simpa using h.snoc hle hg.1 hg.2, rfl, ?_,
      fun inputs ρ _ hreads => ?_⟩
    · rintro v (_ | ⟨_, ⟨⟩⟩)
      exact ⟨by rw [hk]; rfl, rfl⟩
    · have := hreads _ (.head _)
      rw [hs.value_bool ht] at this ⊢
      exact (List.forall₂_cons.mp this).1
  | _ => cases hvar

/-- The gates of any node. -/
theorem blasts_spec {k : NodeKind} (hs : q.arena.Inv) (hk : q.arena.kindAt t = some k)
    (hinhabited : ∃ inputs ρ, Reads q.arena s inputs ρ ctx.vars)
    (hchild : ∀ inputs ρ, Reads q.arena s inputs ρ ctx.vars →
      ∀ j ∈ k.children, ctx.Has s inputs j (q.arena.value ρ j)) :
    FitSpec (blastKind q ctx t k) s (Blasts q ctx s t k) := by
  cases hvar : isVar k with
  | true => exact blastVar_spec hs hk hvar
  | false =>
    obtain ⟨inputs, ρ, hreads⟩ := hinhabited
    have : Nonempty {p : (Nat → Bool) × Env // Reads q.arena s p.1 p.2 ctx.vars} :=
      ⟨⟨(inputs, ρ), hreads⟩⟩
    have hall := Grow.spec_forall fun p : {p : (Nat → Bool) × Env //
      Reads q.arena s p.1 p.2 ctx.vars} => blastKind_spec hs hk hvar (hchild p.1.1 p.1.2 p.2)
    refine FitSpec.mono hall fun out s' hle _ h => ?_
    have hnone : out.2 = none := (h ⟨(inputs, ρ), hreads⟩).1
    refine ⟨fun before h => ?_, ?_, fun v hv => ?_, fun inputs' ρ' hreads' _ => ?_⟩
    · rw [hnone, Option.toList_none, List.flatMap_nil, List.append_nil]
      exact h.mono hle
    · rw [hnone, declares_of_not_isVar hvar]
      rfl
    · rw [hnone] at hv
      exact absurd hv List.not_mem_nil
    · exact (h ⟨(inputs', ρ'), hreads'⟩).2

/-! ## All nodes -/

/-- The node is turned into gates: something reaches it, or it is a variable of the model. -/
def included (q : Query) (reachable : List Bool) (t : TermId) : Bool :=
  reachable.getD t false || (q.wantModel && (q.arena.kindAt t).any isVar)

/-- The variables among the first `n` nodes. -/
def declarations (q : Query) (reachable : List Bool) (n : Nat) : List Declaration :=
  (List.range n).filterMap fun t =>
    if included q reachable t then (q.arena.kindAt t).bind (declares t) else none

/-- The loop after `n` nodes. -/
structure Progress (q : Query) (reachable : List Bool) (n : Nat) (ctx : BlastContext)
    (s : GateArena) : Prop where
  length : ctx.values.length = q.arena.nodes.length
  inputs : s.Inputs (ctx.vars.flatMap (·.bits))
  declares : ctx.vars.map declaration = declarations q reachable n
  declared : ∀ v ∈ ctx.vars, Declared q.arena v
  means : ∀ inputs ρ, Reads q.arena s inputs ρ ctx.vars →
    ∀ t < n, included q reachable t = true → ctx.Has s inputs t (q.arena.value ρ t)

/-- The nodes that are turned into gates have children that are. -/
def Closed (q : Query) (reachable : List Bool) : Prop :=
  ∀ t k, q.arena.kindAt t = some k → included q reachable t = true →
    ∀ j ∈ k.children, included q reachable j = true

theorem Progress.init (q : Query) (reachable : List Bool) :
    Progress q reachable 0 ⟨List.replicate q.arena.nodes.length none, []⟩ GateArena.new where
  length := List.length_replicate
  inputs := .nil
  declares := rfl
  declared := by simp
  means := by simp

theorem declarations_succ (q : Query) (reachable : List Bool) (n : Nat) :
    declarations q reachable (n + 1) = declarations q reachable n ++
      (if included q reachable n then (q.arena.kindAt n).bind (declares n) else none).toList := by
  rw [declarations, List.range_succ, List.filterMap_append, declarations]
  refine congrArg (_ ++ ·) ?_
  rw [List.filterMap_cons]
  cases if included q reachable n then (q.arena.kindAt n).bind (declares n) else none <;> rfl

/-- A node is passed over. -/
theorem Progress.skip {reachable : List Bool} {n : Nat} (h : Progress q reachable n ctx s)
    (hn : included q reachable n = false) : Progress q reachable (n + 1) ctx s where
  length := h.length
  inputs := h.inputs
  declares := by rw [declarations_succ, hn, h.declares]; simp
  declared := h.declared
  means inputs ρ hreads t ht hinc := by
    rcases Nat.lt_succ_iff_lt_or_eq.mp ht with ht | rfl
    · exact h.means inputs ρ hreads t ht hinc
    · exact absurd (hn.symm.trans hinc) (by simp)

/-- A node has got its gates. -/
theorem Progress.step {reachable : List Bool} {n : Nat} {k : NodeKind} {out : Blasted}
    {s' : GateArena} (h : Progress q reachable n ctx s) (hk : q.arena.kindAt n = some k)
    (hn : included q reachable n = true) (hlt : n < q.arena.nodes.length) (hle : s ≤ s')
    (hfits : s'.Fits) (hout : Blasts q ctx s n k out s') :
    Progress q reachable (n + 1)
      ⟨ctx.values.set n (some out.1), ctx.vars ++ out.2.toList⟩ s' where
  length := List.length_set.trans h.length
  inputs := by
    rw [List.flatMap_append]
    exact hout.inputs _ h.inputs
  declares := by
    rw [declarations_succ, if_pos hn, hk, List.map_append, h.declares, Option.bind_some,
      ← hout.declares]
    cases out.2 <;> rfl
  declared := List.forall_mem_append.mpr ⟨h.declared, hout.declared⟩
  means inputs ρ hreads t ht hinc := by
    obtain ⟨hreads₁, hreads₂⟩ := Reads.append.mp hreads
    have hbefore := hreads₁.of_le hle hfits fun g hg => h.inputs.lt_length hg
    by_cases htn : n = t
    · subst htn
      exact ⟨out.1, List.getElem?_set_self (h.length ▸ hlt), hout.means inputs ρ hbefore hreads₂⟩
    · obtain ⟨v, hget, hv⟩ := h.means inputs ρ hbefore t (by
        exact Nat.lt_of_le_of_ne (Nat.lt_succ_iff.mp ht) (Ne.symm htn)) hinc
      exact ⟨v, by rw [List.getElem?_set_ne htn, hget], hv.mono hle⟩

variable {deadline cancellation : Option Bool}

theorem blastNode_spec {reachable : List Bool} {n : Nat} {node : Node} (hs : q.arena.Inv)
    (hlimits : Cnf.checkLimits deadline cancellation = ok ()) (hclosed : Closed q reachable)
    (hlen : reachable.length = q.arena.nodes.length) (hnode : q.arena.nodes[n]? = some node)
    (h : Progress q reachable n ctx s) :
    FitSpec (blastNode q deadline cancellation reachable ctx (node, n)) s
      (Progress q reachable (n + 1)) := by
  have hlt : n < q.arena.nodes.length := (List.getElem?_eq_some_iff.mp hnode).1
  have hk : q.arena.kindAt n = some node.kind := Arena.kindAt_of_node hnode
  have hreach : reachable[n]? = some (reachable.getD n false) := by
    rw [List.getElem?_eq_getElem (hlen ▸ hlt), List.getD_eq_getElem _ _ (hlen ▸ hlt)]
  have hinc : included q reachable n = (reachable.getD n false || (q.wantModel && isVar node.kind)) := by
    rw [included, hk, Option.any_some]
  have hskip : (!reachable.getD n false && !(q.wantModel && isVar node.kind)) = true ↔
      included q reachable n = false := by
    rw [hinc, ← Bool.not_or, Bool.not_eq_true']
  have hbody : FitSpec (do
      let includeForModel := q.wantModel && isVar node.kind
      let reached ← Grow.lift (expect reachable[n]?)
      if !reached && !includeForModel then pure ctx
      else
        let out ← blastKind q ctx n node.kind
        pure { values := ctx.values.set n (some out.1)
               vars := ctx.vars ++ out.2.toList }) s (Progress q reachable (n + 1)) := by
    refine fitSpec_lift (a := reachable.getD n false) (by rw [hreach, expect_some]) ?_
    by_cases hn : included q reachable n = false
    · rw [if_pos (hskip.mpr hn)]
      exact fitSpec_pure fun _ => h.skip hn
    · rw [if_neg (fun hc => hn (hskip.mp hc))]
      have hn' : included q reachable n = true := by simpa using hn
      refine fitSpec_inv fun hinv => ?_
      obtain ⟨inputs, hreads⟩ := exists_reads hs hinv h.inputs h.declared ⟨fun _ => 0, fun _ => false⟩
      have hchild : ∀ inputs ρ, Reads q.arena s inputs ρ ctx.vars →
          ∀ j ∈ node.kind.children, ctx.Has s inputs j (q.arena.value ρ j) :=
        fun inputs ρ hreads j hj => h.means inputs ρ hreads j (hs.ordered n node hnode j hj)
          (hclosed n node.kind hk hn' j hj)
      have hspec := blasts_spec hs hk ⟨inputs, _, hreads⟩ hchild
      refine FitSpec.bind (P := fun out s' => s'.Fits ∧ s ≤ s' ∧ Blasts q ctx s n node.kind out s')
        (Grow.Spec.mono_limit hspec fun out s' hle hfits _ hout => ⟨hfits, hle, hout⟩)
        fun out s' _ _ hout => fitSpec_pure fun _ => ?_
      exact h.step hk hn' hlt hout.2.1 hout.1 hout.2.2
  rw [blastNode]
  by_cases hcheck : n % 1024 = 0
  · rw [if_pos hcheck]
    exact fitSpec_lift hlimits hbody
  · rw [if_neg hcheck]
    exact hbody

/-! ## What the roots reach -/

/-- The children of a term; there are none where there is no such term. -/
def childrenAt (arena : Arena) (t : TermId) : List TermId :=
  ((arena.kindAt t).map NodeKind.children).getD []

/-- The roots of the query: its assertions and assumptions, and its target. -/
def roots (q : Query) : List TermId := q.assertionsAndAssumptions ++ q.target.toList

theorem sum_getD (xs : List Nat) : ∑ i ∈ Finset.range xs.length, xs.getD i 0 = xs.sum := by
  induction xs with
  | nil => rfl
  | cons x xs ih =>
    rw [List.length_cons, Finset.sum_range_succ', List.sum_cons, ← ih, Nat.add_comm]
    rfl

theorem pending_childrenAt (arena : Arena) :
    Reach.pending (childrenAt arena) (List.replicate arena.nodes.length false) =
      (arena.nodes.map fun node => node.kind.children.length).sum := by
  have hterm : ∀ i ∈ Finset.range arena.nodes.length,
      (if (List.replicate arena.nodes.length false)[i]? = some true then 0
        else (childrenAt arena i).length) =
      (arena.nodes.map fun node => node.kind.children.length).getD i 0 := by
    intro i hi
    have hlt := Finset.mem_range.mp hi
    rw [List.getElem?_replicate, if_pos hlt, if_neg (by simp), childrenAt, Arena.kindAt,
      List.getD_eq_getElem _ _ (by simpa using hlt), List.getElem?_eq_getElem hlt]
    simp
  rw [Reach.pending, List.length_replicate, Finset.sum_congr rfl hterm]
  rw [← sum_getD, List.length_map]

/-- **The marking ends, and marks what the roots reach.** -/
theorem reachableTerms_answers (hs : q.arena.Inv)
    (hlimits : Cnf.checkLimits deadline cancellation = ok ())
    (hroots : ∀ t ∈ roots q, t < q.arena.nodes.length) :
    Answers (reachableTerms q deadline cancellation) fun reachable =>
      reachable.length = q.arena.nodes.length ∧ ∀ t, reachable[t]? = some true ↔
        Reach.Reachable (childrenAt q.arena) (roots q).reverse t := by
  have hlen : (List.replicate q.arena.nodes.length false).length = q.arena.nodes.length :=
    List.length_replicate
  have hkind : ∀ t, t < q.arena.nodes.length → ∃ node, q.arena.nodes[t]? = some node ∧
      childrenAt q.arena t = node.kind.children := by
    intro t ht
    refine ⟨_, List.getElem?_eq_getElem ht, ?_⟩
    rw [childrenAt, Arena.kindAt, List.getElem?_eq_getElem ht]
    rfl
  refine (Reach.mark_answers ?_ ?_ ?_ ?_ (Reach.Marking.init _) ?_).mono
    fun reachable h => ⟨h.1.trans hlen, h.2⟩
  · intro steps
    split
    · exact hlimits
    · rfl
  · intro t ht
    obtain ⟨node, hnode, hchildren⟩ := hkind t (hlen ▸ ht)
    rw [pushChildren, Arena.node, hnode, hchildren]
    rfl
  · intro t ht j hj
    obtain ⟨node, hnode, hchildren⟩ := hkind t (hlen ▸ ht)
    rw [hchildren] at hj
    rw [hlen]
    exact Nat.lt_trans (hs.ordered t node hnode j hj) (hlen ▸ ht)
  · intro t ht
    rw [hlen]
    exact hroots t (List.mem_reverse.mp ht)
  · rw [pending_childrenAt, List.length_reverse]

theorem included_of_marked {reachable : List Bool} {t : TermId} (h : reachable[t]? = some true) :
    included q reachable t = true := by
  rw [included, List.getD_eq_getElem?_getD, h]
  rfl

/-- The mark of a term says whether the roots reach it. -/
def Marks (q : Query) (reachable : List Bool) : Prop :=
  ∀ t, reachable[t]? = some true ↔ Reach.Reachable (childrenAt q.arena) (roots q).reverse t

theorem closed_of_reachable {reachable : List Bool}
    (hlen : reachable.length = q.arena.nodes.length) (h : Marks q reachable) :
    Closed q reachable := by
  intro t k hk hinc j hj
  rw [included, Bool.or_eq_true] at hinc
  rcases hinc with hreach | hvar
  · obtain ⟨node, hnode, rfl⟩ := Arena.kindAt_eq_some.mp hk
    have hlt : t < q.arena.nodes.length := (List.getElem?_eq_some_iff.mp hnode).1
    have ht : reachable[t]? = some true := by
      rw [List.getElem?_eq_getElem (hlen ▸ hlt), ← List.getD_eq_getElem reachable false (hlen ▸ hlt), hreach]
    have hchild : j ∈ childrenAt q.arena t := by
      rw [childrenAt, hk]
      exact hj
    exact included_of_marked ((h j).mpr (((h t).mp ht).step hchild))
  · rw [hk, Option.any_some, Bool.and_eq_true] at hvar
    cases k with
    | bvVar | boolVar => exact absurd hj List.not_mem_nil
    | _ => cases hvar.2

/-! ## The whole query -/

/-- The roots as gates. -/
theorem mapM_bool {ts : List TermId} {p : TermId → Bool}
    (h : ∀ t ∈ ts, ctx.Has s inputs t (.bool (p t))) :
    ∃ gs, ts.mapM ctx.bool = ok gs ∧ s.ComputesAll inputs gs (ts.map p) := by
  induction ts with
  | nil => exact ⟨[], rfl, .nil⟩
  | cons t ts ih =>
    obtain ⟨g, hg, hcomputes⟩ := (h t (.head _)).bool
    obtain ⟨gs, hgs, hrest⟩ := ih fun t ht => h t (.tail _ ht)
    exact ⟨g :: gs, by rw [List.mapM_cons, hg, hgs]; rfl, .cons hcomputes hrest⟩

/-- The query holds under the assignment. -/
def holds (q : Query) (ρ : Env) : Bool :=
  (q.assertionsAndAssumptions.map fun t => (q.arena.value ρ t).toBool).all id

theorem holds_iff : holds q ρ = true ↔ q.Holds ρ := by
  simp [holds, Query.Holds]

/-- **What blasting is for.** The result has the variables of the query, each with input gates of its
own, and an output that is true on the inputs of an assignment just when the query holds under it. -/
structure Faithful (q : Query) (reachable : List Bool) (out : GateId × List BlastedVariable)
    (s : GateArena) : Prop where
  inputs : s.Inputs (out.2.flatMap (·.bits))
  declares : out.2.map declaration = declarations q reachable q.arena.nodes.length
  declared : ∀ v ∈ out.2, Declared q.arena v
  assertion : ∀ inputs ρ, Reads q.arena s inputs ρ out.2 → s.Computes inputs out.1 (holds q ρ)

/-- The part of `blast_query_with_limits` before the roots are asserted. -/
def blastTerms (query : Query) (deadline cancellation : Option Bool) : GateM BlastContext := do
  let reachable ← Grow.lift (reachableTerms query deadline cancellation)
  query.arena.nodes.zipIdx.foldlM (blastNode query deadline cancellation reachable)
    { values := List.replicate query.arena.nodes.length none, vars := [] }

theorem blastAll_eq (q : Query) (deadline cancellation : Option Bool) :
    blastAll q deadline cancellation = blastTerms q deadline cancellation >>= fun ctx =>
      Grow.lift (q.assertionsAndAssumptions.mapM ctx.bool) >>= fun assertionBits =>
        andMany assertionBits >>= fun assertion => pure (assertion, ctx.vars) := by
  rw [blastTerms, bind_assoc]
  rfl

theorem blastTerms_spec (hq : q.WellFormed)
    (hlimits : Cnf.checkLimits deadline cancellation = ok ())
    (htarget : ∀ t ∈ q.target, t < q.arena.nodes.length) :
    FitSpec (blastTerms q deadline cancellation) GateArena.new fun ctx s =>
      ∃ reachable, Marks q reachable ∧ Progress q reachable q.arena.nodes.length ctx s := by
  have hs := hq.arena
  have hroots : ∀ t ∈ roots q, t < q.arena.nodes.length := by
    intro t ht
    rcases List.mem_append.mp ht with ht | ht
    · exact Arena.lt_of_sortAt (hq.roots t ht)
    · exact htarget t (Option.mem_toList.mp ht)
  obtain ⟨reachable, hok, hlen, hreach⟩ := reachableTerms_answers hs hlimits hroots
  have hclosed := closed_of_reachable hlen hreach
  refine fitSpec_lift hok ?_
  have hloop := Grow.spec_foldlM_zipIdx (k := 0) limit_fits
    (f := blastNode q deadline cancellation reachable)
    (J := fun n ctx s => Progress q reachable n ctx s) (I := Inv) (F := fun _ _ => False)
    (fun i node ctx s hnode h => by
      rw [Nat.zero_add] at h ⊢
      exact blastNode_spec hs hlimits hclosed hlen hnode h) (Progress.init q reachable)
  rw [Nat.zero_add] at hloop
  exact FitSpec.mono hloop fun ctx s _ _ h => ⟨reachable, hreach, h⟩

theorem blastAll_spec (hq : q.WellFormed) (hlimits : Cnf.checkLimits deadline cancellation = ok ())
    (htarget : ∀ t ∈ q.target, t < q.arena.nodes.length) :
    FitSpec (blastAll q deadline cancellation) GateArena.new fun out s =>
      ∃ reachable, Marks q reachable ∧ Faithful q reachable out s := by
  have hs := hq.arena
  rw [blastAll_eq]
  refine FitSpec.bind (blastTerms_spec hq hlimits htarget) fun ctx s _ hinv hterms => ?_
  obtain ⟨reachable, hreach, hprogress⟩ := hterms
  have hhas : ∀ inputs ρ, Reads q.arena s inputs ρ ctx.vars → ∀ t ∈ q.assertionsAndAssumptions,
      ctx.Has s inputs t (.bool (q.arena.value ρ t).toBool) := by
    intro inputs ρ hreads t ht
    have hsort := hq.roots t ht
    have hinc : included q reachable t = true := included_of_marked
      ((hreach t).mpr ⟨t, List.mem_reverse.mpr (List.mem_append_left _ ht), .refl⟩)
    exact has_bool hs (hprogress.means inputs ρ hreads t (Arena.lt_of_sortAt hsort) hinc) hsort
  obtain ⟨inputs₀, hreads₀⟩ :=
    exists_reads hs hinv hprogress.inputs hprogress.declared ⟨fun _ => 0, fun _ => false⟩
  obtain ⟨gs, hgs, -⟩ := mapM_bool (hhas inputs₀ _ hreads₀)
  refine fitSpec_lift hgs ?_
  have hassert : FitSpec (andMany gs) s fun g s' => s ≤ s' ∧ ∀ p : {p : (Nat → Bool) × Env //
      Reads q.arena s p.1 p.2 ctx.vars}, s'.Computes p.1.1 g (holds q p.1.2) := by
    have : Nonempty {p : (Nat → Bool) × Env // Reads q.arena s p.1 p.2 ctx.vars} :=
      ⟨⟨(inputs₀, _), hreads₀⟩⟩
    refine FitSpec.mono (P := fun g s' => ∀ p : {p : (Nat → Bool) × Env //
      Reads q.arena s p.1 p.2 ctx.vars}, s'.Computes p.1.1 g (holds q p.1.2))
      (Grow.spec_forall fun p => ?_) fun g s' hle _ h => ⟨hle, h⟩
    obtain ⟨gs', hgs', hcomputes⟩ := mapM_bool (hhas p.1.1 p.1.2 p.2)
    obtain rfl : gs = gs' := Outcome.ok.inj (hgs.symm.trans hgs')
    exact (andMany_spec hcomputes).fits
  refine FitSpec.bind (P := fun g s' => s'.Fits ∧ s ≤ s' ∧ ∀ p : {p : (Nat → Bool) × Env //
      Reads q.arena s p.1 p.2 ctx.vars}, s'.Computes p.1.1 g (holds q p.1.2))
    (Grow.Spec.mono_limit hassert fun g s' _ hfits _ h => ⟨hfits, h.1, h.2⟩)
    fun g s' _ _ h => fitSpec_pure fun _ => ?_
  refine ⟨reachable, hreach, hprogress.inputs.mono h.2.1, hprogress.declares, hprogress.declared,
    fun inputs ρ hreads => ?_⟩
  have hbefore := hreads.of_le h.2.1 h.1 fun g hg => hprogress.inputs.lt_length hg
  exact h.2.2 ⟨(inputs, ρ), hbefore⟩

/-! ## Assignments from inputs -/

theorem declarations_lt {reachable : List Bool} {n : Nat} {d : Declaration}
    (h : d ∈ declarations q reachable n) : d.1 < n ∧ included q reachable d.1 = true ∧
      (q.arena.kindAt d.1).bind (declares d.1) = some d := by
  obtain ⟨t, ht, hd⟩ := List.mem_filterMap.mp h
  have hlt := List.mem_range.mp ht
  split at hd
  · rename_i hinc
    obtain ⟨k, -, hk⟩ := Option.bind_eq_some_iff.mp hd
    obtain rfl := term_of_declares hk
    exact ⟨hlt, hinc, hd⟩
  · cases hd

theorem mem_declarations {reachable : List Bool} {n : Nat} {d : Declaration} :
    d ∈ declarations q reachable n ↔ d.1 < n ∧ included q reachable d.1 = true ∧
      (q.arena.kindAt d.1).bind (declares d.1) = some d := by
  refine ⟨declarations_lt, fun ⟨hlt, hinc, hd⟩ => ?_⟩
  exact List.mem_filterMap.mpr ⟨d.1, List.mem_range.mpr hlt, by rw [if_pos hinc, hd]⟩

/-- The variables come in the order of the arena, each once. -/
theorem pairwise_declarations (q : Query) (reachable : List Bool) (n : Nat) :
    (declarations q reachable n).Pairwise fun a b => a.1 < b.1 := by
  induction n with
  | zero => exact .nil
  | succ n ih =>
    rw [declarations_succ, List.pairwise_append]
    refine ⟨ih, ?_, fun a ha b hb => ?_⟩
    · split
      · cases (q.arena.kindAt n).bind (declares n) <;> simp
      · simp
    · have hb' : b ∈ declarations q reachable (n + 1) := by
        rw [declarations_succ]
        exact List.mem_append_right _ hb
      have : b.1 = n := by
        split at hb
        · obtain ⟨k, -, hk⟩ := Option.bind_eq_some_iff.mp (Option.mem_toList.mp hb)
          exact term_of_declares hk
        · cases hb
      rw [this]
      exact (declarations_lt ha).1

/-- The assignment that is read from the inputs. -/
def envOf (s : GateArena) (inputs : Nat → Bool) (vars : List BlastedVariable) : Env where
  bv t := ((vars.find? (·.term = t)).map fun v => BitList.toNat (v.bits.map (s.value inputs))).getD 0
  bool t := ((vars.find? (·.term = t)).map fun v => (v.bits.map (s.value inputs)).headD false).getD false

theorem find?_term {vars : List BlastedVariable} (hnodup : (vars.map (·.term)).Nodup)
    {v : BlastedVariable} (hv : v ∈ vars) : vars.find? (·.term = v.term) = some v := by
  induction vars with
  | nil => cases hv
  | cons u vars ih =>
    rw [List.map_cons, List.nodup_cons] at hnodup
    rw [List.find?_cons]
    rcases List.mem_cons.mp hv with rfl | hv
    · simp
    · have hne : u.term ≠ v.term := fun h => hnodup.1 (h ▸ List.mem_map_of_mem hv)
      rw [decide_eq_false hne]
      exact ih hnodup.2 hv

/-- The bits of a value, from the assignment. -/
theorem valueBits_eq {arena : Arena} (ha : arena.Inv) {v : BlastedVariable} {bs : List Bool}
    (hv : Declared arena v) (hlen : bs.length = v.bits.length)
    (hbool : v.sort = .bool → ρ.bool v.term = bs.headD false)
    (hbv : ∀ w, v.sort = .bv w → BitVec.ofNat w (ρ.bv v.term) = BitVec.ofNat w (BitList.toNat bs)) :
    valueBits (arena.value ρ v.term) = bs := by
  rw [hv.2] at hlen
  rw [hv.value ha]
  cases hsort : v.sort with
  | bool =>
    rw [hsort] at hlen
    obtain ⟨b, rfl⟩ := List.length_eq_one_iff.mp hlen
    exact congrArg (fun b => [b]) (hbool hsort)
  | bv w =>
    rw [hsort] at hlen
    have hlen : bs.length = w := hlen
    have hlt := BitList.toNat_lt bs
    rw [hlen] at hlt
    refine (BitList.eq_bits hlen ?_).symm
    rw [hbv w hsort, BitVec.toNat_ofNat, Nat.mod_eq_of_lt hlt]

/-- **Any inputs are those of an assignment.** -/
theorem reads_envOf {arena : Arena} {vars : List BlastedVariable} (ha : arena.Inv)
    (hin : s.Inputs (vars.flatMap (·.bits))) (hvars : ∀ v ∈ vars, Declared arena v)
    (hnodup : (vars.map (·.term)).Nodup) (inputs : Nat → Bool) :
    Reads arena s inputs (envOf s inputs vars) vars := by
  intro v hv
  have hfind := find?_term hnodup hv
  rw [valueBits_eq ha (hvars v hv) (List.length_map _) (fun _ => ?_) fun w _ => ?_]
  · exact computesAll_self fun g hg => hin.lt_length (List.mem_flatMap.mpr ⟨v, hv, hg⟩)
  · simp only [envOf, hfind, Option.map_some, Option.getD_some]
  · simp only [envOf, hfind, Option.map_some, Option.getD_some]

end Blast

open Blast GateArena

variable {q : Query} {deadline cancellation : Option Bool}

/-- The arena that blasting the query leaves. -/
def blastedGates (q : Query) (deadline cancellation : Option Bool) : GateArena :=
  ((blastAll q deadline cancellation).run GateArena.new).2

/-- A variable of the query that blasting gives gates: the roots reach it, or a model is wanted. -/
def Wanted (q : Query) (d : Declaration) : Prop :=
  (q.arena.kindAt d.1).bind (declares d.1) = some d ∧
    (q.wantModel = true ∨ Lib.Reach.Reachable (childrenAt q.arena) (roots q).reverse d.1)

/-- What a result of blasting says of the query. -/
structure BlastResult.Sound (q : Query) (r : BlastResult) : Prop where
  inv : r.gates.Inv
  inputs : r.gates.Inputs (r.vars.flatMap (·.bits))
  declared : ∀ v ∈ r.vars, Declared q.arena v
  sorted : (r.vars.map declaration).Pairwise fun a b => a.1 < b.1
  wanted : ∀ d, d ∈ r.vars.map declaration ↔ Wanted q d
  assertion_lt : r.assertion < r.gates.gates.length
  assertion : ∀ inputs ρ, Reads q.arena r.gates inputs ρ r.vars →
    (r.gates.value inputs r.assertion = true ↔ q.Holds ρ)

theorem blastQuery_spec (hq : q.WellFormed) (htarget : ∀ t ∈ q.target, t < q.arena.nodes.length)
    (hlimits : Cnf.checkLimits deadline cancellation = ok ())
    (hfits : (blastedGates q deadline cancellation).Fits) :
    ∃ r, blastQueryWithLimits q deadline cancellation = ok r ∧
      r.gates = blastedGates q deadline cancellation ∧ r.Sound q := by
  obtain ⟨out, s, hrun, -, hinv, reachable, hreach, h⟩ :=
    (blastAll_spec hq hlimits htarget).run inv_new hfits
  have hs : blastedGates q deadline cancellation = s := by rw [blastedGates, hrun]
  rw [hs] at hfits
  refine ⟨⟨s, out.1, out.2⟩, by rw [blastQueryWithLimits, hrun], hs.symm, hinv, h.inputs, h.declared,
    ?_, fun d => ?_, ?_, fun inputs ρ hreads => ?_⟩
  · rw [h.declares]
    exact pairwise_declarations q reachable _
  · rw [h.declares, mem_declarations]
    have hget : reachable.getD d.1 false = true ↔
        Lib.Reach.Reachable (childrenAt q.arena) (roots q).reverse d.1 := by
      rw [← hreach, List.getD_eq_getElem?_getD]
      cases reachable[d.1]? with
      | none => simp
      | some b => cases b <;> simp
    constructor
    · rintro ⟨-, hinc, hd⟩
      rw [included, Bool.or_eq_true, Bool.and_eq_true, hget] at hinc
      exact ⟨hd, hinc.symm.imp (·.1) id⟩
    · rintro ⟨hd, hwanted⟩
      obtain ⟨k, hk, hvar⟩ := Option.bind_eq_some_iff.mp hd
      obtain ⟨node, hnode, rfl⟩ := Arena.kindAt_eq_some.mp hk
      refine ⟨(List.getElem?_eq_some_iff.mp hnode).1, ?_, hd⟩
      have hisVar : isVar node.kind = true := by
        cases hkind : isVar node.kind with
        | true => rfl
        | false =>
          rw [declares_of_not_isVar hkind] at hvar
          cases hvar
      rw [included, Bool.or_eq_true, Bool.and_eq_true, hget, hk, Option.any_some]
      exact hwanted.symm.imp id fun hm => ⟨hm, hisVar⟩
  · obtain ⟨inputs, hreads⟩ := exists_reads hq.arena hinv h.inputs h.declared ⟨fun _ => 0, fun _ => false⟩
    exact (h.assertion inputs _ hreads).1
  · rw [(h.assertion inputs ρ hreads).2 hfits, holds_iff]

namespace BlastResult.Sound

variable {r : BlastResult}

theorem nodup (h : r.Sound q) : (r.vars.map (·.term)).Nodup := by
  have hmap : r.vars.map (·.term) = (r.vars.map declaration).map (·.1) := by
    rw [List.map_map]
    rfl
  rw [hmap]
  exact List.pairwise_map.mpr (h.sorted.imp fun h => Nat.ne_of_lt h)

theorem exists_inputs (h : r.Sound q) (hq : q.WellFormed) (ρ : Env) :
    ∃ inputs, Reads q.arena r.gates inputs ρ r.vars :=
  exists_reads hq.arena h.inv h.inputs h.declared ρ

theorem exists_env (h : r.Sound q) (hq : q.WellFormed) (inputs : Nat → Bool) :
    ∃ ρ, Reads q.arena r.gates inputs ρ r.vars :=
  ⟨_, reads_envOf hq.arena h.inputs h.declared h.nodup inputs⟩

/-- The output can be made true just when the query is satisfiable. -/
theorem satisfiable_iff (h : r.Sound q) (hq : q.WellFormed) :
    (∃ inputs, r.gates.value inputs r.assertion = true) ↔ q.Satisfiable := by
  constructor
  · rintro ⟨inputs, htrue⟩
    obtain ⟨ρ, hreads⟩ := h.exists_env hq inputs
    exact ⟨ρ, (h.assertion inputs ρ hreads).mp htrue⟩
  · rintro ⟨ρ, hholds⟩
    obtain ⟨inputs, hreads⟩ := h.exists_inputs hq ρ
    exact ⟨inputs, (h.assertion inputs ρ hreads).mpr hholds⟩

end BlastResult.Sound

/-- **Blasting is faithful.** As long as the gates have ids, a query is blasted. The variables of
the result are those that are wanted, in their order. Every assignment has inputs that spell it, and
all inputs spell an assignment; and the output is true on inputs just when the query holds under the
assignment they spell. So it can be made true just when the query is satisfiable. -/
theorem blasting_is_faithful (hq : q.WellFormed)
    (htarget : ∀ t ∈ q.target, t < q.arena.nodes.length)
    (hlimits : Cnf.checkLimits deadline cancellation = ok ())
    (hfits : (blastedGates q deadline cancellation).Fits) :
    ∃ r, blastQueryWithLimits q deadline cancellation = ok r ∧
      ((r.vars.map declaration).Pairwise fun a b => a.1 < b.1) ∧
      (∀ d, d ∈ r.vars.map declaration ↔ Wanted q d) ∧
      (∀ ρ, ∃ inputs, Reads q.arena r.gates inputs ρ r.vars) ∧
      (∀ inputs, ∃ ρ, Reads q.arena r.gates inputs ρ r.vars) ∧
      (∀ inputs ρ, Reads q.arena r.gates inputs ρ r.vars →
        (r.gates.value inputs r.assertion = true ↔ q.Holds ρ)) ∧
      ((∃ inputs, r.gates.value inputs r.assertion = true) ↔ q.Satisfiable) := by
  obtain ⟨r, hrun, -, h⟩ := blastQuery_spec hq htarget hlimits hfits
  exact ⟨r, hrun, h.sorted, h.wanted, h.exists_inputs hq, h.exists_env hq, h.assertion,
    h.satisfiable_iff hq⟩

/-- `x < x + 1`, over two bits. -/
def growing : Query where
  arena := ⟨[
    ⟨.bvVar 2 "x" (some 0), .bv 2⟩,
    ⟨.bvConst 2 [1], .bv 2⟩,
    ⟨.bvAdd 0 1, .bv 2⟩,
    ⟨.bvUlt 0 2, .bool⟩]⟩
  assertions := [⟨3, none⟩]
  assumptions := []
  command := .solve
  target := none
  signed := false
  wantModel := true
  wantCore := false
  getValues := []

theorem growing_wellFormed : growing.WellFormed :=
  Query.wellFormed_of_check (by decide) (by decide)

theorem blasting_of_growing : ∃ r, blastQueryWithLimits growing none none = ok r ∧
    ((∃ inputs, r.gates.value inputs r.assertion = true) ↔ growing.Satisfiable) :=
  have ⟨r, hrun, _, _, _, _, _, hsat⟩ := blasting_is_faithful growing_wellFormed
    (fun _ ht => nomatch ht) rfl (show (blastedGates growing none none).gates.length ≤ 2 ^ 32 by decide)
  ⟨r, hrun, hsat⟩

end Qfbv
end SmtServer
