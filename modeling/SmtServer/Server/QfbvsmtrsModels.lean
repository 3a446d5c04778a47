import SmtServer.Qfbv.CoreSound
import SmtServer.Qfbv.FromWireSound
import SmtServer.Server.Literals
import SmtServer.Server.QfbvsmtrsBackend
import SmtServer.Wire.ContextRuns

/-!
# Models survive the trip back to the wire

The solver's model says which **term** has which value, the block says it of **nodes**, and what
carries the one to the other is the name. A name has one sort and one width in a valid request, and
one term in the query, so the collected values are a function of the name; no node is given the
value of another, and none whose name has a value is left out.

Assignments correspond by name (`ByName`), and under corresponding ones the block and the model say
the same (`BlockOf`).
-/

namespace SmtServer
namespace Server
namespace QfbvsmtrsBackend

open Lib Outcome Wire
open Lib.Smt (Value)
open Qfbv (queryFromWire scalarToWire partsOf ByName OfRequest Checked wireSort TermSort)
open Qfbv.Blast (declares)

variable {request : BinaryRequest} {q : Qfbv.Query} {m : Qfbv.Model} {p : Parts} {expr : ExprView}
variable {x y : Qfbv.ModelEntry} {n : RawNode} {tag : Tag} {i : Nat} {values : Values} {name : String}

/-! ## Values -/

/-- The scalar of a value that fits. -/
def toScalar : Qfbv.ScalarValue → ScalarValue
  | .bool value => .bool value
  | .bv width bytes => ⟨UInt32.ofNat width, bytes⟩

/-- What a scalar of the wire format stands for. -/
def valueOf (s : ScalarValue) : Value :=
  if s.width = 0 then .bool (s.bytes == [1]) else .bv s.width.toNat (BitVec.ofNat _ (leNat s.bytes))

/-- The key under which the value of an entry is collected. -/
def symbolOf (x : Qfbv.ModelEntry) : ModelBlock.Symbol :=
  (x.name, valueSort (toScalar x.value), (toScalar x.value).width)

theorem scalarToWire_eq {v : Qfbv.ScalarValue} (hv : v.Canonical)
    (hw : ∀ w, v.sort = .bv w → 1 ≤ w ∧ w ≤ 65536) : scalarToWire v = ok (toScalar v) := by
  cases v with
  | bool value => rfl
  | bv w bytes =>
    obtain ⟨hlen, hlt⟩ := hv
    exact scalar_bv_ok (x := BitVec.ofNat w (leNat bytes)) (hw w rfl)
      ⟨hlen, by rw [BitVec.toNat_ofNat, Nat.mod_eq_of_lt hlt]⟩

/-! ## Models of a query -/

/-- Entries for variables of the query, at most one for each, with bytes of the right number. -/
structure ModelOf (q : Qfbv.Query) (m : Qfbv.Model) : Prop where
  distinct : (m.entries.map (·.term)).Nodup
  declared : ∀ x ∈ m.entries, (q.arena.kindAt x.term).bind (declares x.term) = some x.declaration
  canonical : ∀ x ∈ m.entries, x.value.Canonical

theorem modelOf_of_for (h : m.For q) : ModelOf q m where
  distinct := List.pairwise_map.mpr (h.sorted.imp fun h => Nat.ne_of_lt h)
  declared x hx := ((h.covers x.declaration).mp (List.mem_map_of_mem hx)).1
  canonical := h.canonical

theorem ModelOf.kind (hm : ModelOf q m) (hx : x ∈ m.entries) :
    (∃ w e, q.arena.kindAt x.term = some (.bvVar w x.name e) ∧ x.value.sort = .bv w) ∨
      ∃ e, q.arena.kindAt x.term = some (.boolVar x.name e) ∧ x.value.sort = .bool := by
  obtain ⟨k, hk, hdecl⟩ := Option.bind_eq_some_iff.mp (hm.declared x hx)
  cases k with
  | bvVar w name e =>
    simp only [declares, Qfbv.ModelEntry.declaration, Option.some.injEq, Prod.mk.injEq] at hdecl
    obtain ⟨-, rfl, -, hsort⟩ := hdecl
    exact .inl ⟨w, e, hk, hsort.symm⟩
  | boolVar name e =>
    simp only [declares, Qfbv.ModelEntry.declaration, Option.some.injEq, Prod.mk.injEq] at hdecl
    obtain ⟨-, rfl, -, hsort⟩ := hdecl
    exact .inr ⟨e, hk, hsort.symm⟩
  | _ => cases hdecl

/-- The entry is for the name that the node declares. -/
structure EntryFor (p : Parts) (x : Qfbv.ModelEntry) (i : Nat) (n : RawNode) (tag : Tag) : Prop where
  declares : p.Declares i n tag x.name
  sort : x.value.sort = wireSort tag.resultSort n.width.toNat

theorem width_of_declares (hp : p.WellFormed) (hd : p.Declares i n tag name) :
    match tag.resultSort with
    | .bool => n.width = 0
    | .bv => 1 ≤ n.width.toNat ∧ n.width.toNat ≤ 65536 := by
  obtain ⟨t, ht, hrule⟩ := hp.node i n hd.1
  obtain rfl := Option.some.inj (hd.2.1.symm.trans ht)
  have hw := hrule.width
  rw [Parts.WidthRule] at hw
  cases hsort : tag.resultSort <;> rw [hsort] at hw
  · exact hw
  · exact UInt32.toNat_inj.mp hw

/-- The key of an entry is that of the node. -/
theorem EntryFor.symbol (hp : p.WellFormed) (h : EntryFor p x i n tag) :
    symbolOf x = (x.name, tag.resultSort, n.width) := by
  have hw := width_of_declares hp h.declares
  have hsort := h.sort
  rw [symbolOf]
  cases hx : x.value with
  | bool value =>
    rw [hx] at hsort
    cases hσ : tag.resultSort <;> rw [hσ] at hw hsort
    · cases hsort
    · rw [hw]
      rfl
  | bv w bytes =>
    rw [hx] at hsort
    cases hσ : tag.resultSort <;> rw [hσ] at hw hsort
    · obtain rfl : w = n.width.toNat := TermSort.bv.inj hsort
      have hne : n.width ≠ 0 := by
        rintro h0
        rw [h0] at hw
        exact absurd hw.1 (by decide)
      rw [toScalar, UInt32.ofNat_toNat, valueSort, if_neg hne]
    · cases hsort

/-- Every entry of a model is for the name of a node. -/
theorem exists_entryFor (hof : OfRequest request q) (hm : ModelOf q m) (hx : x ∈ m.entries) :
    ∃ i n tag, EntryFor (partsOf request) x i n tag := by
  rcases hm.kind hx with ⟨w, e, hk, hsort⟩ | ⟨e, hk, hsort⟩
  · obtain ⟨i, n, hfirst, rfl, -⟩ : Qfbv.WireVar (partsOf request) (.bvVar w x.name e) :=
      hof.built.canonical _ _ hk
    exact ⟨i, n, .bvVar, hfirst.declares, hsort⟩
  · obtain ⟨i, n, hfirst, -⟩ : Qfbv.WireVar (partsOf request) (.boolVar x.name e) :=
      hof.built.canonical _ _ hk
    exact ⟨i, n, .boolVar, hfirst.declares, hsort⟩

/-- A name has one entry. -/
theorem ModelOf.eq_of_name (hof : OfRequest request q) (hp : (partsOf request).WellFormed)
    (hm : ModelOf q m) (hx : x ∈ m.entries) (hy : y ∈ m.entries) (hname : x.name = y.name) :
    x = y := by
  obtain ⟨i, n, tag, hdx, hsx⟩ := exists_entryFor hof hm hx
  obtain ⟨j, n', tag', hdy, hsy⟩ := exists_entryFor hof hm hy
  have hsame := hp.symbols hdx (hname ▸ hdy)
  refine List.inj_on_of_nodup_map hm.distinct hx hy ?_
  rw [hsame.1, hsame.2, ← hsy] at hsx
  rcases hm.kind hx with ⟨w, e, hkx, hvx⟩ | ⟨e, hkx, hvx⟩ <;>
  rcases hm.kind hy with ⟨v, e', hky, hvy⟩ | ⟨e', hky, hvy⟩
  · exact Qfbv.bvVar_unique hof.built hkx (hname ▸ hky)
  · cases hvx.symm.trans (hsx.trans hvy)
  · cases hvx.symm.trans (hsx.trans hvy)
  · exact Qfbv.boolVar_unique hof.built hkx (hname ▸ hky)

theorem ModelOf.scalar (hq : q.WellFormed) (hm : ModelOf q m) (hx : x ∈ m.entries) :
    scalarToWire x.value = ok (toScalar x.value) := by
  refine scalarToWire_eq (hm.canonical x hx) fun w hw => ?_
  rcases hm.kind hx with ⟨v, e, hk, hsort⟩ | ⟨e, hk, hsort⟩
  · obtain ⟨node, hn, hkind⟩ := Qfbv.Arena.kindAt_eq_some.mp hk
    obtain rfl : v = w := TermSort.bv.inj (hsort.symm.trans hw)
    exact hq.arena.width_le x.term v (Qfbv.Arena.sortAt_eq_some.mpr
      ⟨_, Qfbv.node_of_kind hq.arena hk fun _ h => h, rfl⟩)
  · cases hsort.symm.trans hw

/-! ## Collecting the values -/

/-- What the table says after the entries. -/
def Collects (entries : List Qfbv.ModelEntry) (values : Values) : Prop :=
  ∀ key v, values.lookup key = some v ↔ ∃ x ∈ entries, symbolOf x = key ∧ toScalar x.value = v

theorem collect_answers {l : List Qfbv.ModelEntry}
    (hscalar : ∀ x ∈ l, scalarToWire x.value = ok (toScalar x.value))
    (hkey : ∀ x ∈ l, ∀ y ∈ l, symbolOf x = symbolOf y → x = y) :
    Answers (l.foldlM insertValue []) (Collects l) := by
  refine (answers_foldlM (fun done values => done ⊆ l ∧ Collects done values)
    ⟨List.nil_subset _, fun key v => by simp⟩ fun x hx done values ⟨hsub, hvalues⟩ => ?_).mono
    fun _ h => h.2
  have hconsistent : ∀ v, values.lookup (symbolOf x) = some v → v = toScalar x.value := by
    intro v hv
    obtain ⟨y, hy, hsymbol, rfl⟩ := (hvalues _ _).mp hv
    rw [hkey y (hsub hy) x hx hsymbol]
  have hrun : insertValue values x = ok ((symbolOf x, toScalar x.value) :: values) := by
    rw [symbolOf] at hconsistent ⊢
    rw [insertValue, hscalar x hx, ok_bind]
    dsimp only
    cases hlook : values.lookup (x.name, valueSort (toScalar x.value), (toScalar x.value).width) with
    | none => rfl
    | some existing =>
      rw [hconsistent existing hlook]
      dsimp only
      rw [ensure, if_pos rfl]
      rfl
  rw [hrun]
  refine answers_ok ⟨List.append_subset.mpr ⟨hsub, List.cons_subset.mpr ⟨hx, List.nil_subset _⟩⟩,
    fun key v => ?_⟩
  rw [List.lookup_cons]
  split
  · rename_i heq
    obtain rfl := eq_of_beq heq
    constructor
    · intro hv
      exact ⟨x, by simp, rfl, Option.some.inj hv⟩
    · rintro ⟨y, hy, hsymbol, rfl⟩
      have hmem : y ∈ l := by
        rcases List.mem_append.mp hy with hy | hy
        · exact hsub hy
        · rwa [List.mem_singleton.mp hy]
      rw [hkey y hmem x hx hsymbol]
  · rename_i hne
    have hne : ¬symbolOf x = key := fun h => absurd hne (by simp [h])
    rw [hvalues]
    simp [or_and_right, exists_or, hne]

/-! ## The block -/

/-- What a node is given. -/
def entryAt (p : Parts) (values : Values) (i : Nat) : Option ModelEntry :=
  p.nodes[i]?.bind fun n =>
    (p.symbolOf n).bind fun (name, info) =>
      (values.lookup (name, info.sort, info.width)).map fun v => ⟨.mk' info.sort i, v⟩

theorem entryAt_eq_some (hp : p.WellFormed) {e : ModelEntry} : entryAt p values i = some e ↔
    ∃ n tag name, p.Declares i n tag name ∧ e.nodeRef = .mk' tag.resultSort i ∧
      values.lookup (name, tag.resultSort, n.width) = some e.value := by
  simp only [entryAt, Option.bind_eq_some_iff, Option.map_eq_some_iff, Prod.exists]
  constructor
  · rintro ⟨n, hn, name, info, hsymbol, v, hv, rfl⟩
    obtain ⟨tag, ht, -⟩ := hp.node i n hn
    obtain ⟨hvar, htext, rfl⟩ := (Parts.symbolOf_eq_some ht).mp hsymbol
    exact ⟨n, tag, name, ⟨hn, ht, hvar, htext⟩, rfl, hv⟩
  · rintro ⟨n, tag, name, ⟨hn, ht, hvar, htext⟩, href, hv⟩
    refine ⟨n, hn, name, _, (Parts.symbolOf_eq_some ht).mpr ⟨hvar, htext, rfl⟩, e.value, hv, ?_⟩
    rw [← href]

theorem nodeSymbol_eq (hv : IsViewOf expr p) (hp : p.WellFormed) (hn : p.nodes[i]? = some n) :
    nodeSymbol expr n =
      ok ((p.symbolOf n).map fun (name, info) => (name, info.sort, info.width)) := by
  obtain ⟨tag, ht, hrule⟩ := hp.node i n hn
  rw [nodeSymbol, ht, Parts.symbolOf, ht, Option.bind_some]
  by_cases hvar : tag = .bvVar ∨ tag = .boolVar
  · obtain ⟨name, hname⟩ := hrule.blob.name hvar
    have hw := width_of_declares hp ⟨hn, ht, hvar, hname⟩
    rw [if_pos hvar, hname]
    rcases hvar with rfl | rfl
    · dsimp only
      rw [hv.blobStr.mpr hname]
      rfl
    · dsimp only
      have hw : n.width = 0 := hw
      rw [hv.blobStr.mpr hname, hw]
      rfl
  · rw [if_neg hvar]
    cases tag <;> first | rfl | simp at hvar

theorem nodeEntry_eq (hv : IsViewOf expr p) (hp : p.WellFormed)
    (hcount : p.nodes.length ≤ maxNodeCount) (hi : i < p.nodes.length) :
    nodeEntry expr values i = ok (entryAt p values i) := by
  have hn : p.nodes[i]? = some p.nodes[i] := List.getElem?_eq_getElem hi
  have hsmall : i < 2 ^ 31 := hi.trans_le hcount
  have hindex : (UInt32.ofNat i).toNat = i :=
    UInt32.toNat_ofNat_of_lt' (hsmall.trans (by decide))
  rw [nodeEntry, hv.node.mpr hn, ok_bind, nodeSymbol_eq hv hp hn, ok_bind, entryAt, hn,
    Option.bind_some]
  cases p.symbolOf p.nodes[i] with
  | none => rfl
  | some symbol =>
    obtain ⟨name, info⟩ := symbol
    dsimp only [Option.map_some, Option.bind_some]
    cases values.lookup (name, info.sort, info.width) with
    | none => rfl
    | some value =>
      have hnew : NodeRef.new info.sort (UInt32.ofNat i) = ok (.mk' info.sort i) :=
        NodeRef.new_eq_ok.mpr ⟨hindex.trans_lt hsmall, by rw [hindex]⟩
      dsimp only
      rw [hnew]
      rfl

/-! ## The checks of the block -/

/-- One entry passes the checks if no other has its node and its key has no other value. -/
theorem validateEntry_eq (hv : IsViewOf expr p) (hp : p.WellFormed)
    (hcount : p.nodes.length ≤ maxNodeCount) (hd : p.Declares i n tag name) {v : ScalarValue}
    (hwidth : v.width = n.width) {seen : List NodeRef}
    (hseen : NodeRef.mk' tag.resultSort i ∉ seen) {symbols : Values}
    (hsymbols : ∀ u, symbols.lookup (name, tag.resultSort, n.width) = some u → u = v) :
    ModelBlock.validateEntry expr seen symbols ⟨.mk' tag.resultSort i, v⟩ =
      ok (name, tag.resultSort, n.width) := by
  obtain ⟨hn, ht, hvar, hname⟩ := hd
  have hi : i < p.nodes.length := (List.getElem?_eq_some_iff.mp hn).1
  have hsmall : i < 2 ^ 31 := hi.trans_le hcount
  have hsort : (NodeRef.mk' tag.resultSort i).sort = tag.resultSort := NodeRef.sort_mk' hsmall
  have hexpected : (if (NodeRef.mk' tag.resultSort i).isBool then WireSort.bool else .bv) =
      tag.resultSort := by
    rw [NodeRef.isBool, hsort]
    cases tag.resultSort <;> rfl
  have hnode : validateNodeRef expr (.mk' tag.resultSort i) tag.resultSort "model node_ref" =
      ok n := by
    simp only [validateNodeRef, parseTag, bind_eq_ok, ensure_eq_ok, exists_const, ofOption_eq_ok,
      hv.node, NodeRef.idx_mk' hsmall, hsort, hv.nodeCount]
    exact ⟨hi, trivial, n, hn, tag, ht, rfl, rfl⟩
  have hshape : ModelBlock.symbolShape ⟨.mk' tag.resultSort i, v⟩ n =
      ok (tag.resultSort, n.width, if tag.resultSort = .bool then "Bool variable" else "BV variable") := by
    have hw := width_of_declares hp ⟨hn, ht, hvar, hname⟩
    rw [ModelBlock.symbolShape]
    dsimp only
    rw [hsort]
    cases hσ : tag.resultSort <;> rw [hσ] at hw
    · dsimp only
      rw [ensure, if_pos hwidth]
      rfl
    · have hw : n.width = 0 := hw
      dsimp only
      rw [ensure, if_pos (hwidth.trans hw), hw]
      rfl
  rw [ModelBlock.validateEntry, ensure, if_pos hseen, ok_bind]
  dsimp only
  rw [hexpected, hnode, ok_bind, ensure, if_pos ((Context.isVariableNode_eq ht).mpr hvar), ok_bind, hshape,
    ok_bind]
  dsimp only
  rw [hv.blobStr.mpr hname, ok_bind]
  cases hlook : symbols.lookup (name, tag.resultSort, n.width) with
  | none => rfl
  | some existing =>
    dsimp only
    rw [ensure, if_pos (hsymbols existing hlook)]
    rfl

/-- What an entry of the table may say: the width in the key is the width of the value. -/
def WidthsFit (values : Values) : Prop := ∀ key v, values.lookup key = some v → v.width = key.2.2

theorem validateEntries_eq (hv : IsViewOf expr p) (hp : p.WellFormed)
    (hcount : p.nodes.length ≤ maxNodeCount) (hwidths : WidthsFit values) {is : List Nat}
    (hnodup : is.Nodup) {seen : List NodeRef} (hseen : ∀ r ∈ seen, r.idx ∉ is) {symbols : Values}
    (hsymbols : ∀ key u, symbols.lookup key = some u → values.lookup key = some u) :
    ModelBlock.validateEntries expr (is.filterMap (entryAt p values)) seen symbols = ok () := by
  induction is generalizing seen symbols with
  | nil => rfl
  | cons i is ih =>
    obtain ⟨hfresh, hnodup⟩ := List.nodup_cons.mp hnodup
    rw [List.filterMap_cons]
    cases hentry : entryAt p values i with
    | none => exact ih hnodup (fun r hr hmem => hseen r hr (.tail _ hmem)) hsymbols
    | some e =>
      obtain ⟨n, tag, name, hd, href, hlook⟩ := (entryAt_eq_some hp).mp hentry
      have hidx : (NodeRef.mk' tag.resultSort i).idx = i :=
        NodeRef.idx_mk' ((List.getElem?_eq_some_iff.mp hd.1).1.trans_le hcount)
      obtain ⟨nodeRef, v⟩ := e
      obtain rfl : nodeRef = .mk' tag.resultSort i := href
      dsimp only
      rw [ModelBlock.validateEntries, validateEntry_eq hv hp hcount hd (hwidths _ _ hlook)
        (fun hmem => hseen _ hmem (by rw [hidx]; exact .head _))
        (fun u hu => Option.some.inj ((hsymbols _ _ hu).symm.trans hlook)), ok_bind]
      refine ih hnodup (List.forall_mem_cons.mpr ⟨by rwa [hidx], fun r hr hmem =>
        hseen r hr (.tail _ hmem)⟩) fun key u hu => ?_
      rcases Qfbv.lookup_insert hu with ⟨rfl, rfl⟩ | hu
      · exact hlook
      · exact hsymbols key u hu

/-! ## What the block says -/

/-- The nodes have, under the assignment, the values that the block gives them. -/
def Agrees (request : BinaryRequest) (ω : Wire.Env) (block : ModelBlock) : Prop :=
  ∀ e ∈ block.entries, (partsOf request).value ω e.nodeRef.idx = valueOf e.value

theorem valueOf_toScalar_bv {w : Nat} {bytes : List UInt8} (hw : 1 ≤ w ∧ w ≤ 65536) :
    valueOf (toScalar (.bv w bytes)) = .bv w (BitVec.ofNat w (leNat bytes)) := by
  have hwidth : (UInt32.ofNat w).toNat = w := UInt32.toNat_ofNat_of_lt' (show w < 2 ^ 32 by omega)
  have hne : UInt32.ofNat w ≠ 0 := by
    intro h0
    rw [h0] at hwidth
    exact absurd (hwidth.trans_ge hw.1) (by decide)
  rw [toScalar, valueOf, if_neg hne]
  dsimp only
  rw [hwidth]

/-- The node has the value of the entry just if the variable has it. -/
theorem value_eq_iff (hp : (partsOf request).WellFormed) (hm : ModelOf q m) (hx : x ∈ m.entries)
    (h : EntryFor (partsOf request) x i n tag) {ρ : Qfbv.Env} {ω : Wire.Env}
    (hρω : ByName q.arena ρ ω) :
    (partsOf request).value ω i = valueOf (toScalar x.value) ↔ ρ.Agrees x := by
  have hw := width_of_declares hp h.declares
  have hsort := h.sort
  obtain ⟨hn, ht, hvar, hname⟩ := h.declares
  rw [hp.value_eq hn, Parts.sem, ht, Qfbv.Env.Agrees]
  rcases hvar with rfl | rfl
  · rcases hm.kind hx with ⟨w, e, hk, hvalue⟩ | ⟨e, hk, hvalue⟩
    · cases hxv : x.value with
      | bool value =>
        rw [hxv] at hvalue
        cases hvalue
      | bv v bytes =>
        rw [hxv] at hvalue hsort
        obtain rfl : v = w := TermSort.bv.inj hvalue
        obtain rfl : v = n.width.toNat := TermSort.bv.inj hsort
        rw [valueOf_toScalar_bv hw]
        dsimp only
        rw [hρω.bv _ _ _ _ hk, Parts.semTag, Qfbv.symbol_eq hname]
        simp
    · cases hvalue.symm.trans hsort
  · rcases hm.kind hx with ⟨w, e, hk, hvalue⟩ | ⟨e, hk, hvalue⟩
    · cases hvalue.symm.trans hsort
    · cases hxv : x.value with
      | bv v bytes =>
        rw [hxv] at hvalue
        cases hvalue
      | bool value =>
        dsimp only
        rw [hρω.bool _ _ _ hk, Parts.semTag, Qfbv.symbol_eq hname, toScalar, valueOf,
          ScalarValue.bool, if_pos rfl]
        cases value <;> simp

/-- What the block of a model is: it passes the checks against the request, has one entry for each
node whose name has a value in the model, with that value, and says of the nodes what the model
says of the variables, under assignments that correspond by name. -/
structure BlockOf (request : BinaryRequest) (q : Qfbv.Query) (m : Qfbv.Model) (block : ModelBlock) :
    Prop where
  valid : validateModel request block = ok ()
  nodup : (block.entries.map (·.nodeRef)).Nodup
  entries : ∀ e, e ∈ block.entries ↔ ∃ i n tag, ∃ x ∈ m.entries,
    EntryFor (partsOf request) x i n tag ∧ e = ⟨.mk' tag.resultSort i, toScalar x.value⟩
  agrees : ∀ ρ ω, ByName q.arena ρ ω → (Agrees request ω block ↔ ρ.Completes m)

theorem modelToWireForRequest_answers (hc : Checked request) (hof : OfRequest request q)
    (hm : ModelOf q m) : Answers (modelToWireForRequest m request) (BlockOf request q m) := by
  have hp : (partsOf request).WellFormed := hc.wellFormed.dag
  have hview := isViewOf_viewOf hc.wellFormed.header
  have hparse : request.expressionView = ok (viewOf request.expression) :=
    parseAndValidate_eq_ok.mpr ⟨hc.wellFormed, rfl⟩
  have hcount : (partsOf request).nodes.length ≤ maxNodeCount :=
    (Parts.length_nodes_ofBytes _).trans_le hc.wellFormed.header.nodes
  obtain ⟨values, hvalues, hcollects⟩ := collect_answers (l := m.entries)
    (fun x hx => hm.scalar hof.wellFormed hx)
    fun x hx y hy h => hm.eq_of_name hof hp hx hy (congrArg (·.1) h)
  rw [Collects] at hcollects
  have hentries : (List.range (viewOf request.expression).header.nodeCount.toNat).mapM
      (nodeEntry (viewOf request.expression) values) =
        ok ((List.range (partsOf request).nodes.length).map (entryAt (partsOf request) values)) := by
    rw [hview.nodeCount]
    exact mapM_of_forall fun i hi => nodeEntry_eq hview hp hcount (List.mem_range.mp hi)
  have hwidths : WidthsFit values := by
    intro key v hv
    obtain ⟨x, -, rfl, rfl⟩ := (hcollects key v).mp hv
    rfl
  have hmem : ∀ e, e ∈ (List.range (partsOf request).nodes.length).filterMap
      (entryAt (partsOf request) values) ↔ ∃ i n tag, ∃ x ∈ m.entries,
        EntryFor (partsOf request) x i n tag ∧ e = ⟨.mk' tag.resultSort i, toScalar x.value⟩ := by
    intro e
    simp only [List.mem_filterMap, List.mem_range, entryAt_eq_some hp, hcollects]
    constructor
    · rintro ⟨i, -, n, tag, name, hd, href, x, hx, hsymbol, hvalue⟩
      obtain rfl : x.name = name := congrArg (·.1) hsymbol
      obtain ⟨j, n', tag', hd', hsort⟩ := exists_entryFor hof hm hx
      refine ⟨i, n, tag, x, hx, ⟨hd, ?_⟩, by rw [hvalue, ← href]⟩
      rw [hsort, (hp.symbols hd hd').1, (hp.symbols hd hd').2]
    · rintro ⟨i, n, tag, x, hx, hfor, rfl⟩
      exact ⟨i, (List.getElem?_eq_some_iff.mp hfor.declares.1).1, n, tag, x.name, hfor.declares, rfl,
        x, hx, hfor.symbol hp, rfl⟩
  refine ⟨⟨(List.range (partsOf request).nodes.length).filterMap (entryAt (partsOf request) values)⟩,
    ?_, ?_, ?_, hmem, fun ρ ω hρω => ?_⟩
  · rw [modelToWireForRequest, hvalues, ok_bind, hparse, ok_bind, hentries, ok_bind,
      List.filterMap_map]
    rfl
  · rw [validateModel, checkModel, hparse, ok_bind]
    exact validateEntries_eq hview hp hcount hwidths List.nodup_range
      (fun _ hr => absurd hr List.not_mem_nil) fun _ _ h => by cases h
  · refine List.pairwise_map.mpr (List.Pairwise.filterMap _ (fun i j hij e he e' he' heq => hij ?_)
      List.nodup_range)
    obtain ⟨n, tag, name, hd, href, -⟩ := (entryAt_eq_some hp).mp he
    obtain ⟨n', tag', name', hd', href', -⟩ := (entryAt_eq_some hp).mp he'
    have hidx := congrArg NodeRef.idx (href.symm.trans (heq.trans href'))
    rwa [NodeRef.idx_mk' ((List.getElem?_eq_some_iff.mp hd.1).1.trans_le hcount),
      NodeRef.idx_mk' ((List.getElem?_eq_some_iff.mp hd'.1).1.trans_le hcount)] at hidx
  · constructor
    · intro h x hx
      obtain ⟨i, n, tag, hfor⟩ := exists_entryFor hof hm hx
      have hval := h _ ((hmem _).mpr ⟨i, n, tag, x, hx, hfor, rfl⟩)
      rw [NodeRef.idx_mk' ((List.getElem?_eq_some_iff.mp hfor.declares.1).1.trans_le hcount)] at hval
      exact (value_eq_iff hp hm hx hfor hρω).mp hval
    · intro h e he
      obtain ⟨i, n, tag, x, hx, hfor, rfl⟩ := (hmem e).mp he
      rw [NodeRef.idx_mk' ((List.getElem?_eq_some_iff.mp hfor.declares.1).1.trans_le hcount)]
      exact (value_eq_iff hp hm hx hfor hρω).mpr (h x hx)

/-- **A model survives the trip.** Every model of a valid request's query becomes a block that passes
the checks against the request. It has one entry for each node whose name has a value in the model,
with that value; and under assignments that correspond by name, the block says of the nodes what
the model says of the variables. -/
theorem model_survives_the_trip (hvalid : request.validate = ok ())
    (hquery : queryFromWire request = ok q) (hm : ModelOf q m) :
    ∃ block, modelToWireForRequest m request = ok block ∧ BlockOf request q m block := by
  have hc := Qfbv.checked_of_validate hvalid
  rcases Qfbv.queryFromWire_cases hc with ⟨h, -⟩ | ⟨q', h, hof⟩
  · cases hquery.symm.trans h
  · obtain rfl := Outcome.ok.inj (hquery.symm.trans h)
    exact modelToWireForRequest_answers hc hof hm

/-- Two nodes carry the name. -/
theorem model_of_twiceX : ∃ block,
    modelToWireForRequest ⟨[⟨0, "x", some 0, .bv 8 [5]⟩]⟩ Qfbv.twiceX = ok block ∧
      validateModel Qfbv.twiceX block = ok () ∧ (block.entries.map (·.nodeRef)).Nodup := by
  have hvar : Qfbv.queryPasses Qfbv.twiceX (fun q =>
      decide (q.arena.kindAt 0 = some (.bvVar 8 "x" (some 0)))) = true := by decide +kernel
  cases hquery : queryFromWire Qfbv.twiceX with
  | err e => simp [Qfbv.queryPasses, hquery] at hvar
  | panic => simp [Qfbv.queryPasses, hquery] at hvar
  | ok q =>
    rw [Qfbv.queryPasses_eq hquery] at hvar
    have hkind : q.arena.kindAt 0 = some (.bvVar 8 "x" (some 0)) := of_decide_eq_true hvar
    have hm : ModelOf q ⟨[⟨0, "x", some 0, .bv 8 [5]⟩]⟩ := by
      refine ⟨by simp, List.forall_mem_singleton.mpr ?_, List.forall_mem_singleton.mpr ⟨rfl, ?_⟩⟩
      · rw [hkind]
        rfl
      · decide
    obtain ⟨block, hrun, hblock⟩ :=
      model_survives_the_trip (show Qfbv.twiceX.validate = ok () by decide +kernel) hquery hm
    exact ⟨block, hrun, hblock.valid, hblock.nodup⟩

end QfbvsmtrsBackend
end Server
end SmtServer
