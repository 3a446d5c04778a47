import SmtServer.Wire.ContextOps
import SmtServer.Wire.Shape

/-!
# Runs of a context

A context begins empty or with an imported buffer. The import rebuilds the tables of the builder
from bytes that no builder need have written — repeated variable nodes, unused children, constants
with bits above their width, names that overlap in the blob — and still establishes the invariant
all construction relies on (`import_inv`), because validation has checked every rule of a node and
the one rule across nodes, that a name has one signature.

From there on the invariant holds after every call, and as long as nothing is reset a handle stands
for the node it was made for. A `reset` breaks that: it leaves the handles that are out, and the
lookup that every method begins with asks for a node of the right sort, not for the node.
-/

namespace SmtServer
namespace Wire

open Lib Outcome ExprBuilder

/-! ## Reading back a buffer -/

/-- The reserved bytes of the header, after the version and after the three counts. -/
def ReservedZero (b : List UInt8) : Prop :=
  (b.drop 5).take 3 = List.replicate 3 0 ∧ (b.drop 20).take 12 = List.replicate 12 0

/-- **What is read is written back.** -/
theorem encode_ofBytes {b : List UInt8} (h : HeaderOk b) :
    (Parts.ofBytes b).encode ((b.drop 5).take 3) ((b.drop 20).take 12) = b := by
  have hheader := h.header
  have hlen := h.length
  rw [exprHeaderLen] at hheader
  have hn := Parts.length_nodes_ofBytes b
  have hc := Parts.length_children_ofBytes b
  have hl : (Parts.ofBytes b).blob.length = (u32At b 16).toNat := by
    simp only [Parts.ofBytes, List.length_drop]
    omega
  have hcount : ∀ (x : UInt32) (k : Nat), k = x.toNat → UInt32.ofNat k = x := by
    rintro x k rfl
    exact UInt32.ofNat_toNat
  have hnodes : Stands b 32 ((Parts.ofBytes b).nodes.flatMap RawNode.encode) := by
    refine stands_flatMap RawNode.length_encode (by omega) fun i hi => ?_
    rw [hn] at hi
    simp only [Parts.ofBytes, List.getElem_map, List.getElem_range]
    exact RawNode.stands_read (by omega)
  have hchildren : Stands b (32 + 24 * (u32At b 8).toNat)
      ((Parts.ofBytes b).children.flatMap NodeRef.bytes) := by
    refine stands_flatMap NodeRef.length_bytes (by omega) fun i hi => ?_
    rw [hc] at hi
    simp only [Parts.ofBytes, List.getElem_map, List.getElem_range]
    exact stands_u32At (by omega)
  have hmagic : exprMagic.length = 4 := rfl
  have hgap₁ : ((b.drop 5).take 3).length = 3 := by simp; omega
  have hgap₂ : ((b.drop 20).take 12).length = 12 := by simp; omega
  refine (stands_zero_and_length.mp ⟨?_, ?_⟩).symm
  · simp only [Parts.encode, stands_append, List.length_append, List.length_singleton, hgap₁, hgap₂,
      hmagic, length_u32Bytes, length_flatMap_const RawNode.length_encode,
      length_flatMap_const NodeRef.length_bytes, Nat.zero_add, Nat.reduceAdd, and_assoc, hn, hc, hl,
      UInt32.ofNat_toNat]
    refine ⟨⟨by rw [hmagic]; omega, h.magic⟩, ?_, stands_take_drop (by omega),
      stands_u32At (by omega), stands_u32At (by omega), stands_u32At (by omega),
      stands_take_drop (by omega), hnodes, hchildren, ?_⟩
    · rw [← h.version]
      exact stands_u8At (by omega)
    · have hblob := @stands_take_drop b (32 + 24 * (u32At b 8).toNat + 4 * (u32At b 12).toNat)
        (u32At b 16).toNat (by omega)
      rwa [List.take_of_length_le (by rw [List.length_drop]; omega)] at hblob
  · simp only [Parts.encode, List.length_append, List.length_singleton, hgap₁, hgap₂, hmagic,
      length_u32Bytes, length_flatMap_const RawNode.length_encode,
      length_flatMap_const NodeRef.length_bytes, hn, hc, hl, hlen]

namespace Context

/-! ## The import -/

section Import

variable {v : ExprView} {p : Parts}

/-- What the import records of a node. -/
def metaOf (n : RawNode) : NodeMeta :=
  match Tag.tryFrom n.tag with
  | some t => ⟨t.resultSort, n.width⟩
  | none => ⟨.bool, 0⟩

theorem metaOf_eq {n : RawNode} {t : Tag} (h : Tag.tryFrom n.tag = some t) :
    metaOf n = ⟨t.resultSort, n.width⟩ := by
  rw [metaOf, h]

theorem parseTag_eq_ok {raw : UInt8} {t : Tag} :
    Context.parseTag raw = ok t ↔ Tag.tryFrom raw = some t := by
  rw [Context.parseTag, ofOption_eq_ok]

/-- A builder that holds nodes, children and a blob, and the records of its nodes. -/
def holding (p : Parts) : ExprBuilder :=
  { ExprBuilder.new with
    nodes := p.nodes
    children := p.children
    blob := p.blob
    metas := p.nodes.map metaOf }

theorem importNodes_eq (hp : p.WellFormed) (hv : IsViewOf v p) :
    (List.range v.header.nodeCount.toNat).foldlM (importNode v) ExprBuilder.new =
      ok (holding ⟨p.nodes, [], []⟩) := by
  have hall : ∃ s, (List.range v.header.nodeCount.toNat).foldlM (importNode v) ExprBuilder.new =
      ok s ∧ s = holding ⟨p.nodes.take v.header.nodeCount.toNat, [], []⟩ := by
    refine answers_foldlM_range (fun k s => s = holding ⟨p.nodes.take k, [], []⟩) rfl ?_
    rintro i hi _ rfl
    rw [hv.nodeCount] at hi
    have hn : p.nodes[i]? = some p.nodes[i] := List.getElem?_eq_getElem hi
    obtain ⟨t, ht, -⟩ := hp.node i _ hn
    refine ⟨_, bind_eq_ok.mpr ⟨_, hv.node.mpr hn, bind_eq_ok.mpr ⟨t, parseTag_eq_ok.mpr ht, rfl⟩⟩, ?_⟩
    simp only [holding, List.take_add_one, hn, Option.toList_some, List.map_append, List.map_cons,
      List.map_nil, metaOf_eq ht]
  obtain ⟨s, hs, rfl⟩ := hall
  rw [hs, hv.nodeCount, List.take_length]

theorem importChildren_eq (hv : IsViewOf v p) :
    (List.range v.header.childCount.toNat).foldlM (importChild v) (holding ⟨p.nodes, [], []⟩) =
      ok (holding ⟨p.nodes, p.children, []⟩) := by
  have hall : ∃ s, (List.range v.header.childCount.toNat).foldlM (importChild v)
      (holding ⟨p.nodes, [], []⟩) = ok s ∧
        s = holding ⟨p.nodes, p.children.take v.header.childCount.toNat, []⟩ := by
    refine answers_foldlM_range (fun k s => s = holding ⟨p.nodes, p.children.take k, []⟩) rfl ?_
    rintro i hi _ rfl
    rw [hv.childCount] at hi
    have hr : p.children[i]? = some p.children[i] := List.getElem?_eq_getElem hi
    refine ⟨_, bind_eq_ok.mpr ⟨_, hv.childRef.mpr hr, rfl⟩, ?_⟩
    simp only [holding, List.take_add_one, hr, Option.toList_some]
  obtain ⟨s, hs, rfl⟩ := hall
  rw [hs, hv.childCount, List.take_length]

/-- The text of a blob reference that has one. -/
theorem blobStr_of_textAt {s : ExprBuilder} {r : BlobRef} {text : String}
    (h : s.parts.textAt r = some text) : blobStr r s = ok text := by
  obtain ⟨bytes, hb, htext⟩ := Option.bind_eq_some_iff.mp h
  have hoff := r.offset.toNat_lt
  have hlen := r.len.toNat_lt
  unfold Parts.blobAt at hb
  split at hb
  · rename_i hle
    refine bind_eq_ok.mpr ⟨bytes, bind_eq_ok.mpr ⟨_, checkedAdd_eq_ok.mpr ⟨?_, rfl⟩, ?_⟩, ?_⟩
    · rw [usize_eq]
      omega
    · refine bind_eq_ok.mpr ⟨(), ensure_eq_ok.mpr hle, ?_⟩
      show slice s.parts.blob r.offset.toNat (r.offset.toNat + r.len.toNat) = ok bytes
      rw [slice_of_le (by omega) hle, Nat.add_sub_cancel_left]
      exact congrArg ok (Option.some.inj hb)
    · exact ofOption_eq_ok.mpr htext
  · cases hb

/-- The tables that references point into are those of the buffer, nothing is asserted, and the
symbols of the first `k` nodes have their signatures. -/
structure Entered (p : Parts) (k : Nat) (s : ExprBuilder) : Prop where
  parts : s.parts = p
  metas : s.metas = p.nodes.map metaOf
  assertions : s.assertions = []
  assumptions : s.assumptions = []
  symbols : ∀ {i n t name}, i < k → p.Declares i n t name →
    s.symbols.lookup name = some ⟨t.resultSort, n.width⟩

/-- One round: a name that is entered again is entered with the signature it has. -/
theorem importSymbol_entered (hp : p.WellFormed) (hlen : p.nodes.length ≤ 2 ^ 31) {k : Nat}
    (hk : k < p.nodes.length) {s : ExprBuilder} (hs : Entered p k s) :
    Answers (importSymbol s k) (Entered p (k + 1)) := by
  have hn : p.nodes[k]? = some p.nodes[k] := List.getElem?_eq_getElem hk
  obtain ⟨t, ht, hrule⟩ := hp.node k _ hn
  have hnode : s.nodes[k]? = some p.nodes[k] := by
    show s.parts.nodes[k]? = _
    rw [hs.parts, hn]
  -- entering the name of node `k` keeps what was entered before
  have hkeep : ∀ {name}, p.Declares k p.nodes[k] t name → ∀ {i n u name'}, i < k + 1 →
      p.Declares i n u name' →
      ((name, (⟨t.resultSort, p.nodes[k].width⟩ : NodeMeta)) :: s.symbols).lookup name' =
        some ⟨u.resultSort, n.width⟩ := by
    intro name hdecl i n u name' hi hd
    rw [List.lookup_cons]
    by_cases heq : name' = name
    · subst heq
      obtain ⟨hsort, hwidth⟩ := hp.symbols hd hdecl
      simp [hsort, hwidth]
    · rw [beq_eq_false_iff_ne.mpr heq]
      refine hs.symbols ?_ hd
      rcases Nat.lt_succ_iff_lt_or_eq.mp hi with hlt | rfl
      · exact hlt
      · refine absurd ?_ heq
        obtain rfl : n = p.nodes[i] := Option.some.inj (hd.1.symm.trans hn)
        exact Option.some.inj (hd.2.2.2.symm.trans hdecl.2.2.2)
  by_cases hvar : t = .bvVar ∨ t = .boolVar
  · obtain ⟨name, hname⟩ := hrule.blob.name hvar
    have hdecl : p.Declares k p.nodes[k] t name := ⟨hn, ht, hvar, hname⟩
    have hidx : (UInt32.ofNat k).toNat < 2 ^ 31 := by
      rw [UInt32.toNat_ofNat', Nat.mod_eq_of_lt (by omega)]
      omega
    have htext : s.parts.textAt p.nodes[k].blobRef = some name := by rw [hs.parts, hname]
    unfold importSymbol
    rw [hnode, expect_some, ok_bind, parseTag_eq_ok.mpr ht, ok_bind, if_pos hvar,
      blobStr_of_textAt htext, ok_bind]
    dsimp only
    rw [NodeRef.new_eq_ok.mpr ⟨hidx, rfl⟩, ok_bind]
    split
    · exact answers_ok ⟨hs.parts, hs.metas, hs.assertions, hs.assumptions, hkeep hdecl⟩
    · exact answers_ok ⟨hs.parts, hs.metas, hs.assertions, hs.assumptions, hkeep hdecl⟩
  · refine ⟨s, ?_, hs.parts, hs.metas, hs.assertions, hs.assumptions, ?_⟩
    · rw [importSymbol, hnode, expect_some, ok_bind, parseTag_eq_ok.mpr ht, ok_bind, if_neg hvar]
      rfl
    · intro i n u name hi hd
      rcases Nat.lt_succ_iff_lt_or_eq.mp hi with hlt | rfl
      · exact hs.symbols hlt hd
      · obtain rfl : n = p.nodes[i] := Option.some.inj (hd.1.symm.trans hn)
        obtain rfl : u = t := Option.some.inj (hd.2.1.symm.trans ht)
        exact absurd hd.2.2.1 hvar

/-- A builder that has entered every symbol of a well-formed buffer has the invariant. -/
theorem Entered.inv (hp : p.WellFormed) (hn : p.nodes.length ≤ 2 ^ 31) (hb : p.blob.length < 2 ^ 32)
    {s : ExprBuilder} (hs : Entered p p.nodes.length s) : s.Inv := by
  obtain ⟨rfl, hmetas, hassert, hassume, hsym⟩ := hs
  refine ⟨hp, by rw [hmetas, List.length_map]; rfl, ?_, hn, hb, ?_, by simp [hassert],
    by simp [hassume]⟩
  · intro i n t hi ht
    have hi' : s.parts.nodes[i]? = some n := hi
    rw [hmetas, List.getElem?_map, hi', Option.map_some, metaOf_eq ht]
  · intro i n t name hd
    exact hsym (List.getElem?_eq_some_iff.mp hd.1).1 hd

end Import

/-- **The import** of a valid buffer succeeds, holds what the buffer holds, and has the invariant. -/
theorem import_inv (id : Nat) {bytes : List UInt8} (h : WellFormed bytes) :
    ∃ c, fromExpressionBytes id bytes = ok c ∧ c.builder.parts = Parts.ofBytes bytes ∧
      c.builder.Inv := by
  have hv := isViewOf_viewOf h.header
  have hblob : (viewOf bytes).blob = ok (Parts.ofBytes bytes).blob := by
    have hlen := h.header.length
    rw [ExprView.blob, slice_of_le (by simp only [viewOf]; omega) (by simp [viewOf]),
      List.take_of_length_le (by simp [viewOf])]
    rfl
  have hn : (Parts.ofBytes bytes).nodes.length ≤ 2 ^ 31 := by
    rw [Parts.length_nodes_ofBytes]
    exact h.header.nodes
  have hb : (Parts.ofBytes bytes).blob.length < 2 ^ 32 := by
    have hlen := h.header.length
    have hlt := (u32At bytes 16).toNat_lt
    simp only [Parts.ofBytes, List.length_drop]
    omega
  have hloop : Answers ((List.range (Parts.ofBytes bytes).nodes.length).foldlM importSymbol
      (holding (Parts.ofBytes bytes))) (Entered _ (Parts.ofBytes bytes).nodes.length) :=
    answers_foldlM_range (Entered (Parts.ofBytes bytes))
      ⟨rfl, rfl, rfl, rfl, fun hi _ => absurd hi (Nat.not_lt_zero _)⟩
      fun k hk s hs => importSymbol_entered h.dag hn hk hs
  obtain ⟨s, hrun, hs⟩ := hloop
  refine ⟨⟨id, s⟩, ?_, hs.parts, hs.inv h.dag hn hb⟩
  rw [fromExpressionBytes, parseAndValidate_eq_ok.mpr ⟨h, rfl⟩, ok_bind,
    importNodes_eq h.dag hv, ok_bind, importChildren_eq hv, ok_bind, hblob, ok_bind]
  show ((List.range (Parts.ofBytes bytes).nodes.length).foldlM importSymbol
    (holding (Parts.ofBytes bytes)) >>= fun s => pure (⟨id, s⟩ : Context)) = _
  rw [hrun]
  rfl

/-- What the imported context writes: the bytes it was given, with the reserved ones zero. -/
theorem toBytes_of_parts {bytes : List UInt8} (h : WellFormed bytes) (hzero : ReservedZero bytes)
    {s : ExprBuilder} (hs : s.parts = Parts.ofBytes bytes) : s.toBytes = ok bytes := by
  have hlt := (u32At bytes 12).toNat_lt
  have hlt' := (u32At bytes 16).toNat_lt
  have hlen := h.header.length
  refine fromParts_eq_ok.mpr ⟨⟨?_, ?_, ?_⟩, ?_⟩
  · rw [hs, Parts.length_nodes_ofBytes]
    exact h.header.nodes
  · rw [hs, Parts.length_children_ofBytes]
    exact hlt
  · rw [hs]
    simp only [Parts.ofBytes, List.length_drop]
    omega
  · rw [hs, ← hzero.1, ← hzero.2, encode_ofBytes h.header]

/-- A later state writes what an earlier one declared. -/
theorem declares_of_le {s s' : ExprBuilder} (hle : s ≤ s') {i : Nat} {n : RawNode} {t : Tag}
    {name : String} (hd : s.parts.Declares i n t name) : s'.parts.Declares i n t name :=
  ⟨Parts.getElem?_of_extends hle.1 hd.1, hd.2.1, hd.2.2.1,
    Parts.textAt_mono (extends_of_le hle) hd.2.2.2⟩

/-- **Importing loses nothing**: a valid buffer is imported, and written back byte for byte if its
reserved bytes are zero; and whatever is called afterwards, the buffer that can then be written
(as long as the child array fits its count) passes validation, gives each name one sort and width,
and without a `reset` still declares every imported name with the sort and width it came with. -/
theorem import_keeps_everything (id : Nat) (bytes : List UInt8)
    (hvalid : ∃ v, ExprView.parseAndValidate bytes = ok v) :
    ∃ c, fromExpressionBytes id bytes = ok c ∧
      (ReservedZero bytes → c.builder.toBytes = ok bytes) ∧
      ∀ ops, ((∃ b, (c.after ops).builder.toBytes = ok b) ↔
          (c.after ops).builder.children.length < 2 ^ 32) ∧
        ∀ b, (c.after ops).builder.toBytes = ok b →
          (∃ v, ExprView.parseAndValidate b = ok v) ∧
          (∀ i j n m t u name, (Parts.ofBytes b).Declares i n t name →
            (Parts.ofBytes b).Declares j m u name →
            t.resultSort = u.resultSort ∧ n.width = m.width) ∧
          (Op.reset ∉ ops → ∀ i n t name, (Parts.ofBytes bytes).Declares i n t name →
            (Parts.ofBytes b).Declares i n t name) := by
  have h : WellFormed bytes := (parseAndValidate_ok_iff bytes).1.mp hvalid
  obtain ⟨c, hc, hparts, hinv⟩ := import_inv id h
  refine ⟨c, hc, fun hzero => toBytes_of_parts h hzero hparts, fun ops => ?_⟩
  obtain ⟨hlast, -⟩ := after_inv ops hinv
  obtain ⟨hwritten, hvalid'⟩ := ExprBuilder.toBytes_spec hlast
  refine ⟨hwritten, fun b hb => ⟨hvalid' b hb, ?_, ?_⟩⟩
  · intro i j n m t u name hi hj
    rw [(hlast.wf.fromParts hb).2] at hi hj
    exact hlast.wf.symbols hi hj
  · intro hops i n t name hd
    rw [(hlast.wf.fromParts hb).2]
    rw [← hparts] at hd
    exact declares_of_le (after_le hops c) hd

/-- A buffer that declares `p` twice. -/
def twoDeclarations : List UInt8 :=
  Parts.encode (List.replicate 3 0) (List.replicate 12 0)
    ⟨[⟨Tag.boolVar.toByte, 0, 0, 0, 0, 7, 1⟩, ⟨Tag.boolVar.toByte, 0, 0, 0, 0, 0, 1⟩], [], utf8 "p"⟩

theorem import_keeps_two_declarations :
    ∃ c, fromExpressionBytes 1 twoDeclarations = ok c ∧
      c.builder.toBytes = ok twoDeclarations := by
  have hvalid : (ExprView.parseAndValidate twoDeclarations >>= fun _ => ok ()) = ok () := by
    decide
  obtain ⟨v, hv, -⟩ := bind_eq_ok.mp hvalid
  obtain ⟨c, hc, hbytes, -⟩ := import_keeps_everything 1 twoDeclarations ⟨v, hv⟩
  exact ⟨c, hc, hbytes ⟨by decide, by decide⟩⟩

/-! ## Handles -/

/-- What a reference stands for: the record of its node, the references the node holds, and the
name of a variable. -/
structure Description where
  node : RawNode
  operands : List NodeRef
  name : Option String
  deriving DecidableEq

/-- The node behind a reference. -/
def describe (s : ExprBuilder) (r : NodeRef) : Option Description :=
  s.nodes[r.idx]?.map fun n =>
    ⟨n, s.parts.operands n, if isVariableNode n then s.parts.textAt n.blobRef else none⟩

theorem isVariableNode_eq {n : RawNode} {t : Tag} (ht : Tag.tryFrom n.tag = some t) :
    isVariableNode n = true ↔ t = .bvVar ∨ t = .boolVar := by
  rw [isVariableNode, Tag.tryFrom_eq_some.mp ht]
  cases t <;> simp [Tag.toByte]

/-- An extension describes an old node as before. -/
theorem describe_of_le {s s' : ExprBuilder} (hs : s.Inv) (hle : s ≤ s') {r : NodeRef}
    {m : NodeMeta} (hr : s.HasRef r m) :
    ∃ d, describe s r = some d ∧ describe s' r = some d := by
  obtain ⟨n, t, hn, ht, -, -⟩ := hs.node_of_hasRef hr
  have hn' : s'.nodes[r.idx]? = some n := Parts.getElem?_of_extends hle.1 hn
  have hops := hs.wf.operands_extends (extends_of_le hle) hn
  refine ⟨_, by rw [describe, hn]; rfl, ?_⟩
  rw [describe, hn', Option.map_some, hops]
  congr 2
  by_cases hvar : isVariableNode n
  · obtain ⟨u, hu, hrule⟩ := hs.wf.node _ n hn
    obtain rfl : u = t := Option.some.inj (hu.symm.trans ht)
    obtain ⟨name, hname⟩ := hrule.blob.name ((isVariableNode_eq ht).mp hvar)
    rw [if_pos hvar, if_pos hvar, hname, Parts.textAt_mono (extends_of_le hle) hname]
  · rw [if_neg hvar, if_neg hvar]

/-- A context as it is when it has just been made. -/
def Opened (c : Context) : Prop :=
  c = new c.id ∨ ∃ bytes, fromExpressionBytes c.id bytes = ok c

theorem Opened.inv {c : Context} (h : Opened c) : c.builder.Inv := by
  rcases h with h | ⟨bytes, h⟩
  · rw [h]
    exact inv_new
  · obtain ⟨v, hv, -⟩ := bind_eq_ok.mp h
    obtain ⟨c', hc', -, hinv⟩ := import_inv c.id ((parseAndValidate_ok_iff bytes).1.mp ⟨v, hv⟩)
    obtain rfl := Outcome.ok.inj (hc'.symm.trans h)
    exact hinv

/-- **Handles are stable until the next `reset`.** In every run of a context, new or imported, a
call that is given a handle an earlier call returned either fails or meets the node the handle was
made for, provided that no `reset` came between the two calls or that the lookup of the handle
fails. -/
theorem handle_keeps_its_node {start : Context} (hstart : Opened start) (before : List Op)
    (create : Op) (between : List Op) (use : Op) {ts : List Term} {t : Term}
    (hcreate : (create.run (start.after before)).1 = ok ts) (ht : t ∈ ts) (hgiven : t ∈ use.given)
    (hwhen : Op.reset ∉ between ∨
      Dangling (start.after (before ++ create :: between)).builder t) :
    (∃ e, (use.run (start.after (before ++ create :: between))).1 = err e) ∨
      ∃ d, describe (start.after (before ++ [create])).builder t.reference = some d ∧
        describe (start.after (before ++ create :: between)).builder t.reference = some d := by
  obtain ⟨hbefore, hid⟩ := after_inv before hstart.inv
  obtain ⟨hmade, hid'⟩ := create.run_inv hbefore
  obtain ⟨hown, m, hm⟩ := create.run_owns hbefore hcreate t ht
  have hsplit : start.after (before ++ create :: between) =
      ((create.run (start.after before)).2).after between := after_append ..
  rcases hwhen with hno | hd
  · refine .inr ?_
    rw [hsplit, show start.after (before ++ [create]) = (create.run (start.after before)).2 from
      after_append ..]
    exact describe_of_le hmade (after_le hno _) hm
  · refine .inl (use.run_refuses hgiven ?_ hd)
    rw [hown, hsplit, (after_inv between hmade).2, hid']

/-- A variable is made, another is made, and the handle of the first is used. -/
theorem handle_keeps_its_node_of_variable :
    (∃ e, ((Op.bvNot ⟨1, .mk' .bv 0⟩).run
        ((new 1).after ([] ++ .bvVar "x" 8 :: [.boolVar "p"]))).1 = err e) ∨
      ∃ d, describe ((new 1).after ([] ++ [.bvVar "x" 8])).builder (.mk' .bv 0) = some d ∧
        describe ((new 1).after ([] ++ .bvVar "x" 8 :: [.boolVar "p"])).builder (.mk' .bv 0) =
          some d :=
  @handle_keeps_its_node (new 1) (.inl rfl) []
    (.bvVar "x" 8) [.boolVar "p"] (.bvNot ⟨1, .mk' .bv 0⟩) [.bv ⟨1, .mk' .bv 0⟩]
    (.bv ⟨1, .mk' .bv 0⟩) (by decide) (by simp) (by simp [Op.given]) (.inl (by simp))

/-- **The handle of `x` is taken for `y`.** After a `reset` a variable of the same width stands
where `x` stood: negating `x` neither fails nor negates `x`. -/
theorem handle_meets_another_node :
    ((Op.bvVar "x" 8).run (new 1)).1 = ok [.bv ⟨1, .mk' .bv 0⟩] ∧
    (describe ((new 1).after [.bvVar "x" 8]).builder (.mk' .bv 0)).map (·.name) =
      some (some "x") ∧
    (describe ((new 1).after [.bvVar "x" 8, .reset, .bvVar "y" 8]).builder (.mk' .bv 0)).map
      (·.name) = some (some "y") ∧
    ¬ ((∃ e, ((Op.bvNot ⟨1, .mk' .bv 0⟩).run
          ((new 1).after [.bvVar "x" 8, .reset, .bvVar "y" 8])).1 = err e) ∨
        ∃ d, describe ((new 1).after [.bvVar "x" 8]).builder (.mk' .bv 0) = some d ∧
          describe ((new 1).after [.bvVar "x" 8, .reset, .bvVar "y" 8]).builder (.mk' .bv 0) =
            some d) := by
  have hx : (describe ((new 1).after [.bvVar "x" 8]).builder (.mk' .bv 0)).map (·.name) =
      some (some "x") := by decide
  have hy : (describe ((new 1).after [.bvVar "x" 8, .reset, .bvVar "y" 8]).builder
      (.mk' .bv 0)).map (·.name) = some (some "y") := by decide
  have hrun : ((Op.bvNot ⟨1, .mk' .bv 0⟩).run
      ((new 1).after [.bvVar "x" 8, .reset, .bvVar "y" 8])).1 = ok [.bv ⟨1, .mk' .bv 1⟩] := by
    decide
  refine ⟨by decide, hx, hy, ?_⟩
  rintro (⟨e, he⟩ | ⟨d, hd, hd'⟩)
  · rw [hrun] at he
    cases he
  · rw [hd] at hx
    rw [hd'] at hy
    rw [hx] at hy
    exact absurd hy (by decide)

end Context
end Wire
end SmtServer
