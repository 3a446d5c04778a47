import SmtServer.Wire.BuilderOps

/-!
# Compaction

`compact` keeps the nodes that the roots reach, in their order, under consecutive new indices.
Its three loops are specified one by one — marking computes a set of rows closed under reference
that holds the roots (`markRoots_spec`), numbering gives each marked row its **rank** among the
marked ones (`NumberingAt`), copying writes each marked node at its rank with its references
renamed (`CopyAt`) — and the result is a `Relocation` of the builder's DAG. Everything the
compacted buffer promises is a property of relocations: it is well formed, and every live node
has the value it had.
-/

namespace SmtServer
namespace Wire

open Lib Outcome

/-! ## Writing an expression buffer -/

theorem fromParts_eq_ok {p : Parts} {b : List UInt8} : fromParts p = ok b ↔
    (p.nodes.length ≤ 2 ^ 31 ∧ p.children.length < 2 ^ 32 ∧ p.blob.length < 2 ^ 32) ∧
      b = p.encode (List.replicate 3 0) (List.replicate 12 0) := by
  simp only [fromParts, bind_eq_ok, ensure_eq_ok, exists_const, expressionLen_eq_ok, pure_eq,
    Outcome.ok.injEq]
  simp only [maxNodeCount, usize_eq]
  constructor
  · rintro ⟨-, h1, h2, h3, _, -, rfl⟩
    exact ⟨⟨h1, h2, h3⟩, rfl⟩
  · rintro ⟨⟨h1, h2, h3⟩, rfl⟩
    exact ⟨by omega, h1, h2, h3, _, ⟨by omega, rfl⟩, rfl⟩

theorem safe_fromParts {p : Parts} : Safe (fromParts p) := by
  refine safe_ensure.bind fun _ _ => safe_ensure.bind fun _ _ => safe_ensure.bind fun _ _ =>
    safe_ensure.bind fun _ _ => Safe.bind ?_ fun _ _ => safe_ok _
  exact safe_checkedMul.bind fun _ _ => safe_checkedAdd.bind fun _ _ =>
    safe_checkedMul.bind fun _ _ => safe_checkedAdd.bind fun _ _ => safe_checkedAdd

namespace Parts

variable {p : Parts} {r₁ r₂ : List UInt8}

/-- The fields of a buffer, at their offsets. -/
theorem stands_encode (h₁ : r₁.length = 3) (h₂ : r₂.length = 12) {b : List UInt8}
    (hb : b = p.encode r₁ r₂) :
    Stands b 0 exprMagic ∧ Stands b 4 [version] ∧
    Stands b 8 (u32Bytes (UInt32.ofNat p.nodes.length)) ∧
    Stands b 12 (u32Bytes (UInt32.ofNat p.children.length)) ∧
    Stands b 16 (u32Bytes (UInt32.ofNat p.blob.length)) ∧
    Stands b 32 (p.nodes.flatMap RawNode.encode) ∧
    Stands b (32 + 24 * p.nodes.length) (p.children.flatMap NodeRef.bytes) ∧
    Stands b (32 + 24 * p.nodes.length + 4 * p.children.length) p.blob := by
  have hs : Stands b 0 (p.encode r₁ r₂) := hb ▸ stands_self
  have hmagic : exprMagic.length = 4 := rfl
  simp only [encode, stands_append, List.length_append, List.length_singleton, h₁, h₂, hmagic,
    length_u32Bytes, length_flatMap_const RawNode.length_encode,
    length_flatMap_const NodeRef.length_bytes, Nat.zero_add, Nat.reduceAdd, and_assoc] at hs
  obtain ⟨m, v, -, n, c, l, -, ns, cs, bl⟩ := hs
  exact ⟨m, v, n, c, l, ns, cs, bl⟩

/-- **What is written is read back.** -/
theorem ofBytes_encode (h₁ : r₁.length = 3) (h₂ : r₂.length = 12) (hn : p.nodes.length ≤ 2 ^ 31)
    (hc : p.children.length < 2 ^ 32) (hl : p.blob.length < 2 ^ 32) :
    HeaderOk (p.encode r₁ r₂) ∧ ofBytes (p.encode r₁ r₂) = p := by
  generalize hb : p.encode r₁ r₂ = b
  obtain ⟨m, v, n, c, l, ns, cs, bl⟩ := stands_encode h₁ h₂ hb.symm
  have small : ∀ {k : Nat}, k < 2 ^ 32 → (UInt32.ofNat k).toNat = k := by
    intro k hk
    rw [UInt32.toNat_ofNat']
    exact Nat.mod_eq_of_lt hk
  have hn' : (u32At b 8).toNat = p.nodes.length := by rw [n.u32At_eq, small (by omega)]
  have hc' : (u32At b 12).toNat = p.children.length := by rw [c.u32At_eq, small hc]
  have hl' : (u32At b 16).toNat = p.blob.length := by rw [l.u32At_eq, small hl]
  have hlen : b.length = 32 + 24 * p.nodes.length + 4 * p.children.length + p.blob.length := by
    have hmagic : exprMagic.length = 4 := rfl
    rw [← hb]
    simp only [encode, List.length_append, List.length_singleton, h₁, h₂, hmagic, length_u32Bytes,
      length_flatMap_const RawNode.length_encode, length_flatMap_const NodeRef.length_bytes]
  refine ⟨⟨by rw [exprHeaderLen, hlen]; omega, m.2, v.u8At_eq, by rw [hn']; exact hn,
    by rw [hn', hc', hl', hlen]⟩, ?_⟩
  -- the three tables, one after the other
  have hnodes : (ofBytes b).nodes = p.nodes := by
    apply List.ext_getElem
    · rw [length_nodes_ofBytes, hn']
    · intro i hi hi'
      simp only [ofBytes, List.getElem_map, List.getElem_range]
      exact RawNode.read_eq (ns.flatMap_getElem RawNode.length_encode hi')
  have hchildren : (ofBytes b).children = p.children := by
    apply List.ext_getElem
    · rw [length_children_ofBytes, hc']
    · intro i hi hi'
      simp only [ofBytes, List.getElem_map, List.getElem_range, hn']
      exact congrArg NodeRef.mk (cs.flatMap_getElem NodeRef.length_bytes hi').u32At_eq
  have hblob : (ofBytes b).blob = p.blob := by
    simp only [ofBytes, hn', hc']
    have hbl := bl.2
    rwa [List.take_of_length_le (by rw [List.length_drop]; omega)] at hbl
  cases hp : ofBytes b with
  | mk nodes children blob =>
    rw [hp] at hnodes hchildren hblob
    cases p
    simp_all

/-- The buffer of a well-formed DAG is well formed. -/
theorem WellFormed.fromParts (h : p.WellFormed) {b : List UInt8} (hb : Wire.fromParts p = ok b) :
    Wire.WellFormed b ∧ ofBytes b = p := by
  obtain ⟨⟨hn, hc, hl⟩, rfl⟩ := fromParts_eq_ok.mp hb
  obtain ⟨hh, hp⟩ := @ofBytes_encode p _ _ (List.length_replicate ..) (List.length_replicate ..) hn hc hl
  exact ⟨⟨hh, by rwa [hp]⟩, hp⟩

end Parts

/-! ## Relocations -/

/-- `q` holds, at `φ i` for every live row `i` of `p` and nowhere else, the node of row `i` with
its references renamed; live rows refer to live rows and keep their order. -/
structure Relocation (p q : Parts) (live : Nat → Prop) (φ : Nat → Nat) : Prop where
  blob : q.blob = p.blob
  mono : ∀ {i j}, live i → live j → i < j → φ i < φ j
  closed : ∀ {i n}, p.nodes[i]? = some n → live i → ∀ r ∈ p.operands n, live r.idx
  node : ∀ {i n}, p.nodes[i]? = some n → live i → ∃ n', q.nodes[φ i]? = some n' ∧
    { n' with children := n.children } = n ∧
    (n'.arity ≠ 0 → n'.children.toNat + n'.arity.toNat ≤ q.children.length) ∧
    ∀ (k : Nat) (r : NodeRef), (p.operands n)[k]? = some r →
      ∃ r', q.children[n'.children.toNat + k]? = some r' ∧ r'.sort = r.sort ∧ r'.idx = φ r.idx
  onto : ∀ {j n'}, q.nodes[j]? = some n' → ∃ i n, live i ∧ φ i = j ∧ p.nodes[i]? = some n

namespace Relocation

variable {p q : Parts} {live : Nat → Prop} {φ : Nat → Nat}

/-- A live node and its copy, with what they share. -/
theorem fields {n n' : RawNode} (h : { n' with children := n.children } = n) :
    n'.tag = n.tag ∧ n'.arity = n.arity ∧ n'.auxHi = n.auxHi ∧ n'.width = n.width ∧
      n'.auxLo = n.auxLo ∧ n'.payload = n.payload := by
  cases n
  cases n'
  simp_all

theorem blobAt_eq (h : Relocation p q live φ) (r : BlobRef) : q.blobAt r = p.blobAt r := by
  simp only [Parts.blobAt, h.blob]

theorem textAt_eq (h : Relocation p q live φ) (r : BlobRef) : q.textAt r = p.textAt r := by
  rw [Parts.textAt, h.blobAt_eq, ← Parts.textAt]

/-- A relocated DAG is well formed. -/
theorem wellFormed (h : Relocation p q live φ) (hp : p.WellFormed) : q.WellFormed := by
  -- the row a row of `q` comes from
  have source : ∀ {j n'}, q.nodes[j]? = some n' → ∃ i n, live i ∧ φ i = j ∧
      p.nodes[i]? = some n ∧ { n' with children := n.children } = n := by
    intro j n' hn'
    obtain ⟨i, n, hi, rfl, hn⟩ := h.onto hn'
    obtain ⟨m', hm', heq, -⟩ := h.node hn hi
    obtain rfl : m' = n' := Option.some.inj (hm'.symm.trans hn')
    exact ⟨i, n, hi, rfl, hn, heq⟩
  have hblobRef : ∀ {n n' : RawNode}, { n' with children := n.children } = n →
      n'.blobRef = n.blobRef := by
    intro n n' heq
    rw [RawNode.blobRef, RawNode.blobRef, (fields heq).2.2.2.2.2]
  have hdecl : ∀ {j n' t s}, q.Declares j n' t s → ∃ i n, p.Declares i n t s ∧
      n'.width = n.width := by
    intro j n' t s hd
    obtain ⟨i, n, -, -, hn, heq⟩ := source hd.1
    obtain ⟨htag, -, -, hw, -⟩ := fields heq
    refine ⟨i, n, ⟨hn, htag ▸ hd.2.1, hd.2.2.1, ?_⟩, hw⟩
    rw [← h.textAt_eq, ← hblobRef heq]
    exact hd.2.2.2
  refine ⟨?_, ?_⟩
  · intro j n' hn'
    obtain ⟨i, n, hi, rfl, hn⟩ := h.onto hn'
    obtain ⟨m', hm', heq, hrange, hchild⟩ := h.node hn hi
    obtain rfl : m' = n' := Option.some.inj (hm'.symm.trans hn')
    obtain ⟨htag, harity, hhi, hw, hlo, hpay⟩ := fields heq
    obtain ⟨t, ht, hrule⟩ := hp.node i n hn
    refine ⟨t, htag ▸ ht, ⟨?_, ?_, ⟨?_, ?_⟩, hrange, ?_⟩⟩
    · simpa only [Parts.ArityRule, harity] using hrule.arity
    · simpa only [Parts.WidthRule, hw] using hrule.width
    · intro hvar
      rw [hblobRef heq, h.textAt_eq]
      exact hrule.blob.name hvar
    · intro hc h64
      rw [hblobRef heq, hw, h.blobAt_eq]
      exact hrule.blob.const hc (hw ▸ h64)
    · refine hrule.operands.transport hrule.arity harity hw hhi hlo ?_
      intro k hk σ w hop
      obtain ⟨r, m, u, hr, hsort, hlt, hm, hu, hres, hmw⟩ := hop
      have hop' : (p.operands n)[k]? = some r := by
        rw [Parts.getElem?_operands hk, hr]
        rfl
      have hlive := h.closed hn hi r (List.mem_of_getElem? hop')
      obtain ⟨r', hr', hsort', hidx'⟩ := hchild k r hop'
      obtain ⟨c', hc', hceq, -⟩ := h.node hm hlive
      obtain ⟨hctag, -, -, hcw, -⟩ := fields hceq
      refine ⟨r', c', u, hr', hsort'.trans hsort, ?_, hidx' ▸ hc', hctag ▸ hu, hres, hcw ▸ hmw⟩
      rw [hidx']
      exact h.mono hlive hi hlt
  · intro i j n m t u s hi hj
    obtain ⟨i', n', hi', hw⟩ := hdecl hi
    obtain ⟨j', m', hj', hw'⟩ := hdecl hj
    rw [hw, hw']
    exact hp.symbols hi' hj'

theorem sem_eq (h : Relocation p q live φ) {ρ : Env} {n n' : RawNode}
    (heq : { n' with children := n.children } = n) (args : List Smt.Value) :
    q.sem ρ n' args = p.sem ρ n args := by
  obtain ⟨c, rfl⟩ : ∃ c, n = { n' with children := c } := ⟨n.children, heq.symm⟩
  have hsym : q.symbol n' = p.symbol { n' with children := c } := by
    simp only [Parts.symbol, RawNode.blobRef, h.textAt_eq]
  have hconst : q.constant n' = p.constant { n' with children := c } := by
    simp only [Parts.constant, RawNode.blobRef, h.blobAt_eq]
  simp only [Parts.sem]
  cases Tag.tryFrom n'.tag with
  | none => rfl
  | some t => cases t <;> simp only [Parts.semTag, hsym, hconst]

/-- **Relocation preserves meaning**: the copy of a live node has the node's value under every
assignment. -/
theorem value_eq (h : Relocation p q live φ) (hp : p.WellFormed) {ρ : Env} {i : Nat}
    (hlt : i < p.nodes.length) (hi : live i) : q.value ρ (φ i) = p.value ρ i := by
  refine Dag.value_relocate Parts.local_sem Parts.local_sem hp.ordered (h.wellFormed hp).ordered
    ?_ hlt hi
  intro i n hn hi
  obtain ⟨n', hn', heq, hrange, hchild⟩ := h.node hn hi
  refine ⟨?_, n', hn', ?_⟩
  · intro j hj
    obtain ⟨r, hr, rfl⟩ := List.mem_map.mp hj
    exact h.closed hn hi r hr
  · intro g g' hg
    show q.sem ρ n' _ = p.sem ρ n _
    rw [h.sem_eq heq]
    congr 1
    have harity := (fields heq).2.1
    apply List.ext_getElem?
    intro k
    simp only [List.getElem?_map]
    by_cases hk : k < n.arity.toNat
    · have hop := @Parts.getElem?_operands p k n hk
      obtain ⟨r', hr', hsort', hidx'⟩ := hchild k _ hop
      have hop' : (q.operands n')[k]? = some r' := by
        rw [Parts.getElem?_operands (by rwa [harity]), hr']
        rfl
      rw [hop, hop', Option.map_some, Option.map_some, hidx']
      exact congrArg some (hg _ (List.mem_map_of_mem (List.mem_of_getElem? hop)))
    · have h1 : (p.operands n)[k]? = none := by simpa [Parts.operands] using hk
      have h2 : (q.operands n')[k]? = none := by simpa [Parts.operands, harity] using hk
      rw [h1, h2]
      rfl

end Relocation

namespace ExprBuilder

variable {s : ExprBuilder} {marked marked' : List Bool} {i k : Nat} {n : RawNode} {r : NodeRef}

/-! ## Marking -/

/-- The row is marked. -/
def Live (marked : List Bool) (i : Nat) : Prop := marked[i]? = some true

/-- What marking does between two states of the bit vector: nothing is unmarked, and a row
marked on the way refers to marked rows only. -/
structure Marks (s : ExprBuilder) (marked marked' : List Bool) : Prop where
  length : marked'.length = marked.length
  mono : ∀ {i}, Live marked i → Live marked' i
  closed : ∀ {i n}, Live marked' i → ¬Live marked i → s.nodes[i]? = some n →
    ∀ r ∈ s.parts.operands n, Live marked' r.idx

theorem Marks.refl : s.Marks marked marked :=
  ⟨rfl, fun h => h, fun h hn => absurd h hn⟩

theorem Marks.trans {marked'' : List Bool} (h : s.Marks marked marked')
    (h' : s.Marks marked' marked'') : s.Marks marked marked'' := by
  refine ⟨h'.length.trans h.length, fun hi => h'.mono (h.mono hi), ?_⟩
  intro i n hi hni hn r hr
  by_cases hmid : Live marked' i
  · exact h'.mono (h.closed hmid hni hn r hr)
  · exact h'.closed hi hmid hn r hr

/-- The code's access to operand `k` of a node is in range, and finds an earlier node. -/
theorem Inv.childAt (hs : s.Inv) (hn : s.nodes[i]? = some n) (hk : k < n.arity.toNat) :
    ∃ r m, s.childAt n k = ok r ∧ (s.parts.operands n)[k]? = some r ∧ r.idx < i ∧
      s.HasRef r m := by
  obtain ⟨t, -, hrule⟩ := hs.wf.node i n hn
  obtain ⟨σ, w, ho⟩ := hrule.operand hk
  obtain ⟨r, hop, hr, -, hlt⟩ := ho.getElem?_operands hk
  obtain ⟨r', m, u, hr', hsort, -, hm, hu, hres, -⟩ := ho
  obtain rfl : r = r' := Option.some.inj (hr.symm.trans hr')
  refine ⟨r, ⟨u.resultSort, m.width⟩, ?_, hop, hlt, hs.meta_eq _ m u hm hu, hres.trans hsort.symm⟩
  have h1 := n.children.toNat_lt
  have h2 := n.arity.toNat_lt
  rw [ExprBuilder.childAt, addU_of_lt (by rw [usize_eq]; omega), ok_bind]
  exact expect_eq_ok.mpr hr

theorem live_set (hi : i < marked.length) {j : Nat} :
    Live (marked.set i true) j ↔ j = i ∨ Live marked j := by
  unfold Live
  rw [List.getElem?_set]
  by_cases hji : i = j
  · subst hji
    simp [hi]
  · have hne : ¬j = i := fun h => hji h.symm
    simp [hji, hne]

/-- **Marking from one reference.** The recursion goes from a node to earlier ones, so an index
bounds its depth; it marks the reference and a set of rows that is closed under reference as far
as it is new. -/
theorem markRef_spec (hs : s.Inv) : ∀ (fuel : Nat) (marked : List Bool) (r : NodeRef),
    marked.length = s.nodes.length → r.idx < fuel →
    Yields (s.markRef fuel marked r) fun marked' =>
      s.Marks marked marked' ∧ Live marked' r.idx ∧ ∃ m, s.HasRef r m := by
  intro fuel
  induction fuel with
  | zero => exact fun _ _ _ h => absurd h (Nat.not_lt_zero _)
  | succ fuel ih =>
    intro marked r hlen hfuel
    refine safe_metaFor.yields.bind fun m hm _ => ?_
    rw [metaFor_eq_ok] at hm
    have hlt : r.idx < s.nodes.length := by
      rw [← hs.metas]
      exact (List.getElem?_eq_some_iff.mp hm.1).1
    have hlt' : r.idx < marked.length := by omega
    rw [List.getElem?_eq_getElem hlt', expect_some, ok_bind]
    split
    · rename_i hmarked
      have hlive : Live marked r.idx := by
        rw [Live, List.getElem?_eq_getElem hlt', hmarked]
      exact yields_ok ⟨Marks.refl, hlive, m, hm⟩
    · rename_i hmarked
      have hnot : ¬Live marked r.idx := by
        rw [Live, List.getElem?_eq_getElem hlt', Option.some.injEq]
        exact hmarked
      have hn : s.nodes[r.idx]? = some s.nodes[r.idx] := List.getElem?_eq_getElem hlt
      rw [hn, expect_some, ok_bind]
      -- after `k` rounds the node and its first `k` operands are marked
      have hloop := @yields_foldlM_range _ _
        (fun marked childOffset => do
          let child ← s.childAt s.nodes[r.idx] childOffset
          s.markRef fuel marked child) (marked.set r.idx true) s.nodes[r.idx].arity.toNat
        (fun k marked' => s.Marks (marked.set r.idx true) marked' ∧
          ∀ (j : Nat) (c : NodeRef), j < k → (s.parts.operands s.nodes[r.idx])[j]? = some c → Live marked' c.idx)
        ⟨Marks.refl, fun j _ hj => absurd hj (Nat.not_lt_zero j)⟩ ?_
      · refine hloop.mono ?_
        rintro marked' ⟨hmarks, hops⟩
        have hmem : ∀ c ∈ s.parts.operands s.nodes[r.idx], Live marked' c.idx := by
          intro c hc
          obtain ⟨j, hj⟩ := List.mem_iff_getElem?.mp hc
          have hj' := (List.getElem?_eq_some_iff.mp hj).1
          exact hops j c (by simpa [Parts.operands] using hj') hj
        refine ⟨⟨by rw [hmarks.length, List.length_set], ?_, ?_⟩, ?_, m, hm⟩
        · intro i hi
          exact hmarks.mono ((live_set hlt').mpr (.inr hi))
        · intro i n' hi hni hn'
          by_cases hself : i = r.idx
          · subst hself
            obtain rfl : s.nodes[r.idx] = n' := Option.some.inj (hn.symm.trans hn')
            exact hmem
          · refine hmarks.closed hi ?_ hn'
            rw [live_set hlt']
            exact fun h => h.elim hself hni
        · exact hmarks.mono ((live_set hlt').mpr (.inl rfl))
      · rintro k hk marked' ⟨hmarks, hops⟩
        obtain ⟨c, mc, hc, hop, hci, -⟩ := hs.childAt hn hk
        rw [hc, ok_bind]
        refine (ih marked' c (by rw [hmarks.length, List.length_set, hlen]) (by omega)).mono ?_
        rintro marked'' ⟨hmarks', hlive, -⟩
        refine ⟨hmarks.trans hmarks', ?_⟩
        intro j d hj hd
        by_cases hjk : j = k
        · subst hjk
          obtain rfl : c = d := Option.some.inj (hop.symm.trans hd)
          exact hlive
        · exact hmarks'.mono (hops j d (by omega) hd)

/-- **Marking from all roots**: they are marked, and the marked rows refer to marked rows. -/
theorem markRoots_spec (hs : s.Inv) (roots : List NodeRef) :
    Yields (s.markRoots roots) fun marked => marked.length = s.nodes.length ∧
      (∀ {i n}, Live marked i → s.nodes[i]? = some n → ∀ r ∈ s.parts.operands n, Live marked r.idx) ∧
      ∀ r ∈ roots, Live marked r.idx ∧ ∃ m, s.HasRef r m := by
  have hempty : ∀ {i}, ¬Live (List.replicate s.nodes.length false) i := by
    intro i hi
    have hmem := List.mem_of_getElem? hi
    simp at hmem
  refine (yields_foldlM (fun done marked => s.Marks (List.replicate s.nodes.length false) marked ∧
    ∀ r ∈ done, Live marked r.idx ∧ ∃ m, s.HasRef r m) ⟨Marks.refl, by simp⟩ ?_).mono ?_
  · rintro done root marked - ⟨hmarks, hdone⟩
    have hlen : marked.length = s.nodes.length := by rw [hmarks.length, List.length_replicate]
    -- the fuel is one more than the number of nodes, whatever the reference says
    by_cases hroot : root.idx < s.nodes.length + 1
    · refine (markRef_spec hs _ marked root hlen hroot).mono ?_
      rintro marked' ⟨hmarks', hlive, hm⟩
      refine ⟨hmarks.trans hmarks', ?_⟩
      intro r hr
      rcases List.mem_append.mp hr with hold | hnew
      · exact ⟨hmarks'.mono (hdone r hold).1, (hdone r hold).2⟩
      · rw [List.mem_singleton] at hnew
        subst hnew
        exact ⟨hlive, hm⟩
    · have hnone : s.metas[root.idx]? = none := by
        rw [List.getElem?_eq_none_iff, hs.metas]
        omega
      rw [markRef, metaFor, hnone]
      exact ⟨safe_err _, fun _ h => by cases h⟩
  · rintro marked ⟨hmarks, hroots⟩
    refine ⟨by rw [hmarks.length, List.length_replicate], ?_, hroots⟩
    intro i n hi hn
    exact hmarks.closed hi hempty hn

/-! ## Ranks -/

/-- The number of marked rows before a row. -/
def rank (marked : List Bool) (i : Nat) : Nat := (marked.take i).count true

theorem rank_succ_of_live (h : Live marked i) : rank marked (i + 1) = rank marked i + 1 := by
  rw [rank, rank, List.take_add_one, h]
  simp

theorem rank_succ_of_not_live (h : ¬Live marked i) : rank marked (i + 1) = rank marked i := by
  rw [rank, rank, List.take_add_one]
  cases hi : marked[i]? with
  | none => simp
  | some b =>
    cases b with
    | false => simp
    | true => exact absurd hi h

theorem rank_mono {j : Nat} (h : i ≤ j) : rank marked i ≤ rank marked j :=
  (List.take_sublist_take_left h).count_le true

theorem rank_le : rank marked i ≤ i :=
  List.count_le_length.trans (List.length_take_le i marked)

theorem rank_lt {j : Nat} (hi : Live marked i) (h : i < j) : rank marked i < rank marked j := by
  have hstep : rank marked (i + 1) ≤ rank marked j := rank_mono h
  rw [rank_succ_of_live hi] at hstep
  omega

theorem rank_inj {j : Nat} (hi : Live marked i) (hj : Live marked j)
    (h : rank marked i = rank marked j) : i = j := by
  rcases Nat.lt_trichotomy i j with hlt | heq | hgt
  · have := rank_lt hi hlt
    omega
  · exact heq
  · have := rank_lt hj hgt
    omega

/-- Every number below the rank of `k` is the rank of a marked row below `k`. -/
theorem exists_rank_eq {j : Nat} (h : j < rank marked k) :
    ∃ i < k, Live marked i ∧ rank marked i = j := by
  induction k with
  | zero => simp [rank] at h
  | succ k ih =>
    by_cases hk : Live marked k
    · rw [rank_succ_of_live hk] at h
      by_cases hj : j = rank marked k
      · exact ⟨k, by omega, hk, hj.symm⟩
      · obtain ⟨i, hi, hlive, heq⟩ := ih (by omega)
        exact ⟨i, by omega, hlive, heq⟩
    · rw [rank_succ_of_not_live hk] at h
      obtain ⟨i, hi, hlive, heq⟩ := ih h
      exact ⟨i, by omega, hlive, heq⟩

/-! ## Numbering -/

/-- The sort of a row. -/
def sortAt (s : ExprBuilder) (i : Nat) : WireSort := ((s.metas[i]?).map (·.sort)).getD .bv

theorem HasRef.sortAt_eq {m : NodeMeta} (h : s.HasRef r m) : s.sortAt r.idx = r.sort := by
  rw [sortAt, h.1]
  exact h.2

/-- What the numbering loop has built before round `k`: the new reference of a marked row has
the row's sort and rank, in both directions. -/
structure NumberingAt (s : ExprBuilder) (marked : List Bool) (k : Nat) (st : Numbering) : Prop where
  next : st.nextIndex = rank marked k
  length : st.oldToNew.length = s.nodes.length
  oldToNew : ∀ {i new}, st.oldToNew[i]? = some (some new) ↔
    i < k ∧ Live marked i ∧ new = .mk' (s.sortAt i) (rank marked i)
  newToOld : ∀ {new old}, st.newToOld.lookup new = some old ↔
    ∃ i < k, Live marked i ∧ new = .mk' (s.sortAt i) (rank marked i) ∧ old = .mk' (s.sortAt i) i

theorem numberNode_spec (hs : s.Inv) (hlen : marked.length = s.nodes.length)
    (hk : k < s.nodes.length) {st : Numbering} (h : NumberingAt s marked k st) :
    Yields (s.numberNode marked st k) (NumberingAt s marked (k + 1)) := by
  have hk' : k < marked.length := by omega
  have hnodes := hs.nodes_le
  have hrank := @rank_le marked k
  rw [numberNode, List.getElem?_eq_getElem hk', expect_some, ok_bind]
  split
  · rename_i hmarked
    have hlive : Live marked k := by rw [Live, List.getElem?_eq_getElem hk', hmarked]
    have hm : k < s.metas.length := by rw [hs.metas]; exact hk
    have hsort : s.metas[k].sort = s.sortAt k := by
      rw [sortAt, List.getElem?_eq_getElem hm]
      rfl
    have small : ∀ {j : Nat}, j ≤ k → (UInt32.ofNat j).toNat = j := by
      intro j hj
      rw [UInt32.toNat_ofNat']
      exact Nat.mod_eq_of_lt (by omega)
    have hnew : NodeRef.new (s.sortAt k) (UInt32.ofNat st.nextIndex) =
        ok (.mk' (s.sortAt k) (rank marked k)) := by
      rw [NodeRef.new_eq_ok, h.next, small hrank]
      exact ⟨by omega, rfl⟩
    have hold : NodeRef.new (s.sortAt k) (UInt32.ofNat k) = ok (.mk' (s.sortAt k) k) := by
      rw [NodeRef.new_eq_ok, small (le_refl k)]
      exact ⟨by omega, rfl⟩
    rw [List.getElem?_eq_getElem hm, expect_some, ok_bind, hsort, hnew, ok_bind, hold, ok_bind]
    refine safe_checkedAdd32.yields.bind fun next hnext _ => yields_ok ⟨?_, ?_, ?_, ?_⟩
    · unfold checkedAdd32 at hnext
      split at hnext
      · rw [rank_succ_of_live hlive, ← h.next, ← Outcome.ok.inj hnext]
      · cases hnext
    · rw [List.length_set, h.length]
    · intro i new
      rw [List.getElem?_set]
      by_cases hik : k = i
      · subst hik
        rw [if_pos rfl, if_pos (by rw [h.length]; exact hk)]
        constructor
        · intro heq
          exact ⟨by omega, hlive, (Option.some.inj (Option.some.inj heq)).symm⟩
        · rintro ⟨-, -, rfl⟩
          rfl
      · rw [if_neg hik, h.oldToNew]
        constructor
        · rintro ⟨hlt, hrest⟩
          exact ⟨by omega, hrest⟩
        · rintro ⟨hlt, hrest⟩
          exact ⟨by omega, hrest⟩
    · intro new old
      rw [List.lookup_cons]
      by_cases heq : new = .mk' (s.sortAt k) (rank marked k)
      · subst heq
        rw [beq_self_eq_true]
        constructor
        · intro hold
          exact ⟨k, by omega, hlive, rfl, (Option.some.inj hold).symm⟩
        · rintro ⟨i, hi, hilive, hieq, rfl⟩
          -- two marked rows with one new reference are one row
          have hranki := @rank_le marked i
          have hidx := congrArg NodeRef.idx hieq
          rw [NodeRef.idx_mk' (by omega), NodeRef.idx_mk' (by omega)] at hidx
          obtain rfl := rank_inj hlive hilive hidx
          rfl
      · rw [show (new == NodeRef.mk' (s.sortAt k) (rank marked k)) = false from
          beq_eq_false_iff_ne.mpr heq]
        show st.newToOld.lookup new = some old ↔ _
        rw [h.newToOld]
        constructor
        · rintro ⟨i, hi, hrest⟩
          exact ⟨i, by omega, hrest⟩
        · rintro ⟨i, hi, hilive, hieq, hold⟩
          have hik : i ≠ k := by
            rintro rfl
            exact heq hieq
          exact ⟨i, by omega, hilive, hieq, hold⟩
  · rename_i hmarked
    have hnot : ¬Live marked k := by
      rw [Live, List.getElem?_eq_getElem hk', Option.some.injEq]
      exact hmarked
    have step : ∀ {i}, Live marked i → (i < k + 1 ↔ i < k) := by
      intro i hi
      have hik : i ≠ k := by
        rintro rfl
        exact hnot hi
      omega
    refine yields_ok ⟨by rw [rank_succ_of_not_live hnot]; exact h.next, h.length, ?_, ?_⟩
    · intro i new
      rw [h.oldToNew]
      constructor
      · rintro ⟨hlt, hi, heq⟩
        exact ⟨(step hi).mpr hlt, hi, heq⟩
      · rintro ⟨hlt, hi, heq⟩
        exact ⟨(step hi).mp hlt, hi, heq⟩
    · intro new old
      rw [h.newToOld]
      constructor
      · rintro ⟨i, hlt, hi, hrest⟩
        exact ⟨i, (step hi).mpr hlt, hi, hrest⟩
      · rintro ⟨i, hlt, hi, hrest⟩
        exact ⟨i, (step hi).mp hlt, hi, hrest⟩

theorem numbering_spec (hs : s.Inv) (hlen : marked.length = s.nodes.length) :
    Yields ((List.range marked.length).foldlM (s.numberNode marked)
      ⟨List.replicate s.nodes.length none, [], 0⟩) (NumberingAt s marked s.nodes.length) := by
  rw [hlen]
  refine yields_foldlM_range (NumberingAt s marked) ⟨by simp [rank], by simp, ?_, ?_⟩ ?_
  · intro i new
    constructor
    · intro h
      have hmem := List.mem_of_getElem? h
      simp at hmem
    · rintro ⟨h, -⟩
      omega
  · intro new old
    constructor
    · intro h
      simp at h
    · rintro ⟨i, hi, -⟩
      omega
  · intro k hk st hst
    exact numberNode_spec hs hlen hk hst

/-! ## Copying -/

/-- The new reference of a row. -/
def renamed (s : ExprBuilder) (marked : List Bool) (r : NodeRef) : NodeRef :=
  .mk' (s.sortAt r.idx) (rank marked r.idx)

theorem compactChildren_spec (hs : s.Inv) {st : Numbering}
    (hst : NumberingAt s marked s.nodes.length st) (hn : s.nodes[i]? = some n)
    (hops : ∀ r ∈ s.parts.operands n, Live marked r.idx) {newChildren : List NodeRef} :
    Yields (s.compactChildren st.oldToNew i n newChildren) fun children =>
      children = newChildren ++ (s.parts.operands n).map (s.renamed marked) := by
  have hlen : (s.parts.operands n).length = n.arity.toNat := by simp [Parts.operands]
  refine (yields_foldlM_range
    (fun k children => children = newChildren ++ ((s.parts.operands n).take k).map (s.renamed marked))
    (by simp) ?_).mono ?_
  · rintro k hk children rfl
    obtain ⟨r, m, hc, hop, hlt, hr⟩ := hs.childAt hn hk
    have hi := (List.getElem?_eq_some_iff.mp hn).1
    have hnew : st.oldToNew[r.idx]? = some (some (s.renamed marked r)) :=
      hst.oldToNew.mpr ⟨by omega, hops r (List.mem_of_getElem? hop), rfl⟩
    rw [hc, ok_bind, hnew]
    refine yields_ok ?_
    rw [List.take_add_one, hop]
    simp
  · rintro children rfl
    rw [List.take_of_length_le (by omega)]

/-- What the copying loop has written before round `k`. -/
structure CopyAt (s : ExprBuilder) (marked : List Bool) (k : Nat)
    (st : List RawNode × List NodeRef) : Prop where
  length : st.1.length = rank marked k
  node : ∀ {i n}, i < k → Live marked i → s.nodes[i]? = some n → ∃ n', st.1[rank marked i]? = some n' ∧
    { n' with children := n.children } = n ∧
    (n'.arity ≠ 0 → n'.children.toNat + n'.arity.toNat ≤ st.2.length) ∧
    ∀ (j : Nat) (r : NodeRef), (s.parts.operands n)[j]? = some r →
      st.2[n'.children.toNat + j]? = some (s.renamed marked r)

theorem compactNode_spec (hs : s.Inv) {num : Numbering}
    (hnum : NumberingAt s marked s.nodes.length num) (hlen : marked.length = s.nodes.length)
    (hclosed : ∀ {i n}, Live marked i → s.nodes[i]? = some n →
      ∀ r ∈ s.parts.operands n, Live marked r.idx)
    (hk : k < s.nodes.length) {st : List RawNode × List NodeRef} (h : CopyAt s marked k st) :
    Yields (s.compactNode marked num.oldToNew st k) (CopyAt s marked (k + 1)) := by
  have hk' : k < marked.length := by omega
  rw [compactNode, List.getElem?_eq_getElem hk', expect_some, ok_bind]
  split
  · rename_i hmarked
    have hlive : Live marked k := by rw [Live, List.getElem?_eq_getElem hk', hmarked]
    have hn : s.nodes[k]? = some s.nodes[k] := List.getElem?_eq_getElem hk
    rw [hn, expect_some, ok_bind]
    refine (compactChildren_spec hs hnum hn (hclosed hlive hn)).bind ?_
    rintro _ - rfl
    -- a node without operands has position `0`, any other the old length
    have hstart : Yields (compactStart s.nodes[k] st.2.length) fun c =>
        s.nodes[k].arity ≠ 0 → c.toNat = st.2.length := by
      unfold compactStart
      split
      · rename_i h0
        exact yields_ok fun hne => absurd h0 hne
      · refine safe_ensure.yields.bind fun _ hlt _ => yields_ok fun _ => ?_
        rw [UInt32.toNat_ofNat']
        exact Nat.mod_eq_of_lt (ensure_eq_ok.mp hlt)
    refine hstart.bind fun start _ hstart => yields_ok ⟨?_, ?_⟩
    · rw [List.length_append, h.length, rank_succ_of_live hlive]
      rfl
    · intro i n hi hil hin
      by_cases hik : i = k
      · subst hik
        obtain rfl : s.nodes[i] = n := Option.some.inj (hn.symm.trans hin)
        refine ⟨{ s.nodes[i] with children := start }, ?_, rfl, ?_, ?_⟩
        · simp [h.length]
        · intro hne
          have hops : (s.parts.operands s.nodes[i]).length = s.nodes[i].arity.toNat := by
            simp [Parts.operands]
          simp only [List.length_append, List.length_map, hops, hstart hne, le_refl]
        · intro j r hj
          have hne : s.nodes[i].arity ≠ 0 := by
            intro h0
            have hlt := (List.getElem?_eq_some_iff.mp hj).1
            simp [Parts.operands, h0] at hlt
          show (st.2 ++ _)[start.toNat + j]? = _
          rw [hstart hne, List.getElem?_append_right (by omega), Nat.add_sub_cancel_left,
            List.getElem?_map, hj]
          rfl
      · obtain ⟨n', hn', heq, hrange, hchild⟩ := h.node (by omega) hil hin
        refine ⟨n', Parts.getElem?_of_extends (List.prefix_append _ _) hn', heq, ?_, ?_⟩
        · intro hne
          rw [List.length_append]
          have := hrange hne
          omega
        · intro j r hj
          exact Parts.getElem?_of_extends (List.prefix_append _ _) (hchild j r hj)
  · rename_i hmarked
    have hnot : ¬Live marked k := by
      rw [Live, List.getElem?_eq_getElem hk', Option.some.injEq]
      exact hmarked
    refine yields_ok ⟨by rw [rank_succ_of_not_live hnot]; exact h.length, ?_⟩
    intro i n hi hil hin
    have hik : i ≠ k := by
      rintro rfl
      exact hnot hil
    exact h.node (by omega) hil hin

/-- What the three loops have copied is a relocation of the builder's DAG. -/
theorem CopyAt.relocation (hs : s.Inv) {st : List RawNode × List NodeRef}
    (h : CopyAt s marked s.nodes.length st) (hlen : marked.length = s.nodes.length)
    (hclosed : ∀ {i n}, Live marked i → s.nodes[i]? = some n →
      ∀ r ∈ s.parts.operands n, Live marked r.idx) :
    Relocation s.parts ⟨st.1, st.2, s.blob⟩ (Live marked) (rank marked) := by
  refine ⟨rfl, fun hi _ hij => rank_lt hi hij, fun hn hi => hclosed hi hn, ?_, ?_⟩
  · intro i n hn hi
    have hlt := (List.getElem?_eq_some_iff.mp hn).1
    obtain ⟨n', hn', heq, hrange, hchild⟩ := h.node hlt hi hn
    refine ⟨n', hn', heq, hrange, ?_⟩
    intro k r hk
    refine ⟨_, hchild k r hk, ?_⟩
    have hk' : k < n.arity.toNat := by
      have := (List.getElem?_eq_some_iff.mp hk).1
      simpa [Parts.operands] using this
    obtain ⟨r', m, -, hop, hri, hr⟩ := hs.childAt hn hk'
    obtain rfl : r' = r := Option.some.inj (hop.symm.trans hk)
    have hnodes := hs.nodes_le
    have hi' : i < s.nodes.length := hlt
    have hrank := @rank_le marked r'.idx
    rw [renamed, NodeRef.sort_mk' (by omega), NodeRef.idx_mk' (by omega), hr.sortAt_eq]
    exact ⟨rfl, rfl⟩
  · intro j n' hn'
    have hj := (List.getElem?_eq_some_iff.mp hn').1
    obtain ⟨i, hi, hlive, heq⟩ := exists_rank_eq (h.length ▸ hj)
    exact ⟨i, s.nodes[i], hlive, heq, List.getElem?_eq_getElem hi⟩

/-! ## Compaction as a whole -/

/-- What `compact` returns for some roots. -/
structure CompactOk (s : ExprBuilder) (roots : List NodeRef) (c : CompactedExpression)
    (marked : List Bool) (q : Parts) : Prop where
  length : marked.length = s.nodes.length
  roots : ∀ r ∈ roots, Live marked r.idx ∧ ∃ m, s.HasRef r m
  relocation : Relocation s.parts q (Live marked) (rank marked)
  bytes : fromParts q = ok c.bytes
  numbering : ∃ next, NumberingAt s marked s.nodes.length ⟨c.oldToNew, c.newToOld, next⟩

/-- **Compaction.** It never panics, and what it returns is the buffer of a relocation that
keeps the roots. -/
theorem compact_spec (hs : s.Inv) (roots : List NodeRef) :
    Yields (s.compact roots) fun c => ∃ marked q, CompactOk s roots c marked q := by
  refine (markRoots_spec hs roots).bind ?_
  rintro marked - ⟨hlen, hclosed, hroots⟩
  refine (numbering_spec hs hlen).bind ?_
  intro num _ hnum
  have hcopy : Yields ((List.range marked.length).foldlM (s.compactNode marked num.oldToNew) ([], []))
      (CopyAt s marked s.nodes.length) := by
    rw [hlen]
    refine yields_foldlM_range (CopyAt s marked) ⟨by simp [rank], ?_⟩ ?_
    · intro i n hi
      omega
    · intro k hk st hst
      exact compactNode_spec hs hnum hlen hclosed hk hst
  refine hcopy.bind fun st _ hst => safe_fromParts.yields.bind fun bytes hbytes _ => ?_
  refine yields_ok ⟨marked, _, hlen, hroots, hst.relocation hs hlen hclosed, hbytes, num.nextIndex, ?_⟩
  exact hnum

namespace CompactOk

variable {roots : List NodeRef} {c : CompactedExpression} {q : Parts}

/-- The compacted buffer validates, and holds the relocated DAG. -/
theorem wellFormed (h : CompactOk s roots c marked q) (hs : s.Inv) :
    WellFormed c.bytes ∧ Parts.ofBytes c.bytes = q :=
  (h.relocation.wellFormed hs.wf).fromParts h.bytes

/-- What `remap_ref` accepts, and what it returns. -/
theorem remapRef_eq_ok (h : CompactOk s roots c marked q) (hs : s.Inv) {old new : NodeRef} :
    c.remapRef old = ok new ↔
      ∃ i < s.nodes.length, Live marked i ∧ new = .mk' (s.sortAt i) (rank marked i) ∧
        old = .mk' (s.sortAt i) i := by
  obtain ⟨next, hnum⟩ := h.numbering
  have hnodes := hs.nodes_le
  simp only [CompactedExpression.remapRef, bind_eq_ok, ofOption_eq_ok, ensure_eq_ok, exists_const,
    pure_eq, Outcome.ok.injEq, Option.bind_eq_some_iff, id]
  constructor
  · rintro ⟨mapped, ⟨o, ho, rfl⟩, hsort, rfl⟩
    obtain ⟨hlt, hlive, rfl⟩ := hnum.oldToNew.mp ho
    have hrank := @rank_le marked old.idx
    rw [NodeRef.sort_mk' (by omega)] at hsort
    refine ⟨old.idx, hlt, hlive, rfl, ?_⟩
    rw [NodeRef.ext_iff', NodeRef.sort_mk' (by omega), NodeRef.idx_mk' (by omega)]
    exact ⟨hsort.symm, rfl⟩
  · rintro ⟨i, hi, hlive, rfl, rfl⟩
    have hrank := @rank_le marked i
    refine ⟨_, ⟨_, ?_, rfl⟩, ?_, rfl⟩
    · rw [NodeRef.idx_mk' (by omega)]
      exact hnum.oldToNew.mpr ⟨hi, hlive, rfl⟩
    · rw [NodeRef.sort_mk' (by omega), NodeRef.sort_mk' (by omega)]

/-- `original_ref` is the inverse of `remap_ref`. -/
theorem originalRef_eq_ok (h : CompactOk s roots c marked q) (hs : s.Inv) {old new : NodeRef} :
    c.originalRef new = ok old ↔ c.remapRef old = ok new := by
  obtain ⟨next, hnum⟩ := h.numbering
  rw [h.remapRef_eq_ok hs, CompactedExpression.originalRef, ofOption_eq_ok]
  exact hnum.newToOld

/-- A remapped reference has the sort of the original and denotes the same function of the
variables. -/
theorem remapRef_sound (h : CompactOk s roots c marked q) (hs : s.Inv) {old new : NodeRef}
    (hr : c.remapRef old = ok new) : new.sort = old.sort ∧
      ∀ ρ, (Parts.ofBytes c.bytes).value ρ new.idx = s.parts.value ρ old.idx := by
  obtain ⟨i, hi, hlive, rfl, rfl⟩ := (h.remapRef_eq_ok hs).mp hr
  have hnodes := hs.nodes_le
  have hrank := @rank_le marked i
  rw [NodeRef.sort_mk' (by omega), NodeRef.sort_mk' (by omega), NodeRef.idx_mk' (by omega),
    NodeRef.idx_mk' (by omega), (h.wellFormed hs).2]
  exact ⟨rfl, fun ρ => h.relocation.value_eq hs.wf hi hlive⟩

/-- Every root is remapped. -/
theorem remapRef_root (h : CompactOk s roots c marked q) (hs : s.Inv) {root : NodeRef}
    (hroot : root ∈ roots) : ∃ new, c.remapRef root = ok new := by
  obtain ⟨hlive, m, hm⟩ := h.roots root hroot
  have hlt : root.idx < s.nodes.length := by
    rw [← hs.metas]
    exact (List.getElem?_eq_some_iff.mp hm.1).1
  refine ⟨_, (h.remapRef_eq_ok hs).mpr ⟨root.idx, hlt, hlive, rfl, ?_⟩⟩
  have hnodes := hs.nodes_le
  rw [NodeRef.ext_iff', NodeRef.sort_mk' (by omega), NodeRef.idx_mk' (by omega), hm.sortAt_eq]
  exact ⟨rfl, rfl⟩

end CompactOk
end ExprBuilder
end Wire
end SmtServer
