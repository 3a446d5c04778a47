import SmtServer.Wire.Expr

/-!
# What a well-formed expression buffer is

`WellFormed` says what an expression buffer is: a header whose counts account for every byte,
and a DAG of nodes each of which meets the rule of its operator. The rules are stated on the
decoded `Parts` and mention no pass, table or offset.

A parsed view and the parts it gives access to are related by `IsViewOf`; with it the byte
offsets are behind us, and everything above works on lists of nodes and children.
-/

namespace SmtServer
namespace Wire

open Lib Outcome

/-! ## Decoding -/

namespace RawNode

/-- The record at an offset. -/
def read (b : List UInt8) (off : Nat) : RawNode where
  tag := u8At b off
  arity := u8At b (off + 1)
  auxHi := u16At b (off + 2)
  width := u32At b (off + 4)
  auxLo := u32At b (off + 8)
  children := u32At b (off + 12)
  payload := u64At b (off + 16)

@[simp] theorem length_encode (n : RawNode) : n.encode.length = 24 := by
  simp [encode]

variable {b : List UInt8} {off : Nat} {n : RawNode}

theorem stands_encode : Stands b off n.encode ↔
    Stands b off [n.tag] ∧ Stands b (off + 1) [n.arity] ∧ Stands b (off + 2) (u16Bytes n.auxHi) ∧
    Stands b (off + 4) (u32Bytes n.width) ∧ Stands b (off + 8) (u32Bytes n.auxLo) ∧
    Stands b (off + 12) (u32Bytes n.children) ∧ Stands b (off + 16) (u64Bytes n.payload) := by
  simp only [encode, stands_append, List.length_append, List.length_singleton, length_u16Bytes,
    length_u32Bytes, and_assoc, Nat.reduceAdd]

theorem stands_read (h : off + 24 ≤ b.length) : Stands b off (read b off).encode :=
  stands_encode.mpr ⟨stands_u8At (by omega), stands_u8At (by omega), stands_u16At (by omega),
    stands_u32At (by omega), stands_u32At (by omega), stands_u32At (by omega),
    stands_u64At (by omega)⟩

theorem read_eq (h : Stands b off n.encode) : read b off = n := by
  obtain ⟨h1, h2, h3, h4, h5, h6, h7⟩ := stands_encode.mp h
  simp only [read, h1.u8At_eq, h2.u8At_eq, h3.u16At_eq, h4.u32At_eq, h5.u32At_eq, h6.u32At_eq,
    h7.u64At_eq]

theorem decode_eq_ok : decode b off = ok n ↔ off + 24 < 2 ^ usizeBits ∧ Stands b off n.encode := by
  simp only [decode, bind_eq_ok, readU8_eq_ok, readU16_eq_ok, readU32_eq_ok, readU64_eq_ok,
    addU_eq_ok, pure_eq, Outcome.ok.injEq, stands_encode]
  constructor
  · rintro ⟨tag, ⟨-, h1⟩, _, ⟨-, rfl⟩, arity, ⟨-, h2⟩, _, ⟨-, rfl⟩, auxHi, ⟨-, h3⟩,
      _, ⟨-, rfl⟩, width, ⟨-, h4⟩, _, ⟨-, rfl⟩, auxLo, ⟨-, h5⟩, _, ⟨-, rfl⟩, children, ⟨-, h6⟩,
      _, ⟨-, rfl⟩, payload, ⟨hlt, h7⟩, rfl⟩
    exact ⟨by omega, h1, h2, h3, h4, h5, h6, h7⟩
  · rintro ⟨hlt, h1, h2, h3, h4, h5, h6, h7⟩
    exact ⟨_, ⟨by omega, h1⟩, _, ⟨by omega, rfl⟩, _, ⟨by omega, h2⟩, _, ⟨by omega, rfl⟩,
      _, ⟨by omega, h3⟩, _, ⟨by omega, rfl⟩, _, ⟨by omega, h4⟩, _, ⟨by omega, rfl⟩,
      _, ⟨by omega, h5⟩, _, ⟨by omega, rfl⟩, _, ⟨by omega, h6⟩, _, ⟨by omega, rfl⟩,
      _, ⟨by omega, h7⟩, rfl⟩

theorem decode_of_le (h : off + 24 ≤ b.length) (hb : off + 24 < 2 ^ usizeBits) :
    decode b off = ok (read b off) :=
  decode_eq_ok.mpr ⟨hb, stands_read h⟩

end RawNode

namespace Parts

/-- What the counts of the header and the arrays behind it say. -/
def ofBytes (b : List UInt8) : Parts where
  nodes := (List.range (u32At b 8).toNat).map fun i => RawNode.read b (32 + 24 * i)
  children := (List.range (u32At b 12).toNat).map fun j =>
    ⟨u32At b (32 + 24 * (u32At b 8).toNat + 4 * j)⟩
  blob := b.drop (32 + 24 * (u32At b 8).toNat + 4 * (u32At b 12).toNat)

/-- The bytes a blob reference names, where it stays inside the blob. -/
def blobAt (p : Parts) (r : BlobRef) : Option (List UInt8) :=
  if r.offset.toNat + r.len.toNat ≤ p.blob.length then
    some ((p.blob.drop r.offset.toNat).take r.len.toNat)
  else none

/-- The text a blob reference names. -/
def textAt (p : Parts) (r : BlobRef) : Option String := (p.blobAt r).bind utf8?

/-- Operand `k` of node `i` is an earlier node of sort `σ` and width `w`, and the reference
says so. -/
def Operand (p : Parts) (i : Nat) (n : RawNode) (k : Nat) (σ : WireSort) (w : Nat) : Prop :=
  ∃ r m t, p.children[n.children.toNat + k]? = some r ∧ r.sort = σ ∧ r.idx < i ∧
    p.nodes[r.idx]? = some m ∧ Tag.tryFrom m.tag = some t ∧ t.resultSort = σ ∧ m.width.toNat = w

/-- A Bool operand. -/
def BoolOperand (p : Parts) (i : Nat) (n : RawNode) (k : Nat) : Prop := ∃ w, p.Operand i n k .bool w

/-- The operand sorts and the width relation of each operator. -/
def OperandRule (p : Parts) (i : Nat) (n : RawNode) (t : Tag) : Prop :=
  match t with
  | .bvVar | .bvConst | .boolTrue | .boolFalse | .boolVar => True
  | .bvNot | .bvNeg => p.Operand i n 0 .bv n.width.toNat
  | .bvAnd | .bvOr | .bvXor | .bvAdd | .bvSub | .bvMul | .bvUdiv | .bvUrem | .bvSdiv
  | .bvSrem | .bvSmod | .bvShl | .bvLshr | .bvAshr =>
      p.Operand i n 0 .bv n.width.toNat ∧ p.Operand i n 1 .bv n.width.toNat
  | .bvExtract => ∃ w, p.Operand i n 0 .bv w ∧ n.auxLo.toNat ≤ n.auxHi.toNat ∧
      n.auxHi.toNat < w ∧ n.width.toNat = n.auxHi.toNat - n.auxLo.toNat + 1
  | .bvConcat => ∃ h l, p.Operand i n 0 .bv h ∧ p.Operand i n 1 .bv l ∧ n.width.toNat = h + l
  | .bvZext | .bvSext => ∃ w, p.Operand i n 0 .bv w ∧ n.width.toNat = w + n.auxHi.toNat
  | .bvIte => p.BoolOperand i n 0 ∧ p.Operand i n 1 .bv n.width.toNat ∧
      p.Operand i n 2 .bv n.width.toNat
  | .bvSelect => n.auxHi.toNat = (n.arity.toNat - 1) / 2 ∧
      p.Operand i n (n.auxHi.toNat * 2) .bv n.width.toNat ∧
      ∀ k < n.auxHi.toNat, p.BoolOperand i n (k * 2) ∧
        p.Operand i n (k * 2 + 1) .bv n.width.toNat
  | .boolNot => p.BoolOperand i n 0
  | .boolAnd | .boolOr | .boolImplies => p.BoolOperand i n 0 ∧ p.BoolOperand i n 1
  | .bvEq | .bvUlt | .bvUle | .bvSlt | .bvSle | .uaddOvf | .saddOvf | .usubOvf | .ssubOvf
  | .umulOvf | .smulOvf | .sdivOvf => ∃ w, p.Operand i n 0 .bv w ∧ p.Operand i n 1 .bv w
  | .negOvf => ∃ w, p.Operand i n 0 .bv w

/-- The arity of each operator; `BV_SELECT` takes `2N + 1` operands. -/
def ArityRule (n : RawNode) (t : Tag) : Prop :=
  match t.fixedArity with
  | some k => n.arity = k
  | none => n.arity.toNat % 2 = 1

/-- The width class of each operator. -/
def WidthRule (n : RawNode) (t : Tag) : Prop :=
  match t.resultSort with
  | .bool => n.width.toNat = 0
  | .bv => 1 ≤ n.width.toNat ∧ n.width.toNat ≤ maxBvWidth

/-- What the blob must hold for a node. -/
structure BlobRule (p : Parts) (n : RawNode) (t : Tag) : Prop where
  name : t = .bvVar ∨ t = .boolVar → ∃ s, p.textAt n.blobRef = some s
  const : t = .bvConst → 64 < n.width.toNat →
    n.blobRef.len.toNat = (n.width.toNat + 7) / 8 ∧ ∃ s, p.blobAt n.blobRef = some s

/-- The rule of a node that has tag `t`. -/
structure NodeRule (p : Parts) (i : Nat) (n : RawNode) (t : Tag) : Prop where
  arity : ArityRule n t
  width : WidthRule n t
  blob : p.BlobRule n t
  range : n.arity ≠ 0 → n.children.toNat + n.arity.toNat ≤ p.children.length
  operands : p.OperandRule i n t

/-- Node `i` declares the symbol `s` with tag `t`. -/
def Declares (p : Parts) (i : Nat) (n : RawNode) (t : Tag) (s : String) : Prop :=
  p.nodes[i]? = some n ∧ Tag.tryFrom n.tag = some t ∧ (t = .bvVar ∨ t = .boolVar) ∧
    p.textAt n.blobRef = some s

/-- A well-formed expression DAG. -/
structure WellFormed (p : Parts) : Prop where
  node : ∀ i n, p.nodes[i]? = some n → ∃ t, Tag.tryFrom n.tag = some t ∧ p.NodeRule i n t
  symbols : ∀ {i j n m t u s}, p.Declares i n t s → p.Declares j m u s →
    t.resultSort = u.resultSort ∧ n.width = m.width

end Parts

/-- The header of an expression buffer accounts for its length. -/
structure HeaderOk (b : List UInt8) : Prop where
  header : exprHeaderLen ≤ b.length
  magic : b.take 4 = exprMagic
  version : u8At b 4 = version
  nodes : (u32At b 8).toNat ≤ 2 ^ 31
  length : b.length = 32 + 24 * (u32At b 8).toNat + 4 * (u32At b 12).toNat + (u32At b 16).toNat

/-- A well-formed expression buffer. -/
structure WellFormed (b : List UInt8) : Prop where
  header : HeaderOk b
  dag : (Parts.ofBytes b).WellFormed

/-! ## Views -/

/-- `v` gives access to the parts `p`, and only to them. -/
structure IsViewOf (v : ExprView) (p : Parts) : Prop where
  nodeCount : v.header.nodeCount.toNat = p.nodes.length
  childCount : v.header.childCount.toNat = p.children.length
  node : ∀ {i n}, v.node i = ok n ↔ p.nodes[i]? = some n
  childRef : ∀ {j r}, v.childRef j = ok r ↔ p.children[j]? = some r
  blobRef : ∀ {r s}, v.blobRef r = ok s ↔ p.blobAt r = some s
  safe_blobRef : ∀ {r}, Safe (v.blobRef r)

/-- The view of a buffer with a good header. -/
def viewOf (b : List UInt8) : ExprView where
  bytes := b
  header := ⟨u32At b 8, u32At b 12, u32At b 16⟩
  nodeOffset := 32
  childOffset := 32 + 24 * (u32At b 8).toNat
  blobOffset := 32 + 24 * (u32At b 8).toNat + 4 * (u32At b 12).toNat

theorem expressionLen_eq_ok {n c l k : Nat} : expressionLen n c l = ok k ↔
    32 + 24 * n + 4 * c + l < 2 ^ usizeBits ∧ k = 32 + 24 * n + 4 * c + l := by
  simp only [expressionLen, bind_eq_ok, checkedMul_eq_ok, checkedAdd_eq_ok, nodeRecordLen,
    exprHeaderLen]
  constructor
  · rintro ⟨_, ⟨-, rfl⟩, _, ⟨-, rfl⟩, _, ⟨-, rfl⟩, _, ⟨-, rfl⟩, hlt, rfl⟩
    exact ⟨by omega, by omega⟩
  · rintro ⟨hlt, rfl⟩
    exact ⟨_, ⟨by omega, rfl⟩, _, ⟨by omega, rfl⟩, _, ⟨by omega, rfl⟩, _, ⟨by omega, rfl⟩,
      by omega, by omega⟩

theorem usize_eq : 2 ^ usizeBits = 18446744073709551616 := rfl

/-- Parsing a buffer is checking its header. -/
theorem parse_eq_ok {b : List UInt8} {v : ExprView} :
    ExprView.parse b = ok v ↔ HeaderOk b ∧ v = viewOf b := by
  have h8 := (u32At b 8).toNat_lt
  have h12 := (u32At b 12).toNat_lt
  have h16 := (u32At b 16).toNat_lt
  simp only [ExprView.parse, bind_eq_ok, ensure_eq_ok, exists_const, exactSlice_eq_ok, readU8_eq_ok,
    readU32_eq_ok, ExprHeader.totalLen, expressionLen_eq_ok, checkedMul_eq_ok, checkedAdd_eq_ok,
    pure_eq, Outcome.ok.injEq]
  simp only [exprHeaderLen, nodeRecordLen, maxNodeCount, usize_eq]
  constructor
  · rintro ⟨hlen, magic, ⟨-, hm4, hm⟩, rfl, ver, ⟨-, hv⟩, rfl, nc, ⟨-, hn⟩, cc, ⟨-, hc⟩, bl,
      ⟨-, hb⟩, hmax, _, ⟨-, rfl⟩, heq, _, ⟨-, rfl⟩, _, ⟨-, rfl⟩, _, ⟨-, rfl⟩, _, ⟨-, rfl⟩, rfl⟩
    have hn' := hn.u32At_eq
    have hc' := hc.u32At_eq
    have hb' := hb.u32At_eq
    subst hn' hc' hb'
    refine ⟨⟨hlen, ?_, hv.u8At_eq, hmax, heq⟩, ?_⟩
    · simpa [exprMagic] using hm.2
    · simp [viewOf, Nat.mul_comm]
  · rintro ⟨⟨hlen, hmagic, hver, hmax, heq⟩, rfl⟩
    simp only [exprHeaderLen] at hlen
    have hstands : Stands b 0 exprMagic := ⟨by simp [exprMagic]; omega, hmagic⟩
    refine ⟨hlen, _, ⟨by omega, rfl, hstands⟩, rfl, _, ⟨by omega, stands_u8At (by omega)⟩, hver, _, ⟨by omega, stands_u32At (by omega)⟩, _,
      ⟨by omega, stands_u32At (by omega)⟩, _, ⟨by omega, stands_u32At (by omega)⟩, hmax, _,
      ⟨by omega, rfl⟩, heq, _, ⟨by omega, rfl⟩, _, ⟨by omega, rfl⟩, _, ⟨by omega, rfl⟩, _,
      ⟨by omega, rfl⟩, ?_⟩
    simp [viewOf, Nat.mul_comm]

theorem safe_parse (b : List UInt8) : Safe (ExprView.parse b) := by
  have hlen : ∀ n c l, Safe (expressionLen n c l) := fun n c l =>
    safe_checkedMul.bind fun _ _ => safe_checkedAdd.bind fun _ _ =>
      safe_checkedMul.bind fun _ _ => safe_checkedAdd.bind fun _ _ => safe_checkedAdd
  refine safe_ensure.bind fun _ _ => safe_exactSlice.bind fun _ _ => ?_
  refine safe_ensure.bind fun _ _ => safe_readU8.bind fun _ _ => ?_
  refine safe_ensure.bind fun _ _ => safe_readU32.bind fun _ _ => ?_
  refine safe_readU32.bind fun _ _ => safe_readU32.bind fun _ _ => ?_
  refine safe_ensure.bind fun _ _ => (hlen _ _ _).bind fun _ _ => ?_
  refine safe_ensure.bind fun _ _ => safe_checkedMul.bind fun _ _ => ?_
  exact safe_checkedAdd.bind fun _ _ => safe_checkedMul.bind fun _ _ =>
    safe_checkedAdd.bind fun _ _ => safe_ok _

theorem Parts.length_nodes_ofBytes (b : List UInt8) :
    (ofBytes b).nodes.length = (u32At b 8).toNat := by
  simp [ofBytes]

theorem Parts.length_children_ofBytes (b : List UInt8) :
    (ofBytes b).children.length = (u32At b 12).toNat := by
  simp [ofBytes]

theorem Parts.getElem?_nodes_ofBytes {b : List UInt8} {i : Nat} {n : RawNode} :
    (ofBytes b).nodes[i]? = some n ↔
      i < (u32At b 8).toNat ∧ RawNode.read b (32 + 24 * i) = n := by
  rw [List.getElem?_eq_some_iff]
  simp [ofBytes]

theorem Parts.getElem?_children_ofBytes {b : List UInt8} {j : Nat} {r : NodeRef} :
    (ofBytes b).children[j]? = some r ↔
      j < (u32At b 12).toNat ∧ ⟨u32At b (32 + 24 * (u32At b 8).toNat + 4 * j)⟩ = r := by
  rw [List.getElem?_eq_some_iff]
  simp [ofBytes]

/-- A buffer with a good header is read as its parts. -/
theorem isViewOf_viewOf {b : List UInt8} (h : HeaderOk b) :
    IsViewOf (viewOf b) (Parts.ofBytes b) := by
  have h8 := (u32At b 8).toNat_lt
  have h12 := (u32At b 12).toNat_lt
  have h16 := (u32At b 16).toNat_lt
  have hlen := h.length
  have hblob : (viewOf b).blob = ok (Parts.ofBytes b).blob := by
    rw [ExprView.blob, slice_of_le (by simp only [viewOf]; omega) (by simp [viewOf])]
    rw [List.take_of_length_le (by simp [viewOf])]
    rfl
  refine ⟨(Parts.length_nodes_ofBytes b).symm, (Parts.length_children_ofBytes b).symm,
    ?_, ?_, ?_, ?_⟩
  · intro i n
    simp only [ExprView.node, bind_eq_ok, ensure_eq_ok, exists_const, checkedMul_eq_ok,
      checkedAdd_eq_ok, Parts.getElem?_nodes_ofBytes]
    simp only [nodeRecordLen, viewOf, usize_eq]
    constructor
    · rintro ⟨hi, _, ⟨-, rfl⟩, _, ⟨-, rfl⟩, hd⟩
      rw [Nat.mul_comm, RawNode.decode_of_le (by omega) (by rw [usize_eq]; omega)] at hd
      exact ⟨hi, Outcome.ok.inj hd⟩
    · rintro ⟨hi, rfl⟩
      refine ⟨hi, _, ⟨by omega, rfl⟩, _, ⟨by omega, rfl⟩, ?_⟩
      rw [Nat.mul_comm i]
      exact RawNode.decode_of_le (by omega) (by rw [usize_eq]; omega)
  · intro j r
    simp only [ExprView.childRef, bind_eq_ok, ensure_eq_ok, exists_const, checkedMul_eq_ok,
      checkedAdd_eq_ok, readU32_eq_ok, pure_eq, Outcome.ok.injEq,
      Parts.getElem?_children_ofBytes]
    simp only [viewOf, usize_eq]
    constructor
    · rintro ⟨hj, _, ⟨-, rfl⟩, _, ⟨-, rfl⟩, raw, ⟨-, hs⟩, rfl⟩
      refine ⟨hj, ?_⟩
      rw [Nat.mul_comm 4 j, hs.u32At_eq]
    · rintro ⟨hj, rfl⟩
      refine ⟨hj, _, ⟨by omega, rfl⟩, _, ⟨by omega, rfl⟩, _, ⟨by omega, ?_⟩, rfl⟩
      rw [Nat.mul_comm j]
      exact stands_u32At (by omega)
  · intro r s
    have ho := r.offset.toNat_lt
    have hl := r.len.toNat_lt
    simp only [ExprView.blobRef, bind_eq_ok, checkedAdd_eq_ok, hblob, Outcome.ok.injEq,
      Parts.blobAt, usize_eq]
    constructor
    · rintro ⟨_, ⟨-, rfl⟩, _, rfl, hs⟩
      split at hs
      · cases hs
      · rename_i hle
        rw [slice_of_le (by omega) (by omega)] at hs
        rw [if_pos (by omega), ← Outcome.ok.inj hs, Nat.add_sub_cancel_left]
    · intro hs
      split at hs
      · rename_i hle
        refine ⟨_, ⟨by omega, rfl⟩, _, rfl, ?_⟩
        rw [if_neg (by omega), slice_of_le (by omega) hle, Nat.add_sub_cancel_left,
          Option.some.inj hs]
      · cases hs
  · intro r
    refine safe_checkedAdd.bind fun stop hstop => ?_
    obtain ⟨-, rfl⟩ := checkedAdd_eq_ok.mp hstop
    rw [hblob, ok_bind]
    split
    · simp
    · rw [slice_of_le (by omega) (by omega)]
      simp

end Wire
end SmtServer
