import SmtServer.Server.OverflowFormulas
import SmtServer.Wire.Shape

/-!
# Printed terms

The term a node is printed as, operands first (`Parts.printed`), without a cache. `term_node` finds
the texts of exactly these terms: a cache entry, once filled, is the text of its node's term
(`CacheOk`), so whether an operand is printed or found again makes no difference.
-/

namespace SmtServer
namespace Server
namespace Smt2

open Lib Outcome Wire
open Smtlib (IsToken Printed)

/-! ## Symbols -/

/-- A name that is printed as it stands. -/
def Plain (name : String) : Prop := isSimpleSymbol name = true

instance (name : String) : Decidable (Plain name) := inferInstanceAs (Decidable (_ = _))

theorem quoteSymbol_of_plain {name : String} (h : Plain name) : quoteSymbol name = name :=
  if_pos h

theorem not_isDelimiter_of_isSymbolChar {c : Char} (h : isSymbolChar c = true) :
    Smtlib.Reader.isDelimiter c = false := by
  rw [← Bool.not_eq_true]
  intro hd
  simp only [Smtlib.Reader.isDelimiter, Smtlib.Reader.isSpace, Bool.or_eq_true,
    decide_eq_true_eq] at hd
  rcases hd with ((((((((rfl | rfl) | rfl) | rfl) | rfl) | rfl) | rfl) | rfl) | rfl) <;>
    exact absurd h (by decide)

theorem isToken_of_plain {name : String} (h : Plain name) : IsToken name := by
  unfold Plain isSimpleSymbol at h
  split at h
  · cases h
  · rename_i c cs hcs
    simp only [Bool.and_eq_true, List.all_eq_true] at h
    refine ⟨fun he => ?_, fun d hd => not_isDelimiter_of_isSymbolChar (h.1.1 d (hcs ▸ hd))⟩
    rw [he] at hcs
    cases hcs

/-- A name that needs no bars; `false` stands for the others. -/
def symbolTerm (name : String) : Printed :=
  if h : IsToken name then .token name h else .token "false" (by decide)

theorem symbolTerm_of_plain {name : String} (h : Plain name) :
    symbolTerm name = .token name (isToken_of_plain h) := dif_pos _

/-! ## Terms -/

instance : Inhabited Printed := ⟨.token "false" (by decide)⟩

/-- `BV_SELECT` on its selectors and values: the first pair is outermost. -/
def selectTerm (arg : Nat → Printed) (pairs : Nat) : Printed :=
  (List.range pairs).foldr
    (fun k rest => app "ite" (by decide) [arg (k * 2), arg (k * 2 + 1), rest]) (arg (pairs * 2))

end Smt2
end Server

namespace Wire
namespace Parts

open Server.Smt2
open Smtlib (Printed)

/-- The width of the first operand. -/
def operandWidth (p : Parts) (n : RawNode) : Nat :=
  ((p.nodes[((p.operands n).getD 0 ⟨0⟩).idx]?).map (·.width.toNat)).getD 0

/-- The term of a node with tag `t`, given the terms of its operands. -/
def printedTag (p : Parts) (n : RawNode) (args : List Printed) (t : Tag) : Printed :=
  let arg k := args.getD k default
  match t with
  | .bvVar | .boolVar => symbolTerm (p.symbol n)
  | .bvConst => literal (Lib.BitList.ofNat n.width.toNat (p.constant n))
  | .boolTrue => .token "true" (by decide)
  | .boolFalse => .token "false" (by decide)
  | .bvNot => app "bvnot" (by decide) [arg 0]
  | .bvNeg => app "bvneg" (by decide) [arg 0]
  | .bvAnd => app "bvand" (by decide) [arg 0, arg 1]
  | .bvOr => app "bvor" (by decide) [arg 0, arg 1]
  | .bvXor => app "bvxor" (by decide) [arg 0, arg 1]
  | .bvAdd => app "bvadd" isToken_bvadd [arg 0, arg 1]
  | .bvSub => app "bvsub" (by decide) [arg 0, arg 1]
  | .bvMul => app "bvmul" isToken_bvmul [arg 0, arg 1]
  | .bvUdiv => app "bvudiv" (by decide) [arg 0, arg 1]
  | .bvUrem => app "bvurem" (by decide) [arg 0, arg 1]
  | .bvSdiv => app "bvsdiv" (by decide) [arg 0, arg 1]
  | .bvSrem => app "bvsrem" (by decide) [arg 0, arg 1]
  | .bvSmod => app "bvsmod" (by decide) [arg 0, arg 1]
  | .bvShl => app "bvshl" (by decide) [arg 0, arg 1]
  | .bvLshr => app "bvlshr" (by decide) [arg 0, arg 1]
  | .bvAshr => app "bvashr" (by decide) [arg 0, arg 1]
  | .bvExtract => indexedApp "extract" isToken_extract [n.auxHi.toNat, n.auxLo.toNat] (arg 0)
  | .bvConcat => app "concat" (by decide) [arg 0, arg 1]
  | .bvZext => indexedApp "zero_extend" isToken_zero_extend [n.auxHi.toNat] (arg 0)
  | .bvSext => indexedApp "sign_extend" isToken_sign_extend [n.auxHi.toNat] (arg 0)
  | .bvIte => app "ite" (by decide) [arg 0, arg 1, arg 2]
  | .bvSelect => selectTerm arg n.auxHi.toNat
  | .boolNot => app "not" isToken_not [arg 0]
  | .boolAnd => app "and" isToken_and [arg 0, arg 1]
  | .boolOr => app "or" isToken_or [arg 0, arg 1]
  | .boolImplies => app "=>" (by decide) [arg 0, arg 1]
  | .bvEq => equal (arg 0) (arg 1)
  | .bvUlt => app "bvult" isToken_bvult [arg 0, arg 1]
  | .bvUle => app "bvule" (by decide) [arg 0, arg 1]
  | .bvSlt => app "bvslt" (by decide) [arg 0, arg 1]
  | .bvSle => app "bvsle" (by decide) [arg 0, arg 1]
  | .uaddOvf => overflowTerm (arg 0) (arg 1) (p.operandWidth n) .uadd
  | .usubOvf => overflowTerm (arg 0) (arg 1) (p.operandWidth n) .usub
  | .umulOvf => overflowTerm (arg 0) (arg 1) (p.operandWidth n) .umul
  | .saddOvf => overflowTerm (arg 0) (arg 1) (p.operandWidth n) .sadd
  | .ssubOvf => overflowTerm (arg 0) (arg 1) (p.operandWidth n) .ssub
  | .smulOvf => overflowTerm (arg 0) (arg 1) (p.operandWidth n) .smul
  | .negOvf => overflowTerm (arg 0) (arg 0) (p.operandWidth n) .neg
  | .sdivOvf => overflowTerm (arg 0) (arg 1) (p.operandWidth n) .sdiv

def printedNode (p : Parts) (n : RawNode) (args : List Printed) : Printed :=
  match Tag.tryFrom n.tag with
  | some t => p.printedTag n args t
  | none => default

/-- The term node `i` is printed as. -/
def printed (p : Parts) (i : Nat) : Printed :=
  Lib.Dag.value (fun _ (n : RawNode) look =>
    p.printedNode n ((p.operands n).map fun r => look r.idx)) default p.nodes i

/-- Every variable has a name that is printed as it stands. -/
def PlainNames (p : Parts) : Prop := ∀ i n t s, p.Declares i n t s → Plain s

variable {p : Parts} {i : Nat} {n : RawNode} {t : Tag}

theorem local_printedNode :
    Lib.Dag.Local (fun _ (n : RawNode) look =>
        p.printedNode n ((p.operands n).map fun r => look r.idx))
      (fun n => (p.operands n).map (·.idx)) := by
  intro i n g h hgh
  have hargs : (p.operands n).map (fun r => g r.idx) = (p.operands n).map fun r => h r.idx :=
    List.map_congr_left fun r hr => hgh _ (List.mem_map_of_mem hr)
  show p.printedNode n _ = p.printedNode n _
  rw [hargs]

theorem WellFormed.printed_eq (h : p.WellFormed) (hn : p.nodes[i]? = some n)
    (ht : Tag.tryFrom n.tag = some t) :
    p.printed i = p.printedTag n ((p.operands n).map fun r => p.printed r.idx) t := by
  have heq := Lib.Dag.value_eq (d := default) local_printedNode h.ordered hn
  rw [printed, heq, printedNode, ht]
  rfl

end Parts
end Wire

namespace Server
namespace Smt2

open Lib Outcome Wire
open Smtlib (IsToken Printed)

/-! ## The cache -/

/-- Every text in the cache is that of its node's term. -/
def CacheOk (p : Parts) (cache : Cache) : Prop :=
  cache.length = p.nodes.length ∧
    ∀ i text, cache[i]? = some (some text) → text.toList = (p.printed i).text

/-- From any such cache the computation returns, and leaves such a cache. -/
def Yields (p : Parts) {α : Type} (m : PrintM α) (Q : α → Prop) : Prop :=
  ∀ cache, CacheOk p cache →
    ∃ a cache', m.run cache = ok (a, cache') ∧ CacheOk p cache' ∧ Q a

/-- It returns the text of the term. -/
abbrev YieldsText (p : Parts) (m : PrintM String) (a : Printed) : Prop :=
  Yields p m fun text => text.toList = a.text

section

variable {p : Parts} {v : ExprView} {α β : Type} {i k w : Nat} {n : RawNode} {t : Tag}
  {σ : WireSort}

theorem yields_pure {Q : α → Prop} {a : α} (h : Q a) : Yields p (pure a : PrintM α) Q :=
  fun cache hcache => ⟨a, cache, rfl, hcache, h⟩

theorem Yields.bind {P : α → Prop} {Q : β → Prop} {m : PrintM α} {f : α → PrintM β}
    (hm : Yields p m P) (hf : ∀ a, P a → Yields p (f a) Q) : Yields p (m >>= f) Q := by
  intro cache hcache
  obtain ⟨a, cache', hrun, hcache', ha⟩ := hm cache hcache
  obtain ⟨b, cache'', hrun', hcache'', hb⟩ := hf a ha cache' hcache'
  refine ⟨b, cache'', ?_, hcache'', hb⟩
  rw [StateT.run_bind, hrun]
  exact hrun'

theorem yields_lift {Q : α → Prop} {x : Result α} {a : α} (hx : x = ok a) (h : Q a) :
    Yields p (liftM x : PrintM α) Q := by
  subst hx
  exact yields_pure h

theorem Yields.lift_bind {Q : β → Prop} {x : Result α} {a : α} {f : α → PrintM β} (hx : x = ok a)
    (hf : Yields p (f a) Q) : Yields p ((liftM x : PrintM α) >>= f) Q :=
  (yields_lift (Q := (· = a)) hx rfl).bind fun _ hb => hb ▸ hf

/-- The term of operand `k`. -/
abbrev argTerm (p : Parts) (n : RawNode) (k : Nat) : Printed :=
  ((p.operands n).map fun r => p.printed r.idx).getD k default

variable (hv : IsViewOf v p) {printNode : Nat → PrintM String}
  (hprint : ∀ j < i, YieldsText p (printNode j) (p.printed j))

include hv hprint

theorem childTerm_yields (ho : p.Operand i n k σ w) (hk : k < n.arity.toNat) :
    YieldsText p (childTerm v printNode (n.children.toNat + k)) (argTerm p n k) := by
  obtain ⟨r, hop, hr, -, hlt⟩ := ho.getElem?_operands hk
  have harg : argTerm p n k = p.printed r.idx := by
    rw [argTerm, List.getD_eq_getElem?_getD, List.getElem?_map, hop]
    rfl
  rw [harg]
  exact Yields.lift_bind (hv.childRef.mpr hr) (hprint _ hlt)

/-- The first operand is at `node.children`, the others at `node.children + k`. -/
theorem firstTerm_yields (ho : p.Operand i n 0 σ w) (hk : 0 < n.arity.toNat) :
    YieldsText p (childTerm v printNode n.children.toNat) (argTerm p n 0) :=
  childTerm_yields hv hprint ho hk

/-- Reading a later operand, before the rest. -/
theorem laterTerm_bind {Q : α → Prop} {f : String → PrintM α} (ho : p.Operand i n k σ w)
    (hk : k < n.arity.toNat)
    (hf : ∀ text, text.toList = (argTerm p n k).text → Yields p (f text) Q) :
    Yields p (do let child ← childTerm v printNode (← childIndex n.children k); f child) Q := by
  obtain ⟨r, -, hr, -⟩ := ho.getElem?_operands hk
  have hlt := (List.getElem?_eq_some_iff.mp hr).1
  have hcount := v.header.childCount.toNat_lt
  rw [hv.childCount] at hcount
  exact Yields.lift_bind (addU_of_lt (by omega)) ((childTerm_yields hv hprint ho hk).bind hf)

theorem unary_yields {op : String} (h : IsToken op) (ho : p.Operand i n 0 σ w)
    (hk : 0 < n.arity.toNat) :
    YieldsText p (unary v printNode n.children op) (app op h [argTerm p n 0]) := by
  refine (firstTerm_yields hv hprint ho hk).bind fun text htext => yields_pure ?_
  simp only [String.toList_append, htext, text_app, toString]
  simp

theorem twoTerms_yields {σ' : WireSort} {w' : Nat} (h0 : p.Operand i n 0 σ w)
    (h1 : p.Operand i n 1 σ' w') (hk : 1 < n.arity.toNat) :
    Yields p (twoTerms v printNode n.children) fun texts =>
      texts.1.toList = (argTerm p n 0).text ∧ texts.2.toList = (argTerm p n 1).text := by
  refine (firstTerm_yields hv hprint h0 (by omega)).bind fun a ha => ?_
  exact laterTerm_bind hv hprint h1 hk fun b hb => yields_pure ⟨ha, hb⟩

theorem binary_yields {op : String} (h : IsToken op) {σ' : WireSort} {w' : Nat}
    (h0 : p.Operand i n 0 σ w) (h1 : p.Operand i n 1 σ' w') (hk : 1 < n.arity.toNat) :
    YieldsText p (binary v printNode n.children op) (app op h [argTerm p n 0, argTerm p n 1]) := by
  refine (twoTerms_yields hv hprint h0 h1 hk).bind fun texts htexts => yields_pure ?_
  simp only [String.toList_append, htexts.1, htexts.2, text_app, toString]
  simp

omit hprint in
theorem operandWidth_yields (ho : p.Operand i n 0 σ w) (hk : 0 < n.arity.toNat) :
    Yields p (operandWidth v n.children) (· = p.operandWidth n) := by
  obtain ⟨r, hop, hr, -, -⟩ := ho.getElem?_operands hk
  obtain ⟨r', m, -, hr', -, -, hm, -⟩ := ho
  obtain rfl := Option.some.inj (hr.symm.trans hr')
  refine Yields.lift_bind (hv.childRef.mpr hr) (Yields.lift_bind (hv.node.mpr hm) (yields_pure ?_))
  rw [Parts.operandWidth, List.getD_eq_getElem?_getD, hop, Option.getD_some, hm]
  rfl

theorem overflow_yields (op : Overflow) {σ' : WireSort} {w' : Nat} (h0 : p.Operand i n 0 σ w)
    (h1 : p.Operand i n 1 σ' w') (hk : 1 < n.arity.toNat) :
    YieldsText p (overflow v printNode n.children op)
      (overflowTerm (argTerm p n 0) (argTerm p n 1) (p.operandWidth n) op) := by
  refine (operandWidth_yields hv h0 (by omega)).bind fun _ hw => ?_
  refine (twoTerms_yields hv hprint h0 h1 hk).bind fun texts htexts => yields_pure ?_
  exact hw ▸ toList_overflowText htexts.1 htexts.2 op

/-- The pairs still to come, around what has been printed. -/
theorem selectLoop_yields {pairs : Nat} {result : String} {rest : Printed}
    (hpairs : ∀ k < pairs, (∃ σ w, p.Operand i n (k * 2) σ w) ∧
      ∃ σ w, p.Operand i n (k * 2 + 1) σ w)
    (hk : pairs * 2 ≤ n.arity.toNat) (hresult : result.toList = rest.text) :
    YieldsText p (selectLoop v printNode n.children pairs result)
      ((List.range pairs).foldr (fun k rest => app "ite" (by decide)
        [argTerm p n (k * 2), argTerm p n (k * 2 + 1), rest]) rest) := by
  induction pairs generalizing result rest with
  | zero => exact yields_pure hresult
  | succ pairs ih =>
    obtain ⟨⟨σ, w, hc⟩, σ', w', ha⟩ := hpairs pairs (by omega)
    rw [List.range_succ, List.foldr_append]
    refine laterTerm_bind hv hprint hc (by omega) fun selector hselector => ?_
    refine laterTerm_bind hv hprint ha (by omega) fun value hvalue => ?_
    refine ih (fun k hk => hpairs k (by omega)) (by omega) ?_
    simp only [String.toList_append, hselector, hvalue, hresult, List.foldr_cons, List.foldr_nil,
      text_app, toString]
    simp

/-! ## Constants -/

omit hv hprint in
theorem bitChar_eq {bytes : List UInt8} {bit : Nat} (h : bit < 8 * bytes.length) :
    bitChar bytes bit = ok (if (leNat bytes).testBit bit then '1' else '0') := by
  have hget : bytes[bit / 8]? = some bytes[bit / 8] := List.getElem?_eq_getElem (by omega)
  rw [bitChar, hget, expect_some, ok_bind, testBit_leNat, List.getD_eq_getElem?_getD, hget]
  rfl

omit hprint in
/-- The number the bytes of a constant stand for. -/
theorem constBytes_eq (hr : p.NodeRule i n .bvConst) :
    ∃ bytes, constBytes v n.width n.payload = ok bytes ∧
      bytes.length = Qfbv.divCeil8 n.width.toNat ∧
      leNat bytes = p.constant n % 2 ^ n.width.toNat := by
  have hmask : ∀ raw : List UInt8, raw.length = Qfbv.divCeil8 n.width.toNat →
      leNat raw % 2 ^ n.width.toNat = p.constant n % 2 ^ n.width.toNat →
      leNat (Qfbv.maskUnusedHighBits raw n.width.toNat) = p.constant n % 2 ^ n.width.toNat :=
    fun raw hlen h => (Qfbv.Bytes.leNat_maskUnusedHighBits hlen).trans h
  by_cases hw : n.width.toNat ≤ 64
  · have hlen : ((u64Bytes n.payload).take (Qfbv.divCeil8 n.width.toNat)).length =
        Qfbv.divCeil8 n.width.toNat := by
      rw [List.length_take, length_u64Bytes]
      unfold Qfbv.divCeil8
      omega
    refine ⟨_, by rw [constBytes, if_pos hw, ok_bind]; rfl, by simpa using hlen, hmask _ hlen ?_⟩
    have hpayload : leNat (u64Bytes n.payload) = n.payload.toNat :=
      (leNat_leBytes 8 _).trans (Nat.mod_eq_of_lt n.payload.toNat_lt)
    rw [leNat_take, Nat.mod_mod_of_dvd _ (Qfbv.Bytes.dvd_bytes _), Parts.constant, if_pos hw,
      hpayload]
  · obtain ⟨hlen, raw, hraw⟩ := hr.blob.const rfl (by omega)
    have hrawlen : raw.length = Qfbv.divCeil8 n.width.toNat :=
      (Parts.length_of_blobAt hraw).trans hlen
    refine ⟨_, by rw [constBytes, if_neg hw, ← RawNode.blobRef, hv.blobRef.mpr hraw, ok_bind]; rfl,
      by simpa using hrawlen, hmask _ hrawlen ?_⟩
    rw [Parts.constant, if_neg hw, hraw, Option.getD_some]

omit hprint in
/-- A constant is printed bit by bit, the most significant one first. -/
theorem constToSmt2_eq (hr : p.NodeRule i n .bvConst) :
    ∃ text, constToSmt2 v n.width n.payload = ok text ∧
      text.toList = (literal (BitList.ofNat n.width.toNat (p.constant n))).text := by
  obtain ⟨bytes, hbytes, hlen, hvalue⟩ := constBytes_eq hv hr
  have hle := Qfbv.Bytes.le_eight_mul_divCeil8 n.width.toNat
  have hbits : (List.range n.width.toNat).reverse.mapM (bitChar bytes) =
      ok ((List.range n.width.toNat).reverse.map fun bit =>
        if (leNat bytes).testBit bit then '1' else '0') :=
    mapM_of_forall fun bit hbit => bitChar_eq <| by
      have := List.mem_range.mp (List.mem_reverse.mp hbit)
      omega
  refine ⟨_, by rw [constToSmt2, hbytes, ok_bind, hbits]; rfl, ?_⟩
  rw [String.toList_append, String.toList_ofList, String.toList_ofList, text_literal,
    toList_binaryText, BitList.ofNat, ← List.map_reverse, List.map_map]
  refine congrArg (fun digits => '#' :: 'b' :: digits) (List.map_congr_left fun bit hbit => ?_)
  have hbit := List.mem_range.mp (List.mem_reverse.mp hbit)
  rw [hvalue, Nat.testBit_mod_two_pow, decide_eq_true hbit, Bool.true_and]
  rfl

/-! ## Nodes -/

omit hprint in
theorem symbol_yields (hr : p.NodeRule i n t) (ht : t = .bvVar ∨ t = .boolVar)
    (hplain : ∀ s, p.textAt n.blobRef = some s → Plain s) :
    YieldsText p (do
      let name ← liftM (v.blobStr n.blobRef "variable name")
      pure (quoteSymbol name)) (symbolTerm (p.symbol n)) := by
  obtain ⟨s, hs⟩ := hr.blob.name ht
  refine Yields.lift_bind (hv.blobStr.mpr hs) (yields_pure ?_)
  have hsymbol : p.symbol n = s := by rw [Parts.symbol, hs, Option.getD_some]
  rw [hsymbol, symbolTerm_of_plain (hplain s hs), quoteSymbol_of_plain (hplain s hs), text_token]

/-- An arm of `term_node` finds the text of the node's term, if `term_node` does for the operands. -/
theorem nodeTerm_yields (ht : Tag.tryFrom n.tag = some t) (hr : p.NodeRule i n t)
    (hplain : t = .bvVar ∨ t = .boolVar → ∀ s, p.textAt n.blobRef = some s → Plain s) :
    YieldsText p (nodeTerm v printNode n)
      (p.printedTag n ((p.operands n).map fun r => p.printed r.idx) t) := by
  have ha := hr.arity
  have ho := hr.operands
  have fixed : ∀ {c : UInt8}, t.fixedArity = some c → n.arity.toNat = c.toNat := by
    intro c hc
    rw [Parts.ArityRule, hc] at ha
    rw [ha]
  unfold nodeTerm
  dsimp only
  rw [ht]
  cases t with
  | bvVar => exact symbol_yields hv hr (.inl rfl) (hplain (.inl rfl))
  | boolVar => exact symbol_yields hv hr (.inr rfl) (hplain (.inr rfl))
  | bvConst =>
    obtain ⟨text, hrun, htext⟩ := constToSmt2_eq hv hr
    exact yields_lift hrun htext
  | boolTrue | boolFalse => exact yields_pure rfl
  | bvNot | bvNeg =>
    have hk : n.arity.toNat = 1 := fixed rfl
    exact unary_yields hv hprint _ ho (by omega)
  | boolNot =>
    have hk : n.arity.toNat = 1 := fixed rfl
    obtain ⟨w, ho⟩ := ho
    exact unary_yields hv hprint _ ho (by omega)
  | bvExtract | bvZext | bvSext =>
    have hk : n.arity.toNat = 1 := fixed rfl
    obtain ⟨w, ho, -⟩ := ho
    refine (firstTerm_yields hv hprint ho (by omega)).bind fun text htext => yields_pure ?_
    simp only [Parts.printedTag, String.toList_append, htext, text_indexedApp, toString]
    simp
  | bvConcat =>
    have hk : n.arity.toNat = 2 := fixed rfl
    obtain ⟨_, _, h0, h1, -⟩ := ho
    exact binary_yields hv hprint _ h0 h1 (by omega)
  | bvIte =>
    have hk : n.arity.toNat = 3 := fixed rfl
    obtain ⟨⟨_, h0⟩, h1, h2⟩ := ho
    refine (firstTerm_yields hv hprint h0 (by omega)).bind fun c hc => ?_
    refine laterTerm_bind hv hprint h1 (by omega) fun t ht => ?_
    refine laterTerm_bind hv hprint h2 (by omega) fun e he => yields_pure ?_
    simp only [Parts.printedTag, String.toList_append, hc, ht, he, text_app, toString]
    simp
  | bvSelect =>
    have hodd : n.arity.toNat % 2 = 1 := ha
    obtain ⟨haux, hdefault, hpairs⟩ := ho
    refine laterTerm_bind hv hprint hdefault (by omega) fun result hresult => ?_
    exact selectLoop_yields hv hprint
      (fun k hk => ⟨⟨_, (hpairs k hk).1⟩, _, _, (hpairs k hk).2⟩) (by omega) hresult
  | boolAnd | boolOr | boolImplies =>
    have hk : n.arity.toNat = 2 := fixed rfl
    obtain ⟨⟨_, h0⟩, _, h1⟩ := ho
    exact binary_yields hv hprint _ h0 h1 (by omega)
  | bvEq | bvUlt | bvUle | bvSlt | bvSle | usubOvf =>
    have hk : n.arity.toNat = 2 := fixed rfl
    obtain ⟨_, h0, h1⟩ := ho
    exact binary_yields hv hprint _ h0 h1 (by omega)
  | uaddOvf =>
    have hk : n.arity.toNat = 2 := fixed rfl
    obtain ⟨_, h0, h1⟩ := ho
    refine (twoTerms_yields hv hprint h0 h1 (by omega)).bind fun texts htexts => yields_pure ?_
    exact toList_overflowText (w := p.operandWidth n) htexts.1 htexts.2 .uadd
  | umulOvf | saddOvf | ssubOvf | smulOvf | sdivOvf =>
    have hk : n.arity.toNat = 2 := fixed rfl
    obtain ⟨_, h0, h1⟩ := ho
    exact overflow_yields hv hprint _ h0 h1 (by omega)
  | negOvf =>
    have hk : n.arity.toNat = 1 := fixed rfl
    obtain ⟨_, h0⟩ := ho
    refine (operandWidth_yields hv h0 (by omega)).bind fun _ hw => ?_
    refine (firstTerm_yields hv hprint h0 (by omega)).bind fun a ha => yields_pure ?_
    exact hw ▸ toList_negOverflow (b := argTerm p n 0) ha
  | _ =>
    have hk : n.arity.toNat = 2 := fixed rfl
    exact binary_yields hv hprint _ ho.1 ho.2 (by omega)

omit hprint in
/-- `term_node` finds the text of the node's term, from any cache in order. -/
theorem termNode_yields (hp : p.WellFormed) (hplain : p.PlainNames) {calls : Nat}
    (hi : i < p.nodes.length) (hcalls : i < calls) :
    YieldsText p (termNode v calls i) (p.printed i) := by
  induction calls generalizing i with
  | zero => omega
  | succ calls ih =>
    intro cache hcache
    obtain ⟨entry, hentry⟩ : ∃ entry, cache[i]? = some entry :=
      ⟨_, List.getElem?_eq_getElem (by rw [hcache.1]; exact hi)⟩
    cases entry with
    | some text =>
      refine ⟨text, cache, ?_, hcache, hcache.2 i text hentry⟩
      simp [termNode, hentry]
    | none =>
      have hn : p.nodes[i]? = some p.nodes[i] := List.getElem?_eq_getElem hi
      obtain ⟨t, ht, hr⟩ := hp.node i _ hn
      have hprint : ∀ j < i, YieldsText p (termNode v calls j) (p.printed j) :=
        fun j hj => ih (by omega) (by omega)
      obtain ⟨text, cache', hrun, hcache', htext⟩ := nodeTerm_yields hv hprint ht hr
        (fun hvar s hs => hplain i _ t s ⟨hn, ht, hvar, hs⟩) cache hcache
      rw [← hp.printed_eq hn ht] at htext
      refine ⟨text, cache'.set i (some text), ?_, ⟨by rw [List.length_set]; exact hcache'.1, ?_⟩,
        htext⟩
      · simp only [termNode, hv.node.mpr hn, bind_pure_comp, StateT.run_bind, StateT.run_get,
          pure_eq, StateT.run_monadLift, monadLift_self, bind_assoc, ok_bind, hentry, expect_some,
          StateT.run_map, StateT.run_modify, hrun]
        rfl
      · intro j text' hj
        rw [List.getElem?_set] at hj
        split at hj
        · subst i
          split at hj
          · rwa [← Option.some.inj (Option.some.inj hj)]
          · cases hj
        · exact hcache'.2 j text' hj

end

end Smt2
end Server
end SmtServer
