import SmtServer.Qfbv.Shortcuts.Structural

/-!
# `structural.rs` — terms of one signature are equal

A signature has a value, given by its operator and the values of the signatures under it
(`sigValue`); appending to the interner changes no value. What the state says at every moment is
that the signature of a remembered term has the value of the term, in every model
(`SigState.Sound`). It is true of a term that is still being worked on and of one that lies too
deep, since these stand for themselves, and so no order of calls and no circle of definitions can
make it wrong.
-/

namespace SmtServer
namespace Qfbv

open Lib Outcome
open Lib.Smt (Value)

namespace Shortcuts

variable {q : Query} {ρ : Env} {t a b var : TermId} {w : Nat} {s : Arena}

/-! ## The value of a signature -/

/-- Conditions and values by turns, and the default last. -/
def selectFlat : List Value → Value
  | [] => default
  | [value] => value
  | cond :: value :: rest => if cond.toBool then value else selectFlat rest

theorem selectFlat_cases (look : TermId → Value) (cases : List (TermId × TermId)) (d : TermId) :
    selectFlat ((cases.flatMap (fun (c, v) => [c, v]) ++ [d]).map look) =
      Smt.select (cases.map fun (c, v) => (look c, look v)) (look d) := by
  induction cases with
  | nil => rfl
  | cons p rest ih =>
    rw [List.map_cons, Smt.select, ← ih]
    rfl

namespace StructuralSigOp

def apply : StructuralSigOp → List Value → Value
  | .bvNot, [x] => Smt.bvnot x
  | .bvNeg, [x] => Smt.bvneg x
  | .bvAnd, [x, y] => Smt.bvand x y
  | .bvOr, [x, y] => Smt.bvor x y
  | .bvXor, [x, y] => Smt.bvxor x y
  | .bvAdd, [x, y] => Smt.bvadd x y
  | .bvSub, [x, y] => Smt.bvsub x y
  | .bvMul, [x, y] => Smt.bvmul x y
  | .bvUDiv, [x, y] => Smt.bvudiv x y
  | .bvURem, [x, y] => Smt.bvurem x y
  | .bvSDiv, [x, y] => Smt.bvsdiv x y
  | .bvSRem, [x, y] => Smt.bvsrem x y
  | .bvSMod, [x, y] => Smt.bvsmod x y
  | .bvShl, [x, y] => Smt.bvshl x y
  | .bvLShr, [x, y] => Smt.bvlshr x y
  | .bvAShr, [x, y] => Smt.bvashr x y
  | .bvExtract high low, [x] => Smt.extract high low x
  | .bvConcat, [x, y] => Smt.concat x y
  | .bvZeroExtend extra, [x] => Smt.zeroExtend extra x
  | .bvSignExtend extra, [x] => Smt.signExtend extra x
  | .bvRepeat count, [x] => Smt.repeated count x
  | .bvRotateLeft amount, [x] => Smt.rotateLeft amount x
  | .bvRotateRight amount, [x] => Smt.rotateRight amount x
  | .bvIte, [c, x, y] => Smt.ite c x y
  | .bvSelect, xs => selectFlat xs
  | .boolNot, [x] => Smt.not x
  | .boolAnd, [x, y] => Smt.and x y
  | .boolOr, [x, y] => Smt.or x y
  | .boolImplies, [x, y] => Smt.implies x y
  | .boolEq, [x, y] => Smt.iff x y
  | .boolIte, [c, x, y] => Smt.ite c x y
  | .bvEq, [x, y] => Smt.bveq x y
  | .bvUlt, [x, y] => Smt.bvult x y
  | .bvUle, [x, y] => Smt.bvule x y
  | .bvSlt, [x, y] => Smt.bvslt x y
  | .bvSle, [x, y] => Smt.bvsle x y
  | .uAddOverflow, [x, y] => Smt.bvuaddo x y
  | .sAddOverflow, [x, y] => Smt.bvsaddo x y
  | .uSubOverflow, [x, y] => Smt.bvusubo x y
  | .sSubOverflow, [x, y] => Smt.bvssubo x y
  | .uMulOverflow, [x, y] => Smt.bvumulo x y
  | .sMulOverflow, [x, y] => Smt.bvsmulo x y
  | .negOverflow, [x] => Smt.bvnego x
  | .sDivOverflow, [x, y] => Smt.bvsdivo x y
  | _, _ => default

end StructuralSigOp

variable {k : NodeKind} {op : StructuralSigOp} {operands : List TermId} {commutative : Bool}
  {node : StructuralSigNode}

/-- A node means what its signature does. -/
theorem sem_of_sigShape {look : TermId → Value} (h : sigShape k = .op op operands commutative) :
    k.sem ρ t look = op.apply (operands.map look) := by
  cases k with
  | bvSelect cases d =>
    cases h
    exact (selectFlat_cases look cases d).symm
  | _ => cases h <;> rfl

theorem mem_children_of_sigShape (h : sigShape k = .op op operands commutative) :
    ∀ x ∈ operands, x ∈ k.children := by
  cases k with
  | bvSelect cases d =>
    cases h
    intro x hx
    simpa [NodeKind.children, or_comm] using hx
  | _ => cases h <;> exact fun _ => id

/-- Operands of one sort may change places where the operator commutes. -/
theorem apply_comm {srt : TermId → Option TermSort} {look : TermId → Value} {σ : TermSort}
    (hlook : ∀ x τ, srt x = some τ → valueSort (look x) = τ) (hsort : k.HasSort srt σ)
    (h : sigShape k = .op op operands true) : ∃ a b, operands = [a, b] ∧
      op.apply [look a, look b] = op.apply [look b, look a] := by
  have hbv : ∀ {x w}, srt x = some (.bv w) → look x = .bv w ((look x).toBv w) := fun hx =>
    eq_bv_of_sort (hlook _ _ hx)
  have hwords : ∀ {a b}, (∃ w, srt a = some (.bv w) ∧ srt b = some (.bv w)) →
      ∃ w, ∃ x y : BitVec w, look a = .bv w x ∧ look b = .bv w y := by
    rintro a b ⟨w, ha, hb⟩
    exact ⟨w, _, _, hbv ha, hbv hb⟩
  cases k <;> simp only [sigShape, SigShape.op.injEq, reduceCtorEq, Bool.false_eq_true,
    and_false] at h <;> obtain ⟨rfl, rfl, -⟩ := h <;> refine ⟨_, _, rfl, ?_⟩
  case boolAnd a b => exact congrArg Value.bool (Bool.and_comm _ _)
  case boolOr a b => exact congrArg Value.bool (Bool.or_comm _ _)
  case boolEq a b => exact congrArg Value.bool Bool.beq_comm
  case bvAnd a b | bvOr a b | bvXor a b | bvAdd a b | bvMul a b =>
    obtain ⟨w, -, ha, hb⟩ := hsort
    obtain ⟨w, x, y, hx, hy⟩ := hwords ⟨w, ha, hb⟩
    simp only [StructuralSigOp.apply, Smt.bvand, Smt.bvor, Smt.bvxor, Smt.bvadd, Smt.bvmul, hx, hy,
      Smt.Value.map₂_bv, BitVec.and_comm x y, BitVec.or_comm x y, BitVec.xor_comm x y,
      BitVec.add_comm x y, BitVec.mul_comm x y]
  all_goals
    obtain ⟨w, -, ha, hb⟩ := hsort
    obtain ⟨w, x, y, hx, hy⟩ := hwords ⟨w, ha, hb⟩
    simp only [StructuralSigOp.apply, Smt.bveq, Smt.bvuaddo, Smt.bvsaddo, Smt.bvumulo, Smt.bvsmulo,
      hx, hy, Smt.Value.rel₂_bv, BitVec.uaddOverflow, BitVec.saddOverflow, BitVec.umulOverflow,
      BitVec.smulOverflow, Nat.add_comm y.toNat, Int.add_comm y.toInt, Nat.mul_comm y.toNat,
      Int.mul_comm y.toInt, Bool.beq_comm (a := y)]

namespace StructuralSigNode

def children : StructuralSigNode → List SigId
  | .op _ children => children
  | _ => []

def sem (s : Arena) (ρ : Env) (look : SigId → Value) : StructuralSigNode → Value
  | .constBool value => .bool value
  | .constBv width bytes => .bv width (.ofNat width (leNat bytes))
  | .freeVar _ term => s.value ρ term
  | .op op children => op.apply (children.map look)

theorem local_sem : Dag.Local (fun _ (node : StructuralSigNode) look => node.sem s ρ look)
    children := by
  intro _ node g h hgh
  cases node with
  | op op children => exact congrArg op.apply (List.map_congr_left hgh)
  | _ => rfl

end StructuralSigNode

/-- The value of a signature in a model. -/
def sigValue (s : Arena) (ρ : Env) (nodes : List StructuralSigNode) (id : SigId) : Value :=
  Dag.value (fun _ node look => node.sem s ρ look) default nodes id

/-- The signature has the value `v` in every model. -/
def SigMeans (q : Query) (nodes : List StructuralSigNode) (id : SigId) (v : Env → Value) : Prop :=
  id < nodes.length ∧ ∀ ρ, Asserted q ρ → sigValue q.arena ρ nodes id = v ρ

variable {nodes nodes' : List StructuralSigNode} {id : SigId} {v v' : Env → Value}

theorem SigMeans.mono (h : SigMeans q nodes id v) (hle : nodes <+: nodes') :
    SigMeans q nodes' id v := by
  refine ⟨h.1.trans_le hle.length_le, fun ρ hρ => ?_⟩
  rw [← h.2 ρ hρ]
  exact Dag.value_extend hle h.1

theorem SigMeans.congr (h : SigMeans q nodes id v) (hv : ∀ ρ, Asserted q ρ → v ρ = v' ρ) :
    SigMeans q nodes id v' :=
  ⟨h.1, fun ρ hρ => (h.2 ρ hρ).trans (hv ρ hρ)⟩

/-! ## What the state says -/

/-- Signatures come after those under them, the classes hold equal terms, and remembered signatures
have the values of their terms. -/
structure SigState.Sound (q : Query) (st : SigState) : Prop where
  ordered : Dag.Ordered StructuralSigNode.children st.nodes
  grounded : UnionFind.Grounded st.union.parentOf
  classes : ∀ a b, st.union.InClass a b → EqualTerms q a b
  memo : ∀ t id, st.memo.lookup t = some id → SigMeans q st.nodes id fun ρ => q.arena.value ρ t

/-- The call keeps the state sound and the interner's nodes, and a signature it returns has the
value `v`. -/
structure Signs (q : Query) (nodes : List StructuralSigNode) (v : Env → Value)
    (r : Option SigId × SigState) : Prop where
  sound : r.2.Sound q
  grows : nodes <+: r.2.nodes
  means : ∀ id, r.1 = some id → SigMeans q r.2.nodes id v

theorem Signs.congr {r : Option SigId × SigState} (h : Signs q nodes v r)
    (hv : ∀ ρ, Asserted q ρ → v ρ = v' ρ) : Signs q nodes v' r :=
  ⟨h.sound, h.grows, fun id hid => (h.means id hid).congr hv⟩

theorem Signs.trans {r : Option SigId × SigState} (h : Signs q nodes' v r) (hle : nodes <+: nodes') :
    Signs q nodes v r :=
  ⟨h.sound, hle.trans h.grows, h.means⟩

variable {st : SigState}

theorem signs_none (hst : st.Sound q) (hle : nodes <+: st.nodes) : Signs q nodes v (none, st) :=
  ⟨hst, hle, fun _ h => nomatch h⟩

/-- Interning a node gives a signature with the meaning of the node. -/
theorem internSig_signs (hst : st.Sound q) (hchildren : ∀ j ∈ node.children, j < st.nodes.length)
    (hsem : ∀ ρ, Asserted q ρ → node.sem q.arena ρ (sigValue q.arena ρ st.nodes) = v ρ) :
    Signs q st.nodes v (internSig node st) := by
  unfold internSig
  cases hfind : st.nodes.idxOf? node with
  | some i =>
    obtain ⟨hlt, hnode, -⟩ := List.idxOf?_eq_some_iff.mp hfind
    refine ⟨hst, List.prefix_rfl, fun id hid => ?_⟩
    cases hid
    refine ⟨hlt, fun ρ hρ => ?_⟩
    rw [← hsem ρ hρ]
    exact Dag.value_eq StructuralSigNode.local_sem hst.ordered
      (List.getElem?_eq_some_iff.mpr ⟨hlt, hnode⟩)
  | none =>
    dsimp only
    split
    · exact signs_none hst List.prefix_rfl
    · have hle : st.nodes <+: st.nodes ++ [node] := List.prefix_append _ _
      refine ⟨⟨hst.ordered.snoc hchildren, hst.grounded, hst.classes, fun t id h =>
        (hst.memo t id h).mono hle⟩, hle, fun id hid => ?_⟩
      cases hid
      refine ⟨by simp, fun ρ hρ => ?_⟩
      rw [← hsem ρ hρ]
      exact Dag.value_snoc_self st.nodes node

theorem structuralFreeVarSig_answers {σ : TermSort} (ht : q.arena.sortAt t = some σ)
    (hst : st.Sound q) :
    Answers (structuralFreeVarSig q.arena t st) (Signs q st.nodes fun ρ => q.arena.value ρ t) := by
  refine (sort_answers ht).bind fun _ _ => ?_
  refine (TermUnion.find_answers hst.grounded t).bind fun r hr => answers_ok ?_
  obtain ⟨hroot, hsame⟩ := hr
  have hclass : st.union.InClass t r.1 :=
    (UnionFind.same_iff_root hroot (UnionFind.rootOf_self hroot.isRoot)).mpr rfl
  have hst' : SigState.Sound q { st with union := r.2 } := ⟨hst.ordered, hsame.grounded hst.grounded,
    fun a b h => hst.classes a b (hsame.inClass.mpr h), hst.memo⟩
  refine internSig_signs hst' (by simp [StructuralSigNode.children]) fun ρ hρ => ?_
  exact ((hst.classes _ _ hclass).2 ρ hρ).symm

/-! ## Operators -/

/-- Whatever well-sorted term it is called on, in a sound state, the call signs the term. -/
def SignsTerms (q : Query) (recurse : SigCall) : Prop :=
  ∀ t σ st, q.arena.sortAt t = some σ → SigState.Sound q st →
    Answers (recurse t st) (Signs q st.nodes fun ρ => q.arena.value ρ t)

variable {recurse : SigCall}

theorem childSigs_answers (hrecurse : SignsTerms q recurse) :
    ∀ {operands : List TermId} {st : SigState}, (∀ x ∈ operands, ∃ σ, q.arena.sortAt x = some σ) →
      st.Sound q → Answers (childSigs recurse operands st) fun r =>
        r.2.Sound q ∧ st.nodes <+: r.2.nodes ∧ ∀ ids, r.1 = some ids →
          List.Forall₂ (fun id x => SigMeans q r.2.nodes id fun ρ => q.arena.value ρ x) ids operands := by
  intro operands
  induction operands with
  | nil =>
    intro st _ hst
    refine answers_ok ⟨hst, List.prefix_rfl, fun ids hids => ?_⟩
    cases hids
    exact .nil
  | cons x rest ih =>
    intro st hsorts hst
    rw [List.forall_mem_cons] at hsorts
    obtain ⟨⟨σ, hx⟩, hrest⟩ := hsorts
    rw [childSigs]
    refine (hrecurse x σ st hx hst).bind fun r hr => ?_
    obtain ⟨sig, st'⟩ := r
    cases sig with
    | none => exact answers_ok ⟨hr.sound, hr.grows, fun _ h => nomatch h⟩
    | some id =>
      refine (ih hrest hr.sound).bind fun r' hr' => answers_ok ?_
      obtain ⟨hsound, hgrows, hids⟩ := hr'
      refine ⟨hsound, hr.grows.trans hgrows, fun ids h => ?_⟩
      obtain ⟨ids', hids', rfl⟩ := Option.map_eq_some_iff.mp h
      exact .cons ((hr.means id rfl).mono hgrows) (hids ids' hids')

/-- The values of signatures that stand for terms are those of the terms. -/
theorem map_sigValue {ids : List SigId} (hρ : Asserted q ρ)
    (h : List.Forall₂ (fun id x => SigMeans q nodes id fun ρ => q.arena.value ρ x) ids operands) :
    ids.map (sigValue q.arena ρ nodes) = operands.map (q.arena.value ρ) := by
  induction h with
  | nil => rfl
  | cons hid _ ih => rw [List.map_cons, List.map_cons, ih, hid.2 ρ hρ]

/-- A pair of ids is sorted by leaving it or by turning it round. -/
theorem insertionSort_pair (i j : SigId) :
    [i, j].insertionSort (· ≤ ·) = [i, j] ∨ [i, j].insertionSort (· ≤ ·) = [j, i] := by
  by_cases h : i ≤ j
  · exact .inl (by simp [h])
  · exact .inr (by simp [h])

theorem structuralOpSig_answers (hs : q.arena.Inv) (hrecurse : SignsTerms q recurse)
    (hk : q.arena.kindAt t = some k) (hshape : sigShape k = .op op operands commutative)
    (hsorts : ∀ x ∈ operands, ∃ σ, q.arena.sortAt x = some σ) (hst : st.Sound q) :
    Answers (structuralOpSig recurse op operands commutative st)
      (Signs q st.nodes fun ρ => q.arena.value ρ t) := by
  refine (childSigs_answers hrecurse hsorts hst).bind fun r hr => ?_
  obtain ⟨ids, st'⟩ := r
  obtain ⟨hsound, hgrows, hids⟩ := hr
  cases ids with
  | none => exact answers_ok (signs_none hsound hgrows)
  | some ids =>
    have hmeans := hids ids rfl
    have hperm : (if commutative then ids.insertionSort (· ≤ ·) else ids).Perm ids := by
      split
      · exact List.perm_insertionSort _ _
      · exact List.Perm.refl _
    refine answers_ok ((internSig_signs hsound (fun j hj => ?_) fun ρ hρ => ?_).trans hgrows)
    · obtain ⟨x, -, hx⟩ := exists_of_forall₂ hmeans.flip j (hperm.mem_iff.mp hj)
      exact hx.1
    · rw [hs.value_kind hk, sem_of_sigShape hshape, ← map_sigValue hρ hmeans, StructuralSigNode.sem]
      cases commutative with
      | false => rfl
      | true =>
        obtain ⟨σ, -, hsort⟩ := hs.hasSort hk
        obtain ⟨a, b, rfl, hcomm⟩ := apply_comm (fun x τ hx => hs.value_sort (ρ := ρ) hx) hsort hshape
        obtain ⟨i, j, rfl⟩ := List.length_eq_two.mp hmeans.length_eq
        have hvalues := map_sigValue hρ hmeans
        simp only [List.map_cons, List.map_nil, List.cons.injEq, and_true] at hvalues
        rcases insertionSort_pair i j with hsorted | hsorted
        · rw [if_pos rfl, hsorted]
        · rw [if_pos rfl, hsorted]
          simp only [List.map_cons, List.map_nil, hvalues.1, hvalues.2]
          exact hcomm.symm

/-! ## Definitions -/

namespace BvDefinition

/-- The terms of a definition are well sorted. -/
def Sorted (s : Arena) : BvDefinition → Prop
  | .term t => ∃ σ, s.sortAt t = some σ
  | .ite c t e => s.sortAt c = some .bool ∧ t.Sorted s ∧ e.Sorted s

def value (s : Arena) (ρ : Env) : BvDefinition → Value
  | .term t => s.value ρ t
  | .ite c t e => if s.IsTrue ρ c then t.value s ρ else e.value s ρ

end BvDefinition

theorem structuralDefinitionSig_answers (hrecurse : SignsTerms q recurse) {d : BvDefinition} :
    ∀ {st : SigState}, d.Sorted q.arena → st.Sound q →
      Answers (structuralDefinitionSig recurse d st) (Signs q st.nodes fun ρ => d.value q.arena ρ) := by
  induction d with
  | term t =>
    rintro st ⟨σ, ht⟩ hst
    exact hrecurse t σ st ht hst
  | ite c x y ihx ihy =>
    rintro st ⟨hc, hx, hy⟩ hst
    rw [structuralDefinitionSig]
    refine (hrecurse c _ st hc hst).bind fun r hr => ?_
    obtain ⟨condId, st₁⟩ := r
    cases condId with
    | none => exact answers_ok (signs_none hr.sound hr.grows)
    | some condId =>
      refine (ihx hx hr.sound).bind fun r hr₁ => ?_
      obtain ⟨thenId, st₂⟩ := r
      have hgrows₂ := hr.grows.trans hr₁.grows
      cases thenId with
      | none => exact answers_ok (signs_none hr₁.sound hgrows₂)
      | some thenId =>
        refine (ihy hy hr₁.sound).bind fun r hr₂ => ?_
        obtain ⟨elseId, st₃⟩ := r
        have hgrows₃ := hgrows₂.trans hr₂.grows
        cases elseId with
        | none => exact answers_ok (signs_none hr₂.sound hgrows₃)
        | some elseId =>
          have hcond := ((hr.means condId rfl).mono hr₁.grows).mono hr₂.grows
          have hthen := (hr₁.means thenId rfl).mono hr₂.grows
          have helse := hr₂.means elseId rfl
          refine answers_ok ((internSig_signs hr₂.sound ?_ fun ρ hρ => ?_).trans hgrows₃)
          · simp only [StructuralSigNode.children, List.mem_cons, List.not_mem_nil, or_false,
              forall_eq_or_imp, forall_eq]
            exact ⟨hcond.1, hthen.1, helse.1⟩
          · simp only [StructuralSigNode.sem, List.map_cons, List.map_nil, StructuralSigOp.apply,
              hcond.2 ρ hρ, hthen.2 ρ hρ, helse.2 ρ hρ]
            rfl

/-- A variable has the value of its definition wherever `C` holds. -/
structure DefinesUnder (s : Arena) (C : Env → Prop) (var : TermId) (d : BvDefinition) : Prop where
  var_sorted : ∃ σ, s.sortAt var = some σ
  sorted : d.Sorted s
  value : ∀ ρ, C ρ → s.value ρ var = d.value s ρ

/-! ## Signatures of terms -/

variable {definitions : TermMap BvDefinition}

theorem remember_signs {r : Option SigId × SigState}
    (h : Signs q nodes (fun ρ => q.arena.value ρ t) r) :
    Signs q nodes (fun ρ => q.arena.value ρ t) (r.1, remember t r.1 r.2) := by
  obtain ⟨result, st⟩ := r
  cases result with
  | none => exact h
  | some id =>
    have hid := h.means id rfl
    refine ⟨⟨h.sound.ordered, h.sound.grounded, h.sound.classes, fun x i hx => ?_⟩, h.grows, h.means⟩
    by_cases heq : x = t
    · subst heq
      rw [remember, AList.lookup_insert, Option.some.injEq] at hx
      exact hx ▸ hid
    · rw [remember, AList.lookup_insert_ne heq] at hx
      exact h.sound.memo x i hx

/-- **A signature has the value of its term**, whichever terms are being worked on. -/
theorem structuralSig_signs (hs : q.arena.Inv)
    (hdefinitions : ∀ var d, definitions.lookup var = some d →
      DefinesUnder q.arena (Asserted q) var d) :
    ∀ (rounds : Nat) (stack : List TermId), stack.length < 258 → stack.length + rounds = 258 →
      SignsTerms q (structuralSig q.arena definitions rounds stack) := by
  intro rounds
  induction rounds with
  | zero => omega
  | succ rounds ih =>
    intro stack hlt hrounds t σ st ht hst
    rw [structuralSig]
    cases hmemo : st.memo.lookup t with
    | some id =>
      refine answers_ok ⟨hst, List.prefix_rfl, fun id' h => ?_⟩
      cases h
      exact hst.memo t id hmemo
    | none =>
      dsimp only
      split
      · exact structuralFreeVarSig_answers ht hst
      · rename_i hgo
        have hdeep : stack.length ≤ 256 := Nat.le_of_not_lt fun h => hgo (.inl h)
        have hrecurse := ih (t :: stack) (by rw [List.length_cons]; omega)
          (by rw [List.length_cons]; omega)
        refine (kind_answers ht).bind fun k hk => ?_
        have hshape : Answers (structuralShapeSig q.arena definitions
            (structuralSig q.arena definitions rounds (t :: stack)) t st (sigShape k))
            (Signs q st.nodes fun ρ => q.arena.value ρ t) := by
          cases hsh : sigShape k with
          | bvVar =>
            rw [structuralShapeSig]
            cases hd : definitions.lookup t with
            | none => exact structuralFreeVarSig_answers ht hst
            | some d =>
              have hdef := hdefinitions t d hd
              exact (structuralDefinitionSig_answers hrecurse hdef.sorted hst).mono fun r hr =>
                hr.congr fun ρ hρ => (hdef.value ρ hρ).symm
          | boolVar => exact structuralFreeVarSig_answers ht hst
          | const node =>
            refine answers_ok (internSig_signs hst ?_ fun ρ _ => ?_)
            · cases k <;> cases hsh <;> simp [StructuralSigNode.children]
            · rw [hs.value_kind hk]
              cases k <;> cases hsh <;> rfl
          | op op operands commutative =>
            obtain ⟨τ, -, hsort⟩ := hs.hasSort hk
            exact structuralOpSig_answers hs hrecurse hk hsh (fun x hx =>
              hsort.children_some (mem_children_of_sigShape hsh x hx)) hst
        exact hshape.bind fun r hr => answers_ok (remember_signs hr)

/-! ## What is recorded -/

section Definitions

variable {C : Env → Prop} {d : BvDefinition} {out : TermMap BvDefinition}

/-- Every entry of the map is a definition wherever `C` holds. -/
def AllDefine (s : Arena) (C : Env → Prop) (out : TermMap BvDefinition) : Prop :=
  ∀ var d, out.lookup var = some d → DefinesUnder s C var d

theorem allDefine_empty : AllDefine s C ∅ := fun var d h => by simp at h

theorem lookup_orInsert {α : Type} {out : TermMap α} {d e : α} {x : TermId}
    (h : (orInsert out var d).lookup x = some e) : out.lookup x = some e ∨ (x = var ∧ e = d) := by
  unfold orInsert at h
  split at h
  · exact .inl h
  · by_cases hx : x = var
    · subst hx
      rw [AList.lookup_insert, Option.some.injEq] at h
      exact .inr ⟨rfl, h.symm⟩
    · rw [AList.lookup_insert_ne hx] at h
      exact .inl h

theorem AllDefine.orInsert (h : AllDefine s C out) (hd : DefinesUnder s C var d) :
    AllDefine s C (orInsert out var d) := by
  intro x e hx
  rcases lookup_orInsert hx with hx | ⟨rfl, rfl⟩
  · exact h x e hx
  · exact hd

/-- A condition decides between what the two branches define. -/
theorem mergeAssignments_allDefine {thenMap elseMap : TermMap BvDefinition} {c : TermId}
    (hc : s.sortAt c = some .bool) (hthen : AllDefine s (fun ρ => C ρ ∧ s.IsTrue ρ c) thenMap)
    (helse : AllDefine s (fun ρ => C ρ ∧ ¬s.IsTrue ρ c) elseMap) (hout : AllDefine s C out) :
    AllDefine s C (mergeAssignments c thenMap elseMap out) := by
  have hmem : ∀ e ∈ thenMap.entries, thenMap.lookup e.1 = some e.2 := fun e he =>
    AList.mem_lookup_iff.mpr he
  unfold mergeAssignments
  generalize thenMap.entries = entries at hmem
  induction entries generalizing out with
  | nil => exact hout
  | cons e rest ih =>
    rw [List.forall_mem_cons] at hmem
    rw [List.foldl_cons]
    refine ih ?_ hmem.2
    cases hlookup : elseMap.lookup e.1 with
    | none => exact hout
    | some elseDefinition =>
      have hx := hthen _ _ hmem.1
      have hy := helse _ _ hlookup
      refine hout.orInsert ⟨hx.var_sorted, ⟨hc, hx.sorted, hy.sorted⟩, fun ρ hρ => ?_⟩
      rw [BvDefinition.value]
      split
      · rename_i htrue
        exact hx.value ρ ⟨hρ, htrue⟩
      · rename_i hfalse
        exact hy.value ρ ⟨hρ, hfalse⟩

/-- An equation defines its left side, and with the sides exchanged its right one. -/
theorem definesUnder_of_bvEq (hs : s.Inv) (hk : s.kindAt t = some (.bvEq a b))
    (htrue : ∀ ρ, C ρ → s.IsTrue ρ t) :
    DefinesUnder s C a (.term b) ∧ DefinesUnder s C b (.term a) := by
  obtain ⟨w, ha, hb⟩ := hs.bvEq_sort hk
  have hvalue : ∀ ρ, C ρ → s.value ρ a = s.value ρ b := fun ρ hρ =>
    (Arena.isTrue_bvEq hs hk).mp (htrue ρ hρ)
  exact ⟨⟨⟨_, ha⟩, ⟨_, hb⟩, hvalue⟩, ⟨⟨_, hb⟩, ⟨_, ha⟩, fun ρ hρ => (hvalue ρ hρ).symm⟩⟩

theorem boolVarTerm_answers {σ : TermSort} (ht : s.sortAt t = some σ) :
    Answers (boolVarTerm s t) fun _ => True :=
  (kind_answers ht).bind fun _ _ => answers_ok trivial

theorem bvVarTerm_answers {σ : TermSort} (ht : s.sortAt t = some σ) :
    Answers (bvVarTerm s t) fun _ => True :=
  (kind_answers ht).bind fun _ _ => answers_ok trivial

/-- What a term that is true wherever `C` holds defines. -/
theorem collectImplied_answers (hs : s.Inv) (rounds : Nat) :
    ∀ {t : TermId} {C : Env → Prop} {out : TermMap BvDefinition}, t < rounds →
      s.sortAt t = some .bool → (∀ ρ, C ρ → s.IsTrue ρ t) → AllDefine s C out →
        Answers (collectImpliedBvAssignments s rounds t out) (AllDefine s C) := by
  induction rounds with
  | zero => exact fun h => absurd h (Nat.not_lt_zero _)
  | succ rounds ih =>
    intro t C out hlt ht htrue hout
    rw [collectImpliedBvAssignments]
    refine (kind_answers ht).bind fun k hk => ?_
    have hchild : ∀ x ∈ k.children, x < rounds := fun x hx =>
      Nat.lt_of_lt_of_le (hs.child_lt hk hx) (Nat.lt_succ_iff.mp hlt)
    cases k with
    | bvEq a b =>
      obtain ⟨w, ha, hb⟩ := hs.bvEq_sort hk
      obtain ⟨hda, hdb⟩ := definesUnder_of_bvEq hs hk htrue
      refine (bvVarTerm_answers ha).bind fun _ _ => (bvVarTerm_answers hb).bind fun _ _ => ?_
      split
      · exact answers_ok (hout.orInsert hda)
      · refine (bvVarTerm_answers hb).bind fun _ _ => (bvVarTerm_answers ha).bind fun _ _ => ?_
        split
        · exact answers_ok (hout.orInsert hdb)
        · exact answers_ok hout
    | boolAnd a b =>
      obtain ⟨-, ha, hb⟩ := hs.sort_kind hk ht
      have hboth := fun ρ hρ => (Arena.isTrue_boolAnd hs hk).mp (htrue ρ hρ)
      refine (ih (hchild a (by simp [NodeKind.children])) ha (fun ρ hρ => (hboth ρ hρ).1) hout).bind
        fun out' hout' => ?_
      exact ih (hchild b (by simp [NodeKind.children])) hb (fun ρ hρ => (hboth ρ hρ).2) hout'
    | boolIte c x y =>
      obtain ⟨-, hc, hx, hy⟩ := hs.sort_kind hk ht
      have hchoice := fun ρ hρ => (Arena.isTrue_boolIte hs hk).mp (htrue ρ hρ)
      refine (ih (C := fun ρ => C ρ ∧ s.IsTrue ρ c) (hchild x (by simp [NodeKind.children])) hx
        (fun ρ hρ => (hchoice ρ hρ.1).1 hρ.2) allDefine_empty).bind fun thenMap hthen => ?_
      refine (ih (C := fun ρ => C ρ ∧ ¬s.IsTrue ρ c) (hchild y (by simp [NodeKind.children])) hy
        (fun ρ hρ => (hchoice ρ hρ.1).2 hρ.2) allDefine_empty).bind fun elseMap helse => ?_
      exact answers_ok (mergeAssignments_allDefine hc hthen helse hout)
    | _ => exact answers_ok hout

end Definitions

/-- Recorded definitions are definitions in every model, and the classes hold equal terms. -/
structure StructuralDefinitions.Sound (q : Query) (out : StructuralDefinitions) : Prop where
  define : ∀ var d, out.1.lookup var = some (some d) → DefinesUnder q.arena (Asserted q) var d
  grounded : UnionFind.Grounded out.2.parentOf
  classes : ∀ a b, out.2.InClass a b → EqualTerms q a b

section Collect

variable {out : StructuralDefinitions}

theorem recordStructuralDefinition_answers {map : TermMap (Option BvDefinition)} {d : BvDefinition}
    (hmap : ∀ x e, map.lookup x = some (some e) → DefinesUnder q.arena (Asserted q) x e)
    (hd : DefinesUnder q.arena (Asserted q) var d) :
    Answers (recordStructuralDefinition q.arena var d map) fun map' =>
      ∀ x e, map'.lookup x = some (some e) → DefinesUnder q.arena (Asserted q) x e := by
  obtain ⟨σ, hvar⟩ := hd.var_sorted
  refine (bvVarTerm_answers hvar).bind fun isVar _ => ?_
  split
  · exact answers_ok hmap
  · have hbare : Answers (bvDefinitionIsBareVar q.arena d) fun _ => True := by
      cases d with
      | term t =>
        obtain ⟨τ, ht⟩ := hd.sorted
        exact bvVarTerm_answers ht
      | ite c x y => exact answers_ok trivial
    refine hbare.bind fun bare _ => ?_
    split
    · exact answers_ok hmap
    · refine answers_ok fun x e h => ?_
      rcases lookup_orInsert h with h | ⟨rfl, he⟩
      · exact hmap x e h
      · cases he
        exact hd

theorem StructuralDefinitions.Sound.union (h : out.Sound q) (hab : EqualTerms q a b) :
    Answers (out.2.union a b) fun u => StructuralDefinitions.Sound q (out.1, u) := by
  refine (TermUnion.union_adds h.grounded a b).mono fun u hu => ⟨h.define, hu.grounded, ?_⟩
  refine hu.least _ (equalTerms_equivalence q) h.classes fun x y hxy => ?_
  rw [hxy.1, hxy.2]
  exact hab

theorem collectEquation_answers (hs : q.arena.Inv) (hk : q.arena.kindAt t = some (.bvEq a b))
    (htrue : ∀ ρ, Asserted q ρ → q.arena.IsTrue ρ t) (hout : out.Sound q) :
    Answers (collectEquation q.arena a b out) (StructuralDefinitions.Sound q) := by
  obtain ⟨w, ha, hb⟩ := hs.bvEq_sort hk
  obtain ⟨hda, hdb⟩ := definesUnder_of_bvEq hs hk htrue
  have hequal : EqualTerms q a b := ⟨ha.trans hb.symm, hda.value⟩
  refine (bvVarTerm_answers ha).bind fun _ _ => (bvVarTerm_answers hb).bind fun _ _ => ?_
  split
  · exact (hout.union hequal).bind fun u hu => answers_ok hu
  · refine (recordStructuralDefinition_answers hout.define hda).bind fun map hmap => ?_
    refine (recordStructuralDefinition_answers hmap hdb).bind fun map' hmap' => ?_
    exact answers_ok ⟨hmap', hout.grounded, hout.classes⟩

theorem collectStructuralDefinitions_answers (hs : q.arena.Inv)
    (ht : q.arena.sortAt t = some .bool) (htrue : ∀ ρ, Asserted q ρ → q.arena.IsTrue ρ t)
    (hout : out.Sound q) :
    Answers (collectStructuralDefinitions q.arena t out) (StructuralDefinitions.Sound q) := by
  refine (kind_answers ht).bind fun k hk => ?_
  cases k with
  | bvEq a b => exact collectEquation_answers hs hk htrue hout
  | boolEq a b =>
    obtain ⟨-, ha, hb⟩ := hs.sort_kind hk ht
    have hequal : EqualTerms q a b := by
      refine ⟨ha.trans hb.symm, fun ρ hρ => ?_⟩
      have hiff := (Arena.isTrue_boolEq hs hk).mp (htrue ρ hρ)
      rw [hs.value_bool ha, hs.value_bool hb, Value.bool.injEq]
      exact Bool.eq_iff_iff.mpr hiff
    refine (boolVarTerm_answers ha).bind fun _ _ => (boolVarTerm_answers hb).bind fun _ _ => ?_
    split
    · exact (hout.union hequal).bind fun u hu => answers_ok hu
    · exact answers_ok hout
  | boolIte c x y =>
    refine (collectImplied_answers hs _ (Nat.lt_succ_self t) ht htrue allDefine_empty).bind
      fun assignments hassignments => ?_
    have hmem : ∀ e ∈ assignments.entries, DefinesUnder q.arena (Asserted q) e.1 e.2 := fun e he =>
      hassignments e.1 e.2 (AList.mem_lookup_iff.mpr he)
    refine (answers_foldlM (fun _ map => ∀ x e, map.lookup x = some (some e) →
      DefinesUnder q.arena (Asserted q) x e) hout.define fun e he _ map hmap =>
        recordStructuralDefinition_answers hmap (hmem e he)).bind fun map hmap => ?_
    exact answers_ok ⟨hmap, hout.grounded, hout.classes⟩
  | _ => exact answers_ok hout

theorem structuralDefinitions_answers (hq : q.WellFormed) :
    Answers (structuralDefinitions q) (StructuralDefinitions.Sound q) := by
  obtain ⟨leaves, hleaves, hsorts, htrue⟩ := conjuncts_answers hq
  rw [structuralDefinitions, forAllConjuncts_eq hleaves]
  refine answers_foldlM (fun _ out => StructuralDefinitions.Sound q out) ?_ fun leaf hleaf _ out hout =>
    collectStructuralDefinitions_answers hq.arena (hsorts leaf hleaf)
      (fun ρ hρ => (htrue ρ).mp hρ leaf hleaf) hout
  refine ⟨fun var d h => by simp at h, TermUnion.grounded_default, fun a b h => ?_⟩
  rw [TermUnion.inClass_default] at h
  exact h ▸ (equalTerms_equivalence q).refl a

end Collect

/-! ## The pass -/

variable {sig : SigCall}

/-- Signatures of several terms, one after another. -/
def sigsOf (sig : SigCall) : List TermId → SigState → Result (List (TermId × Option SigId))
  | [], _ => return []
  | t :: rest, st => do
    let (id, st) ← sig t st
    return (t, id) :: (← sigsOf sig rest st)


/-- There is one interner in which all the signatures have the values of their terms. -/
theorem sigsOf_answers (hsig : SignsTerms q sig) : ∀ {terms : List TermId} {st : SigState},
    (∀ t ∈ terms, ∃ σ, q.arena.sortAt t = some σ) → st.Sound q →
      Answers (sigsOf sig terms st) fun out => ∃ nodes, st.nodes <+: nodes ∧ ∀ p ∈ out, ∀ id,
        p.2 = some id → SigMeans q nodes id fun ρ => q.arena.value ρ p.1 := by
  intro terms
  induction terms with
  | nil => exact fun _ _ => answers_ok ⟨_, List.prefix_rfl, by simp⟩
  | cons t rest ih =>
    intro st hterms hst
    rw [List.forall_mem_cons] at hterms
    obtain ⟨⟨σ, ht⟩, hrest⟩ := hterms
    rw [sigsOf]
    refine (hsig t σ st ht hst).bind fun r hr => ?_
    refine (ih hrest hr.sound).bind fun out hout => answers_ok ?_
    obtain ⟨nodes, hgrows, hmeans⟩ := hout
    refine ⟨nodes, hr.grows.trans hgrows, List.forall_mem_cons.mpr ⟨fun id hid => ?_, hmeans⟩⟩
    exact (hr.means id hid).mono hgrows

theorem anySameSig_answers (hsig : SignsTerms q sig) : ∀ {disequalities : List BvPair}
    {st : SigState}, (∀ p ∈ disequalities, DistinctBv q p.1 p.2) → st.Sound q →
      Answers (anySameSig sig disequalities st) fun found => found = true → ¬∃ ρ, Asserted q ρ := by
  intro disequalities
  induction disequalities with
  | nil => exact fun _ _ => answers_ok fun h => nomatch h
  | cons p rest ih =>
    intro st hne hst
    obtain ⟨a, b⟩ := p
    rw [List.forall_mem_cons] at hne
    obtain ⟨⟨w, ha, hb, hdiffer⟩, hrest⟩ := hne
    rw [anySameSig]
    refine (hsig a _ st ha hst).bind fun r hr => ?_
    obtain ⟨left, st₁⟩ := r
    cases left with
    | none => exact ih hrest hr.sound
    | some left =>
      refine (hsig b _ st₁ hb hr.sound).bind fun r hr₁ => ?_
      obtain ⟨right, st₂⟩ := r
      cases right with
      | none => exact ih hrest hr₁.sound
      | some right =>
        dsimp only
        split
        · rename_i hsame
          refine answers_ok fun _ => ?_
          rintro ⟨ρ, hρ⟩
          have hleft := ((hr.means left rfl).mono hr₁.grows).2 ρ hρ
          have hright := (hr₁.means right rfl).2 ρ hρ
          have hvalue : q.arena.value ρ a = q.arena.value ρ b :=
            hleft.symm.trans ((congrArg _ hsame).trans hright)
          exact hdiffer ρ hρ (congrArg (Value.toBv w) hvalue)
        · exact ih hrest hr₁.sound

theorem keptDefinitions_answers {out : StructuralDefinitions} (hout : out.Sound q) :
    Answers (keptDefinitions out.1) fun definitions =>
      ∀ var d, definitions.lookup var = some d → DefinesUnder q.arena (Asserted q) var d := by
  refine (Table.collect_answers fun var d _ => ⟨d, rfl⟩).mono fun definitions h var d hd => ?_
  obtain ⟨e, he, hed⟩ := (h var d).mp hd
  cases hed
  exact hout.define var d he

theorem sound_start {out : StructuralDefinitions} (hout : out.Sound q) :
    SigState.Sound q ⟨out.2, [], ∅⟩ :=
  ⟨fun i n h => by simp at h, hout.grounded, hout.classes, fun t id h => by simp at h⟩

/-- **Terms of one signature have one value in every model, whichever terms are signed and in which
order; the pass returns, and finds a contradiction only where there is one.** -/
theorem structural_definitions_are_sound (hq : q.WellFormed) :
    Answers (structuralDefinitions q) (fun out =>
      Answers (keptDefinitions out.1) fun definitions =>
        ∀ terms, (∀ t ∈ terms, ∃ σ, q.arena.sortAt t = some σ) →
          Answers (sigsOf (structuralSigOf q.arena definitions) terms ⟨out.2, [], ∅⟩) fun sigs =>
            ∀ a b id, (a, some id) ∈ sigs → (b, some id) ∈ sigs →
              ∀ ρ, Asserted q ρ → q.arena.value ρ a = q.arena.value ρ b) ∧
    Answers (hasStructuralDefinitionContradiction q) fun found =>
      found = true → ¬∃ ρ, Asserted q ρ := by
  have hs := hq.arena
  have hsigns : ∀ definitions : TermMap BvDefinition, (∀ var d, definitions.lookup var = some d →
      DefinesUnder q.arena (Asserted q) var d) → SignsTerms q (structuralSigOf q.arena definitions) :=
    fun _ h => structuralSig_signs hs h 258 [] (by decide) (by decide)
  constructor
  · refine (structuralDefinitions_answers hq).mono fun out hout => ?_
    refine (keptDefinitions_answers hout).mono fun definitions hdefinitions terms hterms => ?_
    refine (sigsOf_answers (hsigns definitions hdefinitions) hterms (sound_start hout)).mono
      fun sigs h a b id ha hb ρ hρ => ?_
    obtain ⟨nodes, -, hmeans⟩ := h
    exact ((hmeans _ ha id rfl).2 ρ hρ).symm.trans ((hmeans _ hb id rfl).2 ρ hρ)
  · rw [hasStructuralDefinitionContradiction]
    split
    · exact answers_ok fun h => nomatch h
    · refine (structuralDefinitions_answers hq).bind fun out hout => ?_
      refine (bvEqualitiesAndDisequalities_answers hq).bind fun pairs hpairs => ?_
      dsimp only
      split
      · exact answers_ok fun h => nomatch h
      · refine (keptDefinitions_answers hout).bind fun definitions hdefinitions => ?_
        exact anySameSig_answers (hsigns definitions hdefinitions) hpairs.2 (sound_start hout)

/-- `x = y + 1` where `c` holds and where it does not, and `x` differs from `1 + y`. -/
def definedByChoice : Query := .asserting [
    ⟨.bvVar 8 "x" (some 0), .bv 8⟩,
    ⟨.bvVar 8 "y" (some 1), .bv 8⟩,
    ⟨.bvConst 8 [1], .bv 8⟩,
    ⟨.bvAdd 1 2, .bv 8⟩,
    ⟨.bvEq 0 3, .bool⟩,
    ⟨.bvAdd 2 1, .bv 8⟩,
    ⟨.bvEq 5 0, .bool⟩,
    ⟨.boolVar "c" (some 2), .bool⟩,
    ⟨.boolIte 7 4 6, .bool⟩,
    ⟨.bvIte 7 5 3, .bv 8⟩,
    ⟨.bvEq 0 9, .bool⟩,
    ⟨.boolNot 10, .bool⟩] [8, 11]

theorem structural_contradiction_of_choice :
    hasStructuralDefinitionContradiction definedByChoice = ok true ∧
      ¬∃ ρ, Asserted definedByChoice ρ := by
  have hq : definedByChoice.WellFormed :=
    Query.wellFormed_of_check (by decide) (by decide)
  have hfound : hasStructuralDefinitionContradiction definedByChoice = ok true := by decide
  exact ⟨hfound, (structural_definitions_are_sound hq).2.of_eq hfound rfl⟩

end Shortcuts
end Qfbv
end SmtServer
