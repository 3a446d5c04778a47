import SmtServer.Qfbv.Arena
import SmtServer.Qfbv.Bytes

/-!
# Arenas that the builder built

Two things are said of a term: which vector it **denotes** under an assignment (`Denotes`), and
which shapes it cannot have (`Canonical`). The second is what makes the rewriting stop: no shift of
a constant by a constant is ever stored, nested right shifts are stored with their amounts in
order, and an extract is never stored on top of a constant, an extract or a concatenation.

`Spec` is a specification over arenas with both the representation invariant and the shapes
(`Built`). Like `Arena.Spec` it leaves one way to fail: the ids are used up.
-/

namespace SmtServer
namespace Qfbv

open Lib Outcome Bytes
open Lib.Smt (Value)

/-! ## What a term denotes -/

namespace Arena

/-- The term is a vector with this value. -/
structure Denotes (s : Arena) (ρ : Env) (t : TermId) {w : Nat} (x : BitVec w) : Prop where
  sort : s.sortAt t = some (.bv w)
  value : s.value ρ t = .bv w x

/-- The term is a Bool with this value. -/
structure DenotesBool (s : Arena) (ρ : Env) (t : TermId) (b : Bool) : Prop where
  sort : s.sortAt t = some .bool
  value : s.value ρ t = .bool b

variable {s s' : Arena} {ρ : Env} {t a b c : TermId} {w : Nat} {x y : BitVec w} {k : NodeKind}

theorem Denotes.mono (h : s.Denotes ρ t x) (hle : s ≤ s') : s'.Denotes ρ t x :=
  ⟨sortAt_mono hle h.sort, by rw [value_mono hle h.sort, h.value]⟩

theorem DenotesBool.mono {v : Bool} (h : s.DenotesBool ρ t v) (hle : s ≤ s') :
    s'.DenotesBool ρ t v :=
  ⟨sortAt_mono hle h.sort, by rw [value_mono hle h.sort, h.value]⟩

theorem Denotes.inj (hx : s.Denotes ρ t x) (hy : s.Denotes ρ t y) : x = y :=
  Value.bv_inj.mp (hx.value.symm.trans hy.value)

theorem DenotesBool.inj {u v : Bool} (hu : s.DenotesBool ρ t u) (hv : s.DenotesBool ρ t v) :
    u = v := by
  simpa using hu.value.symm.trans hv.value

theorem Denotes.width {v : Nat} {z : BitVec v} (hx : s.Denotes ρ t x) (hz : s.Denotes ρ t z) :
    w = v := by
  simpa using hx.sort.symm.trans hz.sort

theorem Inv.denotes_of_sort (hs : s.Inv) (h : s.sortAt t = some (.bv w)) :
    s.Denotes ρ t ((s.value ρ t).toBv w) :=
  ⟨h, hs.value_bv h⟩

theorem Inv.denotesBool_of_sort (hs : s.Inv) (h : s.sortAt t = some .bool) :
    s.DenotesBool ρ t (s.value ρ t).toBool :=
  ⟨h, hs.value_bool h⟩

theorem Inv.width (hs : s.Inv) (h : s.Denotes ρ t x) : 1 ≤ w ∧ w ≤ maxBvWidth :=
  hs.width_le t w h.sort

theorem Inv.denotes_sortOk (hs : s.Inv) (h : s.Denotes ρ t x) : SortOk (.bv w) := hs.sortOk h.sort

theorem Denotes.toBv (h : s.Denotes ρ t x) : (s.value ρ t).toBv w = x := by
  rw [h.value, Value.toBv_bv]

theorem kindAt_eq_some : s.kindAt t = some k ↔ ∃ n, s.nodes[t]? = some n ∧ n.kind = k := by
  simp [kindAt]

theorem kindAt_of_node {n : Node} (h : s.nodes[t]? = some n) : s.kindAt t = some n.kind :=
  kindAt_eq_some.mpr ⟨n, h, rfl⟩

/-- A term's value, from its kind. -/
theorem Inv.value_kind (hs : s.Inv) (hk : s.kindAt t = some k) :
    s.value ρ t = k.sem ρ t (s.value ρ) := by
  obtain ⟨n, hn, rfl⟩ := kindAt_eq_some.mp hk
  exact hs.value_eq hn

/-- A term's sort follows from its kind. -/
theorem Inv.sort_kind (hs : s.Inv) (hk : s.kindAt t = some k) {σ : TermSort}
    (hσ : s.sortAt t = some σ) : k.HasSort s.sortAt σ := by
  obtain ⟨n, hn, rfl⟩ := kindAt_eq_some.mp hk
  obtain ⟨m, hm, rfl⟩ := sortAt_eq_some.mp hσ
  obtain rfl := Option.some.inj (hn.symm.trans hm)
  exact hs.sorted t n hn

theorem Inv.child_lt (hs : s.Inv) (hk : s.kindAt t = some k) {j : TermId} (hj : j ∈ k.children) :
    j < t := by
  obtain ⟨n, hn, rfl⟩ := kindAt_eq_some.mp hk
  exact hs.ordered t n hn j hj

/-! ### Taking terms apart -/

theorem Inv.unary {f : ∀ {w : Nat}, BitVec w → BitVec w} (hs : s.Inv) (h : s.Denotes ρ t x)
    (hk : s.kindAt t = some k)
    (hsort : ∀ {srt σ}, k.HasSort srt σ → ∃ w, σ = .bv w ∧ srt a = some (.bv w))
    (hsem : ∀ {ρ id look}, k.sem ρ id look = Value.map f (look a)) :
    ∃ y : BitVec w, s.Denotes ρ a y ∧ x = f y := by
  obtain ⟨w', hw, ha⟩ := hsort (hs.sort_kind hk h.sort)
  simp only [TermSort.bv.injEq] at hw
  subst hw
  have hda := hs.denotes_of_sort (ρ := ρ) ha
  refine ⟨_, hda, ?_⟩
  have hv := hs.value_kind (ρ := ρ) hk
  rw [hsem, hda.value, Value.map_bv, h.value] at hv
  exact Value.bv_inj.mp hv

theorem Inv.binary {f : ∀ {w : Nat}, BitVec w → BitVec w → BitVec w} (hs : s.Inv)
    (h : s.Denotes ρ t x) (hk : s.kindAt t = some k)
    (hsort : ∀ {srt σ}, k.HasSort srt σ →
      ∃ w, σ = .bv w ∧ srt a = some (.bv w) ∧ srt b = some (.bv w))
    (hsem : ∀ {ρ id look}, k.sem ρ id look = Value.map₂ f (look a) (look b)) :
    ∃ y z : BitVec w, s.Denotes ρ a y ∧ s.Denotes ρ b z ∧ x = f y z := by
  obtain ⟨w', hw, ha, hb⟩ := hsort (hs.sort_kind hk h.sort)
  simp only [TermSort.bv.injEq] at hw
  subst hw
  have hda := hs.denotes_of_sort (ρ := ρ) ha
  have hdb := hs.denotes_of_sort (ρ := ρ) hb
  refine ⟨_, _, hda, hdb, ?_⟩
  have hv := hs.value_kind (ρ := ρ) hk
  rw [hsem, hda.value, hdb.value, Value.map₂_bv, h.value] at hv
  exact Value.bv_inj.mp hv

theorem Inv.bvNot (hs : s.Inv) (h : s.Denotes ρ t x) (hk : s.kindAt t = some (.bvNot a)) :
    ∃ y : BitVec w, s.Denotes ρ a y ∧ x = ~~~y :=
  hs.unary (f := fun y => ~~~y) h hk id rfl

theorem Inv.bvNeg (hs : s.Inv) (h : s.Denotes ρ t x) (hk : s.kindAt t = some (.bvNeg a)) :
    ∃ y : BitVec w, s.Denotes ρ a y ∧ x = -y :=
  hs.unary (f := fun y => -y) h hk id rfl

theorem Inv.bvAnd (hs : s.Inv) (h : s.Denotes ρ t x) (hk : s.kindAt t = some (.bvAnd a b)) :
    ∃ y z : BitVec w, s.Denotes ρ a y ∧ s.Denotes ρ b z ∧ x = y &&& z :=
  hs.binary (f := fun y z => y &&& z) h hk id rfl

theorem Inv.bvOr (hs : s.Inv) (h : s.Denotes ρ t x) (hk : s.kindAt t = some (.bvOr a b)) :
    ∃ y z : BitVec w, s.Denotes ρ a y ∧ s.Denotes ρ b z ∧ x = y ||| z :=
  hs.binary (f := fun y z => y ||| z) h hk id rfl

theorem Inv.bvXor (hs : s.Inv) (h : s.Denotes ρ t x) (hk : s.kindAt t = some (.bvXor a b)) :
    ∃ y z : BitVec w, s.Denotes ρ a y ∧ s.Denotes ρ b z ∧ x = y ^^^ z :=
  hs.binary (f := fun y z => y ^^^ z) h hk id rfl

theorem Inv.bvAdd (hs : s.Inv) (h : s.Denotes ρ t x) (hk : s.kindAt t = some (.bvAdd a b)) :
    ∃ y z : BitVec w, s.Denotes ρ a y ∧ s.Denotes ρ b z ∧ x = y + z :=
  hs.binary (f := fun y z => y + z) h hk id rfl

theorem Inv.bvSub (hs : s.Inv) (h : s.Denotes ρ t x) (hk : s.kindAt t = some (.bvSub a b)) :
    ∃ y z : BitVec w, s.Denotes ρ a y ∧ s.Denotes ρ b z ∧ x = y - z :=
  hs.binary (f := fun y z => y - z) h hk id rfl

theorem Inv.bvMul (hs : s.Inv) (h : s.Denotes ρ t x) (hk : s.kindAt t = some (.bvMul a b)) :
    ∃ y z : BitVec w, s.Denotes ρ a y ∧ s.Denotes ρ b z ∧ x = y * z :=
  hs.binary (f := fun y z => y * z) h hk id rfl

theorem Inv.bvShl (hs : s.Inv) (h : s.Denotes ρ t x) (hk : s.kindAt t = some (.bvShl a b)) :
    ∃ y z : BitVec w, s.Denotes ρ a y ∧ s.Denotes ρ b z ∧ x = y <<< z :=
  hs.binary (f := fun y z => y <<< z) h hk id rfl

theorem Inv.bvLShr (hs : s.Inv) (h : s.Denotes ρ t x) (hk : s.kindAt t = some (.bvLShr a b)) :
    ∃ y z : BitVec w, s.Denotes ρ a y ∧ s.Denotes ρ b z ∧ x = y >>> z :=
  hs.binary (f := fun y z => y >>> z) h hk id rfl

/-- A constant's bytes spell its value, whatever the assignment. -/
theorem Inv.bvConst {bytes : List UInt8} {v : Nat} (hs : s.Inv) (h : s.Denotes ρ t x)
    (hk : s.kindAt t = some (.bvConst v bytes)) : v = w ∧ Spells bytes x := by
  obtain ⟨hw, hlen, hlt⟩ := hs.sort_kind hk h.sort
  simp only [TermSort.bv.injEq] at hw
  subst hw
  have hv := hs.value_kind (ρ := ρ) hk
  rw [h.value] at hv
  obtain rfl := Value.bv_inj.mp hv
  exact ⟨rfl, spells_of_lt hlen hlt⟩

/-! Where the width changes, the vector is known by its bits. -/

theorem Inv.bvExtract {c : TermId} {high low : Nat} (hs : s.Inv) (h : s.Denotes ρ t x)
    (hk : s.kindAt t = some (.bvExtract c high low)) :
    ∃ (v : Nat) (z : BitVec v), w = high - low + 1 ∧ low ≤ high ∧ high < v ∧ s.Denotes ρ c z ∧
      ∀ i, i < w → x.getLsbD i = z.getLsbD (low + i) := by
  obtain ⟨v, hw, hc, hle, hlt⟩ := hs.sort_kind hk h.sort
  simp only [TermSort.bv.injEq] at hw
  subst hw
  have hdc := hs.denotes_of_sort (ρ := ρ) hc
  refine ⟨v, _, rfl, hle, hlt, hdc, fun i hi => ?_⟩
  have hv := hs.value_kind (ρ := ρ) hk
  rw [NodeKind.sem, hdc.value, h.value, Smt.extract_bv] at hv
  rw [Value.bv_inj.mp hv, BitVec.getLsbD_extractLsb]
  simp [show i ≤ high - low by omega]

theorem Inv.bvConcat {hi lo : TermId} (hs : s.Inv) (h : s.Denotes ρ t x)
    (hk : s.kindAt t = some (.bvConcat hi lo)) :
    ∃ (hw lw : Nat) (y : BitVec hw) (z : BitVec lw), w = hw + lw ∧ s.Denotes ρ hi y ∧
      s.Denotes ρ lo z ∧
      ∀ i, x.getLsbD i = if i < lw then z.getLsbD i else y.getLsbD (i - lw) := by
  obtain ⟨hw, lw, hw', hh, hl⟩ := hs.sort_kind hk h.sort
  simp only [TermSort.bv.injEq] at hw'
  subst hw'
  have hdh := hs.denotes_of_sort (ρ := ρ) hh
  have hdl := hs.denotes_of_sort (ρ := ρ) hl
  refine ⟨hw, lw, _, _, rfl, hdh, hdl, fun i => ?_⟩
  have hv := hs.value_kind (ρ := ρ) hk
  rw [NodeKind.sem, hdh.value, hdl.value, h.value, Smt.concat_bv] at hv
  rw [Value.bv_inj.mp hv, BitVec.getLsbD_append]

theorem Inv.bvZeroExtend {c : TermId} {extra : Nat} (hs : s.Inv) (h : s.Denotes ρ t x)
    (hk : s.kindAt t = some (.bvZeroExtend c extra)) :
    ∃ (v : Nat) (z : BitVec v), w = v + extra ∧ s.Denotes ρ c z ∧
      ∀ i, x.getLsbD i = z.getLsbD i := by
  obtain ⟨v, hw, hc⟩ := hs.sort_kind hk h.sort
  simp only [TermSort.bv.injEq] at hw
  subst hw
  have hdc := hs.denotes_of_sort (ρ := ρ) hc
  refine ⟨v, _, rfl, hdc, fun i => ?_⟩
  have hv := hs.value_kind (ρ := ρ) hk
  rw [NodeKind.sem, hdc.value, h.value, Smt.zeroExtend_bv] at hv
  rw [Value.bv_inj.mp hv, BitVec.getLsbD_setWidth]
  by_cases hi : i < v + extra
  · simp [hi]
  · rw [BitVec.getLsbD_of_ge _ i (by omega)]
    simp

theorem Inv.bvSignExtend {c : TermId} {extra : Nat} (hs : s.Inv) (h : s.Denotes ρ t x)
    (hk : s.kindAt t = some (.bvSignExtend c extra)) :
    ∃ (v : Nat) (z : BitVec v), w = v + extra ∧ s.Denotes ρ c z ∧
      ∀ i, i < w → x.getLsbD i = if i < v then z.getLsbD i else z.msb := by
  obtain ⟨v, hw, hc⟩ := hs.sort_kind hk h.sort
  simp only [TermSort.bv.injEq] at hw
  subst hw
  have hdc := hs.denotes_of_sort (ρ := ρ) hc
  refine ⟨v, _, rfl, hdc, fun i hi => ?_⟩
  have hv := hs.value_kind (ρ := ρ) hk
  rw [NodeKind.sem, hdc.value, h.value, Smt.signExtend_bv] at hv
  rw [Value.bv_inj.mp hv, BitVec.getLsbD_signExtend]
  simp [hi]

theorem Inv.bvIte {c : TermId} (hs : s.Inv) (h : s.Denotes ρ t x)
    (hk : s.kindAt t = some (.bvIte c a b)) :
    ∃ (v : Bool) (y z : BitVec w), s.DenotesBool ρ c v ∧ s.Denotes ρ a y ∧ s.Denotes ρ b z ∧
      x = if v then y else z := by
  obtain ⟨w', hw, hc, ha, hb⟩ := hs.sort_kind hk h.sort
  simp only [TermSort.bv.injEq] at hw
  subst hw
  have hdc := hs.denotesBool_of_sort (ρ := ρ) hc
  have hda := hs.denotes_of_sort (ρ := ρ) ha
  have hdb := hs.denotes_of_sort (ρ := ρ) hb
  refine ⟨_, _, _, hdc, hda, hdb, ?_⟩
  have hv := hs.value_kind (ρ := ρ) hk
  rw [NodeKind.sem, Smt.ite, hda.value, hdb.value, h.value] at hv
  split at hv
  · rw [if_pos ‹_›]
    exact Value.bv_inj.mp hv
  · rw [if_neg ‹_›]
    exact Value.bv_inj.mp hv

theorem Inv.boolConst {v u : Bool} (hs : s.Inv) (h : s.DenotesBool ρ t u)
    (hk : s.kindAt t = some (.boolConst v)) : u = v := by
  have hv := hs.value_kind (ρ := ρ) hk
  rw [h.value] at hv
  simpa [NodeKind.sem] using hv

theorem Inv.boolNot {u : Bool} (hs : s.Inv) (h : s.DenotesBool ρ t u)
    (hk : s.kindAt t = some (.boolNot a)) : ∃ v, s.DenotesBool ρ a v ∧ u = !v := by
  obtain ⟨-, ha⟩ := hs.sort_kind hk h.sort
  have hda := hs.denotesBool_of_sort (ρ := ρ) ha
  refine ⟨_, hda, ?_⟩
  have hv := hs.value_kind (ρ := ρ) hk
  rw [h.value] at hv
  simpa [NodeKind.sem, Smt.not] using hv

/-! ### Putting terms together -/

theorem Inv.denotes (hs : s.Inv) (hn : s.nodes[t]? = some ⟨k, .bv w⟩)
    (hv : k.sem ρ t (s.value ρ) = .bv w x) : s.Denotes ρ t x :=
  ⟨sortAt_eq_some.mpr ⟨_, hn, rfl⟩, by rw [hs.value_eq hn, hv]⟩

theorem Inv.denotesBool {v : Bool} (hs : s.Inv) (hn : s.nodes[t]? = some ⟨k, .bool⟩)
    (hv : k.sem ρ t (s.value ρ) = .bool v) : s.DenotesBool ρ t v :=
  ⟨sortAt_eq_some.mpr ⟨_, hn, rfl⟩, by rw [hs.value_eq hn, hv]⟩

end Arena

/-! ## Shapes -/

/-- A constant vector. -/
def NodeKind.IsConst : NodeKind → Prop
  | .bvConst _ _ => True
  | _ => False

/-- A node that `bv_extract` looks through. -/
def NodeKind.IsSliced : NodeKind → Prop
  | .bvConst _ _ | .bvExtract _ _ _ | .bvConcat _ _ => True
  | _ => False

/-- The shapes the builder does store, given the kinds of the children. The variables are those of
`V`: a variable comes into the arena by name, and no rewriting makes one. -/
def NodeKind.Canonical (V : NodeKind → Prop) (kindAt : TermId → Option NodeKind) : NodeKind → Prop
  | .bvVar width name external => V (.bvVar width name external)
  | .boolVar name external => V (.boolVar name external)
  | .bvShl a b => ∀ j k, kindAt a = some j → kindAt b = some k → ¬(j.IsConst ∧ k.IsConst)
  | .bvLShr a b => ∀ inner amount, kindAt a = some (.bvLShr inner amount) → amount ≤ b
  | .bvExtract child _ _ => ∀ k, kindAt child = some k → ¬k.IsSliced
  | _ => True

/-- Children that exist already are all that a shape depends on. -/
theorem NodeKind.Canonical.mono {V : NodeKind → Prop} {kindAt kindAt' : TermId → Option NodeKind}
    {k : NodeKind}
    (h : k.Canonical V kindAt) (hle : ∀ j ∈ k.children, kindAt' j = kindAt j) :
    k.Canonical V kindAt' := by
  cases k with
  | bvShl a b =>
    intro i j hi hj
    rw [hle a (by simp [children])] at hi
    rw [hle b (by simp [children])] at hj
    exact h i j hi hj
  | bvLShr a b =>
    intro inner amount ha
    rw [hle a (by simp [children])] at ha
    exact h inner amount ha
  | bvExtract child high low =>
    intro j hj
    rw [hle child (by simp [children])] at hj
    exact h j hj
  | bvVar | boolVar => exact h
  | _ => trivial

/-- The invariant of the builder's arena, with the variables of `V`. -/
structure Built (V : NodeKind → Prop) (s : Arena) : Prop where
  inv : s.Inv
  canonical : ∀ (t : TermId) (k : NodeKind), s.kindAt t = some k → k.Canonical V s.kindAt

variable {V : NodeKind → Prop}

theorem built_empty : Built V .empty := by
  refine ⟨Arena.inv_empty, ?_⟩
  intro t k hk
  simp [Arena.kindAt, Arena.empty] at hk

theorem kindAt_snoc {s : Arena} {n : Node} {j : TermId} (h : j < s.nodes.length) :
    (⟨s.nodes ++ [n]⟩ : Arena).kindAt j = s.kindAt j := by
  simp only [Arena.kindAt, List.getElem?_append_left h]

theorem Built.snoc {s : Arena} {k : NodeKind} {σ : TermSort} (hs : Built V s)
    (hinv : Arena.Inv ⟨s.nodes ++ [⟨k, σ⟩]⟩) (hk : k.Canonical V s.kindAt) :
    Built V ⟨s.nodes ++ [⟨k, σ⟩]⟩ := by
  refine ⟨hinv, ?_⟩
  intro t j hj
  have hchild : ∀ i ∈ j.children, i < t := fun i hi => hinv.child_lt hj hi
  obtain ⟨n, hn, rfl⟩ := Arena.kindAt_eq_some.mp hj
  have hlt : t < s.nodes.length + 1 := by
    have := (List.getElem?_eq_some_iff.mp hn).1
    rwa [List.length_append, List.length_singleton] at this
  have hsame : ∀ i ∈ n.kind.children,
      (⟨s.nodes ++ [⟨k, σ⟩]⟩ : Arena).kindAt i = s.kindAt i := by
    intro i hi
    exact kindAt_snoc (lt_of_lt_of_le (hchild i hi) (Nat.lt_succ_iff.mp hlt))
  by_cases ht : t < s.nodes.length
  · rw [kindAt_snoc ht] at hj
    exact (hs.canonical t _ hj).mono hsame
  · obtain rfl : t = s.nodes.length := Nat.eq_of_lt_succ_of_not_lt hlt ht
    rw [List.getElem?_concat_length] at hn
    obtain rfl := Option.some.inj hn
    exact hk.mono hsame

/-! ## Specifications -/

namespace Builder

variable {s s' : Arena} {V : NodeKind → Prop} {α β : Type}

/-- From an arena the builder built, the run does not panic, leaves an arena the builder built,
fails at most for want of ids, and returns what `Q` allows. -/
def Spec (V : NodeKind → Prop) (m : ArenaM α) (s : Arena) (Q : α → Arena → Prop) : Prop :=
  Grow.Spec (fun _ => True) (Built V) Arena.UsedUp m s Q

theorem Spec.bind {m : ArenaM α} {f : α → ArenaM β} {P : α → Arena → Prop} {Q : β → Arena → Prop}
    (hm : Spec V m s P) (hf : ∀ a s', s ≤ s' → Built V s' → P a s' → Spec V (f a) s' Q) :
    Spec V (m >>= f) s Q := by
  refine Grow.Spec.bind (fun _ _ => trivial) hm ?_
  intro a s' hle hp hs'
  exact hf a s' hle hs' hp hs'

theorem spec_pure {a : α} {Q : α → Arena → Prop} (h : Q a s) : Spec V (pure a : ArenaM α) s Q :=
  Grow.spec_pure h

/-- A read that succeeds disappears from the goal. -/
theorem spec_read {f : Arena → Result α} {g : α → ArenaM β} {Q : β → Arena → Prop} {a : α}
    (hf : f s = ok a) (hg : Spec V (g a) s Q) : Spec V (Grow.read f >>= g) s Q := by
  apply Grow.spec_read
  · rw [hf]
    exact safe_ok a
  · intro e he
    rw [hf] at he
    cases he
  · intro b hb
    rw [hf] at hb
    exact Outcome.ok.inj hb ▸ hg

theorem Spec.mono {m : ArenaM α} {P Q : α → Arena → Prop} (h : Spec V m s P)
    (hpq : ∀ a s', s ≤ s' → Built V s' → P a s' → Q a s') : Spec V m s Q :=
  Grow.Spec.mono h hpq

theorem Spec.intro {m : ArenaM α} {Q : α → Arena → Prop} (h : Built V s → Spec V m s Q) :
    Spec V m s Q := by
  intro hs
  exact h hs hs

/-- Facts about one run, each for its own index, hold together. -/
theorem Spec.all {ι : Type} [Nonempty ι] {m : ArenaM α} {Q : ι → α → Arena → Prop}
    (h : ∀ i, Spec V m s (Q i)) : Spec V m s fun a s' => ∀ i, Q i a s' := by
  intro hs hd
  have hw := fun i => h i hs hd
  revert hw
  cases m.run s with
  | mk o s' =>
    intro hw
    obtain ⟨i₀⟩ := ‹Nonempty ι›
    cases o with
    | ok a => exact ⟨(hw i₀).1, fun i => (hw i).2⟩
    | err e => exact hw i₀
    | panic => exact hw i₀

/-- Read a specification back as what a run can do. -/
theorem Spec.cases {m : ArenaM α} {Q : α → Arena → Prop} (h : Spec V m s Q) (hs : Built V s) :
    (∃ a s', m.run s = (ok a, s') ∧ s ≤ s' ∧ Built V s' ∧ Q a s') ∨
      ∃ s', m.run s = (err Arena.full, s') ∧ s ≤ s' ∧ Built V s' ∧ s'.nodes.length = 2 ^ 32 := by
  have hw := h hs trivial
  have hle := m.grows s
  revert hw hle
  cases m.run s with
  | mk o s' =>
    intro hw hle
    cases o with
    | ok a => exact .inl ⟨a, s', rfl, hle, hw.1, hw.2⟩
    | err e =>
      obtain ⟨⟨rfl, hlen⟩, hb⟩ := hw
      exact .inr ⟨s', rfl, hle, hb, hlen⟩
    | panic => exact absurd hw id

/-- `add` returns a term with the node that was asked for. -/
theorem spec_add {k : NodeKind} {σ : TermSort} (hσ : Arena.SortOk σ) (hk : k.HasSort s.sortAt σ)
    (hc : k.Canonical V s.kindAt) :
    Spec V (Arena.add k σ) s fun t s' => s'.nodes[t]? = some ⟨k, σ⟩ := by
  intro hs
  rcases Arena.add_cases hs.inv hσ hk with ⟨t, hrun, ht⟩ | ⟨-, hrun, hinv⟩ | ⟨hlen, hrun⟩
  · exact Grow.wp_of_run hrun fun _ => ⟨hs, ht⟩
  · refine Grow.wp_of_run hrun fun _ => ⟨hs.snoc hinv hc, ?_⟩
    simp
  · intro _
    rw [hrun]
    exact ⟨⟨rfl, hlen⟩, hs⟩

variable {ρ : Env} {a b : TermId} {w : Nat} {x y : BitVec w} {k : NodeKind}

theorem Spec.unaryNode {f : ∀ {w : Nat}, BitVec w → BitVec w} (ha : s.Denotes ρ a x)
    (hsort : ∀ {srt w}, srt a = some (.bv w) → k.HasSort srt (.bv w))
    (hsem : ∀ {ρ id look}, k.sem ρ id look = Value.map f (look a))
    (hc : k.Canonical V s.kindAt) :
    Spec V (Arena.add k (.bv w)) s fun t s' => s'.Denotes ρ t (f x) := by
  refine Spec.intro fun hs => ?_
  refine (spec_add (hs.inv.denotes_sortOk ha) (hsort ha.sort) hc).mono ?_
  intro t s' hle hs' hn
  refine hs'.inv.denotes hn ?_
  rw [hsem, (ha.mono hle).value, Value.map_bv]

theorem Spec.binaryNode {f : ∀ {w : Nat}, BitVec w → BitVec w → BitVec w} (ha : s.Denotes ρ a x)
    (hb : s.Denotes ρ b y)
    (hsort : ∀ {srt w}, srt a = some (.bv w) → srt b = some (.bv w) → k.HasSort srt (.bv w))
    (hsem : ∀ {ρ id look}, k.sem ρ id look = Value.map₂ f (look a) (look b))
    (hc : k.Canonical V s.kindAt) :
    Spec V (Arena.add k (.bv w)) s fun t s' => s'.Denotes ρ t (f x y) := by
  refine Spec.intro fun hs => ?_
  refine (spec_add (hs.inv.denotes_sortOk ha) (hsort ha.sort hb.sort) hc).mono ?_
  intro t s' hle hs' hn
  refine hs'.inv.denotes hn ?_
  rw [hsem, (ha.mono hle).value, (hb.mono hle).value, Value.map₂_bv]

end Builder
end Qfbv
end SmtServer
