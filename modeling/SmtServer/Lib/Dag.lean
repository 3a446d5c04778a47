import Mathlib.Data.List.GetD
import Mathlib.Data.List.Induction

/-!
# `Dag` — the value of every node of an append-only table

A table of nodes in which a node refers only to earlier rows is evaluated in one forward
pass: the value of row `i` is a function of the node and of the values already computed. The
pass itself needs no such order — a reference that is not an earlier row reads the default —
so it is a total function, and the order is a hypothesis (`Ordered`) of the equation that
makes it a semantics (`value_eq`), not of its definition.

Two facts carry every development on top: appending rows changes no earlier value
(`value_extend`), and the equation has exactly one solution (`value_unique`).
-/

namespace Lib
namespace Dag

variable {N V : Type}

/-- The values of all rows, first to last; `f i n look` is the value of node `n` at row `i`
given the values of other rows. -/
def values (f : Nat → N → (Nat → V) → V) (d : V) (nodes : List N) : List V :=
  nodes.foldl (fun vs n => vs ++ [f vs.length n fun j => vs.getD j d]) []

/-- The value of row `i`; the default where there is no such row. -/
def value (f : Nat → N → (Nat → V) → V) (d : V) (nodes : List N) (i : Nat) : V :=
  (values f d nodes).getD i d

variable {f : Nat → N → (Nat → V) → V} {d : V}

theorem values_snoc (nodes : List N) (n : N) :
    values f d (nodes ++ [n]) =
      values f d nodes ++ [f (values f d nodes).length n (value f d nodes)] := by
  simp only [values, List.foldl_append, List.foldl_cons, List.foldl_nil]
  rfl

@[simp] theorem length_values (nodes : List N) : (values f d nodes).length = nodes.length := by
  induction nodes using List.reverseRecOn with
  | nil => rfl
  | append_singleton xs x ih => simp [values_snoc, ih]

theorem values_append (xs ys : List N) : values f d xs <+: values f d (xs ++ ys) := by
  induction ys using List.reverseRecOn with
  | nil => simp
  | append_singleton ys y ih =>
    rw [← List.append_assoc, values_snoc]
    exact ih.trans (List.prefix_append _ _)

/-- Appending rows leaves the value of every existing row as it was. -/
theorem value_append {xs ys : List N} {i : Nat} (h : i < xs.length) :
    value f d (xs ++ ys) i = value f d xs i := by
  obtain ⟨t, ht⟩ := values_append (f := f) (d := d) xs ys
  rw [value, value, ← ht, List.getD_append _ _ _ _ (by simpa using h)]

theorem value_extend {xs zs : List N} (hp : xs <+: zs) {i : Nat} (h : i < xs.length) :
    value f d zs i = value f d xs i := by
  obtain ⟨ys, rfl⟩ := hp
  exact value_append h

theorem value_of_length_le {xs : List N} {i : Nat} (h : xs.length ≤ i) : value f d xs i = d := by
  rw [value, List.getD_eq_default _ _ (by simpa using h)]

theorem value_snoc_self (nodes : List N) (n : N) :
    value f d (nodes ++ [n]) nodes.length = f nodes.length n (value f d nodes) := by
  rw [value, values_snoc, List.getD_append_right _ _ _ _ (by simp)]
  simp

/-- The value of a row, from the rows before it. -/
theorem value_take {nodes : List N} {i : Nat} {n : N} (h : nodes[i]? = some n) :
    value f d nodes i = f i n (value f d (nodes.take i)) := by
  obtain ⟨hi, rfl⟩ := List.getElem?_eq_some_iff.mp h
  have hsplit : nodes = nodes.take i ++ [nodes[i]] ++ nodes.drop (i + 1) := by
    rw [List.take_append_getElem, List.take_append_drop]
  have hlen : (nodes.take i).length = i := by simp [Nat.le_of_lt hi]
  conv_lhs => rw [hsplit]
  rw [value_append (by simp; omega)]
  have := value_snoc_self (f := f) (d := d) (nodes.take i) nodes[i]
  rwa [hlen] at this

/-- A reference list `deps` covers `f` at a node: only those rows are looked at. -/
def Local (f : Nat → N → (Nat → V) → V) (deps : N → List Nat) : Prop :=
  ∀ i n {g h : Nat → V}, (∀ j ∈ deps n, g j = h j) → f i n g = f i n h

/-- Every node refers to earlier rows only. -/
def Ordered (deps : N → List Nat) (nodes : List N) : Prop :=
  ∀ i n, nodes[i]? = some n → ∀ j ∈ deps n, j < i

variable {deps : N → List Nat}

theorem Ordered.shrink {xs zs : List N} (h : Ordered deps zs) (hp : xs <+: zs) :
    Ordered deps xs := by
  obtain ⟨ys, rfl⟩ := hp
  intro i n hn
  refine h i n ?_
  rw [List.getElem?_append_left (List.getElem?_eq_some_iff.mp hn).1, hn]

theorem Ordered.snoc {xs : List N} {n : N} (h : Ordered deps xs)
    (hn : ∀ j ∈ deps n, j < xs.length) : Ordered deps (xs ++ [n]) := by
  intro i m hm
  by_cases hi : i < xs.length
  · rw [List.getElem?_append_left hi] at hm
    exact h i m hm
  · rw [List.getElem?_append_right (by omega)] at hm
    obtain ⟨h0, rfl⟩ := List.getElem?_eq_some_iff.mp hm
    simp only [List.length_singleton, Nat.lt_one_iff] at h0
    have : i = xs.length := by omega
    subst this
    simpa using hn

/-- **The defining equation.** In an ordered table the value of a row is `f` of the values of
the rows it refers to, read in the *same* table. -/
theorem value_eq (hf : Local f deps) {nodes : List N} (ho : Ordered deps nodes) {i : Nat}
    {n : N} (h : nodes[i]? = some n) : value f d nodes i = f i n (value f d nodes) := by
  rw [value_take h]
  refine hf i n fun j hj => ?_
  have hi := (List.getElem?_eq_some_iff.mp h).1
  have hji := ho i n h j hj
  have hp : nodes.take i <+: nodes := List.take_prefix i nodes
  exact (value_extend hp (by simp; omega)).symm

/-- The equation has one solution on the rows of the table. -/
theorem value_unique (hf : Local f deps) {nodes : List N} (ho : Ordered deps nodes)
    {g : Nat → V} (hg : ∀ i n, nodes[i]? = some n → g i = f i n g) {i : Nat}
    (hi : i < nodes.length) : g i = value f d nodes i := by
  induction i using Nat.strongRecOn with
  | ind i ih =>
    have hn : nodes[i]? = some nodes[i] := List.getElem?_eq_getElem hi
    rw [hg i _ hn, value_eq hf ho hn]
    refine hf i _ fun j hj => ih j (ho i _ hn j hj) ?_
    exact Nat.lt_trans (ho i _ hn j hj) hi

/-- Two valuation functions that agree on a set of rows closed under reference give those
rows the same values. -/
theorem value_congr {f' : Nat → N → (Nat → V) → V} (hf : Local f deps) (hf' : Local f' deps)
    {nodes : List N} (ho : Ordered deps nodes) {live : Nat → Prop}
    (hlive : ∀ i n, nodes[i]? = some n → live i →
      (∀ j ∈ deps n, live j) ∧ ∀ g, f i n g = f' i n g) {i : Nat} (hi : live i) :
    value f d nodes i = value f' d nodes i := by
  induction i using Nat.strongRecOn with
  | ind i ih =>
    by_cases hlt : i < nodes.length
    · have hn : nodes[i]? = some nodes[i] := List.getElem?_eq_getElem hlt
      obtain ⟨hdeps, hff⟩ := hlive i _ hn hi
      rw [value_eq hf ho hn, value_eq hf' ho hn, ← hff]
      exact hf i _ fun j hj => ih j (ho i _ hn j hj) (hdeps j hj)
    · rw [value_of_length_le (by omega), value_of_length_le (by omega)]

/-- **Relocation.** A second table that holds, at `φ i`, a node which means what node `i` means
once references are read through `φ`, gives `φ i` the value of `i`. Only a set of rows closed
under reference need be relocated. -/
theorem value_relocate {M : Type} {f' : Nat → M → (Nat → V) → V} {deps' : M → List Nat}
    {nodes : List N} {nodes' : List M} (hf : Local f deps) (hf' : Local f' deps')
    (ho : Ordered deps nodes) (ho' : Ordered deps' nodes') {live : Nat → Prop} {φ : Nat → Nat}
    (hnode : ∀ i n, nodes[i]? = some n → live i → (∀ j ∈ deps n, live j) ∧
      ∃ n', nodes'[φ i]? = some n' ∧
        ∀ g g' : Nat → V, (∀ j ∈ deps n, g' (φ j) = g j) → f' (φ i) n' g' = f i n g)
    {i : Nat} (hlt : i < nodes.length) (hi : live i) :
    value f' d nodes' (φ i) = value f d nodes i := by
  induction i using Nat.strongRecOn with
  | ind i ih =>
    have hn : nodes[i]? = some nodes[i] := List.getElem?_eq_getElem hlt
    obtain ⟨hdeps, n', hn', hsem⟩ := hnode i _ hn hi
    rw [value_eq hf ho hn, value_eq hf' ho' hn']
    apply hsem
    intro j hj
    have hji := ho i _ hn j hj
    exact ih j hji (Nat.lt_trans hji hlt) (hdeps j hj)

end Dag
end Lib
